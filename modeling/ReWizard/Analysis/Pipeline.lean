import ReWizard.Analysis.AbstractInterpretation
import ReWizard.Analysis.DataFlow
import ReWizard.Analysis.HybridAnalysis
import ReWizard.Analysis.ImportAnalysis
import ReWizard.Analysis.OpaquePredicate
import ReWizard.Analysis.PassManager

/-!
# The registered passes

The eight passes that register themselves, with the dependencies that they declare. `IRLiftingPass`
and `ConstantFoldingPass` only write the lifted IR of the blocks, which no other pass reads; the
analysis context here has no IR, and they leave it alone.
-/

namespace ReWizard

/-- A pass whose stages all succeed, and of which only `Run` does something. -/
def analysisPass (dependencies : List String) (run : AnalysisContext → AnalysisContext) :
    BaseAnalysisPass AnalysisContext where
  dependencies := dependencies
  preRun := fun ctx => (true, ctx)
  run := fun ctx => (true, run ctx)
  postRun := fun ctx => (true, ctx)

/-- `Run` of a pass on the analysis context. -/
def passRun (t : Target) (trace : Option (List TraceRecord)) :
    String → AnalysisContext → AnalysisContext
  | "ImportAnalysisPass" => importAnalysis t
  | "StaticControlFlowRebuilder" => rebuildControlFlow t
  | "AbstractInterpretationPass" => abstractInterpretation
  | "DataFlowAnalysisPass" => dataFlowAnalysis
  | "OpaquePredicatePass" => opaquePredicate
  | "HybridAnalysisPass" => hybridAnalysis t trace
  | _ => id

/-- What `Dependencies()` of the registered passes returns. -/
def passDependencies : List (String × List String) :=
  [("AbstractInterpretationPass", ["StaticControlFlowRebuilder"]),
    ("ConstantFoldingPass", ["IRLiftingPass"]),
    ("DataFlowAnalysisPass", ["StaticControlFlowRebuilder"]),
    ("HybridAnalysisPass",
      ["StaticControlFlowRebuilder", "AbstractInterpretationPass", "OpaquePredicatePass"]),
    ("IRLiftingPass", ["StaticControlFlowRebuilder"]),
    ("ImportAnalysisPass", []),
    ("OpaquePredicatePass", ["AbstractInterpretationPass"]),
    ("StaticControlFlowRebuilder", ["ImportAnalysisPass"])]

theorem passDependencies_sorted : passDependencies.Pairwise fun p q => p.1 < q.1 := by
  decide +kernel

/-- The passes that `PassProvider` has after `Init`. -/
def registeredPasses (t : Target) (trace : Option (List TraceRecord)) :
    PassMap AnalysisContext where
  toList := passDependencies.map fun p => (p.1, analysisPass p.2 (passRun t trace p.1))
  sorted := List.pairwise_map.mpr passDependencies_sorted

/-- A step of an analysis: a pass, with the trace that is set, or a re-analysis. -/
inductive AnalysisCall
  | pass (name : String) (trace : Option (List TraceRecord))
  | reAnalyzeFrom (address : Nat)

def AnalysisCall.apply (t : Target) : AnalysisCall → AnalysisContext → AnalysisContext
  | .pass name trace, ctx => passRun t trace name ctx
  | .reAnalyzeFrom address, ctx => ReWizard.reAnalyzeFrom t ctx address

/-- The context after the calls, from the context that `Analyze` starts with. -/
def analyze (t : Target) (calls : List AnalysisCall) : AnalysisContext :=
  calls.foldl (fun ctx call => call.apply t ctx) {}

end ReWizard
