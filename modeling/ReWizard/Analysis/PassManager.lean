import Mathlib.Data.String.Basic
import Mathlib.Logic.Function.Basic
import ReWizard.Lib.Cycle
import ReWizard.Lib.Loop
import ReWizard.Lib.OrdMap

/-!
# The pass manager

`AnalysisPassManager`: the registered passes (`PassMap`, filed by name), their order
(`topologicalSort`, Kahn's algorithm over in-degree counters) and the driver (`runAll`). A pass is a
`BaseAnalysisPass` over the type `σ` of analysis contexts; a pointer to a registered pass is the name
it is filed under. The iteration order of the `unordered_map` of in-degrees is the parameter
`HashOrder`: any order of the registered names.
-/

namespace ReWizard

/-- The three stages of a pass. -/
inductive Stage
  | preRun
  | run
  | postRun
  deriving DecidableEq, Repr

/-- `BaseAnalysisPass`: what a pass declares and its three stages. -/
structure BaseAnalysisPass (σ : Type _) where
  dependencies : List String
  preRun : σ → Bool × σ
  run : σ → Bool × σ
  postRun : σ → Bool × σ

/-- `PassMap`: the registered passes by name, iterated in ascending order of the names. -/
abbrev PassMap (σ : Type _) := OrdMap String (BaseAnalysisPass σ)

variable {σ : Type _}

/-- `p` declares the registered pass `d` as a dependency. -/
def PassMap.DependsOn (m : PassMap σ) (p d : String) : Prop :=
  ∃ pass, m.get? p = some pass ∧ d ∈ pass.dependencies ∧ d ∈ m.keys

/-- An iteration order of a hash map that has the registered names as its keys. -/
abbrev HashOrder (m : PassMap σ) := {names : List String // names.Perm m.keys}

/-! ## `TopologicalSort` -/

/-- The two hash maps of the dependency graph; a missing key reads as the default value. -/
structure PassGraph where
  adj : String → List String
  inDegree : String → Int

/-- One declared dependency `dep` of the pass `name`: an unknown name is skipped. -/
def addDependency (m : PassMap σ) (name : String) (g : PassGraph) (dep : String) : PassGraph :=
  if m.contains dep then
    { adj := Function.update g.adj dep (g.adj dep ++ [name])
      inDegree := Function.update g.inDegree name (g.inDegree name + 1) }
  else g

def buildGraph (m : PassMap σ) : PassGraph :=
  m.toList.foldl (fun g e => e.2.dependencies.foldl (addDependency m e.1) g) ⟨fun _ => [], fun _ => 0⟩

/-- The state of the sorting loop. -/
structure SortState where
  q : List String
  inDegree : String → Int
  result : List String

/-- One dependent of the pass taken from the queue. -/
def visitDependent (s : SortState) (dependent : String) : SortState :=
  let deg := Function.update s.inDegree dependent (s.inDegree dependent - 1)
  if deg dependent = 0 then { s with q := s.q ++ [dependent], inDegree := deg }
  else { s with inDegree := deg }

@[simp] theorem visitDependent_result (s : SortState) (a : String) :
    (visitDependent s a).result = s.result := by
  unfold visitDependent
  dsimp only
  split <;> rfl

@[simp] theorem visitDependent_inDegree (s : SortState) (a : String) :
    (visitDependent s a).inDegree = Function.update s.inDegree a (s.inDegree a - 1) := by
  unfold visitDependent
  dsimp only
  split <;> rfl

theorem visitDependent_q (s : SortState) (a : String) :
    (visitDependent s a).q = if s.inDegree a - 1 = 0 then s.q ++ [a] else s.q := by
  unfold visitDependent
  dsimp only
  rw [Function.update_self]
  split <;> rfl

/-- One pass through `while (!q.empty())`. -/
def sortStep (adj : String → List String) (s : SortState) : Loop.Out SortState :=
  match s.q with
  | [] => .done s
  | name :: q => .next ((adj name).foldl visitDependent { s with q, result := s.result ++ [name] })

def sortInit (m : PassMap σ) (order : HashOrder m) : SortState :=
  let deg := (buildGraph m).inDegree
  { q := order.1.filter fun name => decide (deg name = 0), inDegree := deg, result := [] }

/-- `AnalysisPassManager::TopologicalSort`: every registered pass enters the queue at most once. -/
def topologicalSort (m : PassMap σ) (order : HashOrder m) : List String :=
  (Loop.exec (sortStep (buildGraph m).adj) (m.keys.length + 1) (sortInit m order)).result

/-! ## `RunAll` -/

/-- A call of a stage of a pass, with what it returned. -/
structure StageCall where
  pass : String
  stage : Stage
  ok : Bool
  deriving DecidableEq, Repr

/-- What `RunAll` leaves behind: its result, the context and the stages it called, in order. -/
structure RunResult (σ : Type _) where
  ok : Bool
  ctx : σ
  log : List StageCall

/-- The loop of `RunAll` over the sorted passes. -/
def runPasses (m : PassMap σ) : List String → RunResult σ → RunResult σ
  | [], r => r
  | name :: rest, r =>
    match m.get? name with
    | none => runPasses m rest r
    | some pass =>
      let pre := pass.preRun r.ctx
      let log := r.log ++ [⟨name, .preRun, pre.1⟩]
      if !pre.1 then ⟨false, pre.2, log⟩
      else
        let run := pass.run pre.2
        let log := log ++ [⟨name, .run, run.1⟩]
        if !run.1 then ⟨false, run.2, log⟩
        else
          let post := pass.postRun run.2
          let log := log ++ [⟨name, .postRun, post.1⟩]
          if !post.1 then ⟨false, post.2, log⟩
          else runPasses m rest ⟨true, post.2, log⟩

/-- `AnalysisPassManager::RunAll`. -/
def runAll (m : PassMap σ) (order : HashOrder m) (ctx : σ) : RunResult σ :=
  runPasses m (topologicalSort m order) ⟨false, ctx, []⟩

end ReWizard
