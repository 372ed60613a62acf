import ReWizard.Analysis.Module

/-!
# Removing dead branches

`OpaquePredicatePass`: a block with a branch that was found to go one way only loses the successor
of the other way.
-/

namespace ReWizard

/-- What goes through the recorded results of a function. -/
structure RemovalState where
  blocks : List BasicBlock
  modified : Bool

/-- One recorded result. The branch target is the first successor of its block and the fall-through
the second. -/
def removeDeadEdge (s : RemovalState) (result : Nat × Bool) : RemovalState :=
  match resolveBlock s.blocks result.1 with
  | none => s
  | some k =>
    match s.blocks[k]? with
    | none => s
    | some bb =>
      match bb.successors with
      | branchTarget :: fallthrough :: _ =>
        let dead := if result.2 then fallthrough else branchTarget
        ⟨s.blocks.set k (bb.removeSuccessor dead), true⟩
      | _ => s

/-- The loop body of `Run` for one function. -/
def Function.removeOpaquePredicates (f : Function) : Function :=
  if f.hasOpaquePredicates then
    let s := f.opaquePredicateResults.toList.foldl removeDeadEdge ⟨f.basicBlocks, false⟩
    { f with
      basicBlocks := s.blocks
      cfgGraph := if s.modified then buildCFG f.startAddress s.blocks else f.cfgGraph }
  else f

/-- `OpaquePredicatePass::Run`. -/
def opaquePredicate (ctx : AnalysisContext) : AnalysisContext :=
  { ctx with module :=
    { ctx.module with functions := ctx.module.functions.map Function.removeOpaquePredicates } }

end ReWizard
