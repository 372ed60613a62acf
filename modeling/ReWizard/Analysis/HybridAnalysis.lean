import ReWizard.Analysis.StaticControlFlowRebuilder

/-!
# Targets from a trace

`HybridAnalysisPass`: the indirect calls and jumps of the marked functions are resolved with the
records of an execution trace, opaque predicates that the trace has more than once are withdrawn,
and the static analysis goes on from the new targets.
-/

namespace ReWizard

structure MemoryAccess where
  address : Nat := 0
  value : Nat := 0
  isWrite : Bool := false

/-- A record of the trace. The map of registers is only ever looked up. -/
structure TraceRecord where
  pc : Nat := 0
  registers : ZydisRegister → Option Nat
  memoryAccesses : List MemoryAccess := []

/-- `GetRecordsForPC`. -/
def getRecordsForPC (trace : List TraceRecord) (pc : Nat) : List TraceRecord :=
  trace.filter fun r => decide (r.pc = pc)

/-- `ResolveIndirectTarget`: 0 when the record does not tell. -/
def resolveIndirectTarget (insn : ExtendedInstruction) (record : TraceRecord) : Nat :=
  if insn.instruction.mnemonic ≠ .call ∧ insn.instruction.mnemonic ≠ .jmp then 0
  else
    match (insn.instruction.op 0).value with
    | .register reg => (record.registers reg).getD 0
    | .memory mem =>
      let lookup (reg : ZydisRegister) : Nat :=
        if reg = .none then 0 else (record.registers reg).getD 0
      let addr := addrAdd (addrAdd (lookup mem.base) (lookup mem.index)) mem.disp.toNat
      match record.memoryAccesses.find? fun ma => decide (ma.address = addr) && !ma.isWrite with
      | none => 0
      | some ma => ma.value
    | _ => 0

/-! ## The indirect instructions of a function -/

/-- State of the walk of `GetIndirectInstructions`: the blocks, which a lookup may split, the
instructions so far, the block starts expanded and the queue. -/
structure IndirectWalk where
  blocks : List BasicBlock
  instructions : List ExtendedInstruction
  visited : List Nat
  work : List Nat

/-- One successor of a block: look it up, and queue its block unless it was expanded. -/
def queueSuccessor (w : IndirectWalk) (succ : Nat) : IndirectWalk :=
  let r := getBasicBlockForAddress w.blocks succ
  let w := { w with blocks := r.blocks }
  match r.index with
  | none => w
  | some k =>
    match w.blocks[k]? with
    | none => w
    | some b => if b.startAddress ∈ w.visited then w else { w with work := w.work ++ [k] }

/-- One block of the queue. After normalisation no lookup splits a block; were a block split at one
of its own successors, the walk would go on with those it had. -/
def indirectStep (m : Module) (w : IndirectWalk) : Loop.Out IndirectWalk :=
  match w.work with
  | [] => .done w
  | k :: rest =>
    let w := { w with work := rest }
    match w.blocks[k]? with
    | none => .next w
    | some b =>
      if b.startAddress ∈ w.visited then .next w
      else
        let w :=
          { w with
            visited := b.startAddress :: w.visited
            instructions := w.instructions ++ (m.blockInsns b).filter (·.isIndirect) }
        .next (b.successors.foldl queueSuccessor w)

/-- A bound on the passes: a block start is expanded once, and every start is one of the blocks' or
a successor. -/
def indirectFuel (blocks : List BasicBlock) : Nat :=
  let edges := (blocks.map fun b => b.successors.length).sum
  (blocks.length + edges) * (edges + 1) + 2

/-- `GetIndirectInstructions`, with the blocks that it leaves. -/
def getIndirectInstructions (m : Module) (f : Function) : List ExtendedInstruction × Function :=
  let r := getBasicBlockForAddress f.basicBlocks f.startAddress
  match r.index with
  | none => ([], f)
  | some k =>
    let w := Loop.exec (indirectStep m) (indirectFuel r.blocks) ⟨r.blocks, [], [], [k]⟩
    (w.instructions, { f with basicBlocks := w.blocks })

/-! ## Functions -/

/-- `ProcessOpaquePredicates`: a branch that the trace has more than once is not opaque. -/
def Function.processOpaquePredicates (f : Function) (trace : List TraceRecord) : Function :=
  if f.hasOpaquePredicates then
    let disproven :=
      f.opaquePredicateAddresses.toList.filter fun a => decide (1 < (getRecordsForPC trace a).length)
    let addresses := disproven.foldl OrdSet.erase f.opaquePredicateAddresses
    { f with
      opaquePredicateAddresses := addresses
      hasOpaquePredicates := if addresses.toList = [] then false else f.hasOpaquePredicates }
  else f

/-- What goes through the functions: the function at hand and the targets so far. -/
structure ResolveState where
  function : Function
  resolvedTargets : OrdSet Nat

def resolveRecord (insn : ExtendedInstruction) (s : ResolveState) (record : TraceRecord) :
    ResolveState :=
  let target := resolveIndirectTarget insn record
  if target ≠ 0 then
    ⟨s.function.addCallSite insn.address target, s.resolvedTargets.insert target⟩
  else s

/-- The loop body of `Run` for one function. -/
def resolveFunction (m : Module) (trace : List TraceRecord) (f : Function)
    (resolvedTargets : OrdSet Nat) : ResolveState :=
  if f.markedForHybridAnalysis then
    let (indirects, f) := getIndirectInstructions m f
    let s := indirects.foldl (fun s insn =>
      (getRecordsForPC trace insn.address).foldl (resolveRecord insn) s) ⟨f, resolvedTargets⟩
    ⟨{ s.function.processOpaquePredicates trace with hybridVerified := true }, s.resolvedTargets⟩
  else ⟨f, resolvedTargets⟩

/-- The loop of `Run` over the functions: the functions and the targets found. -/
def resolveFunctions (m : Module) (trace : List TraceRecord) : List Function × OrdSet Nat :=
  m.functions.foldl (fun (done, targets) f =>
    let s := resolveFunction m trace f targets
    (done ++ [s.function], s.resolvedTargets)) ([], OrdSet.empty)

/-- A pass of that loop. -/
def resolveStep (m : Module) (trace : List TraceRecord) (r : List Function × OrdSet Nat)
    (f : Function) : List Function × OrdSet Nat :=
  (r.1 ++ [(resolveFunction m trace f r.2).function],
    (resolveFunction m trace f r.2).resolvedTargets)

theorem resolveFunctions_foldl (m : Module) (trace : List TraceRecord) :
    resolveFunctions m trace = m.functions.foldl (resolveStep m trace) ([], OrdSet.empty) := rfl

/-- Go on from one target. -/
def analyzeTarget (t : Target) (ctx : AnalysisContext) (target : Nat) : AnalysisContext :=
  if t.loader.isWithinMapping target ∧ target ∉ ctx.visited ∧
      (ctx.module.getFunctionForAddress target).isNone then reAnalyzeFrom t ctx target
  else ctx

/-- `HybridAnalysisPass::Run`, with the records of the trace, if there is one. -/
def hybridAnalysis (t : Target) (trace : Option (List TraceRecord)) (ctx : AnalysisContext) :
    AnalysisContext :=
  match trace with
  | none => ctx
  | some trace =>
    let (functions, targets) := resolveFunctions ctx.module trace
    targets.toList.foldl (analyzeTarget t)
      { ctx with module := { ctx.module with functions := functions } }

end ReWizard
