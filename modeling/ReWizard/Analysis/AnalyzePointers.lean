import ReWizard.Analysis.StaticControlFlowRebuilder

/-!
# The pointers of `AnalyzeFunction`

The pass once more, with the two pointers of `AnalyzeFunction` that need not point to anything: `bb`
is null while no block is open, and `lastInsn` points to the record of the last instruction. That
record belongs to the module, unless the module had one of the address already: then it belongs to
a temporary, which is gone when the next pass begins. Reading through a pointer that points to
nothing is a fault (`none`).
-/

namespace ReWizard

/-- `ExtendedInstruction*`, as the next pass finds it. -/
inductive InsnPtr
  | null
  | owned (address : Nat)
  | freed
  deriving DecidableEq, Repr

/-- `lastInsn->Address()`. -/
def InsnPtr.address (m : Module) : InsnPtr → Option Nat
  | .null => none
  | .owned a => (m.getInstruction a).map (·.address)
  | .freed => none

/-- The locals of `AnalyzeFunction`, and the pointer in place of the last instruction. -/
structure PtrState where
  state : AnalyzeState
  lastInsn : InsnPtr := .null

section

variable (t : Target)

/-- `if (!bb) bb = function->CreateBasicBlock(pc)`. -/
def openedBlock (s : AnalyzeState) : Option BasicBlock :=
  match s.bb with
  | none => some (BasicBlock.create s.pc)
  | some bb => some bb

/-- `decodeInsn`. The handlers and the return read the block through `bb`. -/
def decodeInsnPtr (insn : ExtendedInstruction) (c : PtrState) : Option (Loop.Out PtrState) :=
  let s := c.state
  let bb := openedBlock s
  let inserted := !s.module.instructions.contains insn.address
  if s.localInsnCount = 0 ∧ insn.instruction.category = .uncondBr then
    bb.map fun bb =>
      .done { c with state := (handleTrampoline t insn inserted bb (s.enter insn)).countInsn }
  else
    let s' := (s.enter insn).countInsn.countStack insn.instruction
    let lastInsn : InsnPtr := if inserted then .owned insn.address else .freed
    match insn.instruction.category with
    | .call => bb.map fun bb => .next ⟨(handleCall t insn inserted bb s').advance insn, lastInsn⟩
    | .condBr => bb.map fun bb => .next ⟨(handleBranch t insn inserted bb s').advance insn, lastInsn⟩
    | .uncondBr => bb.map fun bb => .done { c with state := handleBranch t insn inserted bb s' }
    | .ret =>
      bb.map fun bb =>
        .done { c with state := (s'.closeBlock bb insn.next insn.address).addBasicBlock }
    | .other => some (.next ⟨{ s' with bb := bb }.advance insn, lastInsn⟩)

/-- `decodeStep`. A block that ends before bytes that do not decode gets the address of the last
instruction. -/
def decodeStepPtr (c : PtrState) : Option (Loop.Out PtrState) :=
  let s := c.state
  if s.pc ∈ s.visited then some (.done c)
  else if s.pc < t.loader.currentImageBase ∨ t.loader.imageEnd ≤ s.pc then some (.done c)
  else
    match t.disassemble s.pc with
    | none =>
      match s.bb with
      | none => some (.done c)
      | some bb =>
        (c.lastInsn.address s.module).map fun last =>
          .done { c with state := s.closeBlock bb s.pc last }
    | some insn => decodeInsnPtr t insn c

/-- `decodeFrom`. -/
def decodeFromPtr (pc : Nat) (c : PtrState) : Option PtrState :=
  (Loop.runChecked (decodeStepPtr t) (t.loader.mappedSize + 1)
    { c with state := { c.state with pc := pc, bb := none } }).map
      fun c => { c with state := c.state.addBasicBlock }

/-- `workStep`. -/
def workStepPtr (c : PtrState) : Option (Loop.Out PtrState) :=
  match c.state.work with
  | [] => some (.done c)
  | pc :: rest =>
    let c := { c with state := { c.state with work := rest } }
    if pc ∈ c.state.visited then some (.next c) else (decodeFromPtr t pc c).map .next

/-- `analyzeFunction`. -/
def analyzeFunctionPtr (ctx : AnalysisContext) (function : Function) (start : Nat)
    (functionWork : List Nat) : Option AnalyzeState :=
  (Loop.runChecked (workStepPtr t) (t.loader.mappedSize + 2)
    ⟨analyzeInit ctx function start functionWork, .null⟩).map
      fun c => c.state.mapFunction Function.normalizeBasicBlocks

/-- `discoverFunction`. -/
def discoverFunctionPtr (mark : AnalyzeState → Bool) (pc : Nat) (s : ExploreState) :
    Option ExploreState :=
  (analyzeFunctionPtr t s.context (newFunction pc) pc s.functionWork).map fun r =>
    let fn := if mark r then { r.function with markedForHybridAnalysis := true } else r.function
    { context := { r.context with module := r.context.module.addFunction fn }
      functionWork := enqueueCallTargets t r.context fn r.functionWork }

/-- `exploreStep`. -/
def exploreStepPtr (bypassHeur : Bool) (s : ExploreState) : Option (Loop.Out ExploreState) :=
  match s.functionWork with
  | [] => some (.done s)
  | pc :: rest =>
    let s := { s with functionWork := rest }
    if pc ∈ s.context.visited then some (.next s)
    else if (s.context.module.getFunctionForAddress pc).isSome then some (.next s)
    else if ¬ t.loader.isExecutableAddress pc then some (.next s)
    else (discoverFunctionPtr t (marksForHybrid bypassHeur) pc s).map .next

/-- `drainStep`. -/
def drainStepPtr (s : ExploreState) : Option (Loop.Out ExploreState) :=
  match s.functionWork with
  | [] => some (.done s)
  | pc :: rest =>
    let s := { s with functionWork := rest }
    if pc ∈ s.context.visited then some (.next s)
    else if (s.context.module.getFunctionForAddress pc).isSome then some (.next s)
    else (discoverFunctionPtr t (fun _ => false) pc s).map .next

/-- `linearSweepFallback`. -/
def linearSweepFallbackPtr (s : ExploreState) : Option ExploreState :=
  let queue := t.loader.executableSections.foldl (sweepRange t s.context) s.functionWork
  let s := { s with functionWork := queue }
  Loop.runChecked (drainStepPtr t) (exploreFuel t s) s

/-- `staticPathExplorer`. -/
def staticPathExplorerPtr (ctx : AnalysisContext) (reAnalyzeAll : Bool) (fromAddress : Nat)
    (bypassHeur : Bool) : Option AnalysisContext :=
  let ctx :=
    if reAnalyzeAll then { ctx with module := ctx.module.clearFunctions, visited := ∅ } else ctx
  let queue :=
    if reAnalyzeAll ∨ ctx.module.functions = [] then (collectEntryPoints t ctx).toList
    else if fromAddress ≠ 0 then [fromAddress]
    else []
  let s : ExploreState := ⟨ctx, queue⟩
  (Loop.runChecked (exploreStepPtr t bypassHeur) (exploreFuel t s) s).bind fun s =>
    (linearSweepFallbackPtr t s).map (·.context)

end

end ReWizard
