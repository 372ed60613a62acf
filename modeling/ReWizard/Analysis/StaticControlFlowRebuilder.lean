import ReWizard.Analysis.Module

/-!
# Recursive-descent exploration

`StaticControlFlowRebuilder`: decoding a function from its start along fall-through and branch
targets (`analyzeFunction`), the exploration of functions from the entry points
(`staticPathExplorer`) and the linear sweep over what it left (`linearSweepFallback`).

`AnalyzeFunction` has two loops. `decodeStep` is a pass of the inner one, which decodes straight on
and closes blocks at branches; `workStep` is a pass of the outer one, which takes the next branch
target. Every loop is a `Loop.exec` with a bound that the proofs show to be enough. A queue is a
list with its front first.
-/

namespace ReWizard

/-- The locals of `AnalyzeFunction` and what it works on. -/
structure AnalyzeState where
  context : AnalysisContext
  function : Function
  work : List Nat
  functionWork : List Nat
  localInsnCount : Nat := 0
  localStackModCount : Nat := 0
  lastInsn : Option ExtendedInstruction := none
  bb : Option BasicBlock := none
  pc : Nat := 0

/-- The count of stack modifications that one instruction adds. -/
def stackModifications (i : Instruction) : Nat :=
  let stackRegister : OperandValue → Bool
    | .register reg =>
      decide (reg = .gpr64 .rsp ∨ reg = .gpr64 .rbp ∨ reg = .gpr32 .rsp ∨ reg = .gpr32 .rbp)
    | _ => false
  let immediate : OperandValue → Bool
    | .immediate _ => true
    | _ => false
  (if i.mnemonic = .push ∨ i.mnemonic = .pop then 1 else 0) +
    if 2 ≤ i.operandCountVisible ∧ stackRegister (i.op 0).value = true ∧
      immediate (i.op 1).value = true ∧ 32 ≤ (i.op 1).size then 1 else 0

namespace AnalyzeState

def visited (s : AnalyzeState) : Finset Nat := s.context.visited

def module (s : AnalyzeState) : Module := s.context.module

def mapModule (s : AnalyzeState) (f : Module → Module) : AnalyzeState :=
  { s with context := { s.context with module := f s.context.module } }

def mapFunction (s : AnalyzeState) (f : Function → Function) : AnalyzeState :=
  { s with function := f s.function }

/-- Record a call or jump of the instruction at `pc`, as a call site and as a cross-reference. -/
def addCallSite (s : AnalyzeState) (target : Nat) (kind : String) : AnalyzeState :=
  (s.mapFunction fun f => f.addCallSite s.pc target).mapModule fun m => m.addXref s.pc target kind

/-- Close the block: the function ends where its last closed block does. -/
def closeBlock (s : AnalyzeState) (bb : BasicBlock) (endAddress lastInsnAddr : Nat) : AnalyzeState :=
  { s with
    bb := some { bb with endAddress := endAddress, lastInsnAddr := lastInsnAddr }
    function := { s.function with endAddress := endAddress, lastInsnAddr := lastInsnAddr } }

/-- Hand the current block, if there is one, over to the function. -/
def addBasicBlock (s : AnalyzeState) : AnalyzeState :=
  match s.bb with
  | none => s
  | some bb => { s with function := s.function.addBasicBlock bb, bb := none }

/-- The block that the instruction at `pc` belongs to: the current one, or a new one. -/
def currentBlock (s : AnalyzeState) : BasicBlock := s.bb.getD (BasicBlock.create s.pc)

/-- Record the decoded instruction in the module and as visited. -/
def enter (s : AnalyzeState) (insn : ExtendedInstruction) : AnalyzeState :=
  { s with context :=
      { module := s.module.addInstruction insn, visited := insert insn.address s.visited } }

def countInsn (s : AnalyzeState) : AnalyzeState := { s with localInsnCount := s.localInsnCount + 1 }

def countStack (s : AnalyzeState) (i : Instruction) : AnalyzeState :=
  { s with localStackModCount := s.localStackModCount + stackModifications i }

/-- Go on after the instruction. -/
def advance (s : AnalyzeState) (insn : ExtendedInstruction) : AnalyzeState :=
  { s with lastInsn := some insn, pc := insn.next }

end AnalyzeState

/-! ## Calls, branches and trampolines -/

/-- Set `IsIndirect` on the decoded instruction. The module sees that when it took this record,
and not when it had one of the address before. -/
def markIndirect (insn : ExtendedInstruction) (inserted : Bool) (m : Module) : Module :=
  if inserted then
    { m with
      instructions := m.instructions.insert insn.address { insn with isIndirect := true }
      keyed := m.keyed.insert rfl }
  else m

section

variable (t : Target)

/-- `HandleCall`. -/
def handleCall (insn : ExtendedInstruction) (inserted : Bool) (bb : BasicBlock) (s : AnalyzeState) :
    AnalyzeState :=
  let indirect : AnalyzeState :=
    let s := (s.addCallSite insn.indirectValue "call").mapModule (markIndirect insn inserted)
    { s with
      bb := some { bb with containsIndirectCalls := true }
      function := { s.function with containsIndirectCalls := true } }
  match (insn.instruction.op 0).value with
  | .immediate imm =>
    let target := insn.relTarget imm
    let s : AnalyzeState := { s.addCallSite target "call" with bb := some bb }
    if t.loader.isWithinMapping target ∧ target ∉ s.visited ∧
        t.loader.isExecutableAddress target then
      { s with functionWork := s.functionWork ++ [target] }
    else s
  | .memory mem =>
    if mem.base = .rip then
      { s.addCallSite (insn.relTarget mem.disp) "call" with bb := some bb }
    else if mem.base = .none ∧ mem.index = .none then
      { s.addCallSite mem.disp.toNat "call" with bb := some bb }
    else indirect
  | _ => indirect

/-- The part of `HandleBranch` about the branch target. -/
def branchTarget (insn : ExtendedInstruction) (inserted : Bool) (bb : BasicBlock)
    (s : AnalyzeState) : AnalyzeState × BasicBlock :=
  let indirect : AnalyzeState × BasicBlock :=
    let s := (s.addCallSite insn.indirectValue "jump").mapModule (markIndirect insn inserted)
    ({ s with function := { s.function with containsIndirectJumps := true } },
      { bb with containsIndirectJumps := true })
  match (insn.instruction.op 0).value with
  | .immediate imm =>
    let target := insn.relTarget imm
    if t.loader.isWithinMapping target ∧ t.loader.isExecutableAddress target then
      let s' :=
        if insn.instruction.category = .uncondBr then
          if (s.module.getFunctionForAddress target).isSome then s.addCallSite target "jump"
          else if target ∉ s.visited then
            { s.mapModule fun m => m.addXref s.pc target "jump" with
              work := s.work ++ [target]
              functionWork := s.functionWork ++ [target] }
          else s
        else
          { s.mapModule fun m => m.addXref s.pc target "jump" with
            work := if target ∉ s.visited then s.work ++ [target] else s.work }
      (s', bb.addSuccessor target)
    else (s, bb)
  | .register _ => indirect
  | .memory _ => indirect
  | _ => (s, bb)

/-- `HandleBranch`: the block ends here, with the target and the fall-through of a conditional
branch as its successors. -/
def handleBranch (insn : ExtendedInstruction) (inserted : Bool) (bb : BasicBlock)
    (s : AnalyzeState) : AnalyzeState :=
  let (s, bb) := branchTarget t insn inserted bb s
  let (s, bb) :=
    if insn.instruction.category = .condBr then
      (s.mapModule fun m => m.addXref s.pc insn.next "jump", bb.addSuccessor insn.next)
    else (s, bb)
  (s.closeBlock bb insn.next s.pc).addBasicBlock

/-- The part of `HandleTrampoline` about the jump target, which is 0 when it is not direct. -/
def trampolineTarget (insn : ExtendedInstruction) (inserted : Bool) (bb : BasicBlock)
    (s : AnalyzeState) : AnalyzeState × BasicBlock × Nat :=
  let indirect : AnalyzeState × BasicBlock × Nat :=
    let s := s.mapModule (markIndirect insn inserted)
    ({ s with function := { s.function with containsIndirectJumps := true } },
      { bb with containsIndirectJumps := true }, 0)
  match (insn.instruction.op 0).value with
  | .immediate imm =>
    let target := insn.relTarget imm
    (s.mapFunction fun f => f.addCallSite insn.address target, bb, target)
  | .register _ => indirect
  | .memory _ => indirect
  | _ => (s, bb, 0)

/-- `HandleTrampoline` on an unconditional branch: the function is that one jump. -/
def handleTrampoline (insn : ExtendedInstruction) (inserted : Bool) (bb : BasicBlock)
    (s : AnalyzeState) : AnalyzeState :=
  let (s, bb, target) := trampolineTarget insn inserted bb s
  let s := (s.closeBlock bb insn.next insn.address).addBasicBlock
  s.mapFunction fun f =>
    { f with
      name := if t.loader.isWithinMapping target ∧ f.name ≠ "__entrypoint" then "j__" ++ hex target
        else f.name
      isTrampoline := true }

/-! ## Decoding a function -/

/-- What a pass does once the instruction at `pc` is decoded. -/
def decodeInsn (insn : ExtendedInstruction) (s : AnalyzeState) : Loop.Out AnalyzeState :=
  let inserted := !s.module.instructions.contains insn.address
  if s.localInsnCount = 0 ∧ insn.instruction.category = .uncondBr then
    .done (handleTrampoline t insn inserted s.currentBlock (s.enter insn)).countInsn
  else
    let s' := (s.enter insn).countInsn.countStack insn.instruction
    match insn.instruction.category with
    | .call => .next ((handleCall t insn inserted s.currentBlock s').advance insn)
    | .condBr => .next ((handleBranch t insn inserted s.currentBlock s').advance insn)
    | .uncondBr => .done (handleBranch t insn inserted s.currentBlock s')
    | .ret => .done (s'.closeBlock s.currentBlock insn.next insn.address).addBasicBlock
    | .other => .next ({ s' with bb := some s.currentBlock }.advance insn)

/-- A pass of the inner loop of `AnalyzeFunction`. -/
def decodeStep (s : AnalyzeState) : Loop.Out AnalyzeState :=
  if s.pc ∈ s.visited then .done s
  else if s.pc < t.loader.currentImageBase ∨ t.loader.imageEnd ≤ s.pc then .done s
  else
    match t.disassemble s.pc with
    | none =>
      match s.bb with
      | none => .done s
      | some bb => .done (s.closeBlock bb s.pc ((s.lastInsn.map (·.address)).getD 0))
    | some insn => decodeInsn t insn s

/-- The inner loop from `pc` on, and the block it leaves. -/
def decodeFrom (pc : Nat) (s : AnalyzeState) : AnalyzeState :=
  (Loop.exec (decodeStep t) (t.loader.mappedSize + 1)
    { s with pc := pc, bb := none }).addBasicBlock

/-- A pass of the outer loop of `AnalyzeFunction`. -/
def workStep (s : AnalyzeState) : Loop.Out AnalyzeState :=
  match s.work with
  | [] => .done s
  | pc :: rest =>
    let s := { s with work := rest }
    if pc ∈ s.visited then .next s else .next (decodeFrom t pc s)

/-- The state in which `AnalyzeFunction` begins. -/
def analyzeInit (ctx : AnalysisContext) (function : Function) (start : Nat)
    (functionWork : List Nat) : AnalyzeState where
  context := ctx
  function := function.setStart start
  work := [start]
  functionWork := functionWork

/-- Both loops of `AnalyzeFunction`. -/
def analyzeBlocks (ctx : AnalysisContext) (function : Function) (start : Nat)
    (functionWork : List Nat) : AnalyzeState :=
  Loop.exec (workStep t) (t.loader.mappedSize + 2) (analyzeInit ctx function start functionWork)

/-- `AnalyzeFunction`. Its counters are results too. -/
def analyzeFunction (ctx : AnalysisContext) (function : Function) (start : Nat)
    (functionWork : List Nat) : AnalyzeState :=
  (analyzeBlocks t ctx function start functionWork).mapFunction Function.normalizeBasicBlocks

/-! ## Exploring functions -/

/-- What the loops over functions work on. -/
structure ExploreState where
  context : AnalysisContext
  functionWork : List Nat

/-- Enqueue the targets of the function's call sites that no function has. -/
def enqueueCallTargets (ctx : AnalysisContext) (f : Function) (queue : List Nat) : List Nat :=
  f.callSites.toList.foldl (fun queue cs =>
    let dest := (ofLex cs).2
    if dest ≠ 0 ∧ dest ∉ ctx.visited ∧ t.loader.isWithinMapping dest ∧
        (ctx.module.getFunctionForAddress dest).isNone then queue ++ [dest]
    else queue) queue

/-- The function that the analysis of `pc` begins with. -/
def newFunction (pc : Nat) : Function := { (Function.create "").setStart pc with endAddress := pc }

/-- Analyse the function that starts at `pc` and add it to the module. `mark` decides from the
analysed function whether it is marked for hybrid analysis. -/
def discoverFunction (mark : AnalyzeState → Bool) (pc : Nat) (s : ExploreState) : ExploreState :=
  let r := analyzeFunction t s.context (newFunction pc) pc s.functionWork
  let fn := if mark r then { r.function with markedForHybridAnalysis := true } else r.function
  { context := { r.context with module := r.context.module.addFunction fn }
    functionWork := enqueueCallTargets t r.context fn r.functionWork }

/-- The marking rule of `StaticPathExplorer`: what static analysis cannot resolve. -/
def marksForHybrid (bypassHeur : Bool) (r : AnalyzeState) : Bool :=
  bypassHeur || (decide (r.localInsnCount ≠ 0) &&
    (r.function.containsIndirectCalls || r.function.containsIndirectJumps))

/-- A pass of the loop of `StaticPathExplorer`. -/
def exploreStep (bypassHeur : Bool) (s : ExploreState) : Loop.Out ExploreState :=
  match s.functionWork with
  | [] => .done s
  | pc :: rest =>
    let s := { s with functionWork := rest }
    if pc ∈ s.context.visited then .next s
    else if (s.context.module.getFunctionForAddress pc).isSome then .next s
    else if ¬ t.loader.isExecutableAddress pc then .next s
    else .next (discoverFunction t (marksForHybrid bypassHeur) pc s)

/-- A pass of the loop of `LinearSweepFallback` over the candidates. -/
def drainStep (s : ExploreState) : Loop.Out ExploreState :=
  match s.functionWork with
  | [] => .done s
  | pc :: rest =>
    let s := { s with functionWork := rest }
    if pc ∈ s.context.visited then .next s
    else if (s.context.module.getFunctionForAddress pc).isSome then .next s
    else .next (discoverFunction t (fun _ => false) pc s)

/-- A bound on the passes: a pass takes one address, and each newly visited one adds at most two. -/
def exploreFuel (s : ExploreState) : Nat := s.functionWork.length + 2 * t.loader.mappedSize + 1

/-! ## The linear sweep -/

/-- The prologue heuristic: `push rbp`, `mov rbp, rsp` or `sub rsp, imm`. -/
def isPrologue (i : Instruction) : Bool :=
  let isReg (g : Gpr) : OperandValue → Bool
    | .register reg => decide (reg = .gpr64 g ∨ reg = .gpr32 g)
    | _ => false
  let isImm : OperandValue → Bool
    | .immediate _ => true
    | _ => false
  match i.mnemonic with
  | .push => isReg .rbp (i.op 0).value
  | .mov => isReg .rbp (i.op 0).value && isReg .rsp (i.op 1).value
  | .sub => isReg .rsp (i.op 0).value && isImm (i.op 1).value
  | _ => false

structure SweepState where
  addr : Nat
  functionWork : List Nat

/-- A pass of the sweep over one executable range that ends at `stop`. -/
def sweepStep (ctx : AnalysisContext) (stop : Nat) (s : SweepState) : Loop.Out SweepState :=
  if stop ≤ s.addr then .done s
  else if s.addr ∈ ctx.visited then .next { s with addr := addrAdd s.addr 1 }
  else
    match t.disassemble s.addr with
    | none => .next { s with addr := addrAdd s.addr 1 }
    | some insn =>
      .next
        { addr := insn.next
          functionWork :=
            if isPrologue insn.instruction ∧ (ctx.module.getFunctionForAddress s.addr).isNone ∧
                t.loader.isExecutableAddress s.addr then s.functionWork ++ [s.addr]
            else s.functionWork }

def sweepRange (ctx : AnalysisContext) (queue : List Nat) (range : Nat × Nat) : List Nat :=
  (Loop.exec (sweepStep t ctx range.2) (range.2 - range.1 + 1) ⟨range.1, queue⟩).functionWork

/-- `LinearSweepFallback`. -/
def linearSweepFallback (s : ExploreState) : ExploreState :=
  let queue := t.loader.executableSections.foldl (sweepRange t s.context) s.functionWork
  let s := { s with functionWork := queue }
  Loop.exec (drainStep t) (exploreFuel t s) s

/-! ## Entry points -/

/-- `CollectEntryPoints`: the entry point of the file, moved with the image, and the exports. -/
def collectEntryPoints (ctx : AnalysisContext) : OrdSet Nat :=
  let b := t.loader.binary
  let ep :=
    if b.imagebase ≠ t.loader.currentImageBase then
      addrAdd (addrAdd b.entrypoint (addrSpace - b.imagebase % addrSpace)) t.loader.currentImageBase
    else b.entrypoint
  let entries := if t.loader.isExecutableAddress ep then OrdSet.empty.insert ep else OrdSet.empty
  ctx.module.symbolTable.exports.foldl (fun entries exp =>
    if exp.address ≠ 0 ∧ t.loader.isWithinMapping exp.address ∧
        t.loader.isExecutableAddress exp.address then entries.insert exp.address
    else entries) entries

/-- `StaticPathExplorer`. Analysing everything again destroys the functions and forgets the visited
set, but keeps the map from start addresses. -/
def staticPathExplorer (ctx : AnalysisContext) (reAnalyzeAll : Bool) (fromAddress : Nat)
    (bypassHeur : Bool) : AnalysisContext :=
  let ctx :=
    if reAnalyzeAll then
      { ctx with module := ctx.module.clearFunctions, visited := ∅ }
    else ctx
  let queue :=
    if reAnalyzeAll ∨ ctx.module.functions = [] then (collectEntryPoints t ctx).toList
    else if fromAddress ≠ 0 then [fromAddress]
    else []
  let s : ExploreState := ⟨ctx, queue⟩
  (linearSweepFallback t (Loop.exec (exploreStep t bypassHeur) (exploreFuel t s) s)).context

/-- `StaticControlFlowRebuilder::Run`. -/
def rebuildControlFlow (ctx : AnalysisContext) : AnalysisContext :=
  staticPathExplorer t ctx false 0 false

/-- `ReAnalyzeFrom`. -/
def reAnalyzeFrom (ctx : AnalysisContext) (address : Nat) : AnalysisContext :=
  if address = 0 then ctx else staticPathExplorer t ctx false address false

end

end ReWizard
