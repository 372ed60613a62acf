import ReWizard.Analysis.Module

/-!
# Register values for indirect calls

`DataFlowAnalysisPass`: the values of registers that `mov`, `lea` and `xor` leave, and the indirect
calls and jumps through a register that has one. The register file goes through the blocks of a
function in list order, from the end of each block to the beginning of the next in the list.
-/

namespace ReWizard

structure RegisterState where
  defAddress : Nat := 0
  knownValue : Nat := 0
  isKnown : Bool := false
  deriving DecidableEq, Repr

/-- `std::map<ZydisRegister, RegisterState>`, which is only ever looked up. -/
def RegisterFile := ZydisRegister → Option RegisterState

/-- The address of a memory operand when no register but the instruction pointer enters it. -/
def ExtendedInstruction.resolveMemory (i : ExtendedInstruction) (mem : MemOperand) : Option Nat :=
  if mem.base = .rip ∧ mem.index = .none then some (i.relTarget mem.disp)
  else if mem.base = .none ∧ mem.index = .none then some mem.disp.toNat
  else none

/-- The register that the instruction gives a known value. The branch for a load from memory comes
after the other one for `mov`, and is never taken. -/
def ExtendedInstruction.knownValue (i : ExtendedInstruction) : Option (ZydisRegister × Nat) :=
  match i.instruction.mnemonic with
  | .mov =>
    match (i.instruction.op 0).value, (i.instruction.op 1).value with
    | .register dst, .immediate imm => some (dst, imm.toNat)
    | _, _ => none
  | .lea =>
    match (i.instruction.op 0).value, (i.instruction.op 1).value with
    | .register dst, .memory mem => (i.resolveMemory mem).map fun addr => (dst, addr)
    | _, _ => none
  | .xor =>
    match (i.instruction.op 0).value, (i.instruction.op 1).value with
    | .register a, .register b => if a = b then some (a, 0) else none
    | _, _ => none
  | _ => none

namespace RegisterFile

def empty : RegisterFile := fun _ => none

def set (regs : RegisterFile) (reg : ZydisRegister) (state : RegisterState) : RegisterFile :=
  fun r => if r = reg then some state else regs r

def erase (regs : RegisterFile) (reg : ZydisRegister) : RegisterFile :=
  fun r => if r = reg then none else regs r

/-- The loop body over the operands: forget a written register that this instruction did not
set. -/
def invalidateOperand (address : Nat) (regs : RegisterFile) (op : Operand) : RegisterFile :=
  match op.value with
  | .register reg =>
    if op.visibility = .visHidden ∨ op.write = true then
      match regs reg with
      | none => regs
      | some state => if state.defAddress ≠ address then regs.erase reg else regs
    else regs
  | _ => regs

/-- `ApplyInstruction`. -/
def applyInstruction (regs : RegisterFile) (insn : ExtendedInstruction) : RegisterFile :=
  let regs :=
    match insn.knownValue with
    | none => regs
    | some (reg, value) => regs.set reg ⟨insn.address, value, true⟩
  insn.instruction.operands.foldl (invalidateOperand insn.address) regs

/-- The value of the register that the first operand names. -/
def target? (regs : RegisterFile) (insn : Instruction) : Option Nat :=
  match (insn.op 0).value with
  | .register reg =>
    match regs reg with
    | none => none
    | some state =>
      if state.isKnown = true ∧ state.knownValue ≠ 0 then some state.knownValue else none
  | _ => none

end RegisterFile

/-- What goes through the instructions of a block. -/
structure DataFlowState where
  module : Module
  regs : RegisterFile
  function : Function

/-- `IndirectValue() = target`. -/
def Module.setIndirectValue (m : Module) (insn : ExtendedInstruction) (target : Nat) : Module :=
  { m with
    instructions := m.instructions.insert insn.address { insn with indirectValue := target }
    keyed := m.keyed.insert rfl }

/-- What `TryResolveIndirectCall` and `TryResolveIndirectJump` do. -/
def tryResolveIndirect (insn : ExtendedInstruction) (s : DataFlowState) : DataFlowState :=
  match s.regs.target? insn.instruction with
  | none => s
  | some target =>
    { s with
      module := s.module.setIndirectValue insn target
      function := s.function.addCallSite insn.address target }

def tryResolveIndirectCall : ExtendedInstruction → DataFlowState → DataFlowState :=
  tryResolveIndirect

def tryResolveIndirectJump : ExtendedInstruction → DataFlowState → DataFlowState :=
  tryResolveIndirect

/-- The loop body of `AnalyzeBasicBlock`. -/
def dataFlowInsn (s : DataFlowState) (insn : ExtendedInstruction) : DataFlowState :=
  let s :=
    match insn.instruction.category with
    | .call => tryResolveIndirectCall insn s
    | .uncondBr | .condBr => tryResolveIndirectJump insn s
    | _ => s
  { s with regs := s.regs.applyInstruction insn }

/-- `AnalyzeBasicBlock`. -/
def dataFlowBlock (s : DataFlowState) (b : BasicBlock) : DataFlowState :=
  (s.module.blockInsns b).foldl dataFlowInsn s

/-- `DataFlowAnalysisPass::AnalyzeFunction`. -/
def dataFlowFunction (m : Module) (f : Function) : DataFlowState :=
  f.basicBlocks.foldl dataFlowBlock ⟨m, RegisterFile.empty, f⟩

/-- `DataFlowAnalysisPass::Run`. -/
def dataFlowAnalysis (ctx : AnalysisContext) : AnalysisContext :=
  let r := ctx.module.functions.foldl (fun (m, done) f =>
    let s := dataFlowFunction m f
    (s.module, done ++ [s.function])) (ctx.module, [])
  { ctx with module := { r.1 with functions := r.2 } }

end ReWizard
