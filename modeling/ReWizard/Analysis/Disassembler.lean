import Mathlib.Algebra.GroupWithZero.Nat

/-!
# Decoded instructions

The part of a Zydis decode result that the analyses read: mnemonic, category, length and operands,
with the register, memory and immediate operands as alternatives of one type. A `Disassembler` is
the decoder itself, which is not part of the repository: a function from the bytes it is given
that only ever returns instructions of 1 to 15 bytes.

Addresses (`uintptr_t`) are natural numbers, and arithmetic on them wraps at `2 ^ 64` (`addrAdd`).
-/

namespace ReWizard

/-- The number of addresses. -/
def addrSpace : Nat := 2 ^ 64

/-- `uintptr_t` addition. -/
def addrAdd (a b : Nat) : Nat := (a + b) % addrSpace

theorem addrAdd_of_lt {a b : Nat} (h : a + b < addrSpace) : addrAdd a b = a + b :=
  Nat.mod_eq_of_lt h

theorem addrAdd_lt (a b : Nat) : addrAdd a b < addrSpace :=
  Nat.mod_lt _ (by decide)

/-! ## Registers -/

/-- The sixteen general-purpose registers. -/
inductive Gpr
  | rax | rcx | rdx | rbx | rsp | rbp | rsi | rdi
  | r8 | r9 | r10 | r11 | r12 | r13 | r14 | r15
  deriving DecidableEq, Repr

/-- The registers that name the second byte of a general-purpose register. -/
inductive HighByte
  | ah | ch | dh | bh
  deriving DecidableEq, Repr

def HighByte.gpr : HighByte → Gpr
  | .ah => .rax
  | .ch => .rcx
  | .dh => .rdx
  | .bh => .rbx

/-- `ZydisRegister`: the names of one general-purpose register at its widths are different keys. -/
inductive ZydisRegister
  | none
  | low8 (g : Gpr)
  | high8 (h : HighByte)
  | gpr16 (g : Gpr)
  | gpr32 (g : Gpr)
  | gpr64 (g : Gpr)
  | rip
  | eip
  | rflags
  | other (n : Nat)
  deriving DecidableEq, Repr

/-! ## Operands -/

/-- `ZydisOperandVisibility`. -/
inductive OperandVisibility
  | visExplicit
  | visImplicit
  | visHidden
  deriving DecidableEq, Repr

structure MemOperand where
  base : ZydisRegister
  index : ZydisRegister
  scale : Nat
  disp : BitVec 64
  deriving DecidableEq, Repr

/-- The operand's type with the data of that type. -/
inductive OperandValue
  | unused
  | register (reg : ZydisRegister)
  | memory (mem : MemOperand)
  | pointer
  | immediate (imm : BitVec 64)
  deriving DecidableEq, Repr

/-- One operand: `write` is the action bit the passes test, `condWrite` the bit of a write that
only happens under a condition. -/
structure Operand where
  visibility : OperandVisibility
  write : Bool
  condWrite : Bool
  size : Nat
  value : OperandValue
  deriving DecidableEq, Repr

/-- The operand names the register, and is written or hidden. -/
def Operand.touches (op : Operand) (reg : ZydisRegister) : Bool :=
  decide (op.value = .register reg) && (decide (op.visibility = .visHidden) || op.write)

/-- An entry of the operand array past the decoded ones. -/
def Operand.unused : Operand := ⟨.visExplicit, false, false, 0, .unused⟩

/-! ## Instructions -/

/-- `ZydisMnemonic`, as far as the analyses tell instructions apart. -/
inductive ZydisMnemonic
  | mov | lea | xor | add | sub | and | shl | shr | test | cmp | push | pop | call | jmp | ret
  | jz | jnz | js | jns
  | other (n : Nat)
  deriving DecidableEq, Repr

/-- `ZydisInstructionCategory`, as far as the analyses tell instructions apart. -/
inductive ZydisCategory
  | call | condBr | uncondBr | ret | other
  deriving DecidableEq, Repr

structure Instruction where
  mnemonic : ZydisMnemonic
  category : ZydisCategory
  length : Nat
  operandCountVisible : Nat
  operands : List Operand
  deriving DecidableEq, Repr

/-- `Operands()[k]`. -/
def Instruction.op (i : Instruction) (k : Nat) : Operand := i.operands.getD k .unused

/-- A decoded instruction at its address. -/
structure ExtendedInstruction where
  instruction : Instruction
  address : Nat
  isIndirect : Bool := false
  indirectValue : Nat := 0
  deriving DecidableEq, Repr

/-- The address after the instruction. -/
def ExtendedInstruction.next (i : ExtendedInstruction) : Nat :=
  addrAdd i.address i.instruction.length

/-- The address of a relative branch with the displacement `imm`. -/
def ExtendedInstruction.relTarget (i : ExtendedInstruction) (imm : BitVec 64) : Nat :=
  addrAdd i.next imm.toNat

/-- `ZYDIS_MAX_INSTRUCTION_LENGTH`. -/
def maxInstructionLength : Nat := 15

/-- The decoder: the instruction at the front of the bytes, when they start with one. -/
structure Disassembler where
  decodeFull : List UInt8 → Option Instruction
  length_pos : ∀ {bytes i}, decodeFull bytes = some i → 0 < i.length
  length_le : ∀ {bytes i}, decodeFull bytes = some i → i.length ≤ maxInstructionLength

/-- The `n` bytes of the memory from `a` on. -/
def readBytes (memory : Nat → UInt8) (a n : Nat) : List UInt8 :=
  (List.range n).map fun k => memory (a + k)

/-- Decode the bytes of the memory at `data`. -/
def Disassembler.disassembleSingle (d : Disassembler) (memory : Nat → UInt8) (data dataSz : Nat) :
    Option ExtendedInstruction :=
  (d.decodeFull (readBytes memory data dataSz)).map fun i => { instruction := i, address := data }

theorem Disassembler.disassembleSingle_eq_some {d : Disassembler} {memory : Nat → UInt8}
    {a n : Nat} {i : ExtendedInstruction} (h : d.disassembleSingle memory a n = some i) :
    i.address = a ∧ i.isIndirect = false ∧ i.indirectValue = 0 ∧
      0 < i.instruction.length ∧ i.instruction.length ≤ maxInstructionLength := by
  unfold disassembleSingle at h
  obtain ⟨j, hj, rfl⟩ := Option.map_eq_some_iff.mp h
  exact ⟨rfl, rfl, rfl, d.length_pos hj, d.length_le hj⟩

end ReWizard
