import ReWizard.Analysis.StaticControlFlowRebuilder

/-!
# A decoder for a few instructions

`fragment` decodes `nop`, `ret`, `jmp rel8`, `jz rel8`, `call rel32`, `push rbp`, `mov rbx, imm32`,
`call rax` and `call rbx` as Zydis does in 64-bit mode, and nothing else. The sample images are made
of these instructions.
-/

namespace ReWizard

/-- A register operand that the encoding does not show. -/
def hiddenReg (reg : ZydisRegister) (write condWrite : Bool) : Operand :=
  ⟨.visHidden, write, condWrite, 64, .register reg⟩

/-- The stack slot that a call or a return goes through. -/
def hiddenStack (write : Bool) : Operand :=
  ⟨.visHidden, write, false, 64, .memory ⟨.gpr64 .rsp, .none, 0, 0⟩⟩

def immOperand (size : Nat) (imm : BitVec 64) : Operand :=
  ⟨.visExplicit, false, false, size, .immediate imm⟩

/-- The displacement of a short branch. -/
def rel8 (d : UInt8) : BitVec 64 := (BitVec.ofNat 8 d.toNat).signExtend 64

/-- The displacement of a near call, in little-endian order. -/
def rel32 (a b c d : UInt8) : BitVec 64 :=
  (BitVec.ofNat 32 (a.toNat + 256 * (b.toNat + 256 * (c.toNat + 256 * d.toNat)))).signExtend 64

def nopInsn : Instruction := ⟨.other 0, .other, 1, 0, []⟩

def retInsn : Instruction :=
  ⟨.ret, .ret, 1, 0,
    [hiddenReg .rip true false, hiddenReg (.gpr64 .rsp) true false, hiddenStack false]⟩

def pushRbpInsn : Instruction :=
  ⟨.push, .other, 1, 1,
    [⟨.visExplicit, false, false, 64, .register (.gpr64 .rbp)⟩,
      hiddenReg (.gpr64 .rsp) true false, hiddenStack true]⟩

def jmpInsn (d : UInt8) : Instruction :=
  ⟨.jmp, .uncondBr, 2, 1, [immOperand 8 (rel8 d), hiddenReg .rip true false]⟩

def jzInsn (d : UInt8) : Instruction :=
  ⟨.jz, .condBr, 2, 1,
    [immOperand 8 (rel8 d), hiddenReg .rip false true, hiddenReg .rflags false false]⟩

def callInsn (a b c d : UInt8) : Instruction :=
  ⟨.call, .call, 5, 1,
    [immOperand 32 (rel32 a b c d), hiddenReg .rip true false,
      hiddenReg (.gpr64 .rsp) true false, hiddenStack true]⟩

def movInsn (g : Gpr) (imm : BitVec 64) : Instruction :=
  ⟨.mov, .other, 7, 2,
    [⟨.visExplicit, true, false, 64, .register (.gpr64 g)⟩, immOperand 32 imm]⟩

def callRegInsn (g : Gpr) : Instruction :=
  ⟨.call, .call, 2, 1,
    [⟨.visExplicit, false, false, 64, .register (.gpr64 g)⟩, hiddenReg .rip true false,
      hiddenReg (.gpr64 .rsp) true false, hiddenStack true]⟩

def decodeFragment : List UInt8 → Option Instruction
  | 0x90 :: _ => some nopInsn
  | 0xC3 :: _ => some retInsn
  | 0x55 :: _ => some pushRbpInsn
  | 0xEB :: d :: _ => some (jmpInsn d)
  | 0x74 :: d :: _ => some (jzInsn d)
  | 0xE8 :: a :: b :: c :: d :: _ => some (callInsn a b c d)
  | 0x48 :: 0xC7 :: 0xC3 :: a :: b :: c :: d :: _ => some (movInsn .rbx (rel32 a b c d))
  | 0xFF :: 0xD0 :: _ => some (callRegInsn .rax)
  | 0xFF :: 0xD3 :: _ => some (callRegInsn .rbx)
  | _ => none

theorem decodeFragment_length {bytes : List UInt8} {i : Instruction}
    (h : decodeFragment bytes = some i) : 0 < i.length ∧ i.length ≤ maxInstructionLength := by
  unfold decodeFragment at h
  split at h <;> cases h <;>
    simp [nopInsn, retInsn, pushRbpInsn, jmpInsn, jzInsn, callInsn, movInsn, callRegInsn,
      maxInstructionLength]

def fragment : Disassembler where
  decodeFull := decodeFragment
  length_pos := fun h => (decodeFragment_length h).1
  length_le := fun h => (decodeFragment_length h).2

/-- `call [rip + disp32]`. -/
def callRipInsn (a b c d : UInt8) : Instruction :=
  ⟨.call, .call, 6, 1,
    [⟨.visExplicit, false, false, 64, .memory ⟨.rip, .none, 0, rel32 a b c d⟩⟩,
      hiddenReg .rip true false, hiddenReg (.gpr64 .rsp) true false, hiddenStack true]⟩

def decodeSlotCall : List UInt8 → Option Instruction
  | 0xFF :: 0x15 :: a :: b :: c :: d :: _ => some (callRipInsn a b c d)
  | bytes => decodeFragment bytes

theorem decodeSlotCall_length {bytes : List UInt8} {i : Instruction}
    (h : decodeSlotCall bytes = some i) : 0 < i.length ∧ i.length ≤ maxInstructionLength := by
  unfold decodeSlotCall at h
  split at h
  · cases h
    simp [callRipInsn, maxInstructionLength]
  · exact decodeFragment_length h

/-- `fragment` with calls through a memory slot. -/
def slotCallFragment : Disassembler where
  decodeFull := decodeSlotCall
  length_pos := fun h => (decodeSlotCall_length h).1
  length_le := fun h => (decodeSlotCall_length h).2

/-- `test rbx, rbx`. -/
def testRbxInsn : Instruction :=
  ⟨.test, .other, 3, 2,
    [⟨.visExplicit, false, false, 64, .register (.gpr64 .rbx)⟩,
      ⟨.visExplicit, false, false, 64, .register (.gpr64 .rbx)⟩, hiddenReg .rflags true false]⟩

def decodeTest : List UInt8 → Option Instruction
  | 0x48 :: 0x85 :: 0xDB :: _ => some testRbxInsn
  | bytes => decodeFragment bytes

theorem decodeTest_length {bytes : List UInt8} {i : Instruction}
    (h : decodeTest bytes = some i) : 0 < i.length ∧ i.length ≤ maxInstructionLength := by
  unfold decodeTest at h
  split at h
  · cases h
    simp [testRbxInsn, maxInstructionLength]
  · exact decodeFragment_length h

/-- `fragment` with a test of `rbx`. -/
def testFragment : Disassembler where
  decodeFull := decodeTest
  length_pos := fun h => (decodeTest_length h).1
  length_le := fun h => (decodeTest_length h).2

/-- The bytes mapped at `0x1000`, zero elsewhere. -/
def sampleMemory (bytes : List UInt8) (a : Nat) : UInt8 := bytes.getD (a - 0x1000) 0

/-- A code-only image at `0x1000` whose entry point is its first byte. -/
def sampleTarget (bytes : List UInt8) (h : bytes.length < 0x1000 := by decide) : Target where
  loader :=
    { currentImageBase := 0x1000
      mappedSize := bytes.length
      memory := sampleMemory bytes
      executableSections := [(0x1000, 0x1000 + bytes.length)]
      binary := ⟨0x1000, 0x1000, none⟩
      base_pos := by decide
      belowTop := by
        have : maxInstructionLength = 15 := rfl
        have : addrSpace = 2 ^ 64 := rfl
        omega }
  disassembler := fragment

/-- An image at `0x1000` with `code`, which is executable, and a slot of eight zero bytes behind it,
which is not. -/
def slotTarget (code : List UInt8) (h : code.length < 0x1000 := by decide) : Target where
  loader :=
    { currentImageBase := 0x1000
      mappedSize := code.length + 8
      memory := sampleMemory code
      executableSections := [(0x1000, 0x1000 + code.length)]
      binary := ⟨0x1000, 0x1000, none⟩
      base_pos := by decide
      belowTop := by
        have : maxInstructionLength = 15 := rfl
        have : addrSpace = 2 ^ 64 := rfl
        omega }
  disassembler := slotCallFragment

/-- A code-only image whose code may test `rbx`. -/
def testTarget (bytes : List UInt8) (h : bytes.length < 0x1000 := by decide) : Target :=
  { sampleTarget bytes h with disassembler := testFragment }

/-- The module of the given records. -/
def sampleModule (insns : List ExtendedInstruction) : Module := insns.foldl Module.addInstruction {}

/-- A function with the given blocks. -/
def sampleFunction (blocks : List (Nat × Nat)) : Function :=
  { name := "f"
    startAddress := 0x1000
    basicBlocks := blocks.map fun b => { BasicBlock.create b.1 with endAddress := b.2 } }

end ReWizard
