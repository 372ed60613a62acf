import ReWizard.Analysis.Disassembler

/-!
# What instructions do to the registers

The x86-64 meaning of decoded instructions, as far as the analyses reason about it: the sixteen
general-purpose registers, the zero and the sign flag. `Executes i s s'` is a relation: it fixes the
result of the instructions that assign a register a computable value and leaves everything else
that an instruction may change open, so it holds of every execution of the real machine.

A register is read by name: `Machine.read?` gives the bits that the name covers, sign-extended. A
write by one name may change what the other names of the register read.
-/

namespace ReWizard

/-! ## Registers by name -/

/-- The bits of a general-purpose register that a name covers. -/
structure RegisterView where
  gpr : Gpr
  offset : Nat
  width : Nat

namespace ZydisRegister

def view? : ZydisRegister → Option RegisterView
  | .low8 g => some ⟨g, 0, 8⟩
  | .high8 h => some ⟨h.gpr, 8, 8⟩
  | .gpr16 g => some ⟨g, 0, 16⟩
  | .gpr32 g => some ⟨g, 0, 32⟩
  | .gpr64 g => some ⟨g, 0, 64⟩
  | _ => Option.none

/-- The number of bits of the register. -/
def width (n : ZydisRegister) : Nat :=
  match n.view? with
  | some w => w.width
  | Option.none => 64

/-- The name is one of the register `g`. -/
def names (n : ZydisRegister) (g : Gpr) : Bool :=
  match n.view? with
  | Option.none => false
  | some v => decide (v.gpr = g)

end ZydisRegister

/-- The registers that a function may change for its caller, by the convention of Windows or by
that of System V. -/
def Gpr.volatile : Gpr → Bool
  | .rax | .rcx | .rdx | .rsi | .rdi | .r8 | .r9 | .r10 | .r11 => true
  | _ => false

structure Machine where
  regs : Gpr → BitVec 64
  zf : Bool
  sf : Bool

/-- The low `width` bits as a signed number. -/
def signExtendFrom (width : Nat) (x : BitVec 64) : BitVec 64 := (x.setWidth width).signExtend 64

/-- What the name `n` reads. -/
def Machine.read? (s : Machine) (n : ZydisRegister) : Option (BitVec 64) :=
  n.view?.map fun v => signExtendFrom v.width (s.regs v.gpr >>> v.offset)

@[simp] theorem signExtendFrom_64 (x : BitVec 64) : signExtendFrom 64 x = x := by
  unfold signExtendFrom
  simp

/-- A sign extension leaves the bits that it extends. -/
theorem setWidth_signExtendFrom {width : Nat} (h : width ≤ 64) (x : BitVec 64) :
    (signExtendFrom width x).setWidth width = x.setWidth width := by
  unfold signExtendFrom
  refine BitVec.eq_of_getLsbD_eq fun i hi => ?_
  rw [BitVec.getLsbD_setWidth, BitVec.getLsbD_signExtend, if_pos hi, decide_eq_true hi,
    decide_eq_true (Nat.lt_of_lt_of_le hi h), Bool.true_and, Bool.true_and]

/-- A sign-extended number is its own sign extension. -/
theorem signExtendFrom_idem {width : Nat} (h : width ≤ 64) (x : BitVec 64) :
    signExtendFrom width (signExtendFrom width x) = signExtendFrom width x := by
  show ((signExtendFrom width x).setWidth width).signExtend 64 = _
  rw [setWidth_signExtendFrom h]
  rfl

/-- A difference does not depend on the bits above those of the result. -/
theorem signExtendFrom_sub {width : Nat} (h : width ≤ 64) (x y : BitVec 64) :
    signExtendFrom width (signExtendFrom width x - y) = signExtendFrom width (x - y) := by
  have hlow : ∀ a : BitVec 64,
      (a - y).setWidth width = a.setWidth width + -(y.setWidth width) := fun a => by
    rw [BitVec.sub_eq_add_neg, BitVec.setWidth_add _ _ h, BitVec.setWidth_neg_of_le h]
  show ((signExtendFrom width x - y).setWidth width).signExtend 64 = _
  rw [hlow, setWidth_signExtendFrom h, ← hlow]
  rfl

theorem ZydisRegister.view?_width {n : ZydisRegister} {w : RegisterView}
    (h : n.view? = some w) : w.width ≤ 64 := by
  cases n <;> cases h <;> simp

@[simp] theorem Machine.read?_gpr64 (s : Machine) (g : Gpr) :
    s.read? (.gpr64 g) = some (s.regs g) := by
  unfold Machine.read?
  simp [ZydisRegister.view?]

/-- A name reads what its register says. -/
theorem Machine.read?_congr {s s' : Machine} {n : ZydisRegister}
    (h : ∀ g, n.names g = true → s'.regs g = s.regs g) : s'.read? n = s.read? n := by
  unfold Machine.read?
  cases hv : n.view? with
  | none => rfl
  | some v =>
    have hn : n.names v.gpr = true := by
      unfold ZydisRegister.names
      rw [hv]
      exact decide_eq_true rfl
    rw [Option.map_some, Option.map_some, h _ hn]

/-! ## Assignments -/

inductive ArithOp
  | add | sub | and | shl | shr
  deriving DecidableEq, Repr

/-- The bound that the processor takes a shift count modulo. -/
def shiftLimit (width : Nat) : Nat := if width = 64 then 64 else 32

/-- The result at the given width, for operands that are sign-extended from it. -/
def ArithOp.result (width : Nat) (a b : BitVec 64) : ArithOp → BitVec 64
  | .add => signExtendFrom width (a + b)
  | .sub => signExtendFrom width (a - b)
  | .and => signExtendFrom width (a &&& b)
  | .shl => signExtendFrom width (a <<< (b.toNat % shiftLimit width))
  | .shr => signExtendFrom width ((a.setWidth width).setWidth 64 >>> (b.toNat % shiftLimit width))

/-- A second operand with a value that is known from the registers. -/
inductive ArithSource
  | immediate (imm : BitVec 64)
  | register (n : ZydisRegister)
  | unknown
  deriving DecidableEq, Repr

/-- What an instruction computes for its first operand, a register. -/
inductive Assignment
  | const (dst : ZydisRegister) (value : BitVec 64)
  | arith (op : ArithOp) (dst : ZydisRegister) (src : ArithSource)
  deriving DecidableEq, Repr

def Assignment.dst : Assignment → ZydisRegister
  | .const n _ => n
  | .arith _ n _ => n

def ArithSource.value? (read : ZydisRegister → Option (BitVec 64)) :
    ArithSource → Option (BitVec 64)
  | .immediate imm => some imm
  | .register n => read n
  | .unknown => none

/-- The value that the destination reads afterwards, if the operands are known. -/
def Assignment.value? (read : ZydisRegister → Option (BitVec 64)) :
    Assignment → Option (BitVec 64)
  | .const n v => n.view?.map fun w => signExtendFrom w.width v
  | .arith op n src => do
    let w ← n.view?
    let a ← read n
    let b ← src.value? read
    some (op.result w.width a b)

/-- The second operand of an addition, a subtraction or a conjunction. -/
def arithSource : OperandValue → ArithSource
  | .immediate imm => .immediate imm
  | .register n => .register n
  | _ => .unknown

/-- The second operand of a shift: a count in a register is not looked at. -/
def shiftSource : OperandValue → ArithSource
  | .immediate imm => .immediate imm
  | _ => .unknown

/-- The address of a memory operand that no register but the instruction pointer enters. -/
def ExtendedInstruction.staticAddress (i : ExtendedInstruction) (mem : MemOperand) : Option Nat :=
  if mem.index ≠ .none then none
  else if mem.base = .rip then some (i.relTarget mem.disp)
  else if mem.base = .none then some mem.disp.toNat
  else none

/-- The instructions that assign a register a value. -/
def ExtendedInstruction.assignment (i : ExtendedInstruction) : Option Assignment :=
  match (i.instruction.op 0).value with
  | .register n =>
    let src := (i.instruction.op 1).value
    match i.instruction.mnemonic with
    | .mov =>
      match src with
      | .immediate imm => some (.const n imm)
      | _ => none
    | .xor => if src = .register n then some (.const n 0) else none
    | .lea =>
      match src with
      | .memory mem => (i.staticAddress mem).map fun a => .const n (BitVec.ofNat 64 a)
      | _ => none
    | .add => some (.arith .add n (arithSource src))
    | .sub => some (.arith .sub n (arithSource src))
    | .and => some (.arith .and n (arithSource src))
    | .shl => some (.arith .shl n (shiftSource src))
    | .shr => some (.arith .shr n (shiftSource src))
    | _ => none
  | _ => none

/-! ## Execution -/

/-- The instruction may change the register: it names it as an operand that is written, perhaps
under a condition, or assigns it, or is a call and the register is volatile. -/
def ExtendedInstruction.mayChange (i : ExtendedInstruction) (g : Gpr) : Bool :=
  (i.instruction.operands.any fun op =>
    match op.value with
    | .register n => n.names g && (op.write || op.condWrite)
    | _ => false) ||
  (match i.assignment with
    | some a => a.dst.names g
    | none => false) ||
  (decide (i.instruction.category = .call) && g.volatile)

/-- The zero and the sign flag after a `test` of registers or a `cmp` with an immediate. -/
def ExtendedInstruction.flags (i : ExtendedInstruction) (s : Machine) : Option (Bool × Bool) :=
  match i.instruction.mnemonic, (i.instruction.op 0).value, (i.instruction.op 1).value with
  | .test, .register n, .register m => do
    let a ← s.read? n
    let b ← s.read? m
    some (decide (a &&& b = 0), (a &&& b).msb)
  | .cmp, .register n, .immediate imm => do
    let w ← n.view?
    let a ← s.read? n
    let r := signExtendFrom w.width (a - imm)
    some (decide (r = 0), r.msb)
  | _, _, _ => none

/-- Executing the instruction in `s` may leave the registers and flags of `s'`. -/
structure Executes (i : ExtendedInstruction) (s s' : Machine) : Prop where
  frame : ∀ g, i.mayChange g = false → s'.regs g = s.regs g
  result : ∀ a v, i.assignment = some a → a.value? s.read? = some v → s'.read? a.dst = some v
  flags : ∀ z n, i.flags s = some (z, n) → s'.zf = z ∧ s'.sf = n

/-- An instruction that computes what is there may leave everything as it is. -/
theorem Executes.idle {i : ExtendedInstruction} {s : Machine}
    (hresult : ∀ a ∈ i.assignment, a.value? s.read? = s.read? a.dst)
    (hflags : ∀ x ∈ i.flags s, x = (s.zf, s.sf)) : Executes i s s where
  frame _ _ := rfl
  result a v ha hv := by rw [← hresult a ha, hv]
  flags z n h := by
    have := hflags (z, n) h
    cases this
    exact ⟨rfl, rfl⟩

/-- Whether a conditional branch is taken, for the conditions on the two flags. -/
def ExtendedInstruction.branchTaken (i : ExtendedInstruction) (s : Machine) : Option Bool :=
  match i.instruction.mnemonic with
  | .jz => some s.zf
  | .jnz => some !s.zf
  | .js => some s.sf
  | .jns => some !s.sf
  | _ => none

/-- The address that an indirect call or jump through a register goes to. -/
def ExtendedInstruction.indirectTarget (i : ExtendedInstruction) (s : Machine) : Option Nat :=
  match (i.instruction.op 0).value with
  | .register (.gpr64 g) => some (s.regs g).toNat
  | _ => none

/-- The instruction may be the last of its block that is executed. -/
def ExtendedInstruction.Leaves (i : ExtendedInstruction) : Prop :=
  i.instruction.category = .condBr ∨ i.instruction.category = .uncondBr ∨
    i.instruction.category = .ret

end ReWizard
