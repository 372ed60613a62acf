import ReWizard.Analysis.Module
import Mathlib.Algebra.Ring.Int.Defs

/-!
# Interval analysis of branches

`AbstractInterpretationPass`: intervals of signed 64-bit numbers, a domain that gives register names
an interval, the transfer function `applyInstruction`, and the verdict `evaluateBranch` on a
conditional branch after a `test` or `cmp`. The domain goes through the blocks of a function in list
order, from the end of each block to the beginning of the next in the list.

An `int64_t` is a `BitVec 64`, and its arithmetic wraps; a shift count is taken modulo 64.
-/

namespace ReWizard

/-! ## Intervals -/

structure Interval where
  lo : BitVec 64 := 0
  hi : BitVec 64 := 0
  isBottom : Bool := true
  deriving DecidableEq, Repr

namespace Interval

def range (l h : BitVec 64) : Interval := ⟨l, h, false⟩

def top : Interval := range (BitVec.intMin 64) (BitVec.intMax 64)

def constant (v : BitVec 64) : Interval := range v v

def isConstant (a : Interval) : Bool := !a.isBottom && decide (a.lo = a.hi)

def contains (a : Interval) (v : BitVec 64) : Bool := !a.isBottom && a.lo.sle v && v.sle a.hi

def maxSigned (a b : BitVec 64) : BitVec 64 := if a.slt b then b else a

def add (a b : Interval) : Interval :=
  if a.isBottom || b.isBottom then {} else range (a.lo + b.lo) (a.hi + b.hi)

def sub (a b : Interval) : Interval :=
  if a.isBottom || b.isBottom then {} else range (a.lo - b.hi) (a.hi - b.lo)

def and (a b : Interval) : Interval :=
  if a.isBottom || b.isBottom then {}
  else if a.isConstant && b.isConstant then constant (a.lo &&& b.lo)
  else if a.contains 0 || b.contains 0 then
    let maxVal := maxSigned a.hi b.hi
    range 0 maxVal
  else range 0 (maxSigned a.hi b.hi)

def xor (a b : Interval) : Interval :=
  if a.isBottom || b.isBottom then {}
  else if a.isConstant && b.isConstant then constant (a.lo ^^^ b.lo)
  else if a.contains 0 && b.contains 0 then range 0 (maxSigned a.hi b.hi)
  else top

def shl (a b : Interval) : Interval :=
  if a.isBottom || b.isBottom then {}
  else if a.isConstant && b.isConstant then constant (a.lo <<< (b.lo.toNat % 64))
  else range 0 (a.hi <<< (b.hi.toNat % 64))

def shr (a b : Interval) : Interval :=
  if a.isBottom || b.isBottom then {}
  else if a.isConstant && b.isConstant then constant (a.lo.sshiftRight (b.lo.toNat % 64))
  else range 0 a.hi

/-! ### Checked shifts

`Shl` and `Shr` once more, with shifts that fail on a count that is negative or above 63, and to the
left also on a number that overflows. -/

def IsShiftCount (n : BitVec 64) : Prop := 0 ≤ n.toInt ∧ n.toInt ≤ 63

/-- The number has room for the bits that are shifted in. -/
def ShiftFits (x n : BitVec 64) : Prop :=
  -2 ^ 63 ≤ x.toInt * 2 ^ n.toNat ∧ x.toInt * 2 ^ n.toNat < 2 ^ 63

instance (n : BitVec 64) : Decidable (IsShiftCount n) := inferInstanceAs (Decidable (_ ∧ _))

instance (x n : BitVec 64) : Decidable (ShiftFits x n) := inferInstanceAs (Decidable (_ ∧ _))

def shiftLeft? (x n : BitVec 64) : Option (BitVec 64) :=
  if IsShiftCount n ∧ ShiftFits x n then some (x <<< n.toNat) else none

def shiftRight? (x n : BitVec 64) : Option (BitVec 64) :=
  if IsShiftCount n then some (x.sshiftRight n.toNat) else none

def shl? (a b : Interval) : Option Interval :=
  if a.isBottom || b.isBottom then some {}
  else if a.isConstant && b.isConstant then (shiftLeft? a.lo b.lo).map constant
  else (shiftLeft? a.hi b.hi).map (range 0)

def shr? (a b : Interval) : Option Interval :=
  if a.isBottom || b.isBottom then some {}
  else if a.isConstant && b.isConstant then (shiftRight? a.lo b.lo).map constant
  else some (range 0 a.hi)

theorem IsShiftCount.toNat_mod {n : BitVec 64} (h : IsShiftCount n) : n.toNat % 64 = n.toNat := by
  obtain ⟨hlo, hhi⟩ := h
  have := BitVec.toInt_eq_toNat_cond n
  omega

theorem shiftLeft?_eq_some {x n r : BitVec 64} (h : shiftLeft? x n = some r) :
    x <<< (n.toNat % 64) = r := by
  unfold shiftLeft? at h
  obtain ⟨hok, hr⟩ := Option.ite_none_right_eq_some.mp h
  rw [hok.1.toNat_mod]
  exact Option.some.inj hr

theorem shiftRight?_eq_some {x n r : BitVec 64} (h : shiftRight? x n = some r) :
    x.sshiftRight (n.toNat % 64) = r := by
  unfold shiftRight? at h
  obtain ⟨hok, hr⟩ := Option.ite_none_right_eq_some.mp h
  rw [hok.toNat_mod]
  exact Option.some.inj hr

/-- Checking the shift of `Shl` does not change the result. -/
theorem shl_eq_of_shl? {a b r : Interval} (h : a.shl? b = some r) : a.shl b = r := by
  unfold shl? at h
  unfold shl
  split at h
  · rename_i hbottom
    rw [if_pos hbottom]
    exact Option.some.inj h
  rename_i hbottom
  rw [if_neg hbottom]
  split at h
  · rename_i hconst
    obtain ⟨y, hy, rfl⟩ := Option.map_eq_some_iff.mp h
    rw [if_pos hconst, shiftLeft?_eq_some hy]
  · rename_i hconst
    obtain ⟨y, hy, rfl⟩ := Option.map_eq_some_iff.mp h
    rw [if_neg hconst, shiftLeft?_eq_some hy]

/-- Checking the shift of `Shr` does not change the result. -/
theorem shr_eq_of_shr? {a b r : Interval} (h : a.shr? b = some r) : a.shr b = r := by
  unfold shr? at h
  unfold shr
  split at h
  · rename_i hbottom
    rw [if_pos hbottom]
    exact Option.some.inj h
  rename_i hbottom
  rw [if_neg hbottom]
  split at h
  · rename_i hconst
    obtain ⟨y, hy, rfl⟩ := Option.map_eq_some_iff.mp h
    rw [if_pos hconst, shiftRight?_eq_some hy]
  · rename_i hconst
    rw [if_neg hconst]
    exact Option.some.inj h

/-! ### Values -/

theorem contains_iff {a : Interval} (ha : a.isBottom = false) {v : BitVec 64} :
    a.contains v = true ↔ a.lo.toInt ≤ v.toInt ∧ v.toInt ≤ a.hi.toInt := by
  unfold contains
  rw [ha, Bool.not_false, Bool.true_and, Bool.and_eq_true, BitVec.sle_iff_toInt_le,
    BitVec.sle_iff_toInt_le]

theorem contains_range_iff {lo hi v : BitVec 64} : (range lo hi).contains v = true ↔
    lo.toInt ≤ v.toInt ∧ v.toInt ≤ hi.toInt :=
  contains_iff rfl

theorem isBottom_of_contains {a : Interval} {x : BitVec 64} (h : a.contains x = true) :
    a.isBottom = false := by
  unfold contains at h
  simp only [Bool.and_eq_true, Bool.not_eq_true'] at h
  exact h.1.1

theorem contains_top (x : BitVec 64) : top.contains x = true := by
  refine contains_range_iff.mpr ?_
  rw [BitVec.toInt_intMin, BitVec.toInt_intMax]
  have hlo := BitVec.le_toInt x
  have hhi := BitVec.toInt_lt (x := x)
  omega

@[simp] theorem isConstant_constant (v : BitVec 64) : (constant v).isConstant = true := by
  simp [constant, range, isConstant]

theorem contains_constant (v : BitVec 64) : (constant v).contains v = true :=
  contains_range_iff.mpr ⟨Int.le_refl _, Int.le_refl _⟩

theorem isConstant_iff {a : Interval} (ha : a.isBottom = false) :
    a.isConstant = true ↔ a.lo = a.hi := by
  unfold isConstant
  rw [ha, Bool.not_false, Bool.true_and, decide_eq_true_iff]

theorem isConstant_eq {a : Interval} (h : a.isConstant = true) : a = constant a.lo := by
  obtain ⟨lo, hi, bottom⟩ := a
  unfold isConstant at h
  simp only [Bool.and_eq_true, Bool.not_eq_true', decide_eq_true_eq] at h
  obtain ⟨rfl, rfl⟩ := h
  rfl

theorem contains_constant_iff {c v : BitVec 64} : (constant c).contains v = true ↔ v = c := by
  constructor
  · intro h
    obtain ⟨hlo, hhi⟩ := contains_range_iff.mp h
    exact BitVec.eq_of_toInt_eq (Int.le_antisymm hhi hlo)
  · rintro rfl
    exact contains_constant v

/-- A constant interval holds its constant only. -/
theorem eq_of_contains {a : Interval} {x : BitVec 64} (hconst : a.isConstant = true)
    (h : a.contains x = true) : x = a.lo := by
  rw [isConstant_eq hconst] at h
  exact contains_constant_iff.mp h

/-! ### Operations

Those on bits are one thing on two constants, and another on other intervals. -/

section

variable {a b : Interval}

theorem not_isBottom_of_isConstant (h : a.isConstant = true) : a.isBottom = false := by
  rw [isConstant_eq h]
  rfl

theorem and_of_isConstant (ha : a.isConstant = true) (hb : b.isConstant = true) :
    a.and b = constant (a.lo &&& b.lo) := by
  unfold and
  rw [not_isBottom_of_isConstant ha, not_isBottom_of_isConstant hb, ha, hb]
  rfl

theorem xor_of_isConstant (ha : a.isConstant = true) (hb : b.isConstant = true) :
    a.xor b = constant (a.lo ^^^ b.lo) := by
  unfold xor
  rw [not_isBottom_of_isConstant ha, not_isBottom_of_isConstant hb, ha, hb]
  rfl

theorem shl_of_isConstant (ha : a.isConstant = true) (hb : b.isConstant = true) :
    a.shl b = constant (a.lo <<< (b.lo.toNat % 64)) := by
  unfold shl
  rw [not_isBottom_of_isConstant ha, not_isBottom_of_isConstant hb, ha, hb]
  rfl

theorem shr_of_isConstant (ha : a.isConstant = true) (hb : b.isConstant = true) :
    a.shr b = constant (a.lo.sshiftRight (b.lo.toNat % 64)) := by
  unfold shr
  rw [not_isBottom_of_isConstant ha, not_isBottom_of_isConstant hb, ha, hb]
  rfl

variable (ha : a.isBottom = false) (hb : b.isBottom = false)

include ha hb

theorem add_eq : a.add b = range (a.lo + b.lo) (a.hi + b.hi) := by
  unfold add
  rw [ha, hb]
  rfl

theorem sub_eq : a.sub b = range (a.lo - b.hi) (a.hi - b.lo) := by
  unfold sub
  rw [ha, hb]
  rfl

variable (hconst : (a.isConstant && b.isConstant) = false)

include hconst

theorem and_of_not_isConstant : a.and b = range 0 (maxSigned a.hi b.hi) := by
  unfold and
  rw [ha, hb, hconst]
  simp only [Bool.or_self, Bool.false_eq_true, if_false, ite_self]

theorem xor_of_not_isConstant :
    a.xor b = if a.contains 0 && b.contains 0 then range 0 (maxSigned a.hi b.hi) else top := by
  unfold xor
  rw [ha, hb, hconst]
  rfl

theorem shl_of_not_isConstant : a.shl b = range 0 (a.hi <<< (b.hi.toNat % 64)) := by
  unfold shl
  rw [ha, hb, hconst]
  rfl

theorem shr_of_not_isConstant : a.shr b = range 0 a.hi := by
  unfold shr
  rw [ha, hb, hconst]
  rfl

end

theorem toInt_maxSigned (x y : BitVec 64) : (maxSigned x y).toInt = max x.toInt y.toInt := by
  unfold maxSigned
  split
  · rename_i h
    rw [BitVec.slt_iff_toInt_lt] at h
    omega
  · rename_i h
    rw [BitVec.slt_iff_toInt_lt] at h
    omega

end Interval

/-! ## The domain -/

/-- `std::map<ZydisRegister, Interval>`, which is only ever looked up. -/
def IntervalDomain := ZydisRegister → Option Interval

namespace IntervalDomain

def empty : IntervalDomain := fun _ => none

def getRegisterInterval (d : IntervalDomain) (reg : ZydisRegister) : Interval :=
  (d reg).getD Interval.top

def setRegisterInterval (d : IntervalDomain) (reg : ZydisRegister) (val : Interval) :
    IntervalDomain := fun r => if r = reg then some val else d r

def erase (d : IntervalDomain) (reg : ZydisRegister) : IntervalDomain :=
  fun r => if r = reg then none else d r

end IntervalDomain

/-! ## Instructions -/

/-- The branch of `ApplyInstruction` for one arithmetic instruction. The second operand may be an
immediate and, with `registers`, a register. -/
def applyArith (op : Interval → Interval → Interval) (registers : Bool) (i : Instruction)
    (d : IntervalDomain) : IntervalDomain :=
  match (i.op 0).value with
  | .register dst =>
    let srcVal :=
      match (i.op 1).value with
      | .immediate imm => Interval.constant imm
      | .register src => if registers then d.getRegisterInterval src else Interval.top
      | _ => Interval.top
    d.setRegisterInterval dst (op (d.getRegisterInterval dst) srcVal)
  | _ => d

/-- The first part of `ApplyInstruction`: the interval of the destination. -/
def applyResult (i : Instruction) (d : IntervalDomain) : IntervalDomain :=
  match i.mnemonic with
  | .mov =>
    match (i.op 0).value, (i.op 1).value with
    | .register dst, .immediate imm => d.setRegisterInterval dst (Interval.constant imm)
    | _, _ => d
  | .xor =>
    match (i.op 0).value, (i.op 1).value with
    | .register a, .register b =>
      if a = b then d.setRegisterInterval a (Interval.constant 0) else d
    | _, _ => d
  | .add => applyArith Interval.add true i d
  | .sub => applyArith Interval.sub true i d
  | .and => applyArith Interval.and true i d
  | .shl => applyArith Interval.shl false i d
  | .shr => applyArith Interval.shr false i d
  | _ => d

/-- The mnemonics after which nothing is invalidated. -/
def isTracked : ZydisMnemonic → Bool
  | .mov | .xor | .add | .sub | .and | .shl | .shr => true
  | _ => false

/-- The registers whose zero is not invalidated. -/
def keepsZero : ZydisRegister → Bool
  | .gpr64 .rax | .gpr32 .rax | .gpr64 .rcx | .gpr32 .rcx | .gpr64 .rdx | .gpr32 .rdx => true
  | _ => false

/-- The loop body over the operands: forget a written register that is not tracked. -/
def invalidateOperand (mnemonic : ZydisMnemonic) (d : IntervalDomain) (op : Operand) :
    IntervalDomain :=
  match op.value with
  | .register reg =>
    if op.visibility = .visHidden ∨ op.write = true then
      match d reg with
      | none => d
      | some iv =>
        if iv.isConstant ∧ iv.lo = 0 ∧ keepsZero reg = true then d
        else if isTracked mnemonic then d
        else d.erase reg
    else d
  | _ => d

/-- `ApplyInstruction`. -/
def applyInstruction (i : Instruction) (d : IntervalDomain) : IntervalDomain :=
  i.operands.foldl (invalidateOperand i.mnemonic) (applyResult i d)

/-! ## Branches -/

inductive PredicateResult
  | unknown
  | alwaysTrue
  | alwaysFalse
  deriving DecidableEq, Repr

/-- The register that a `test reg, reg` or `cmp reg, imm` looks at. -/
def testedRegister (prev : Instruction) : Option ZydisRegister :=
  match prev.mnemonic, (prev.op 0).value, (prev.op 1).value with
  | .test, .register a, .register b => if a = b then some a else none
  | .cmp, .register a, .immediate _ => some a
  | _, _, _ => none

/-- `EvaluateBranch`. -/
def evaluateBranch (branch : Instruction) (prev : Option Instruction) (d : IntervalDomain) :
    PredicateResult :=
  let verdict (b : Bool) : PredicateResult := if b then .alwaysTrue else .alwaysFalse
  match prev.bind testedRegister with
  | none => .unknown
  | some reg =>
    let regInterval := d.getRegisterInterval reg
    if regInterval.isConstant then
      let val := regInterval.lo
      match branch.mnemonic with
      | .jz => verdict (decide (val = 0))
      | .jnz => verdict (decide (val ≠ 0))
      | .js => verdict (val.slt 0)
      | .jns => verdict (!val.slt 0)
      | _ => .unknown
    else .unknown

/-! ## Blocks and functions -/

/-- Record a decided branch. -/
def Function.recordOpaquePredicate (f : Function) (address : Nat) (result : Bool) : Function :=
  { f with
    hasOpaquePredicates := true
    opaquePredicateAddresses := f.opaquePredicateAddresses.insert address
    opaquePredicateResults := f.opaquePredicateResults.insert address result }

/-- What goes through the instructions of a block. -/
structure IntervalState where
  domain : IntervalDomain
  prevInsn : Option Instruction
  function : Function

/-- The loop body of `AnalyzeBasicBlock`. -/
def intervalInsn (s : IntervalState) (insn : ExtendedInstruction) : IntervalState :=
  let pred :=
    if insn.instruction.category = .condBr then
      evaluateBranch insn.instruction s.prevInsn s.domain
    else .unknown
  { domain := applyInstruction insn.instruction s.domain
    prevInsn := some insn.instruction
    function :=
      if pred = .unknown then s.function
      else s.function.recordOpaquePredicate insn.address (decide (pred = .alwaysTrue)) }

/-- `AnalyzeBasicBlock`: the first instruction of a block has no predecessor. -/
def intervalBlock (m : Module) (s : IntervalState) (b : BasicBlock) : IntervalState :=
  (m.blockInsns b).foldl intervalInsn { s with prevInsn := none }

/-- `AbstractInterpretationPass::AnalyzeFunction`. -/
def intervalFunction (m : Module) (f : Function) : Function :=
  (f.basicBlocks.foldl (intervalBlock m) ⟨IntervalDomain.empty, none, f⟩).function

/-- `AbstractInterpretationPass::Run`. -/
def abstractInterpretation (ctx : AnalysisContext) : AnalysisContext :=
  { ctx with module :=
    { ctx.module with functions := ctx.module.functions.map (intervalFunction ctx.module) } }

end ReWizard
