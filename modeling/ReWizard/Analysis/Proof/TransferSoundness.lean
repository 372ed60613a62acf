import ReWizard.Analysis.Proof.BranchVerdicts
import ReWizard.Analysis.Proof.WrittenRegisters
import ReWizard.Lib.ResidueRange

/-!
# Soundness of the transfer function

When the registers have their intervals before an instruction, do those that still have one after
`applyInstruction` have it too? A register may have the wrong interval for two reasons:

* the interval of the result is wrong, since the bounds wrap around (`Interval.add`,
  `Interval.sub`), the result is not in `[0, hi]` (`Interval.and`, `Interval.shl`, `Interval.shr`),
  or the operation differs from the one at the width of the register (`ArithOp.Fits`);
* the pass keeps the old interval of a name of which the instruction writes bits (`KeepsStale`): the
  operand loop only erases the very name that is written, erases nothing after the mnemonics it
  takes for tracked, also when the first part of `ApplyInstruction` did not set the register
  (`mov` from memory), and does not erase a zero of RAX, RCX and RDX. Then the interval has to have
  every value that the instruction may leave there.

`applyInstruction_contains_iff` says that there is no other, over all executions of the instruction.
-/

namespace ReWizard

open ResidueRange

/-! ## Registers in their intervals -/

/-- Some number of the interval has the bits of `v`, a number that is sign-extended from `width`. -/
def Interval.HasBits (iv : Interval) (width : Nat) (v : BitVec 64) : Prop :=
  ∃ x, iv.contains x = true ∧ v = signExtendFrom width x

/-- Every register with an interval is in it: it has the bits of a number of the interval. -/
def IntervalDomain.Contains (d : IntervalDomain) (s : ProcessorState) : Prop :=
  ∀ n iv, d n = some iv → iv.HasBits n.width (s.read n)

theorem IntervalDomain.Contains.covers {d : IntervalDomain} {s : ProcessorState}
    (h : d.Contains s) : d.Covers s.toMachine := fun n w iv hw hd => by
  obtain ⟨x, hx, hread⟩ := h n iv hd
  refine ⟨x, hx, ?_⟩
  rw [ProcessorState.read?_of_some hw, hread, ZydisRegister.width_of_some hw]

/-- What a name reads is sign-extended. -/
theorem ProcessorState.signExtendFrom_read (s : ProcessorState) (n : ZydisRegister) :
    signExtendFrom n.width (s.read n) = s.read n := by
  cases h : n.view? with
  | none => rw [ZydisRegister.width_of_none h, signExtendFrom_64]
  | some w =>
    rw [read_of_some h, ZydisRegister.width_of_some h,
      signExtendFrom_idem (ZydisRegister.view?_width h)]

/-- A register without an interval may have any value. -/
theorem IntervalDomain.Contains.hasBits {d : IntervalDomain} {s : ProcessorState}
    (h : d.Contains s) (n : ZydisRegister) :
    (d.getRegisterInterval n).HasBits n.width (s.read n) := by
  unfold getRegisterInterval
  cases hd : d n with
  | none => exact ⟨s.read n, Interval.contains_top _, (s.signExtendFrom_read n).symm⟩
  | some iv => exact h n iv hd

theorem Interval.HasBits.isBottom {iv : Interval} {width : Nat} {v : BitVec 64}
    (h : iv.HasBits width v) : iv.isBottom = false := by
  obtain ⟨x, hx, -⟩ := h
  exact isBottom_of_contains hx

/-! ## Bits of the numbers in a range -/

theorem signExtendFrom_inj {width : Nat} (h : width ≤ 64) (x y : BitVec 64) :
    signExtendFrom width x = signExtendFrom width y ↔ x.setWidth width = y.setWidth width := by
  constructor
  · intro heq
    rw [← setWidth_signExtendFrom h x, heq, setWidth_signExtendFrom h y]
  · intro heq
    unfold signExtendFrom
    rw [heq]

theorem Interval.hasBits_range_iff {width : Nat} (h : width ≤ 64) (lo hi r : BitVec 64) :
    (range lo hi).HasBits width (signExtendFrom width r) ↔
      Meets (2 ^ width : Nat) lo.toInt hi.toInt r.toInt := by
  unfold HasBits Meets
  constructor
  · rintro ⟨x, hx, heq⟩
    obtain ⟨hlo, hhi⟩ := contains_range_iff.mp hx
    refine ⟨x.toInt, hlo, hhi, ?_⟩
    exact ((BitVec.setWidth_eq_iff h r x).mp ((signExtendFrom_inj h r x).mp heq)).symm
  · rintro ⟨z, hlo, hhi, hz⟩
    have hmin := BitVec.le_toInt lo
    have hmax := BitVec.toInt_lt (x := hi)
    have hint : (BitVec.ofInt 64 z).toInt = z := by
      rw [BitVec.toInt_ofInt]
      exact Int.bmod_eq_of_le (by omega) (by omega)
    refine ⟨BitVec.ofInt 64 z, contains_range_iff.mpr (by omega), ?_⟩
    rw [signExtendFrom_inj h, BitVec.setWidth_eq_iff h, hint, hz]

theorem Interval.hasBits_constant_iff {width : Nat} (h : width ≤ 64) (c r : BitVec 64) :
    (constant c).HasBits width (signExtendFrom width r) ↔
      r.setWidth width = c.setWidth width := by
  rw [← signExtendFrom_inj h]
  constructor
  · rintro ⟨x, hx, heq⟩
    rw [heq, eq_of_contains (isConstant_constant c) hx]
    rfl
  · exact fun heq => ⟨c, contains_constant c, heq⟩

/-- In a range from zero on, a number is looked for among the unsigned numbers of the width. -/
theorem Interval.hasBits_zero_iff {width : Nat} (h : width ≤ 64) (hi r : BitVec 64) :
    (range 0 hi).HasBits width (signExtendFrom width r) ↔
      ((r.setWidth width).toNat : Int) ≤ hi.toInt := by
  have hzero : (0 : BitVec 64).toInt = 0 := rfl
  rw [hasBits_range_iff h, meets_iff (Int.natCast_pos.mpr (Nat.two_pow_pos width)), hzero,
    Int.sub_zero, Int.sub_zero, BitVec.toInt_emod h]

/-! ## Results -/

/-- The bounds `lo` and `hi` wrap around as `int64_t`, and the distance that is left has room for
the offset of a number with the low `width` bits of `r`. Without wrapping there is room for all
numbers between the bounds. -/
def RoomFor (width : Nat) (lo hi r : Int) : Prop :=
  (r - lo) % (2 ^ width : Nat) ≤ hi - lo - (2 ^ 64 : Nat) * (hi.bdiv (2 ^ 64) - lo.bdiv (2 ^ 64))

/-- The interval that the pass computes from the operands' intervals `A` and `B` has the result for
operands with the values `a` and `b`. -/
def ArithOp.Fits (width : Nat) (A B : Interval) (a b : BitVec 64) : ArithOp → Prop
  | .add =>
    RoomFor width (A.lo.toInt + B.lo.toInt) (A.hi.toInt + B.hi.toInt) (a.toInt + b.toInt)
  | .sub =>
    RoomFor width (A.lo.toInt - B.hi.toInt) (A.hi.toInt - B.lo.toInt) (a.toInt - b.toInt)
  | .and =>
    if A.isConstant && B.isConstant then
      (a &&& b).setWidth width = (A.lo &&& B.lo).setWidth width
    else (((a &&& b).setWidth width).toNat : Int) ≤ max A.hi.toInt B.hi.toInt
  | .shl =>
    let shifted := (a <<< (b.toNat % shiftLimit width)).setWidth width
    if A.isConstant && B.isConstant then
      b.toNat % 64 = b.toNat % shiftLimit width ∨ shifted = 0
    else (shifted.toNat : Int) ≤ (A.hi <<< (B.hi.toNat % 64)).toInt
  | .shr =>
    let shifted := a.setWidth width >>> (b.toNat % shiftLimit width)
    if A.isConstant && B.isConstant then
      shifted = (A.lo.sshiftRight (b.toNat % 64)).setWidth width
    else (shifted.toNat : Int) ≤ A.hi.toInt

section

variable {width : Nat} {A B : Interval} (hwidth : width ≤ 64) (hA : A.isBottom = false)
  (hB : B.isBottom = false)

/-- Bounds and a value that wrap around. -/
theorem hasBits_bmod_iff (hwidth : width ≤ 64) {lo hi r : BitVec 64} {l h x : Int}
    (hlo : lo.toInt = l.bmod (2 ^ 64)) (hhi : hi.toInt = h.bmod (2 ^ 64))
    (hr : r.toInt = x.bmod (2 ^ 64)) :
    (Interval.range lo hi).HasBits width (signExtendFrom width r) ↔ RoomFor width l h x := by
  have hpos : (0 : Int) < (2 ^ width : Nat) := Int.natCast_pos.mpr (Nat.two_pow_pos width)
  have hdvd : ((2 ^ width : Nat) : Int) ∣ (2 ^ 64 : Nat) :=
    Int.natCast_dvd_natCast.mpr (Nat.pow_dvd_pow 2 hwidth)
  rw [Interval.hasBits_range_iff hwidth, hlo, hhi, hr, meets_congr (bmod_emod_of_dvd hdvd x),
    meets_bmod_iff hpos hdvd]
  rfl

include hwidth hA hB

theorem add_hasBits_iff (a b : BitVec 64) :
    (A.add B).HasBits width (ArithOp.add.result width a b) ↔ ArithOp.add.Fits width A B a b := by
  rw [Interval.add_eq hA hB]
  exact hasBits_bmod_iff hwidth (BitVec.toInt_add ..) (BitVec.toInt_add ..) (BitVec.toInt_add ..)

theorem sub_hasBits_iff (a b : BitVec 64) :
    (A.sub B).HasBits width (ArithOp.sub.result width a b) ↔ ArithOp.sub.Fits width A B a b := by
  rw [Interval.sub_eq hA hB]
  exact hasBits_bmod_iff hwidth BitVec.toInt_sub BitVec.toInt_sub BitVec.toInt_sub

theorem and_hasBits_iff (a b : BitVec 64) :
    (A.and B).HasBits width (ArithOp.and.result width a b) ↔ ArithOp.and.Fits width A B a b := by
  have hresult : ArithOp.and.result width a b = signExtendFrom width (a &&& b) := rfl
  unfold ArithOp.Fits
  cases hconst : (A.isConstant && B.isConstant) with
  | true =>
    obtain ⟨hAc, hBc⟩ := Bool.and_eq_true_iff.mp hconst
    rw [Interval.and_of_isConstant hAc hBc, hresult, Interval.hasBits_constant_iff hwidth]
    rfl
  | false =>
    rw [Interval.and_of_not_isConstant hA hB hconst, hresult, Interval.hasBits_zero_iff hwidth,
      Interval.toInt_maxSigned]
    rfl

theorem shl_hasBits_iff {a b : BitVec 64} (hcases : width ≤ 32 ∨ width = 64)
    (ha : A.HasBits width a) (hb : B.contains b = true) :
    (A.shl B).HasBits width (ArithOp.shl.result width a b) ↔ ArithOp.shl.Fits width A B a b := by
  have hresult : ArithOp.shl.result width a b =
      signExtendFrom width (a <<< (b.toNat % shiftLimit width)) := rfl
  unfold ArithOp.Fits
  cases hconst : (A.isConstant && B.isConstant) with
  | true =>
    obtain ⟨hAc, hBc⟩ := Bool.and_eq_true_iff.mp hconst
    have hinterval : A.shl B = Interval.constant (A.lo <<< (b.toNat % 64)) := by
      rw [Interval.shl_of_isConstant hAc hBc, Interval.eq_of_contains hBc hb]
    obtain ⟨x, hx, rfl⟩ := ha
    have hlow : (signExtendFrom width x).setWidth width = A.lo.setWidth width := by
      rw [setWidth_signExtendFrom hwidth, Interval.eq_of_contains hAc hx]
    -- a count that the processor reduces shifts all bits of the constant out
    have hout : b.toNat % 64 ≠ b.toNat % shiftLimit width →
        A.lo.setWidth width <<< (b.toNat % 64) = 0 := fun hne => by
      refine BitVec.shiftLeft_eq_zero ?_
      unfold shiftLimit at hne
      split at hne
      · exact absurd rfl hne
      · omega
    rw [hinterval, hresult, Interval.hasBits_constant_iff hwidth]
    simp only [if_true, BitVec.setWidth_shiftLeft_of_le hwidth, hlow]
    constructor
    · intro heq
      by_cases hcount : b.toNat % 64 = b.toNat % shiftLimit width
      · exact .inl hcount
      · exact .inr (heq.trans (hout hcount))
    · rintro (hcount | hzero)
      · rw [hcount]
      · by_cases hcount : b.toNat % 64 = b.toNat % shiftLimit width
        · rw [hcount]
        · exact hzero.trans (hout hcount).symm
  | false =>
    rw [Interval.shl_of_not_isConstant hA hB hconst, hresult, Interval.hasBits_zero_iff hwidth]
    rfl

theorem shr_hasBits_iff {a b : BitVec 64} (hb : B.contains b = true) :
    (A.shr B).HasBits width (ArithOp.shr.result width a b) ↔ ArithOp.shr.Fits width A B a b := by
  have hresult : ArithOp.shr.result width a b =
      signExtendFrom width ((a.setWidth width).setWidth 64 >>> (b.toNat % shiftLimit width)) := rfl
  have hlow : ((a.setWidth width).setWidth 64 >>> (b.toNat % shiftLimit width)).setWidth width =
      a.setWidth width >>> (b.toNat % shiftLimit width) := by
    rw [← BitVec.setWidth_ushiftRight hwidth, BitVec.setWidth_setWidth_of_le _ hwidth,
      BitVec.setWidth_eq]
  unfold ArithOp.Fits
  cases hconst : (A.isConstant && B.isConstant) with
  | true =>
    obtain ⟨hAc, hBc⟩ := Bool.and_eq_true_iff.mp hconst
    have hinterval : A.shr B = Interval.constant (A.lo.sshiftRight (b.toNat % 64)) := by
      rw [Interval.shr_of_isConstant hAc hBc, Interval.eq_of_contains hBc hb]
    rw [hinterval, hresult, Interval.hasBits_constant_iff hwidth, hlow]
    rfl
  | false =>
    rw [Interval.shr_of_not_isConstant hA hB hconst, hresult, Interval.hasBits_zero_iff hwidth,
      hlow]
    rfl

end

/-- A number of the interval with the bits of the value. -/
theorem Interval.HasBits.exists_mem {iv : Interval} {width : Nat} {v : BitVec 64}
    (hwidth : width ≤ 64) (h : iv.HasBits width v) :
    ∃ x : Int, iv.lo.toInt ≤ x ∧ x ≤ iv.hi.toInt ∧ x ≡ v.toInt [ZMOD (2 ^ width : Nat)] := by
  obtain ⟨x, hx, rfl⟩ := h
  unfold contains at hx
  simp only [Bool.and_eq_true, BitVec.sle_iff_toInt_le] at hx
  refine ⟨x.toInt, hx.1.2, hx.2, ?_⟩
  exact (BitVec.setWidth_eq_iff hwidth _ _).mp (setWidth_signExtendFrom hwidth x).symm

theorem roomFor_of_bdiv_eq {width : Nat} {lo hi x r : Int} (hlo : lo ≤ x) (hhi : x ≤ hi)
    (hx : x ≡ r [ZMOD (2 ^ width : Nat)]) (h : hi.bdiv (2 ^ 64) = lo.bdiv (2 ^ 64)) :
    RoomFor width lo hi r := by
  have hpos : (0 : Int) < (2 ^ width : Nat) := Int.natCast_pos.mpr (Nat.two_pow_pos width)
  have hroom := offset_le_of_bdiv_eq hpos hlo hhi h
  unfold RoomFor
  rwa [← Int.ModEq.sub_right lo hx]

/-- A sum of operands of one width is in the interval when its bounds wrap alike. -/
theorem add_fits {width : Nat} {A B : Interval} {a b : BitVec 64} (hwidth : width ≤ 64)
    (ha : A.HasBits width a) (hb : B.HasBits width b)
    (h : (A.hi.toInt + B.hi.toInt).bdiv (2 ^ 64) = (A.lo.toInt + B.lo.toInt).bdiv (2 ^ 64)) :
    ArithOp.add.Fits width A B a b := by
  obtain ⟨x, hxlo, hxhi, hx⟩ := ha.exists_mem hwidth
  obtain ⟨y, hylo, hyhi, hy⟩ := hb.exists_mem hwidth
  exact roomFor_of_bdiv_eq (Int.add_le_add hxlo hylo) (Int.add_le_add hxhi hyhi) (hx.add hy) h

theorem sub_fits {width : Nat} {A B : Interval} {a b : BitVec 64} (hwidth : width ≤ 64)
    (ha : A.HasBits width a) (hb : B.HasBits width b)
    (h : (A.hi.toInt - B.lo.toInt).bdiv (2 ^ 64) = (A.lo.toInt - B.hi.toInt).bdiv (2 ^ 64)) :
    ArithOp.sub.Fits width A B a b := by
  obtain ⟨x, hxlo, hxhi, hx⟩ := ha.exists_mem hwidth
  obtain ⟨y, hylo, hyhi, hy⟩ := hb.exists_mem hwidth
  exact roomFor_of_bdiv_eq (Int.sub_le_sub hxlo hyhi) (Int.sub_le_sub hxhi hylo) (hx.sub hy) h

/-- Constants of one width have the conjunction of the operands. -/
theorem and_fits {width : Nat} {A B : Interval} {a b : BitVec 64} (hwidth : width ≤ 64)
    (ha : A.HasBits width a) (hb : B.HasBits width b)
    (hconst : (A.isConstant && B.isConstant) = true) : ArithOp.and.Fits width A B a b := by
  obtain ⟨hA, hB⟩ := Bool.and_eq_true_iff.mp hconst
  obtain ⟨x, hx, rfl⟩ := ha
  obtain ⟨y, hy, rfl⟩ := hb
  unfold ArithOp.Fits
  rw [if_pos hconst, BitVec.setWidth_and, BitVec.setWidth_and, setWidth_signExtendFrom hwidth,
    setWidth_signExtendFrom hwidth, Interval.eq_of_contains hA hx, Interval.eq_of_contains hB hy]

/-! ## The domain afterwards -/

/-- The operand loop erases the interval of the name. -/
def ExtendedInstruction.erases (i : ExtendedInstruction) (n : ZydisRegister) (iv : Interval) :
    Bool :=
  !isTracked i.instruction.mnemonic && i.instruction.operands.any (·.touches n) &&
    !(keepsZero n && decide (iv = Interval.constant 0))

theorem Interval.eq_constant_zero_iff (iv : Interval) :
    (iv.isConstant = true ∧ iv.lo = 0) ↔ iv = Interval.constant 0 := by
  constructor
  · rintro ⟨hconst, hzero⟩
    rw [isConstant_eq hconst, hzero]
  · rintro rfl
    exact ⟨rfl, rfl⟩

/-- What one operand leaves of the interval of a name. -/
theorem invalidateOperand_filter (mnemonic : ZydisMnemonic) (d : IntervalDomain) (op : Operand)
    (n : ZydisRegister) :
    invalidateOperand mnemonic d op n = (d n).filter fun iv =>
      !(!isTracked mnemonic && op.touches n &&
        !(keepsZero n && decide (iv = Interval.constant 0))) := by
  cases htouch : op.touches n with
  | false =>
    have hkeep : invalidateOperand mnemonic d op n = d n := by
      rcases invalidateOperand_cases mnemonic d op n with h | ⟨-, h, -⟩
      · exact h
      · rw [htouch] at h
        cases h
    rw [hkeep]
    cases d n <;> simp [Option.filter]
  | true =>
    unfold Operand.touches at htouch
    rw [Bool.and_eq_true, Bool.or_eq_true, decide_eq_true_eq, decide_eq_true_eq] at htouch
    unfold invalidateOperand
    rw [htouch.1]
    dsimp only
    rw [if_pos htouch.2]
    cases hd : d n with
    | none => exact hd
    | some iv =>
      have hzero := iv.eq_constant_zero_iff
      dsimp only [Option.filter]
      by_cases hkeep : iv.isConstant = true ∧ iv.lo = 0 ∧ keepsZero n = true
      · rw [if_pos hkeep, hd, if_pos]
        rw [hkeep.2.2, decide_eq_true (hzero.mp ⟨hkeep.1, hkeep.2.1⟩), Bool.true_and,
          Bool.not_true, Bool.and_false, Bool.not_false]
      · have hflag : (keepsZero n && decide (iv = Interval.constant 0)) = false := by
          refine Bool.eq_false_iff.mpr fun h => hkeep ?_
          obtain ⟨hn, hiv⟩ := Bool.and_eq_true_iff.mp h
          obtain ⟨hconst, hlo⟩ := hzero.mpr (of_decide_eq_true hiv)
          exact ⟨hconst, hlo, hn⟩
        rw [if_neg hkeep]
        cases isTracked mnemonic with
        | true => exact hd
        | false =>
          refine (if_pos rfl).trans (if_neg ?_).symm
          rw [hflag]
          decide

/-- What the operand loop leaves of the interval of a name. -/
theorem invalidate_filter (mnemonic : ZydisMnemonic) (n : ZydisRegister) :
    ∀ (ops : List Operand) (d : IntervalDomain),
      ops.foldl (invalidateOperand mnemonic) d n = (d n).filter fun iv =>
        !(!isTracked mnemonic && ops.any (·.touches n) &&
          !(keepsZero n && decide (iv = Interval.constant 0)))
  | [], d => by
    cases h : d n <;> simp [h, Option.filter]
  | op :: rest, d => by
    rw [List.foldl_cons, invalidate_filter mnemonic n rest, invalidateOperand_filter,
      Option.filter_filter]
    congr 1
    funext iv
    rw [List.any_cons]
    generalize (keepsZero n && decide (iv = Interval.constant 0)) = kept
    generalize (rest.any fun x => x.touches n) = touched
    cases isTracked mnemonic <;> cases op.touches n <;> cases kept <;> cases touched <;> rfl

/-- The destination gets the interval of the result. -/
theorem applyInstruction_dst {i : ExtendedInstruction} {a : Assignment} (ht : i.tracked = some a)
    (d : IntervalDomain) : applyInstruction i.instruction d a.dst = some (a.interval d) := by
  unfold applyInstruction
  rw [applyResult_eq, ht, invalidate_keeps (.inl (ExtendedInstruction.isTracked_of_tracked ht))]
  exact if_pos rfl

/-- Another name keeps its interval unless it is erased. -/
theorem applyInstruction_other {i : ExtendedInstruction} {n : ZydisRegister}
    (hn : ∀ a, i.tracked = some a → a.dst ≠ n) (d : IntervalDomain) :
    applyInstruction i.instruction d n = (d n).filter fun iv => !i.erases n iv := by
  have hresult : applyResult i.instruction d n = d n := by
    rw [applyResult_eq]
    cases ht : i.tracked with
    | none => rfl
    | some a => exact if_neg fun h => hn a ht h.symm
  unfold applyInstruction
  rw [invalidate_filter, hresult]
  rfl

/-! ## One instruction -/

/-- The second operand is not without a value. -/
theorem IntervalDomain.Contains.source_isBottom {d : IntervalDomain} {s : ProcessorState}
    (h : d.Contains s) (op : ArithOp) (v : OperandValue) :
    ((op.source v).interval d).isBottom = false := by
  cases v with
  | register m =>
    have hreg : ((ArithSource.register m).interval d).isBottom = false := (h.hasBits m).isBottom
    cases op with
    | add => exact hreg
    | sub => exact hreg
    | and => exact hreg
    | shl => rfl
    | shr => rfl
  | _ => cases op <;> rfl

/-- The interval of a shift count has the count. -/
theorem shiftSource_contains {v : OperandValue} {s : ProcessorState} {b : BitVec 64}
    (h : v.Gives s b) (d : IntervalDomain) :
    ((shiftSource v).interval d).contains b = true := by
  cases v with
  | immediate imm =>
    cases h
    exact Interval.contains_constant _
  | _ => exact Interval.contains_top b

/-- The interval of the result has the result if and only if it fits. -/
theorem arith_hasBits_iff {d : IntervalDomain} {s : ProcessorState} {b : BitVec 64}
    {v : OperandValue} (hd : d.Contains s) (hb : v.Gives s b) (op : ArithOp) (n : ZydisRegister) :
    ((Assignment.arith op n (op.source v)).interval d).HasBits n.width
        (op.result n.width (s.read n) b) ↔
      op.Fits n.width (d.getRegisterInterval n) ((op.source v).interval d) (s.read n) b := by
  have hn := hd.hasBits n
  have hbottom := hd.source_isBottom op v
  cases op with
  | add => exact add_hasBits_iff n.width_le hn.isBottom hbottom _ _
  | sub => exact sub_hasBits_iff n.width_le hn.isBottom hbottom _ _
  | and => exact and_hasBits_iff n.width_le hn.isBottom hbottom _ _
  | shl =>
    exact shl_hasBits_iff n.width_le hn.isBottom hbottom n.width_cases hn
      (shiftSource_contains hb d)
  | shr => exact shr_hasBits_iff n.width_le hn.isBottom hbottom (shiftSource_contains hb d)

/-- The name has an interval and bits that the instruction may write, and the pass neither computes
a new interval nor erases the old one. -/
structure KeepsStale (unnamed : ZydisRegister → Bool) (i : ExtendedInstruction) (d : IntervalDomain)
    (n : ZydisRegister) (iv : Interval) : Prop where
  keyed : d n = some iv
  written : i.disturbs unnamed n = true
  notComputed : ∀ a, i.tracked = some a → a.dst ≠ n
  notErased : i.erases n iv = false

/-- The result of a tracked operation fits, and a stale interval has every value that the written
bits may take. -/
structure TransferHolds (unnamed : ZydisRegister → Bool) (i : ExtendedInstruction)
    (d : IntervalDomain) (s : ProcessorState) (b : BitVec 64) : Prop where
  computed : ∀ op n src, i.tracked = some (.arith op n src) →
    op.Fits n.width (d.getRegisterInterval n) (src.interval d) (s.read n) b
  stale : ∀ n iv, KeepsStale unnamed i d n iv →
    ∀ v, i.MayRead unnamed s b n v → iv.HasBits n.width v

section

variable {unnamed : ZydisRegister → Bool} {i : ExtendedInstruction} {d : IntervalDomain}
  {s s' : ProcessorState} {b : BitVec 64} {writes : List (ZydisRegister × BitVec 64)}

/-- The destination of a tracked operation is in its new interval if and only if the result fits. -/
theorem Runs.computed_iff (h : Runs unnamed i s b writes s') (hd : d.Contains s) {op : ArithOp}
    {n : ZydisRegister} {src : ArithSource} (ht : i.tracked = some (.arith op n src)) :
    ((Assignment.arith op n src).interval d).HasBits n.width (s'.read n) ↔
      op.Fits n.width (d.getRegisterInterval n) (src.interval d) (s.read n) b := by
  have ha := ExtendedInstruction.assignment_of_tracked ht
  have hread : s'.read n = op.result n.width (s.read n) b := h.read_assigned ha
  have hsrc := ExtendedInstruction.arith_source ha
  rw [hread, hsrc]
  exact arith_hasBits_iff hd h.second op n

/-- A stale interval is there afterwards. -/
theorem KeepsStale.applyInstruction {n : ZydisRegister} {iv : Interval}
    (h : KeepsStale unnamed i d n iv) : applyInstruction i.instruction d n = some iv := by
  rw [applyInstruction_other h.notComputed, h.keyed]
  exact Option.filter_some_pos (by rw [h.notErased]; rfl)

end

/-- `add ebx, 1`. -/
def addEbxOne : ExtendedInstruction where
  instruction :=
    { mnemonic := .add, category := .other, length := 3, operandCountVisible := 2
      operands :=
        [⟨.visExplicit, true, false, 32, .register (.gpr32 .rbx)⟩,
          ⟨.visExplicit, false, false, 8, .immediate 1⟩,
          ⟨.visHidden, true, false, 64, .register .rflags⟩] }
  address := 0x1000

/-- EBX is 5 or 6, and RBX at most 9. -/
def smallRbx : IntervalDomain :=
  (IntervalDomain.empty.setRegisterInterval (.gpr32 .rbx) (Interval.range 5 6)).setRegisterInterval
    (.gpr64 .rbx) (Interval.range 0 9)

def fiveState : ProcessorState := ⟨⟨fun _ => 5, false, false⟩, fun _ => 0⟩

/-- The writes of the instruction, with some value of the flags. -/
def addEbxWrites : List (ZydisRegister × BitVec 64) := [(.gpr32 .rbx, 6), (.rflags, 0)]

/-- It names all registers that it changes. -/
def noneUnnamed : ZydisRegister → Bool := fun _ => false

theorem addEbxOne_runs :
    Runs noneUnnamed addEbxOne fiveState 1 addEbxWrites (fiveState.writeAll addEbxWrites) where
  second := rfl
  names := by decide
  operands n hn := by
    obtain ⟨op, hop, hvalue, hwrite⟩ := hn
    rcases List.mem_cons.mp hop with rfl | hop
    · cases hvalue
      exact ⟨6, List.mem_cons_self⟩
    · rcases List.mem_cons.mp hop with rfl | hop
      · cases hwrite
      · cases List.mem_singleton.mp hop
        cases hvalue
        exact ⟨0, List.mem_cons_of_mem _ List.mem_cons_self⟩
  effect e he := by
    cases he
    decide
  regs := rfl
  others := rfl
  flags z n hflags := by cases hflags

/-- Nothing is left in RBX but the sum. -/
theorem addEbxOne_mayLeave {x : BitVec 64} (h : addEbxOne.MayLeave fiveState 1 .rbx x) :
    x = 6 := by
  have hfree : addEbxOne.freeNames = [.rflags] := by decide
  cases h with
  | whole hname => rw [hfree] at hname; cases List.mem_singleton.mp hname
  | half hname _ => rw [hfree] at hname; cases List.mem_singleton.mp hname
  | parts _ hbits =>
    refine BitVec.eq_of_getLsbD_eq fun k hk => ?_
    rcases hbits k hk with hbit | ⟨m, hm, w, hview, -⟩
    · have hsum : (addEbxOne.settled fiveState 1).regs .rbx = 6 := by decide
      rw [hbit, hsum]
    · rw [hfree] at hm
      cases List.mem_singleton.mp hm
      cases hview

/-- `mov rbx, [rcx]`. -/
def movRbxMem : ExtendedInstruction where
  instruction :=
    { mnemonic := .mov, category := .other, length := 3, operandCountVisible := 2
      operands :=
        [⟨.visExplicit, true, false, 64, .register (.gpr64 .rbx)⟩,
          ⟨.visExplicit, false, false, 64, .memory ⟨.gpr64 .rcx, .none, 1, 0⟩⟩] }
  address := 0x1000

/-- RBX is known to be zero. -/
def rbxZero : IntervalDomain :=
  IntervalDomain.empty.setRegisterInterval (.gpr64 .rbx) (Interval.constant 0)

def zeroedState : ProcessorState := ⟨⟨fun _ => 0, false, false⟩, fun _ => 0⟩

end ReWizard
