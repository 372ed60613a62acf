import ReWizard.Analysis.Machine
import ReWizard.Lib.BitwiseRange
import ReWizard.Analysis.Proof.IntervalSoundness
import Mathlib.Algebra.Order.Ring.Int

/-!
# Shifts of intervals

The processor takes a shift count modulo 64 and shifts in zeros on both sides. `Interval::Shl` and
`Shr` shift one bound by one bound as `int64_t`, the right shift with the sign, and give ranges that
begin at 0. `shiftSound_iff` says for which intervals the results have those of the processor on all
values, with every shift that is executed in range:

* `shl_sound_iff`: `Shl` on intervals with a value, when its own shift is in range;
* `shr_sound_iff`: `Shr` on intervals with a value.
-/

namespace ReWizard

open BitwiseRange

/-! ## Shifts of the processor -/

theorem ArithOp.shl_result_64 (v w : BitVec 64) :
    ArithOp.shl.result 64 v w = v <<< (w.toNat % 64) :=
  signExtendFrom_64 _

theorem ArithOp.shr_result_64 (v w : BitVec 64) :
    ArithOp.shr.result 64 v w = v >>> (w.toNat % 64) := by
  refine (signExtendFrom_64 _).trans ?_
  rw [BitVec.setWidth_eq, BitVec.setWidth_eq]
  rfl

/-- The count as a remainder of the signed number. -/
theorem toNat_mod_64 (w : BitVec 64) : ((w.toNat % 64 : Nat) : Int) = w.toInt % 64 := by
  have := BitVec.toInt_eq_toNat_cond w
  omega

/-- A shift to the left that has room multiplies. -/
theorem toInt_shiftLeft_of_le {x : BitVec 64} {c : Nat} (hlo : -2 ^ 63 ≤ x.toInt * 2 ^ c)
    (hhi : x.toInt * 2 ^ c < 2 ^ 63) : (x <<< c).toInt = x.toInt * 2 ^ c := by
  rw [toInt_shiftLeft_eq]
  exact Int.bmod_eq_of_le (by omega) (by omega)

namespace Interval

/-- The results of `Shl` and `Shr` have what the processor computes from the values in `a` with the
counts in `b`, and no shift that the two execute is out of range. -/
structure ShiftSound (a b : Interval) : Prop where
  shl : ∀ v w, a.contains v = true → b.contains w = true →
    (a.shl b).contains (ArithOp.shl.result 64 v w) = true
  shr : ∀ v w, a.contains v = true → b.contains w = true →
    (a.shr b).contains (ArithOp.shr.result 64 v w) = true
  shlDefined : (a.shl? b).isSome = true
  shrDefined : (a.shr? b).isSome = true

/-- What two constants shift: without overflow, and a negative number only by 0. -/
structure ConstantShift (x n : BitVec 64) : Prop where
  count : IsShiftCount n
  fits : ShiftFits x n
  sign : 0 ≤ x.toInt ∨ n = 0

/-- What other intervals shift: the upper bound by the upper bound, without overflow. If both have
values, none in `a` is negative. One in `b` may only be negative if `a` is a constant all of whose
bits this count shifts out. -/
structure RangeShift (a b : Interval) : Prop where
  count : IsShiftCount b.hi
  fits : ShiftFits a.hi b.hi
  nonneg : a.Nonempty → b.Nonempty → 0 ≤ a.lo.toInt
  counts : a.Nonempty → b.Nonempty → 0 ≤ b.lo.toInt ∨
    (a.isConstant = true ∧ 2 ^ (-b.lo.toInt).toNat ∣ a.lo.toNat)

section

variable {a b : Interval}

/-! ## Right shifts -/

theorem toInt_ushiftRight_lt (v : BitVec 64) {c : Nat} (hc : 0 < c) (hc' : c ≤ 64) :
    0 ≤ (v >>> c).toInt ∧ (v >>> c).toInt < 2 ^ (64 - c) := by
  have hlt := BitVec.toNat_ushiftRight_lt v c hc'
  rw [BitVec.toInt_ushiftRight_of_lt hc]
  rw [BitVec.toNat_ushiftRight] at hlt
  exact ⟨Int.natCast_nonneg _, by exact_mod_cast hlt⟩

/-- The bits that are left of -1 are all set. -/
theorem le_toInt_ushiftRight {v : BitVec 64} (hv : v.toInt = -1) {c : Nat} (hc : 0 < c)
    (hc' : c ≤ 64) : 2 ^ (64 - c) ≤ (v >>> c).toInt + 1 := by
  have hnat : v.toNat = 2 ^ 64 - 1 := by
    have := BitVec.toInt_eq_toNat_cond v
    have := v.isLt
    omega
  have hdiv : 2 ^ (64 - c) - 1 ≤ v.toNat / 2 ^ c := by
    rw [Nat.le_div_iff_mul_le (Nat.two_pow_pos c), Nat.sub_mul, ← Nat.pow_add,
      Nat.sub_add_cancel hc', hnat, Nat.one_mul]
    exact Nat.sub_le_sub_left (Nat.two_pow_pos c) _
  rw [BitVec.toInt_ushiftRight_of_lt hc, Nat.shiftRight_eq_div_pow]
  have hcast : ((2 ^ (64 - c) : Nat) : Int) ≤ (v.toNat / 2 ^ c + 1 : Nat) :=
    Int.ofNat_le.mpr (by omega)
  exact_mod_cast hcast

/-- -1 is shifted below a bound by all counts of an interval: none of them is a multiple of 64, and
the least one, which is the lower bound, leaves the most bits. -/
theorem counts_of_ushiftRight_le (hb : b.isBottom = false) (heb : b.Nonempty) {v : BitVec 64}
    (hv : v.toInt = -1) {bound : Int} (h : ∀ w, b.contains w = true →
      0 ≤ (v >>> (w.toNat % 64)).toInt ∧ (v >>> (w.toNat % 64)).toInt ≤ bound) :
    b.lo.toInt / 64 = b.hi.toInt / 64 ∧ 0 < b.lo.toInt % 64 ∧
      2 ^ (64 - (b.lo.toInt % 64).toNat) ≤ bound + 1 := by
  have hcount : ∀ x, b.lo.toInt ≤ x → x ≤ b.hi.toInt → 0 < x % 64 := by
    intro x hlo hhi
    obtain ⟨w, hw, rfl⟩ := exists_contains hb hlo hhi
    by_contra hzero
    have hmod : w.toNat % 64 = 0 := by
      have := toNat_mod_64 w
      omega
    have hnonneg := (h w hw).1
    rw [hmod, BitVec.ushiftRight_zero, hv] at hnonneg
    exact absurd hnonneg (by decide)
  have hlo := hcount b.lo.toInt (Int.le_refl _) heb
  have hmod := toNat_mod_64 b.lo
  refine ⟨?_, hlo, ?_⟩
  · by_contra hne
    have hle : b.lo.toInt ≤ b.hi.toInt := heb
    have := hcount (64 * (b.hi.toInt / 64)) (by omega) (by omega)
    omega
  · have hpow := le_toInt_ushiftRight hv (c := b.lo.toNat % 64) (by omega) (by omega)
    have hbound := (h b.lo (heb.contains_lo hb)).2
    rw [← hmod, Int.toNat_natCast]
    omega

/-- `Shr` on intervals with a value that are not both constants. Below 0, the counts must not be 0
for the processor, and what they leave of the bits must not be above the upper bound. -/
theorem shr_sound_iff (ha : a.isBottom = false) (hb : b.isBottom = false)
    (hconst : (a.isConstant && b.isConstant) = false) (hea : a.Nonempty) (heb : b.Nonempty) :
    (∀ v w, a.contains v = true → b.contains w = true →
      (a.shr b).contains (ArithOp.shr.result 64 v w) = true) ↔
      0 ≤ a.lo.toInt ∨ (b.lo.toInt / 64 = b.hi.toInt / 64 ∧ 0 < b.lo.toInt % 64 ∧
        2 ^ (64 - (b.lo.toInt % 64).toNat) ≤ a.hi.toInt + 1) := by
  rw [shr_of_not_isConstant ha hb hconst]
  simp only [ArithOp.shr_result_64]
  constructor
  · intro h
    by_contra hcon
    rw [not_or, not_le] at hcon
    obtain ⟨hneg, hcon⟩ := hcon
    have hhi : 0 ≤ a.hi.toInt := by
      obtain ⟨hlo, hhi⟩ := contains_range_iff.mp (h _ _ (hea.contains_hi ha) (heb.contains_hi hb))
      exact Int.le_trans hlo hhi
    obtain ⟨v, hv, hone⟩ := exists_contains ha (x := -1) (by omega) (by omega)
    exact hcon (counts_of_ushiftRight_le hb heb hone fun w hw => contains_range_iff.mp (h v w hv hw))
  · intro h v w hv hw
    obtain ⟨hva, hvb⟩ := (contains_iff ha).mp hv
    obtain ⟨hwa, hwb⟩ := (contains_iff hb).mp hw
    rw [contains_range_iff]
    by_cases hv0 : 0 ≤ v.toInt
    · obtain ⟨hlo, hhi⟩ := toInt_ushiftRight_mem hv0 (w.toNat % 64)
      exact ⟨hlo, hhi.trans hvb⟩
    · obtain ⟨hblock, hpos, hpow⟩ := h.resolve_left (by omega)
      have hmod := toNat_mod_64 w
      obtain ⟨hlo, hhi⟩ := toInt_ushiftRight_lt v (c := w.toNat % 64) (by omega) (by omega)
      refine ⟨hlo, Int.le_of_lt_add_one (hhi.trans_le (le_trans ?_ hpow))⟩
      exact pow_le_pow_right₀ (by decide) (by omega)

/-! ## Left shifts -/

/-- The shift of the upper bounds. -/
theorem toInt_shiftLeft_hi {x n : BitVec 64} (hn : IsShiftCount n) (hfits : ShiftFits x n) :
    (x <<< (n.toNat % 64)).toInt = x.toInt * 2 ^ n.toNat := by
  rw [hn.toNat_mod]
  exact toInt_shiftLeft_of_le hfits.1 hfits.2

/-- A number that is not negative, by a count that is not: below the result for greater ones. -/
theorem toInt_shiftLeft_mem {x v n w : BitVec 64} (hn : IsShiftCount n) (hfits : ShiftFits x n)
    (hv : 0 ≤ v.toInt) (hvx : v.toInt ≤ x.toInt) (hw : 0 ≤ w.toInt) (hwn : w.toInt ≤ n.toInt) :
    0 ≤ (v <<< (w.toNat % 64)).toInt ∧
      (v <<< (w.toNat % 64)).toInt ≤ (x <<< (n.toNat % 64)).toInt := by
  have hcount : IsShiftCount w := ⟨hw, hwn.trans hn.2⟩
  have hle : w.toNat ≤ n.toNat := (toInt_mem_iff hn.1).mp ⟨hw, hwn⟩
  have hpow : ∀ c, (0 : Int) < 2 ^ c := fun c => Int.pow_pos (by decide)
  have hnonneg : 0 ≤ v.toInt * 2 ^ w.toNat := Int.mul_nonneg hv (Int.le_of_lt (hpow _))
  have hmono : v.toInt * 2 ^ w.toNat ≤ x.toInt * 2 ^ n.toNat :=
    mul_le_mul hvx (pow_le_pow_right₀ (by decide) hle) (Int.le_of_lt (hpow _)) (hv.trans hvx)
  have hvw : ShiftFits v w := ⟨(by decide : (-2 ^ 63 : Int) ≤ 0).trans hnonneg,
    hmono.trans_lt hfits.2⟩
  rw [toInt_shiftLeft_hi hcount hvw, toInt_shiftLeft_hi hn hfits]
  exact ⟨hnonneg, hmono⟩

/-- -1 stays negative. -/
theorem toInt_shiftLeft_neg_one {v : BitVec 64} (hv : v.toInt = -1) {c : Nat} (hc : c < 64) :
    (v <<< c).toInt < 0 := by
  have hone : v = BitVec.allOnes 64 := BitVec.eq_of_toInt_eq (hv.trans rfl)
  rw [← not_le, toInt_shiftLeft_nonneg_iff hc, hone, BitVec.toNat_allOnes,
    Nat.testBit_two_pow_sub_one]
  simp only [decide_eq_false_iff_not, not_not]
  omega

/-- A negative count shifts a bit of a number into the sign. -/
theorem testBit_of_shiftLeft_nonneg {v w : BitVec 64} {t : Nat} (ht : t < 64)
    (hw : w.toInt = -((t : Int) + 1)) (h : 0 ≤ (v <<< (w.toNat % 64)).toInt) :
    v.toNat.testBit t = false := by
  have hmod := toNat_mod_64 w
  rw [toInt_shiftLeft_nonneg_iff (by omega)] at h
  rwa [show 64 - 1 - w.toNat % 64 = t by omega] at h

/-- A number that no count of an interval makes negative has the bits clear that the negative counts
shift into the sign or out. -/
theorem dvd_of_shiftLeft_nonneg (hb : b.isBottom = false) (hhi : 0 ≤ b.hi.toInt) {v : BitVec 64}
    (h : ∀ w, b.contains w = true → 0 ≤ (v <<< (w.toNat % 64)).toInt) :
    2 ^ (-b.lo.toInt).toNat ∣ v.toNat := by
  refine two_pow_dvd_iff.mpr fun t ht => ?_
  by_cases ht64 : t < 64
  · obtain ⟨w, hw, hwt⟩ := exists_contains hb (x := -((t : Int) + 1)) (by omega) (by omega)
    exact testBit_of_shiftLeft_nonneg ht64 hwt (h w hw)
  · have hpow : 2 ^ 64 ≤ 2 ^ t := Nat.pow_le_pow_right (by decide) (by omega)
    exact Nat.testBit_lt_two_pow (v.isLt.trans_le hpow)

/-- Such a number is shifted out by a negative count of the interval. -/
theorem shiftLeft_eq_zero_of_neg {v w lo : BitVec 64} (hdvd : 2 ^ (-lo.toInt).toNat ∣ v.toNat)
    (hlo : lo.toInt ≤ w.toInt) (hw : w.toInt < 0) : v <<< (w.toNat % 64) = 0 := by
  have hmod := toNat_mod_64 w
  have hle : (-w.toInt).toNat ≤ (-lo.toInt).toNat := by omega
  exact shiftLeft_eq_zero_of_dvd ((Nat.pow_dvd_pow 2 hle).trans hdvd) (by omega)

/-- Two neighbours are not both even. -/
theorem isConstant_of_even (ha : a.isBottom = false) (hea : a.Nonempty) (hlo : 0 ≤ a.lo.toInt)
    (h : ∀ v, a.contains v = true → 2 ∣ v.toNat) : a.isConstant = true := by
  refine (isConstant_iff ha).mpr ?_
  by_contra hne
  have hle : a.lo.toInt ≤ a.hi.toInt := hea
  have hlt : a.lo.toInt ≠ a.hi.toInt := fun heq => hne (BitVec.eq_of_toInt_eq heq)
  obtain ⟨v, hv, hsucc⟩ := exists_contains ha (x := a.lo.toInt + 1) (by omega) (by omega)
  have heven := h v hv
  have hlow := h a.lo (hea.contains_lo ha)
  rw [toInt_eq_toNat hlo, toInt_eq_toNat (by omega)] at hsucc
  omega

/-- `Shl` on intervals with a value that are not both constants, when the bounds can be shifted.
Counts below 0 are counts from 63 down for the processor: each of them moves another bit of a value
into the sign. -/
theorem shl_sound_iff (ha : a.isBottom = false) (hb : b.isBottom = false)
    (hconst : (a.isConstant && b.isConstant) = false) (hea : a.Nonempty) (heb : b.Nonempty)
    (hcount : IsShiftCount b.hi) (hfits : ShiftFits a.hi b.hi) :
    (∀ v w, a.contains v = true → b.contains w = true →
      (a.shl b).contains (ArithOp.shl.result 64 v w) = true) ↔
      0 ≤ a.lo.toInt ∧ (0 ≤ b.lo.toInt ∨
        (a.isConstant = true ∧ 2 ^ (-b.lo.toInt).toNat ∣ a.lo.toNat)) := by
  rw [shl_of_not_isConstant ha hb hconst]
  simp only [ArithOp.shl_result_64]
  constructor
  · intro h
    have hnonneg : ∀ v w, a.contains v = true → b.contains w = true →
        0 ≤ (v <<< (w.toNat % 64)).toInt := fun v w hv hw => (contains_range_iff.mp (h v w hv hw)).1
    have hhi : 0 ≤ a.hi.toInt := by
      have := hnonneg _ _ (hea.contains_hi ha) (heb.contains_hi hb)
      rw [toInt_shiftLeft_hi hcount hfits] at this
      exact nonneg_of_mul_nonneg_left this (Int.pow_pos (by decide))
    have hlo : 0 ≤ a.lo.toInt := by
      by_contra hneg
      obtain ⟨v, hv, hone⟩ := exists_contains ha (x := -1) (by omega) (by omega)
      have := hnonneg v b.hi hv (heb.contains_hi hb)
      exact absurd this (not_le.mpr (toInt_shiftLeft_neg_one hone (Nat.mod_lt _ (by decide))))
    refine ⟨hlo, or_iff_not_imp_left.mpr fun hblo => ?_⟩
    have hdvd : ∀ v, a.contains v = true → 2 ^ (-b.lo.toInt).toNat ∣ v.toNat := fun v hv =>
      dvd_of_shiftLeft_nonneg hb hcount.1 fun w hw => hnonneg v w hv hw
    have htwo : 2 ∣ 2 ^ (-b.lo.toInt).toNat := dvd_pow_self 2 (by omega)
    exact ⟨isConstant_of_even ha hea hlo fun v hv => htwo.trans (hdvd v hv),
      hdvd _ (hea.contains_lo ha)⟩
  · rintro ⟨hlo, hcounts⟩ v w hv hw
    obtain ⟨hva, hvb⟩ := (contains_iff ha).mp hv
    obtain ⟨hwa, hwb⟩ := (contains_iff hb).mp hw
    rw [contains_range_iff]
    by_cases hw0 : 0 ≤ w.toInt
    · exact toInt_shiftLeft_mem hcount hfits (hlo.trans hva) hvb hw0 hwb
    · obtain ⟨hac, hdvd⟩ := hcounts.resolve_left (by omega)
      rw [← eq_of_contains hac hv] at hdvd
      rw [shiftLeft_eq_zero_of_neg hdvd hwa (not_le.mp hw0)]
      have hself := toInt_shiftLeft_mem (v := a.hi) hcount hfits (hlo.trans hea) (Int.le_refl _)
        hcount.1 (Int.le_refl _)
      exact ⟨Int.le_refl _, hself.1⟩

/-! ## Results -/

theorem isSome_shiftLeft?_iff {x n : BitVec 64} :
    (shiftLeft? x n).isSome = true ↔ IsShiftCount n ∧ ShiftFits x n := by
  unfold shiftLeft?
  exact Option.isSome_ite

theorem isSome_shiftRight?_iff {x n : BitVec 64} :
    (shiftRight? x n).isSome = true ↔ IsShiftCount n := by
  unfold shiftRight?
  exact Option.isSome_ite

/-- The right shift with the sign is the one of the processor. -/
theorem sshiftRight_eq_iff {x n : BitVec 64} (hn : IsShiftCount n) :
    x >>> (n.toNat % 64) = x.sshiftRight (n.toNat % 64) ↔ 0 ≤ x.toInt ∨ n = 0 := by
  constructor
  · intro heq
    by_contra hcon
    rw [not_or] at hcon
    have hmod := hn.toNat_mod
    have hpos : n.toNat ≠ 0 := fun h => hcon.2 (BitVec.eq_of_toNat_eq h)
    have hnonneg := (toInt_ushiftRight_lt x (c := n.toNat % 64) (by omega) (by omega)).1
    rw [heq, toInt_nonneg_iff, BitVec.msb_sshiftRight, ← toInt_nonneg_iff] at hnonneg
    exact hcon.1 hnonneg
  · rintro (hx | rfl)
    · exact (BitVec.sshiftRight_eq_of_msb_false (toInt_nonneg_iff.mp hx)).symm
    · exact (BitVec.ushiftRight_zero x).trans BitVec.sshiftRight_zero.symm

/-- On two constants. -/
theorem shiftSound_constant_iff {x n : BitVec 64} :
    ShiftSound (constant x) (constant n) ↔ ConstantShift x n := by
  have hx := isConstant_constant x
  have hn := isConstant_constant n
  have hshl? : ((constant x).shl? (constant n)).isSome = (shiftLeft? x n).isSome := by
    unfold shl?
    rw [hx, hn]
    exact Option.isSome_map
  have hshr? : ((constant x).shr? (constant n)).isSome = (shiftRight? x n).isSome := by
    unfold shr?
    rw [hx, hn]
    exact Option.isSome_map
  constructor
  · intro h
    obtain ⟨hcount, hfits⟩ := isSome_shiftLeft?_iff.mp (hshl? ▸ h.shlDefined)
    have hshr := h.shr x n (contains_constant x) (contains_constant n)
    rw [shr_of_isConstant hx hn, contains_constant_iff, ArithOp.shr_result_64] at hshr
    exact ⟨hcount, hfits, (sshiftRight_eq_iff hcount).mp hshr⟩
  · rintro ⟨hcount, hfits, hsign⟩
    refine ⟨?_, ?_, hshl? ▸ isSome_shiftLeft?_iff.mpr ⟨hcount, hfits⟩,
      hshr? ▸ isSome_shiftRight?_iff.mpr hcount⟩
    · intro v w hv hw
      rw [contains_constant_iff.mp hv, contains_constant_iff.mp hw, shl_of_isConstant hx hn,
        contains_constant_iff, ArithOp.shl_result_64]
      rfl
    · intro v w hv hw
      rw [contains_constant_iff.mp hv, contains_constant_iff.mp hw, shr_of_isConstant hx hn,
        contains_constant_iff, ArithOp.shr_result_64]
      exact (sshiftRight_eq_iff hcount).mpr hsign

/-- On intervals that are not both constants. -/
theorem shiftSound_range_iff (ha : a.isBottom = false) (hb : b.isBottom = false)
    (hconst : (a.isConstant && b.isConstant) = false) : ShiftSound a b ↔ RangeShift a b := by
  have hshl? : (a.shl? b).isSome = (shiftLeft? a.hi b.hi).isSome := by
    unfold shl?
    rw [ha, hb, hconst]
    exact Option.isSome_map
  have hshr? : (a.shr? b).isSome = true := by
    unfold shr?
    rw [ha, hb, hconst]
    rfl
  constructor
  · intro h
    obtain ⟨hcount, hfits⟩ := isSome_shiftLeft?_iff.mp (hshl? ▸ h.shlDefined)
    have hvalues := fun hea heb => (shl_sound_iff ha hb hconst hea heb hcount hfits).mp h.shl
    exact ⟨hcount, hfits, fun hea heb => (hvalues hea heb).1, fun hea heb => (hvalues hea heb).2⟩
  · intro h
    refine ⟨?_, ?_, hshl? ▸ isSome_shiftLeft?_iff.mpr ⟨h.count, h.fits⟩, hshr?⟩
    · refine forall_of_nonempty ha hb fun hea heb => ?_
      exact (shl_sound_iff ha hb hconst hea heb h.count h.fits).mpr
        ⟨h.nonneg hea heb, h.counts hea heb⟩
    · refine forall_of_nonempty ha hb fun hea heb => ?_
      exact (shr_sound_iff ha hb hconst hea heb).mpr (.inl (h.nonneg hea heb))

end

/-- **Shifts**: `Shl` and `Shr` are sound on two intervals, with every shift in range, if and only if
the constants or else the bounds are such that nothing is lost. -/
theorem shiftSound_iff (a b : Interval) (ha : a.isBottom = false) (hb : b.isBottom = false) :
    ShiftSound a b ↔
      if a.isConstant && b.isConstant then ConstantShift a.lo b.lo else RangeShift a b := by
  cases hconst : (a.isConstant && b.isConstant) with
  | true =>
    obtain ⟨hac, hbc⟩ := Bool.and_eq_true_iff.mp hconst
    rw [if_pos rfl, ← shiftSound_constant_iff, ← isConstant_eq hac, ← isConstant_eq hbc]
  | false =>
    rw [if_neg Bool.false_ne_true]
    exact shiftSound_range_iff ha hb hconst

/-- Some values, by some counts. -/
theorem shiftSound_bytes : ShiftSound (range 0 255) (range 0 8) :=
  (shiftSound_iff (range 0 255) (range 0 8) rfl rfl).mpr
    ⟨by decide, by decide, fun _ _ => by decide, fun _ _ => .inl (by decide)⟩

/-- A register of which nothing is known, shifted to the left by 1: the shift of its upper bound
overflows, and the result has no value at all. -/
theorem top_shl_one_not_sound : ¬ ShiftSound top (constant 1) := by
  intro h
  exact absurd (h.shl 0 1 (by decide) (by decide)) (by decide)

end Interval

end ReWizard
