import ReWizard.Lib.BitwiseRange
import ReWizard.Analysis.Proof.IntervalSoundness

/-!
# Bitwise operations on intervals

`Interval::And` and `Xor` compute constants from constants. From other intervals they take the
greater of the upper bounds, with 0 as the lower bound. `andXorSound_iff` says for which intervals
this range has the results for all their values.
-/

namespace ReWizard

open BitwiseRange

namespace Interval

/-- The results of `And` and `Xor` have the bitwise "and" and the exclusive "or" of the values in
`a` with the values in `b`. -/
structure AndXorSound (a b : Interval) : Prop where
  and : ∀ v w, a.contains v = true → b.contains w = true → (a.and b).contains (v &&& w) = true
  xor : ∀ v w, a.contains v = true → b.contains w = true → (a.xor b).contains (v ^^^ w) = true

/-- One interval has no negative value. If 0 is in both, it is the least value of both, and the
greater upper bound ends in at least as many ones as the other one has digits. -/
structure BitBounds (a b : Interval) : Prop where
  and : 0 ≤ a.lo.toInt ∨ 0 ≤ b.lo.toInt
  xor : a.contains 0 = true → b.contains 0 = true →
    a.lo = 0 ∧ b.lo = 0 ∧ Fills (min a.hi.toNat b.hi.toNat) (max a.hi.toNat b.hi.toNat)

section

variable {a b : Interval} (ha : a.isBottom = false) (hb : b.isBottom = false)

theorem contains_range_zero_iff {hi v : BitVec 64} (h : 0 ≤ hi.toInt) :
    (range 0 hi).contains v = true ↔ v.toNat ≤ hi.toNat :=
  contains_range_iff.trans (toInt_mem_iff h)

/-- The results on two constants. -/
theorem sound_of_isConstant (hac : a.isConstant = true) (hbc : b.isConstant = true) :
    AndXorSound a b := by
  constructor
  · intro v w hv hw
    rw [and_of_isConstant hac hbc, eq_of_contains hac hv, eq_of_contains hbc hw]
    exact contains_constant _
  · intro v w hv hw
    rw [xor_of_isConstant hac hbc, eq_of_contains hac hv, eq_of_contains hbc hw]
    exact contains_constant _

/-- Exclusive or on the values from zero on. -/
theorem forall_xor_iff {A B : BitVec 64} (hA : 0 ≤ A.toInt) (hB : 0 ≤ B.toInt) :
    (∀ v w, (range 0 A).contains v = true → (range 0 B).contains w = true →
      (range 0 (maxSigned A B)).contains (v ^^^ w) = true) ↔
      Fills (min A.toNat B.toNat) (max A.toNat B.toNat) := by
  have hmax : (maxSigned A B).toInt = (max A.toNat B.toNat : Nat) := by
    rw [toInt_maxSigned, toInt_eq_toNat hA, toInt_eq_toNat hB]
    omega
  have hmax0 : 0 ≤ (maxSigned A B).toInt := hmax ▸ Int.natCast_nonneg _
  have hmaxNat : (maxSigned A B).toNat = max A.toNat B.toNat :=
    Int.ofNat_inj.mp ((toInt_eq_toNat hmax0).symm.trans hmax)
  simp only [contains_range_zero_iff, hA, hB, hmax0, hmaxNat, BitVec.toNat_xor]
  rw [← forall_xor_le_max_iff]
  constructor
  · intro h v w hv hw
    have hnat : ∀ {x : Nat} {y : BitVec 64}, x ≤ y.toNat → (BitVec.ofNat 64 x).toNat = x :=
      fun hle => Nat.mod_eq_of_lt (hle.trans_lt (BitVec.isLt _))
    have := h (BitVec.ofNat 64 v) (BitVec.ofNat 64 w)
    rw [hnat hv, hnat hw] at this
    exact this hv hw
  · exact fun h v w hv hw => h v.toNat w.toNat hv hw

include ha hb

/-- `And` on intervals with a value: a negative result comes from two negative values, and another
one is not above a value that is not negative. -/
theorem and_sound_iff (hconst : (a.isConstant && b.isConstant) = false) (hea : a.Nonempty)
    (heb : b.Nonempty) :
    (∀ v w, a.contains v = true → b.contains w = true → (a.and b).contains (v &&& w) = true) ↔
      0 ≤ a.lo.toInt ∨ 0 ≤ b.lo.toInt := by
  rw [and_of_not_isConstant ha hb hconst]
  constructor
  · intro h
    have hlo := h a.lo b.lo (hea.contains_lo ha) (heb.contains_lo hb)
    exact toInt_and_nonneg_iff.mp (contains_range_iff.mp hlo).1
  · intro h v w hv hw
    obtain ⟨hva, hvb⟩ := (contains_iff ha).mp hv
    obtain ⟨hwa, hwb⟩ := (contains_iff hb).mp hw
    have hnonneg : 0 ≤ v.toInt ∨ 0 ≤ w.toInt := h.imp (·.trans hva) (·.trans hwa)
    refine contains_range_iff.mpr ⟨toInt_and_nonneg_iff.mpr hnonneg, ?_⟩
    rw [toInt_maxSigned]
    rcases hnonneg with hv0 | hw0
    · exact (toInt_and_le hv0).trans (hvb.trans (le_max_left _ _))
    · rw [BitVec.and_comm]
      exact (toInt_and_le hw0).trans (hwb.trans (le_max_right _ _))

/-- `Xor` on intervals with a value: 0 in both of them leaves the lower bounds among the results. -/
theorem xor_sound_iff (hconst : (a.isConstant && b.isConstant) = false) :
    (∀ v w, a.contains v = true → b.contains w = true → (a.xor b).contains (v ^^^ w) = true) ↔
      (a.contains 0 = true → b.contains 0 = true →
        a.lo = 0 ∧ b.lo = 0 ∧
          Fills (min a.hi.toNat b.hi.toNat) (max a.hi.toNat b.hi.toNat)) := by
  rw [xor_of_not_isConstant ha hb hconst]
  by_cases hzero : a.contains 0 = true ∧ b.contains 0 = true
  · obtain ⟨ha0, hb0⟩ := hzero
    obtain ⟨hla, hha⟩ := (contains_iff ha).mp ha0
    obtain ⟨hlb, hhb⟩ := (contains_iff hb).mp hb0
    have heqa : a.lo = 0 → a = range 0 a.hi := fun h => by rw [range, ← h, ← ha]
    have heqb : b.lo = 0 → b = range 0 b.hi := fun h => by rw [range, ← h, ← hb]
    rw [ha0, hb0, Bool.and_self, if_pos rfl]
    constructor
    · intro h _ _
      have hloa := h a.lo 0 ((nonempty_of_contains ha ha0).contains_lo ha) hb0
      have hlob := h 0 b.lo ha0 ((nonempty_of_contains hb hb0).contains_lo hb)
      rw [show a.lo ^^^ 0 = a.lo from BitVec.xor_zero] at hloa
      rw [show 0 ^^^ b.lo = b.lo from BitVec.zero_xor] at hlob
      have hza : a.lo = 0 := BitVec.eq_of_toInt_eq (le_antisymm hla (contains_range_iff.mp hloa).1)
      have hzb : b.lo = 0 := BitVec.eq_of_toInt_eq (le_antisymm hlb (contains_range_iff.mp hlob).1)
      refine ⟨hza, hzb, (forall_xor_iff hha hhb).mp fun v w hv hw => ?_⟩
      exact h v w (heqa hza ▸ hv) (heqb hzb ▸ hw)
    · intro h v w hv hw
      obtain ⟨hza, hzb, hfills⟩ := h rfl rfl
      exact (forall_xor_iff hha hhb).mpr hfills v w (heqa hza ▸ hv) (heqb hzb ▸ hw)
  · have hcond : (a.contains 0 && b.contains 0) = false :=
      Bool.eq_false_iff.mpr fun h => hzero (Bool.and_eq_true_iff.mp h)
    rw [hcond, if_neg Bool.false_ne_true]
    exact iff_of_true (fun v w _ _ => contains_top _) fun ha0 hb0 => absurd ⟨ha0, hb0⟩ hzero

end

/-- **Bitwise operations**: `And` and `Xor` are sound on two intervals if and only if one of them
has no value, or both are constants, or their bounds leave room for all results. -/
theorem andXorSound_iff (a b : Interval) (ha : a.isBottom = false) (hb : b.isBottom = false) :
    AndXorSound a b ↔ (a.Nonempty → b.Nonempty →
      (a.isConstant = true ∧ b.isConstant = true) ∨ BitBounds a b) := by
  by_cases hboth : a.isConstant = true ∧ b.isConstant = true
  · exact iff_of_true (sound_of_isConstant hboth.1 hboth.2) fun _ _ => .inl hboth
  have hconst : (a.isConstant && b.isConstant) = false :=
    Bool.eq_false_iff.mpr fun h => hboth (Bool.and_eq_true_iff.mp h)
  constructor
  · intro h hea heb
    exact .inr ⟨(and_sound_iff ha hb hconst hea heb).mp h.and,
      (xor_sound_iff ha hb hconst).mp h.xor⟩
  · intro h
    have hbounds : a.Nonempty → b.Nonempty → BitBounds a b := fun hea heb =>
      (h hea heb).resolve_left hboth
    constructor
    · refine forall_of_nonempty ha hb fun hea heb => ?_
      exact (and_sound_iff ha hb hconst hea heb).mpr (hbounds hea heb).and
    · refine forall_of_nonempty ha hb fun hea heb => ?_
      exact (xor_sound_iff ha hb hconst).mpr (hbounds hea heb).xor

/-- The numbers of two bits with those of one bit. -/
theorem andXorSound_bits : AndXorSound (range 0 3) (range 0 1) :=
  (andXorSound_iff (range 0 3) (range 0 1) rfl rfl).mpr fun _ _ =>
    .inr ⟨.inl (by decide), fun _ _ => ⟨rfl, rfl, 2, by decide, by decide⟩⟩

/-- A register of which nothing is known, with the lowest four bits cleared: a negative number stays
negative, and the result has none. -/
theorem top_and_mask_not_sound : ¬ AndXorSound top (constant (-16)) := by
  intro h
  exact absurd (h.and (-1) (-16) (by decide) (by decide)) (by decide)

end Interval

end ReWizard
