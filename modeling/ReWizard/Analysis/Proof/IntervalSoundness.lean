import ReWizard.Lib.ResidueRange
import ReWizard.Analysis.AbstractInterpretation

/-!
# The arithmetic of intervals

`Interval::Add` and `Sub` compute on the bounds what the machine computes on the values, and both
wrap. `addSubSound_iff` says for which intervals the result has the sums and differences of all
their values: those whose bounds wrap equally often.
-/

namespace ReWizard

open ResidueRange

namespace Interval

/-- The results of `Add` and `Sub` have the sums and the differences of the values in `a` with the
values in `b`. -/
structure AddSubSound (a b : Interval) : Prop where
  add : ∀ v w, a.contains v = true → b.contains w = true → (a.add b).contains (v + w) = true
  sub : ∀ v w, a.contains v = true → b.contains w = true → (a.sub b).contains (v - w) = true

/-- Two numbers are both signed 64-bit numbers, or both off by the same multiple of `2 ^ 64`. -/
def WrapAlike (x y : Int) : Prop := x.bdiv (2 ^ 64) = y.bdiv (2 ^ 64)

instance (x y : Int) : Decidable (WrapAlike x y) := inferInstanceAs (Decidable (_ = _))

/-- The bounds of the result wrap equally often. -/
structure BoundsWrapAlike (a b : Interval) : Prop where
  add : WrapAlike (a.hi.toInt + b.hi.toInt) (a.lo.toInt + b.lo.toInt)
  sub : WrapAlike (a.hi.toInt - b.lo.toInt) (a.lo.toInt - b.hi.toInt)

/-- Some number is between the bounds. -/
def Nonempty (a : Interval) : Prop := a.lo.toInt ≤ a.hi.toInt

theorem nonempty_of_contains {a : Interval} (ha : a.isBottom = false) {v : BitVec 64}
    (h : a.contains v = true) : a.Nonempty :=
  ((contains_iff ha).mp h).1.trans ((contains_iff ha).mp h).2

/-- Of two intervals one of which has no value, there is nothing to show. -/
theorem forall_of_nonempty {a b : Interval} (ha : a.isBottom = false) (hb : b.isBottom = false)
    {p : BitVec 64 → BitVec 64 → Prop} (h : a.Nonempty → b.Nonempty →
      ∀ v w, a.contains v = true → b.contains w = true → p v w) :
    ∀ v w, a.contains v = true → b.contains w = true → p v w := fun v w hv hw =>
  h (nonempty_of_contains ha hv) (nonempty_of_contains hb hw) v w hv hw

theorem Nonempty.contains_lo {a : Interval} (ha : a.isBottom = false) (h : a.Nonempty) :
    a.contains a.lo = true :=
  (contains_iff ha).mpr ⟨Int.le_refl _, h⟩

theorem Nonempty.contains_hi {a : Interval} (ha : a.isBottom = false) (h : a.Nonempty) :
    a.contains a.hi = true :=
  (contains_iff ha).mpr ⟨h, Int.le_refl _⟩

/-- Every number between the bounds is a value. -/
theorem exists_contains {a : Interval} (ha : a.isBottom = false) {x : Int}
    (hlo : a.lo.toInt ≤ x) (hhi : x ≤ a.hi.toInt) : ∃ v, a.contains v = true ∧ v.toInt = x := by
  have hmin := BitVec.le_toInt a.lo
  have hmax := BitVec.toInt_lt (x := a.hi)
  have hx : (BitVec.ofInt 64 x).toInt = x :=
    BitVec.toInt_ofInt_eq_self (by decide) (hmin.trans hlo) (hhi.trans_lt hmax)
  exact ⟨BitVec.ofInt 64 x, (contains_iff ha).mpr (by rw [hx]; exact ⟨hlo, hhi⟩), hx⟩

/-- The values of an interval are the numbers between its bounds. -/
theorem forall_contains_iff {a : Interval} (ha : a.isBottom = false) {p : Int → Prop} :
    (∀ v, a.contains v = true → p v.toInt) ↔
      ∀ x, a.lo.toInt ≤ x → x ≤ a.hi.toInt → p x := by
  constructor
  · intro h x hlo hhi
    obtain ⟨v, hv, rfl⟩ := exists_contains ha hlo hhi
    exact h v hv
  · intro h v hv
    obtain ⟨hlo, hhi⟩ := (contains_iff ha).mp hv
    exact h v.toInt hlo hhi

section

variable {a b : Interval}

/-- The distance of two signed 64-bit numbers. -/
theorem distance_lt (x y : BitVec 64) : x.toInt - y.toInt < 2 ^ 64 := by
  have hx := BitVec.toInt_lt (x := x)
  have hy := BitVec.le_toInt y
  omega

/-- Sums of values with the numbers of a range, `Add` and `Sub` alike. -/
theorem wrapAlike_iff {lo hi : Int} (hea : a.Nonempty) (heb : lo ≤ hi) (hlength : hi - lo < 2 ^ 64) :
    (∀ x, a.lo.toInt ≤ x → x ≤ a.hi.toInt → ∀ y, lo ≤ y → y ≤ hi →
      (a.lo.toInt + lo).bmod (2 ^ 64) ≤ (x + y).bmod (2 ^ 64) ∧
        (x + y).bmod (2 ^ 64) ≤ (a.hi.toInt + hi).bmod (2 ^ 64)) ↔
      WrapAlike (a.hi.toInt + hi) (a.lo.toInt + lo) := by
  refine forall_add_bmod_mem_iff (by decide) hea heb ?_
  have hda := distance_lt a.hi a.lo
  omega

/-- `Add` on intervals with a value. -/
theorem add_sound_iff (ha : a.isBottom = false) (hb : b.isBottom = false) (hea : a.Nonempty)
    (heb : b.Nonempty) :
    (∀ v w, a.contains v = true → b.contains w = true → (a.add b).contains (v + w) = true) ↔
      WrapAlike (a.hi.toInt + b.hi.toInt) (a.lo.toInt + b.lo.toInt) := by
  rw [← wrapAlike_iff hea heb (distance_lt b.hi b.lo), ← forall_contains_iff ha, add_eq ha hb]
  refine forall_congr' fun v => forall_comm.trans (imp_congr_right fun _ => ?_)
  rw [← forall_contains_iff hb]
  simp only [contains_range_iff, BitVec.toInt_add]

/-- `Sub` on intervals with a value: a difference is a sum with a number between the negatives of
the bounds. -/
theorem sub_sound_iff (ha : a.isBottom = false) (hb : b.isBottom = false) (hea : a.Nonempty)
    (heb : b.Nonempty) :
    (∀ v w, a.contains v = true → b.contains w = true → (a.sub b).contains (v - w) = true) ↔
      WrapAlike (a.hi.toInt - b.lo.toInt) (a.lo.toInt - b.hi.toInt) := by
  have hlength : -b.lo.toInt - -b.hi.toInt < 2 ^ 64 := by
    have := distance_lt b.hi b.lo
    omega
  rw [Int.sub_eq_add_neg, Int.sub_eq_add_neg,
    ← wrapAlike_iff hea (Int.neg_le_neg heb) hlength, ← forall_contains_iff ha, sub_eq ha hb]
  refine forall_congr' fun v => forall_comm.trans (imp_congr_right fun _ => ?_)
  have hneg : ∀ p : Int → Prop, (∀ y, -b.hi.toInt ≤ y → y ≤ -b.lo.toInt → p y) ↔
      ∀ y, b.lo.toInt ≤ y → y ≤ b.hi.toInt → p (-y) := by
    intro p
    constructor
    · exact fun h y hlo hhi => h (-y) (Int.neg_le_neg hhi) (Int.neg_le_neg hlo)
    · intro h y hlo hhi
      have := h (-y) (by omega) (by omega)
      rwa [Int.neg_neg] at this
  rw [hneg, ← forall_contains_iff hb]
  simp only [contains_range_iff, BitVec.toInt_sub, Int.sub_eq_add_neg]

end

/-- **Interval arithmetic**: `Add` and `Sub` are sound on two intervals if and only if one of them
has no value, or the bounds of their sum wrap equally often, and those of their difference too. -/
theorem addSubSound_iff (a b : Interval) (ha : a.isBottom = false) (hb : b.isBottom = false) :
    AddSubSound a b ↔ (a.Nonempty → b.Nonempty → BoundsWrapAlike a b) := by
  constructor
  · intro h hea heb
    exact ⟨(add_sound_iff ha hb hea heb).mp h.add, (sub_sound_iff ha hb hea heb).mp h.sub⟩
  · intro h
    constructor
    · refine forall_of_nonempty ha hb fun hea heb => ?_
      exact (add_sound_iff ha hb hea heb).mpr (h hea heb).add
    · refine forall_of_nonempty ha hb fun hea heb => ?_
      exact (sub_sound_iff ha hb hea heb).mpr (h hea heb).sub

/-- A small interval and a constant. -/
theorem addSubSound_small : AddSubSound (range 1 2) (constant 3) :=
  (addSubSound_iff (range 1 2) (constant 3) rfl rfl).mpr fun _ _ => ⟨by decide, by decide⟩

/-- A register of which nothing is known, and the constant 1: the upper bound of the sum wraps and
the lower one does not, so the result has no value at all. -/
theorem top_add_one_not_sound : ¬ AddSubSound top (constant 1) := by
  intro h
  exact absurd (h.add 0 1 (by decide) (by decide)) (by decide)

end Interval

end ReWizard
