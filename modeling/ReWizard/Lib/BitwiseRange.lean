import Mathlib.Data.Nat.Factorization.Basic
import Mathlib.Data.Nat.Bitwise

/-!
# Bitwise operations on ranges

A bitwise operation is not monotone in its operands.

* `forall_xor_le_max_iff`: the numbers up to two bounds have no exclusive or above the larger bound
  if and only if that one ends in at least as many ones as the smaller one has digits (`Fills`);
* `two_pow_dvd_iff`: divisibility by a power of two as the low bits that are clear;
* the signed values of `&&&`, `^^^` and of shifts by less than the width, where they are those of
  the numbers.
-/

namespace BitwiseRange

/-! ## Natural numbers -/

/-- A power of two above `m` divides the number after `M`: the bits of `M` at the places of the
digits of `m` are all set. -/
def Fills (m M : Nat) : Prop := ∃ k, m < 2 ^ k ∧ 2 ^ k ∣ M + 1

variable {m M k : Nat}

/-- The digits from `k` on do not change. -/
theorem xor_div_of_lt (v : Nat) {w : Nat} (h : w < 2 ^ k) : (v ^^^ w) / 2 ^ k = v / 2 ^ k := by
  rw [Nat.xor_div_two_pow, Nat.div_eq_of_lt h, Nat.xor_zero]

theorem xor_lt_of_dvd {v w N : Nat} (hN : 2 ^ k ∣ N) (hv : v < N) (hw : w < 2 ^ k) :
    v ^^^ w < N := by
  obtain ⟨c, rfl⟩ := hN
  rw [Nat.mul_comm] at hv ⊢
  rw [← Nat.div_lt_iff_lt_mul (Nat.two_pow_pos k), xor_div_of_lt v hw]
  exact (Nat.div_lt_iff_lt_mul (Nat.two_pow_pos k)).mpr hv

/-- The clear bit below all that `M` ends in is set by an exclusive or. -/
theorem exists_xor_eq_succ (M : Nat) : ∃ k v, v ≤ M ∧ 2 ^ k ∣ M + 1 ∧ v ^^^ 2 ^ k = M + 1 := by
  obtain ⟨k, c, ⟨j, rfl⟩, hc⟩ := Nat.exists_eq_two_pow_mul_odd M.succ_ne_zero
  refine ⟨k, 2 ^ k * (2 * j), ?_, ⟨2 * j + 1, hc⟩, ?_⟩
  · have hlt : 2 ^ k * (2 * j) < M + 1 := by
      rw [show M + 1 = _ from hc]
      exact Nat.mul_lt_mul_of_pos_left (Nat.lt_succ_self _) (Nat.two_pow_pos k)
    omega
  · have hxor : (2 * j) ^^^ 1 = 2 * j + 1 := Nat.xor_one_of_even (even_two_mul j)
    rw [show M + 1 = _ from hc, ← hxor, Nat.mul_comm, Nat.mul_comm (2 ^ k), ← Nat.shiftLeft_eq,
      ← Nat.shiftLeft_eq, Nat.shiftLeft_xor_distrib, Nat.one_shiftLeft]

theorem forall_xor_le_iff : (∀ v w, v ≤ M → w ≤ m → v ^^^ w ≤ M) ↔ Fills m M := by
  constructor
  · intro h
    obtain ⟨k, v, hv, hdvd, hxor⟩ := exists_xor_eq_succ M
    refine ⟨k, ?_, hdvd⟩
    by_contra hle
    have := h v (2 ^ k) hv (not_lt.mp hle)
    omega
  · rintro ⟨k, hm, hdvd⟩ v w hv hw
    exact Nat.le_of_lt_succ (xor_lt_of_dvd hdvd (Nat.lt_succ_of_le hv) (hw.trans_lt hm))

/-- **Exclusive or**: the numbers up to `A` with those up to `B`. -/
theorem forall_xor_le_max_iff {A B : Nat} :
    (∀ v w, v ≤ A → w ≤ B → v ^^^ w ≤ max A B) ↔ Fills (min A B) (max A B) := by
  rcases le_total B A with h | h
  · rw [max_eq_left h, min_eq_right h, forall_xor_le_iff]
  · rw [max_eq_right h, min_eq_left h, ← forall_xor_le_iff]
    constructor
    · intro hle v w hv hw
      rw [Nat.xor_comm]
      exact hle w v hw hv
    · intro hle v w hv hw
      rw [Nat.xor_comm]
      exact hle w v hw hv

/-- The low bits of a multiple of a power of two are clear. -/
theorem two_pow_dvd_iff {x : Nat} : 2 ^ k ∣ x ↔ ∀ t < k, x.testBit t = false := by
  rw [Nat.dvd_iff_mod_eq_zero]
  constructor
  · intro h t ht
    have hbit := Nat.testBit_mod_two_pow x k t
    rw [h, Nat.zero_testBit, decide_eq_true ht, Bool.true_and] at hbit
    exact hbit.symm
  · intro h
    refine Nat.eq_of_testBit_eq fun t => ?_
    rw [Nat.testBit_mod_two_pow, Nat.zero_testBit]
    by_cases ht : t < k
    · rw [h t ht, Bool.and_false]
    · rw [decide_eq_false ht, Bool.false_and]

/-! ## Signed numbers -/

section

variable {n : Nat} {x y : BitVec n}

theorem toInt_nonneg_iff : 0 ≤ x.toInt ↔ x.msb = false := by
  rw [BitVec.msb_eq_toInt, decide_eq_false_iff_not, not_lt]

theorem toInt_eq_toNat (hx : 0 ≤ x.toInt) : x.toInt = x.toNat :=
  BitVec.toInt_eq_toNat_of_msb (toInt_nonneg_iff.mp hx)

theorem toInt_and_nonneg_iff : 0 ≤ (x &&& y).toInt ↔ 0 ≤ x.toInt ∨ 0 ≤ y.toInt := by
  rw [toInt_nonneg_iff, toInt_nonneg_iff, toInt_nonneg_iff, BitVec.msb_and, Bool.and_eq_false_iff]

theorem toInt_and_le (hx : 0 ≤ x.toInt) : (x &&& y).toInt ≤ x.toInt := by
  rw [toInt_eq_toNat hx, toInt_eq_toNat (toInt_and_nonneg_iff.mpr (.inl hx)), BitVec.toNat_and]
  exact Int.ofNat_le.mpr Nat.and_le_left

/-- Up to a bound that is not negative, the signed order is the unsigned one. -/
theorem toInt_mem_iff (hy : 0 ≤ y.toInt) : (0 ≤ x.toInt ∧ x.toInt ≤ y.toInt) ↔
    x.toNat ≤ y.toNat := by
  have hmsb := BitVec.toInt_pos_iff (x := y)
  have hx := BitVec.toInt_pos_iff (x := x)
  constructor
  · rintro ⟨h0, hle⟩
    rw [toInt_eq_toNat h0, toInt_eq_toNat hy] at hle
    exact Int.ofNat_le.mp hle
  · intro hle
    have h0 : 0 ≤ x.toInt := by omega
    rw [toInt_eq_toNat h0, toInt_eq_toNat hy]
    omega

/-! ### Shifts -/

variable {c j : Nat}

theorem toInt_shiftLeft_eq (x : BitVec n) (c : Nat) :
    (x <<< c).toInt = (x.toInt * 2 ^ c).bmod (2 ^ n) := by
  rw [BitVec.toInt_shiftLeft, Nat.shiftLeft_eq, Int.natCast_mul, Int.natCast_pow,
    BitVec.toInt_eq_toNat_bmod, Int.bmod_mul_bmod]
  rfl

/-- The sign of a number that is shifted to the left is a bit of the number. -/
theorem toInt_shiftLeft_nonneg_iff (hc : c < n) :
    0 ≤ (x <<< c).toInt ↔ x.toNat.testBit (n - 1 - c) = false := by
  rw [toInt_nonneg_iff, BitVec.msb_shiftLeft, BitVec.getMsbD, decide_eq_true hc, Bool.true_and]
  rfl

/-- The bits that are set are shifted out. -/
theorem shiftLeft_eq_zero_of_dvd (hdvd : 2 ^ j ∣ x.toNat) (hn : n ≤ j + c) : x <<< c = 0 := by
  have hout : 2 ^ n ∣ x.toNat * 2 ^ c := by
    refine (Nat.pow_dvd_pow 2 hn).trans ?_
    rw [Nat.pow_add]
    exact Nat.mul_dvd_mul_right hdvd _
  refine BitVec.eq_of_toNat_eq ?_
  rw [BitVec.toNat_shiftLeft, Nat.shiftLeft_eq, Nat.mod_eq_zero_of_dvd hout]
  rfl

theorem toInt_ushiftRight_mem (hx : 0 ≤ x.toInt) (c : Nat) :
    0 ≤ (x >>> c).toInt ∧ (x >>> c).toInt ≤ x.toInt := by
  rw [toInt_mem_iff hx, BitVec.toNat_ushiftRight]
  exact Nat.shiftRight_le _ _

end

end BitwiseRange
