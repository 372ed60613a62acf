import Mathlib.Data.List.Basic

/-!
# Numerals

The digits of a number in a base up to sixteen: they determine the number, and they are letters and
decimal digits.
-/

namespace Digits

theorem digitChar_injOn {a b : Nat} (ha : a < 16) (hb : b < 16)
    (h : a.digitChar = b.digitChar) : a = b := by
  have hall : ∀ a : Fin 16, ∀ b : Fin 16, (a : Nat).digitChar = (b : Nat).digitChar → a = b := by
    decide
  exact Fin.mk.inj (hall ⟨a, ha⟩ ⟨b, hb⟩ h)

variable {b : Nat}

/-- A number is determined by its digits. -/
theorem toDigits_injective (h1 : 1 < b) (h16 : b ≤ 16) :
    ∀ {n m : Nat}, Nat.toDigits b n = Nat.toDigits b m → n = m := by
  intro n
  induction n using Nat.strongRecOn with
  | ind n ih =>
    intro m h
    rw [Nat.toDigits_eq_if h1, Nat.toDigits_eq_if (n := m) h1] at h
    split at h
    · rename_i hn
      split at h
      · rename_i hm
        exact digitChar_injOn (by omega) (by omega) (List.singleton_inj.mp h)
      · exact absurd (List.append_eq_singleton_iff.mp h.symm) (by simp [Nat.toDigits_ne_nil])
    · rename_i hn
      split at h
      · exact absurd (List.append_eq_singleton_iff.mp h) (by simp [Nat.toDigits_ne_nil])
      · obtain ⟨hhigh, hlow⟩ := List.append_inj' h rfl
        have hdiv : n / b = m / b := ih _ (Nat.div_lt_self (by omega) h1) hhigh
        have hmod : n % b = m % b :=
          digitChar_injOn (by have := Nat.mod_lt n (show 0 < b by omega); omega)
            (by have := Nat.mod_lt m (show 0 < b by omega); omega) (List.singleton_inj.mp hlow)
        rw [← Nat.div_add_mod n b, ← Nat.div_add_mod m b, hdiv, hmod]

/-- A character that is no digit is not among the digits of a number. -/
theorem notMem_toDigits {c : Char} (hchar : ∀ a : Fin 16, (a : Nat).digitChar ≠ c) (h1 : 1 < b)
    (h16 : b ≤ 16) (n : Nat) : c ∉ Nat.toDigits b n := by
  induction n using Nat.strongRecOn with
  | ind n ih =>
    rw [Nat.toDigits_eq_if h1]
    split
    · rename_i hn
      exact fun h => hchar ⟨n, by omega⟩ (List.mem_singleton.mp h).symm
    · intro h
      rcases List.mem_append.mp h with h | h
      · exact ih _ (Nat.div_lt_self (by omega) h1) h
      · have hlt := Nat.mod_lt n (show 0 < b by omega)
        exact hchar ⟨n % b, by omega⟩ (List.mem_singleton.mp h).symm

end Digits
