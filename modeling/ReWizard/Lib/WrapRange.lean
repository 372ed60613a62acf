import Mathlib.Data.List.Range
import Mathlib.Data.Nat.ModEq

/-!
# Ranges of addresses that wrap

Addresses are numbers below `n`, and counting up from one wraps to `0`. `wrapBytes n a w` are the
`w` addresses from `a` on. `wrapBytes_inside_iff` says when they all lie in a range that does not
wrap itself: the offset of the first one decides.
-/

namespace WrapRange

/-- The `w` addresses from `a` on. -/
def wrapBytes (n a w : Nat) : List Nat := (List.range w).map fun k => (a + k) % n

theorem mem_wrapBytes {n a w b : Nat} : b ∈ wrapBytes n a w ↔ ∃ k < w, (a + k) % n = b := by
  simp [wrapBytes]

/-- Only the first address modulo `n` matters. -/
theorem wrapBytes_congr {n a b : Nat} (h : a % n = b % n) (w : Nat) :
    wrapBytes n a w = wrapBytes n b w :=
  List.map_congr_left fun k _ => Nat.ModEq.add_right k h

variable {n base size : Nat}

/-- An address at an offset from `base` is inside when the offset is. -/
theorem offset_inside_iff (hfits : base + size ≤ n) {r : Nat} (hr : r < n) :
    (base ≤ (base + r) % n ∧ (base + r) % n < base + size) ↔ r < size := by
  by_cases hlt : base + r < n
  · rw [Nat.mod_eq_of_lt hlt]
    omega
  · have hmod : (base + r) % n = base + r - n := by
      rw [Nat.mod_eq_sub_mod (not_lt.mp hlt)]
      exact Nat.mod_eq_of_lt (by omega)
    rw [hmod]
    omega

/-- The addresses from an offset on are inside exactly when the offsets end inside. -/
theorem wrapBytes_inside_iff (hbase : 0 < base) (hfits : base + size ≤ n) {r w : Nat} (hr : r < n)
    (hw : 0 < w) :
    (∀ b ∈ wrapBytes n (base + r) w, base ≤ b ∧ b < base + size) ↔ r + w ≤ size := by
  constructor
  · intro h
    have hbyte : ∀ k < w, r + k < n → r + k < size := fun k hk hlt => by
      have := h _ (mem_wrapBytes.mpr ⟨k, hk, rfl⟩)
      rw [Nat.add_assoc] at this
      exact (offset_inside_iff hfits hlt).mp this
    by_contra hlong
    -- the byte at offset `size`, or the first one when it is beyond already
    have hfirst := hbyte 0 hw hr
    have := hbyte (size - r) (by omega) (by omega)
    omega
  · intro hle b hb
    obtain ⟨k, hk, rfl⟩ := mem_wrapBytes.mp hb
    rw [Nat.add_assoc]
    exact (offset_inside_iff hfits (by omega)).mpr (by omega)

end WrapRange
