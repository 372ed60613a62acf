import Mathlib.Data.List.Pairwise

/-!
# Lists in signed order, read as unsigned

Keys of `w` bits that are sorted as signed numbers and then read as unsigned ones. The two orders
agree on keys of one sign; a negative key is in front of the others in the one, and behind them in
the other.

* `pairwise_toNat_iff`: such a list is in unsigned order when its keys have one sign;
* `pairwise_lex_toNat_iff`: the same for pairs of keys, compared lexicographically.
-/

namespace SignedOrder

variable {α : Type _} {w : Nat}

/-- Of two keys in signed order, the first is not behind the second as an unsigned number unless it
alone is negative. -/
theorem toNat_le_iff {x y : BitVec w} (h : x.toInt ≤ y.toInt) :
    x.toNat ≤ y.toNat ↔ x.msb = y.msb := by
  have hsle : x.sle y = true := decide_eq_true h
  rw [BitVec.sle_eq_ule] at hsle
  have hule : x.ule y = true ↔ x.toNat ≤ y.toNat := decide_eq_true_iff
  rw [← hule]
  by_cases hmsb : x.msb = y.msb
  · simpa [hmsb] using hsle
  · have hne : (x.msb != y.msb) = true := bne_iff_ne.mpr hmsb
    rw [hne, Bool.true_xor, Bool.not_eq_true'] at hsle
    simp [hsle, hmsb]

/-- A list in order `r` is in order `s` if no two elements are what `s` fails on. -/
theorem pairwise_iff_of_pairwise {r s ok : α → α → Prop} {l : List α} (hl : l.Pairwise r)
    (hs : ∀ x y, r x y → (s x y ↔ ok x y)) (hrefl : ∀ x, ok x x) (hsymm : ∀ x y, ok x y → ok y x) :
    l.Pairwise s ↔ ∀ x ∈ l, ∀ y ∈ l, ok x y := by
  constructor
  · intro h
    have hok : l.Pairwise ok := (hl.and h).imp fun hrs => (hs _ _ hrs.1).mp hrs.2
    have : Std.Symm ok := ⟨hsymm⟩
    exact hok.forall_of_forall fun x _ => hrefl x
  · intro h
    exact hl.imp_of_mem fun hx hy hr => (hs _ _ hr).mpr (h _ hx _ hy)

/-- **Signed order**: a list that is sorted by a key as a signed number is sorted by it as an
unsigned one exactly when all keys have the same sign. -/
theorem pairwise_toNat_iff {key : α → BitVec w} {l : List α}
    (hl : l.Pairwise fun a b => (key a).toInt ≤ (key b).toInt) :
    l.Pairwise (fun a b => (key a).toNat ≤ (key b).toNat) ↔
      ∀ a ∈ l, ∀ b ∈ l, (key a).msb = (key b).msb :=
  pairwise_iff_of_pairwise hl (fun _ _ => toNat_le_iff) (fun _ => rfl) fun _ _ => Eq.symm

/-- The lexicographic order of pairs of keys, signed. -/
def LexInt (key₁ key₂ : α → BitVec w) (a b : α) : Prop :=
  (key₁ a).toInt < (key₁ b).toInt ∨
    ((key₁ a).toInt = (key₁ b).toInt ∧ (key₂ a).toInt ≤ (key₂ b).toInt)

/-- The lexicographic order of pairs of keys, unsigned. -/
def LexNat (key₁ key₂ : α → BitVec w) (a b : α) : Prop :=
  (key₁ a).toNat < (key₁ b).toNat ∨
    ((key₁ a).toNat = (key₁ b).toNat ∧ (key₂ a).toNat ≤ (key₂ b).toNat)

theorem lexNat_iff {key₁ key₂ : α → BitVec w} {a b : α} (h : LexInt key₁ key₂ a b) :
    LexNat key₁ key₂ a b ↔ (key₁ a).msb = (key₁ b).msb ∧
      (key₁ a = key₁ b → (key₂ a).msb = (key₂ b).msb) := by
  unfold LexNat
  rw [BitVec.toNat_inj]
  rcases h with hlt | ⟨heq, hle⟩
  · have hne : key₁ a ≠ key₁ b := fun he => Int.ne_of_lt hlt (congrArg BitVec.toInt he)
    have hne' : (key₁ a).toNat ≠ (key₁ b).toNat := fun he => hne (BitVec.eq_of_toNat_eq he)
    rw [← toNat_le_iff (Int.le_of_lt hlt)]
    constructor
    · rintro (hlt' | ⟨he, -⟩)
      · exact ⟨Nat.le_of_lt hlt', fun he => absurd he hne⟩
      · exact absurd he hne
    · exact fun h => .inl (Nat.lt_of_le_of_ne h.1 hne')
  · have he : key₁ a = key₁ b := BitVec.eq_of_toInt_eq heq
    rw [← toNat_le_iff hle, he]
    constructor
    · rintro (hlt | ⟨-, hle'⟩)
      · exact absurd hlt (Nat.lt_irrefl _)
      · exact ⟨rfl, fun _ => hle'⟩
    · exact fun h => .inr ⟨rfl, h.2 rfl⟩

/-- The same for pairs: the second keys count among elements with the same first key. -/
theorem pairwise_lex_toNat_iff {key₁ key₂ : α → BitVec w} {l : List α}
    (hl : l.Pairwise (LexInt key₁ key₂)) :
    l.Pairwise (LexNat key₁ key₂) ↔
      (∀ a ∈ l, ∀ b ∈ l, (key₁ a).msb = (key₁ b).msb) ∧
        ∀ a ∈ l, ∀ b ∈ l, key₁ a = key₁ b → (key₂ a).msb = (key₂ b).msb := by
  rw [pairwise_iff_of_pairwise hl (fun _ _ => lexNat_iff) (fun _ => ⟨rfl, fun _ => rfl⟩)
    fun _ _ h => ⟨h.1.symm, fun he => (h.2 he.symm).symm⟩]
  exact ⟨fun h => ⟨fun a ha b hb => (h a ha b hb).1, fun a ha b hb => (h a ha b hb).2⟩,
    fun h a ha b hb => ⟨h.1 a ha b hb, h.2 a ha b hb⟩⟩

end SignedOrder
