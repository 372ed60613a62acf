import ReWizard.Lib.OrdMap
import Mathlib.Data.List.Forall2
import Mathlib.Order.Monotone.Defs

/-!
# Ordered maps and sets under new keys

A strictly monotone function keeps the order of the keys, so an ordered container can be relabelled
with it entry by entry, and every operation does on the new keys what it did on the old ones. The
values of a map need only be related (`OrdMap.Relabelled`).
-/

variable {α γ : Type _} [LinearOrder α] [LinearOrder γ] {f : α → γ}

namespace OrdMap

variable {β δ : Type _} {R : β → δ → Prop} {m : OrdMap α β} {m' : OrdMap γ δ}

/-- Entry by entry, `m'` has the new key and a related value. -/
def Relabelled (f : α → γ) (R : β → δ → Prop) (m : OrdMap α β) (m' : OrdMap γ δ) : Prop :=
  List.Forall₂ (fun e e' => e'.1 = f e.1 ∧ R e.2 e'.2) m.toList m'.toList

namespace Relabelled

theorem empty (f : α → γ) (R : β → δ → Prop) :
    Relabelled f R (OrdMap.empty : OrdMap α β) OrdMap.empty := .nil

theorem keys (h : m.Relabelled f R m') : m'.keys = m.keys.map f := by
  have hlist : ∀ {l : List (α × β)} {l' : List (γ × δ)},
      List.Forall₂ (fun e e' => e'.1 = f e.1 ∧ R e.2 e'.2) l l' →
      l'.map (·.1) = (l.map (·.1)).map f := by
    intro l l' h
    induction h with
    | nil => rfl
    | cons he _ ih => rw [List.map_cons, List.map_cons, List.map_cons, he.1, ih]
  exact hlist h

variable (hf : StrictMono f)

include hf

theorem get? (h : m.Relabelled f R m') (k : α) : Option.Rel R (m.get? k) (m'.get? (f k)) := by
  have hlist : ∀ {l : List (α × β)} {l' : List (γ × δ)},
      List.Forall₂ (fun e e' => e'.1 = f e.1 ∧ R e.2 e'.2) l l' →
      Option.Rel R ((l.find? fun e => decide (e.1 = k)).map (·.2))
        ((l'.find? fun e => decide (e.1 = f k)).map (·.2)) := by
    intro l l' h
    induction h with
    | nil => exact .none
    | cons he _ ih =>
      rw [List.find?_cons, List.find?_cons, he.1]
      simp only [hf.injective.eq_iff]
      split
      · exact .some he.2
      · exact ih
  exact hlist h

theorem contains (h : m.Relabelled f R m') (k : α) : m'.contains (f k) = m.contains k := by
  have hget := h.get? hf k
  unfold OrdMap.contains
  generalize m.get? k = o at hget ⊢
  generalize m'.get? (f k) = o' at hget ⊢
  cases hget <;> rfl

theorem insert (h : m.Relabelled f R m') {k : α} {v : β} {v' : δ} (hv : R v v') :
    (m.insert k v).Relabelled f R (m'.insert (f k) v') := by
  have hlist : ∀ {l : List (α × β)} {l' : List (γ × δ)},
      List.Forall₂ (fun e e' => e'.1 = f e.1 ∧ R e.2 e'.2) l l' →
      List.Forall₂ (fun e e' => e'.1 = f e.1 ∧ R e.2 e'.2)
        (insertList k v l) (insertList (f k) v' l') := by
    intro l l' h
    induction h with
    | nil => exact .cons ⟨rfl, hv⟩ .nil
    | cons he hl ih =>
      simp only [insertList, he.1, hf.lt_iff_lt, hf.injective.eq_iff]
      split
      · exact .cons ⟨rfl, hv⟩ (.cons he hl)
      · split
        · exact .cons ⟨rfl, hv⟩ hl
        · exact .cons he ih
  exact hlist h

theorem floor? (h : m.Relabelled f R m') (k : α) :
    Option.Rel (fun e e' => e'.1 = f e.1 ∧ R e.2 e'.2) (m.floor? k) (m'.floor? (f k)) := by
  have hlist : ∀ {l : List (α × β)} {l' : List (γ × δ)},
      List.Forall₂ (fun e e' => e'.1 = f e.1 ∧ R e.2 e'.2) l l' →
      List.Forall₂ (fun e e' => e'.1 = f e.1 ∧ R e.2 e'.2)
        (l.filter fun e => decide (e.1 ≤ k)) (l'.filter fun e => decide (e.1 ≤ f k)) := by
    intro l l' h
    induction h with
    | nil => exact .nil
    | cons he _ ih =>
      simp only [List.filter_cons, he.1, hf.le_iff_le]
      split
      · exact .cons he ih
      · exact ih
  have hlast : ∀ {l : List (α × β)} {l' : List (γ × δ)},
      List.Forall₂ (fun e e' => e'.1 = f e.1 ∧ R e.2 e'.2) l l' →
      Option.Rel (fun e e' => e'.1 = f e.1 ∧ R e.2 e'.2) l.getLast? l'.getLast? := by
    intro l l' h
    induction h with
    | nil => exact .none
    | cons he hl ih =>
      cases hl with
      | nil => exact .some he
      | cons _ _ => exact ih
  exact hlast (hlist h)

end Relabelled

end OrdMap

namespace OrdSet

/-- The set of the new members. -/
def relabel (s : OrdSet α) (hf : StrictMono f) : OrdSet γ :=
  ⟨s.toList.map f, List.pairwise_map.mpr (s.sorted.imp fun h => hf h)⟩

variable (s : OrdSet α) (hf : StrictMono f)

theorem relabel_insert (a : α) : (s.insert a).relabel hf = (s.relabel hf).insert (f a) := by
  have hlist : ∀ l : List α, (insertList a l).map f = insertList (f a) (l.map f) := by
    intro l
    induction l with
    | nil => rfl
    | cons b l ih =>
      simp only [insertList, List.map_cons, hf.lt_iff_lt, hf.injective.eq_iff]
      split
      · rfl
      · split
        · rfl
        · rw [List.map_cons, ih]
  unfold relabel insert
  simp only [hlist]

theorem relabel_foldl_insert : ∀ (l : List α) (s : OrdSet α),
    (l.foldl OrdSet.insert s).relabel hf = (l.map f).foldl OrdSet.insert (s.relabel hf)
  | [], _ => rfl
  | a :: l, s => by
    rw [List.foldl_cons, List.map_cons, List.foldl_cons, relabel_foldl_insert l, relabel_insert]

theorem relabel_erase (a : α) : (s.erase a).relabel hf = (s.relabel hf).erase (f a) := by
  unfold relabel erase
  simp only [List.filter_map, Function.comp_def, ne_eq, hf.injective.eq_iff]

end OrdSet

/-! ## Lists with related members -/

/-- Each member of the one list has a related member in the other. -/
structure List.Matched {α γ : Type _} (R : α → γ → Prop) (l : List α) (l' : List γ) : Prop where
  left : ∀ a ∈ l, ∃ b ∈ l', R a b
  right : ∀ b ∈ l', ∃ a ∈ l, R a b
