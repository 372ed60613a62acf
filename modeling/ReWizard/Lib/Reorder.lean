import Mathlib.Data.List.Nodup
import Mathlib.Data.List.Perm.Basic

/-!
# Reordering a fold

Two orders of the same steps end alike when the pairs that they order differently commute: a fold
over a list is, up to an equivalence that every step respects, the fold over another order of it
(`foldl_reorder`). `a` comes before `b` in a list when `[a, b]` is a sublist.
-/

namespace Reorder

variable {σ α : Type _}

section

variable {f : σ → α → σ} {r : σ → σ → Prop}

/-- Equivalent states stay equivalent. -/
theorem foldl_congr (hf : ∀ a s s', r s s' → r (f s a) (f s' a)) :
    ∀ (l : List α) {s s' : σ}, r s s' → r (l.foldl f s) (l.foldl f s')
  | [], _, _, h => h
  | a :: l, _, _, h => foldl_congr hf l (hf a _ _ h)

/-- A step that commutes with all steps of a list can be made before them. -/
theorem foldl_pull (hr : Equivalence r) (hf : ∀ a s s', r s s' → r (f s a) (f s' a)) {a : α} :
    ∀ {l : List α}, (∀ x ∈ l, ∀ s, r (f (f s a) x) (f (f s x) a)) →
      ∀ s, r (l.foldl f (f s a)) (f (l.foldl f s) a)
  | [], _, s => hr.refl _
  | x :: l, h, s => by
    have hx : r (l.foldl f (f (f s a) x)) (l.foldl f (f (f s x) a)) :=
      foldl_congr hf l (h x List.mem_cons_self s)
    exact hr.trans hx (foldl_pull hr hf (fun y hy => h y (List.mem_cons_of_mem x hy)) (f s x))

/-- **Reordering**: two orders of the same steps have equivalent results when the steps that they
order differently commute. -/
theorem foldl_reorder (hr : Equivalence r) (hf : ∀ a s s', r s s' → r (f s a) (f s' a)) :
    ∀ {l l' : List α}, l.Perm l' → l.Nodup →
      (∀ a b, [a, b].Sublist l → [b, a].Sublist l' → ∀ s, r (f (f s a) b) (f (f s b) a)) →
      ∀ s, r (l.foldl f s) (l'.foldl f s)
  | [], l', hp, _, _, s => by
    rw [List.nil_perm.mp hp]
    exact hr.refl _
  | a :: l, l', hp, hnd, h, s => by
    obtain ⟨l₁, l₂, rfl⟩ := List.append_of_mem (hp.mem_iff.mp List.mem_cons_self)
    have hp' : l.Perm (l₁ ++ l₂) := (hp.trans List.perm_middle).cons_inv
    have hrest : r (l.foldl f (f s a)) ((l₁ ++ l₂).foldl f (f s a)) := by
      refine foldl_reorder hr hf hp' (List.nodup_cons.mp hnd).2 (fun x y hx hy => ?_) _
      refine h x y (hx.trans (List.sublist_cons_self a l)) (hy.trans ?_)
      exact List.Sublist.append_left (List.sublist_cons_self a l₂) l₁
    have hpull : r (l₁.foldl f (f s a)) (f (l₁.foldl f s) a) := by
      refine foldl_pull hr hf (fun x hx => h a x ?_ ?_) s
      · exact (List.singleton_sublist.mpr (hp'.mem_iff.mpr (List.mem_append_left _ hx))).cons_cons a
      · exact (List.singleton_sublist.mpr hx).append (List.singleton_sublist.mpr List.mem_cons_self)
    rw [List.foldl_append] at hrest
    rw [List.foldl_append]
    exact hr.trans hrest (foldl_congr hf l₂ hpull)

end

/-! ## Before -/

variable {l : List α} {a b : α}

/-- In a list without duplicates, only one of two comes before the other. -/
theorem not_before (hnd : l.Nodup) (h : [a, b].Sublist l) (h' : [b, a].Sublist l) : False := by
  induction l with
  | nil => cases h
  | cons x l ih =>
    obtain ⟨hx, hl⟩ := List.nodup_cons.mp hnd
    cases h with
    | cons _ h =>
      cases h' with
      | cons _ h' => exact ih hl h h'
      | cons_cons _ h' => exact hx (h.subset (by simp))
    | cons_cons _ h =>
      cases h' with
      | cons _ h' => exact hx (h'.subset (by simp))
      | cons_cons _ h' => exact hx (List.singleton_sublist.mp h)

/-- Something that comes before the first of a sublist can be put in front of it. -/
theorem cons_sublist {rest : List α} (hnd : l.Nodup) (h : [a, b].Sublist l)
    (h' : (b :: rest).Sublist l) : (a :: b :: rest).Sublist l := by
  induction l with
  | nil => cases h
  | cons x l ih =>
    obtain ⟨hx, hl⟩ := List.nodup_cons.mp hnd
    cases h with
    | cons _ h =>
      cases h' with
      | cons _ h' => exact (ih hl h h').cons x
      | cons_cons _ h' => exact absurd (h.subset (by simp)) hx
    | cons_cons _ h =>
      cases h' with
      | cons _ h' => exact h'.cons_cons _
      | cons_cons _ h' => exact absurd (List.singleton_sublist.mp h) hx

end Reorder
