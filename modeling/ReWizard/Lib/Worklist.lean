import Mathlib.Data.Finset.Card
import Mathlib.Data.Finset.SDiff
import Mathlib.Data.List.Nodup
import Mathlib.Logic.Relation

/-!
# Worklists

A program goes through a graph with the members that are still to visit. It takes one of them, leaves
it when it was expanded before, and otherwise expands it and puts its successors in, at least those
that were not expanded. `Walk succ entry done pending` is where it may be then, whichever member it
takes each time and however it keeps the others:

* `Walk.nodup`: it expands no member twice;
* `Walk.mem_iff`: when nothing is left, it has expanded what the entry leads to;
* `unexpanded_lt`: every expansion leaves fewer members for later ones.
-/

namespace Worklist

variable {α : Type _}

inductive Walk (succ : α → List α) (entry : α) : List α → List α → Prop
  | start : Walk succ entry [] [entry]
  /-- A member that was expanded before is dropped. -/
  | skip {done pending pending' : List α} {a : α} : Walk succ entry done pending → a ∈ done →
      pending' ⊆ pending → (∀ b ∈ pending, b = a ∨ b ∈ pending') → Walk succ entry done pending'
  | expand {done pending pending' : List α} {a : α} : Walk succ entry done pending → a ∈ pending →
      a ∉ done → pending' ⊆ pending ++ succ a → (∀ b ∈ pending, b = a ∨ b ∈ pending') →
      (∀ b ∈ succ a, b ∈ done ++ [a] ∨ b ∈ pending') → Walk succ entry (done ++ [a]) pending'

namespace Walk

variable {succ : α → List α} {entry : α} {done pending : List α}

theorem nodup (h : Walk succ entry done pending) : done.Nodup := by
  induction h with
  | start => exact List.nodup_nil
  | skip _ _ _ _ ih => exact ih
  | expand _ _ hnew _ _ _ ih =>
    refine List.nodup_append.mpr ⟨ih, List.nodup_singleton _, fun x hx y hy hxy => hnew ?_⟩
    rw [← List.mem_singleton.mp hy, ← hxy]
    exact hx

/-- Only what the entry leads to is expanded or pending. -/
theorem reached (h : Walk succ entry done pending) :
    ∀ b, b ∈ done ∨ b ∈ pending → Relation.ReflTransGen (fun a b => b ∈ succ a) entry b := by
  induction h with
  | start =>
    rintro b (hb | hb)
    · cases hb
    · rw [List.mem_singleton.mp hb]
  | skip _ _ hsub _ ih => exact fun b hb => ih b (hb.imp_right fun h => hsub h)
  | @expand done pending pending' a _ ha _ hsub _ _ ih =>
    have hreach := ih a (.inr ha)
    rintro b (hb | hb)
    · rcases List.mem_append.mp hb with hb | hb
      · exact ih b (.inl hb)
      · rw [List.mem_singleton.mp hb]
        exact hreach
    · rcases List.mem_append.mp (hsub hb) with hb | hb
      · exact ih b (.inr hb)
      · exact hreach.tail hb

theorem entry_mem (h : Walk succ entry done pending) : entry ∈ done ∨ entry ∈ pending := by
  induction h with
  | start => exact .inr List.mem_cons_self
  | skip _ hold _ hkeep ih =>
    rcases ih with hd | hp
    · exact .inl hd
    · rcases hkeep _ hp with heq | hp
      · exact .inl (heq ▸ hold)
      · exact .inr hp
  | expand _ _ _ _ hkeep _ ih =>
    rcases ih with hd | hp
    · exact .inl (List.mem_append_left _ hd)
    · rcases hkeep _ hp with heq | hp
      · exact .inl (List.mem_append_right _ (List.mem_singleton.mpr heq))
      · exact .inr hp

/-- The successors of what is expanded are expanded or pending. -/
theorem closed (h : Walk succ entry done pending) :
    ∀ a ∈ done, ∀ b ∈ succ a, b ∈ done ∨ b ∈ pending := by
  induction h with
  | start => exact fun a ha => absurd ha List.not_mem_nil
  | skip _ hold _ hkeep ih =>
    intro x hx b hb
    rcases ih x hx b hb with hd | hp
    · exact .inl hd
    · rcases hkeep b hp with heq | hp
      · exact .inl (heq ▸ hold)
      · exact .inr hp
  | expand _ _ _ _ hkeep hsucc ih =>
    intro x hx b hb
    rcases List.mem_append.mp hx with hx | hx
    · rcases ih x hx b hb with hd | hp
      · exact .inl (List.mem_append_left _ hd)
      · rcases hkeep b hp with heq | hp
        · exact .inl (List.mem_append_right _ (List.mem_singleton.mpr heq))
        · exact .inr hp
    · rw [List.mem_singleton.mp hx] at hb
      exact hsucc b hb

/-- A walk that is through has expanded what the entry leads to. -/
theorem mem_iff (h : Walk succ entry done []) {b : α} :
    b ∈ done ↔ Relation.ReflTransGen (fun a b => b ∈ succ a) entry b := by
  refine ⟨fun hb => h.reached b (.inl hb), fun hpath => ?_⟩
  induction hpath with
  | refl => exact h.entry_mem.resolve_right List.not_mem_nil
  | tail _ hstep ih => exact (h.closed _ ih _ hstep).resolve_right List.not_mem_nil

end Walk

/-! ## How many expansions are left -/

variable [DecidableEq α]

/-- The members of the universe that are still to be expanded, counted. -/
def unexpanded (univ done : List α) : Nat := (univ.toFinset \ done.toFinset).card

theorem unexpanded_nil_le (univ : List α) : unexpanded univ [] ≤ univ.length := by
  unfold unexpanded
  rw [List.toFinset_nil, Finset.sdiff_empty]
  exact univ.toFinset_card_le

theorem unexpanded_lt {univ done : List α} {a : α} (ha : a ∈ univ) (hnew : a ∉ done) :
    unexpanded univ (a :: done) < unexpanded univ done := by
  refine Finset.card_lt_card (Finset.ssubset_iff_of_subset ?_ |>.mpr ⟨a, ?_, ?_⟩)
  · refine Finset.sdiff_subset_sdiff (Finset.Subset.refl _) fun b hb => ?_
    rw [List.mem_toFinset] at hb ⊢
    exact List.mem_cons_of_mem _ hb
  · simp [ha, hnew]
  · simp

end Worklist
