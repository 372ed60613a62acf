import Mathlib.Data.Finite.Defs
import Mathlib.Data.Fintype.Card
import Mathlib.Order.WellFounded
import Mathlib.Logic.Relation
import Mathlib.Order.RelClasses
import Mathlib.Data.Set.Finite.Basic

/-!
# Reaching a cycle

For a relation `r` ("depends on"): `OnCycle r c` when `c` depends on itself through one or more
steps, and `ReachesCycle r a` when `a` depends, directly or transitively, on such a `c`.

* `ReachesCycle.of_stuck`: in a finite set each of whose members depends on a member, every member
  reaches a cycle.
* `not_reachesCycle_of_order`: no member of an order reaches one in which everything comes after what
  it depends on.
-/

namespace Cycle

open Relation

variable {α : Type _} {r : α → α → Prop}

/-- `c` lies on a cycle. -/
def OnCycle (r : α → α → Prop) (c : α) : Prop := TransGen r c c

/-- `a` depends, directly or transitively, on a member of a cycle. -/
def ReachesCycle (r : α → α → Prop) (a : α) : Prop := ∃ c, TransGen r a c ∧ OnCycle r c

theorem OnCycle.reachesCycle {c : α} (h : OnCycle r c) : ReachesCycle r c := ⟨c, h, h⟩

theorem ReachesCycle.head {a b : α} (hab : r a b) (h : ReachesCycle r b) : ReachesCycle r a :=
  let ⟨c, hbc, hc⟩ := h
  ⟨c, TransGen.head hab hbc, hc⟩

/-- A dependency of `a` carries `a`'s cycle on. -/
theorem ReachesCycle.exists_dep {a : α} (h : ReachesCycle r a) :
    ∃ b, r a b ∧ ReachesCycle r b := by
  obtain ⟨c, hac, hc⟩ := h
  obtain ⟨b, hab, hbc⟩ := TransGen.head'_iff.mp hac
  refine ⟨b, hab, ?_⟩
  rcases reflTransGen_iff_eq_or_transGen.mp hbc with rfl | hbc
  · exact OnCycle.reachesCycle hc
  · exact ⟨c, hbc, hc⟩

/-- In a finite set whose members all depend on a member, every member reaches a cycle. -/
theorem ReachesCycle.of_stuck {S : Set α} (hS : S.Finite) (hdep : ∀ a ∈ S, ∃ b ∈ S, r a b) :
    ∀ a ∈ S, ReachesCycle r a := by
  -- otherwise the transitive closure on the cycle-free members is a strict order, whose minimal
  -- member still depends on a cycle-free member
  intro a ha
  by_contra hna
  let T : Set α := {b | b ∈ S ∧ ¬ ReachesCycle r b}
  have hT : Finite T := (hS.subset fun b hb => hb.1).to_subtype
  let q : T → T → Prop := fun b c => TransGen r c.1 b.1
  have : IsTrans T q := ⟨fun b c d hbc hcd => TransGen.trans hcd hbc⟩
  have : Std.Irrefl q := ⟨fun b hb => b.2.2 (OnCycle.reachesCycle hb)⟩
  have hwf : WellFounded q := Finite.wellFounded_of_trans_of_irrefl q
  obtain ⟨m, -, hmin⟩ := hwf.has_min Set.univ ⟨⟨a, ha, hna⟩, trivial⟩
  obtain ⟨b, hb, hmb⟩ := hdep m.1 m.2.1
  have hnb : ¬ ReachesCycle r b := fun h => m.2.2 (h.head hmb)
  exact hmin ⟨b, hb, hnb⟩ trivial (TransGen.single hmb)

/-- A member of an order in which everything comes after what it depends on reaches no cycle. -/
theorem not_reachesCycle_of_order {l : List α}
    (h : ∀ l₁ a l₂, l = l₁ ++ a :: l₂ → ∀ b, r a b → b ∈ l₁) : ∀ a ∈ l, ¬ ReachesCycle r a := by
  -- the earliest member that reaches a cycle depends on an earlier one that does
  have key : ∀ n, ∀ l₁ a l₂, l = l₁ ++ a :: l₂ → l₁.length = n → ¬ ReachesCycle r a := by
    intro n
    induction n using Nat.strong_induction_on with
    | _ n ih =>
      intro l₁ a l₂ hl hn ha
      obtain ⟨b, hab, hb⟩ := ha.exists_dep
      obtain ⟨s, t, rfl⟩ := List.append_of_mem (h l₁ a l₂ hl b hab)
      refine ih s.length (by simp at hn; omega) s b (t ++ a :: l₂) ?_ rfl hb
      simp [hl]
  intro a ha
  obtain ⟨s, t, hl⟩ := List.append_of_mem ha
  exact key _ s a t hl rfl

end Cycle
