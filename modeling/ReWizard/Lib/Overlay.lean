import ReWizard.Lib.LocalUpdate

/-!
# Patches over a memory

A patch has a value for some addresses; over a memory it hides what the memory has there. `stack`
lays patches one after the other over a memory:

* `stack_apply`: an address has the value of the last patch that covers it;
* `stack_perm`: patches that do not overlap can be laid in any order;
* `stack_range`: a patch of consecutive values can be cut into two.
-/

namespace Overlay

variable {A V : Type _}

/-- The memory with one patch over it. -/
def patch (m : A → V) (p : A → Option V) : A → V := fun a => (p a).getD (m a)

/-- The memory with the patches over it, the last one on top. -/
def stack (m : A → V) (ps : List (A → Option V)) : A → V := ps.foldl patch m

/-- The value of the last patch that covers the address. -/
def top (ps : List (A → Option V)) (a : A) : Option V := ps.reverse.findSome? fun p => p a

@[simp] theorem stack_nil (m : A → V) : stack m [] = m := rfl

theorem stack_cons (m : A → V) (p : A → Option V) (ps : List (A → Option V)) :
    stack m (p :: ps) = stack (patch m p) ps := rfl

theorem top_append (ps qs : List (A → Option V)) (a : A) :
    top (ps ++ qs) a = (top qs a).or (top ps a) := by
  unfold top
  rw [List.reverse_append, List.findSome?_append]

/-- **The last patch on top** decides what an address has. -/
theorem stack_apply (m : A → V) (a : A) : ∀ ps : List (A → Option V),
    stack m ps a = (top ps a).getD (m a)
  | [] => rfl
  | p :: ps => by
    have htop : top (p :: ps) a = (top ps a).or (p a) := by
      rw [← List.singleton_append, top_append]
      cases hp : p a <;> simp [top, hp]
    rw [stack_cons, stack_apply (patch m p) a ps, htop]
    cases top ps a with
    | none => rfl
    | some v => rfl

/-- Only the values at the address matter. -/
theorem stack_congr {I : Type _} {m m' : A → V} {p q : I → A → Option V} {a : A} :
    ∀ {l : List I}, (∀ i ∈ l, p i a = q i a) → m a = m' a →
      stack m (l.map p) a = stack m' (l.map q) a
  | [], _, h => h
  | i :: l, hpq, h => by
    rw [List.forall_mem_cons] at hpq
    have hfirst : patch m (p i) a = patch m' (q i) a := by
      show (p i a).getD (m a) = (q i a).getD (m' a)
      rw [hpq.1, h]
    show stack (patch m (p i)) (l.map p) a = stack (patch m' (q i)) (l.map q) a
    exact stack_congr hpq.2 hfirst

/-- Where no patch is, the memory is seen. -/
theorem stack_outside {m : A → V} {ps : List (A → Option V)} {a : A} (h : ∀ p ∈ ps, p a = none) :
    stack m ps a = m a := by
  have htop : top ps a = none := List.findSome?_eq_none_iff.mpr fun p hp =>
    h p (List.mem_reverse.mp hp)
  rw [stack_apply, htop]
  rfl

/-- No address is covered by both. -/
def Apart (p q : A → Option V) : Prop := ∀ a, p a = none ∨ q a = none

theorem Apart.symm {p q : A → Option V} (h : Apart p q) : Apart q p := fun a => (h a).symm

/-- To lay a patch is a local update. -/
theorem patch_isLocal (p : A → Option V) :
    LocalUpdate.IsLocal (fun m => patch m p) fun a => p a ≠ none where
  outside := fun m a h => by
    show (p a).getD (m a) = m a
    rw [not_not.mp h]
    rfl
  inside := fun m m' h a ha => by
    show (p a).getD (m a) = (p a).getD (m' a)
    rw [h a ha]

/-- **Order**: patches that are apart can be laid in any order. -/
theorem stack_perm {ps qs : List (A → Option V)} (hperm : ps.Perm qs) (hapart : ps.Pairwise Apart)
    (m : A → V) : stack m ps = stack m qs := by
  refine LocalUpdate.run_perm (f := fun p m => patch m p) patch_isLocal hperm ?_ m
  exact hapart.imp fun h a hp hq => (h a).elim hp hq

/-! ## Ranges -/

/-- The patch of the values from the address `start` on. -/
def range (start : Nat) (vs : List V) : Nat → Option V := fun a =>
  if start ≤ a then vs[a - start]? else none

theorem range_eq_none {start a : Nat} {vs : List V} :
    range start vs a = none ↔ ¬ (start ≤ a ∧ a < start + vs.length) := by
  unfold range
  split
  · rename_i h
    rw [List.getElem?_eq_none_iff]
    omega
  · rename_i h
    exact ⟨fun _ hv => h hv.1, fun _ => rfl⟩

/-- Ranges that do not overlap are apart. -/
theorem range_apart {start start' : Nat} {vs vs' : List V}
    (h : start + vs.length ≤ start' ∨ start' + vs'.length ≤ start) :
    Apart (range start vs) (range start' vs') := by
  intro a
  rw [range_eq_none, range_eq_none]
  omega

/-- **Cuts**: a range in two pieces, the first one laid first. -/
theorem stack_range (m : Nat → V) (start : Nat) (vs ws : List V) :
    stack m [range start vs, range (start + vs.length) ws] = patch m (range start (vs ++ ws)) := by
  funext a
  rw [stack_apply]
  have htop : top [range start vs, range (start + vs.length) ws] a = range start (vs ++ ws) a := by
    have hlater : range (start + vs.length) ws a =
        if start + vs.length ≤ a then (vs ++ ws)[a - start]? else none := by
      unfold range
      split
      · rename_i h
        rw [List.getElem?_append_right (by omega), show a - start - vs.length =
          a - (start + vs.length) by omega]
      · rfl
    by_cases hlt : start + vs.length ≤ a
    · have hnone : range start vs a = none := range_eq_none.mpr (by omega)
      have hwhole : range start (vs ++ ws) a = (vs ++ ws)[a - start]? := if_pos (by omega)
      rw [show [range start vs, range (start + vs.length) ws] =
        [range start vs] ++ [range (start + vs.length) ws] from rfl, top_append]
      simp only [top, List.reverse_singleton, List.findSome?_singleton, hnone, Option.or_none]
      rw [hlater, if_pos hlt, hwhole]
    · have hnone : range (start + vs.length) ws a = none := range_eq_none.mpr (by omega)
      rw [show [range start vs, range (start + vs.length) ws] =
        [range start vs] ++ [range (start + vs.length) ws] from rfl, top_append]
      simp only [top, List.reverse_singleton, List.findSome?_singleton, hnone, Option.none_or]
      unfold range
      split
      · rename_i h
        rw [List.getElem?_append_left (by omega)]
      · rfl
  rw [htop]
  rfl

end Overlay
