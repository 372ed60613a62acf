import Mathlib.Data.List.Perm.Basic
import Mathlib.Data.List.Pairwise

/-!
# Local updates of a memory

A memory gives every address a value. An update is local to a region when it leaves the rest as it
is, and what it writes depends on the region only (`IsLocal`). `run` makes updates one after the
other. When their regions are apart from each other,

* `run_at`: each update has the effect that it has on the memory at the start;
* `run_outside`: what is in no region stays;
* `run_perm`: the order does not matter.
-/

namespace LocalUpdate

variable {A V σ : Type _}

/-- The memories have the same values in the region. -/
def AgreeOn (region : A → Prop) (m m' : A → V) : Prop := ∀ a, region a → m a = m' a

/-- No address is in both regions. -/
def Apart (r r' : A → Prop) : Prop := ∀ a, r a → ¬ r' a

theorem Apart.symm {r r' : A → Prop} (h : Apart r r') : Apart r' r := fun a h' hr => h a hr h'

structure IsLocal (f : (A → V) → A → V) (region : A → Prop) : Prop where
  outside : ∀ m a, ¬ region a → f m a = m a
  inside : ∀ m m', AgreeOn region m m' → AgreeOn region (f m) (f m')

/-- The updates `f u`, one after the other. -/
def run (f : σ → (A → V) → A → V) (us : List σ) (m : A → V) : A → V :=
  us.foldl (fun m u => f u m) m

section

variable {f : σ → (A → V) → A → V} {region : σ → A → Prop}

theorem run_outside (hf : ∀ u, IsLocal (f u) (region u)) {a : A} : ∀ {us : List σ} {m : A → V},
    (∀ u ∈ us, ¬ region u a) → run f us m a = m a
  | [], _, _ => rfl
  | u :: rest, m, h => by
    rw [List.forall_mem_cons] at h
    exact (run_outside hf h.2).trans ((hf u).outside m a h.1)

theorem run_at (hf : ∀ u, IsLocal (f u) (region u)) {u : σ} : ∀ {us : List σ} {m : A → V},
    (us.Pairwise fun u v => Apart (region u) (region v)) → u ∈ us →
      AgreeOn (region u) (run f us m) (f u m)
  | x :: rest, m, hapart, hu => by
    rw [List.pairwise_cons] at hapart
    intro a ha
    rcases List.mem_cons.mp hu with rfl | hu
    · -- none of the later updates gets to the region
      exact run_outside hf fun v hv => hapart.1 v hv a ha
    · have hsame : AgreeOn (region u) (f x m) m := fun b hb =>
        (hf x).outside m b ((hapart.1 u hu).symm b hb)
      exact (run_at hf hapart.2 hu a ha).trans ((hf u).inside _ _ hsame a ha)

theorem run_perm (hf : ∀ u, IsLocal (f u) (region u)) {us vs : List σ} (hperm : us.Perm vs)
    (hapart : us.Pairwise fun u v => Apart (region u) (region v)) (m : A → V) :
    run f us m = run f vs m := by
  have hapart' : vs.Pairwise fun u v => Apart (region u) (region v) :=
    hapart.perm hperm fun h => h.symm
  funext a
  by_cases h : ∃ u ∈ us, region u a
  · obtain ⟨u, hu, ha⟩ := h
    exact (run_at hf hapart hu a ha).trans (run_at hf hapart' (hperm.mem_iff.mp hu) a ha).symm
  · have hnone : ∀ u ∈ us, ¬ region u a := fun u hu ha => h ⟨u, hu, ha⟩
    rw [run_outside hf hnone, run_outside hf fun u hu => hnone u (hperm.mem_iff.mpr hu)]

end

end LocalUpdate
