import Mathlib.Data.List.Nodup
import Mathlib.Data.List.Perm.Basic

/-!
# Multimaps as indices

A multimap is its list of entries. `Indexes key m all` says that `m` files every value of `all`
once, under its `key`, and nothing else; it is kept by filing a new value and by taking one out of
its bucket, and it says what the buckets hold.
-/

namespace Multimap

variable {K V : Type _}

/-- The values filed under `k`. -/
def equalRange [DecidableEq K] (m : List (K × V)) (k : K) : List V :=
  (m.filter fun e => decide (e.1 = k)).map (·.2)

/-- Take the first value that meets `p` out of the bucket of `k`. -/
def eraseFirst [DecidableEq K] (m : List (K × V)) (k : K) (p : V → Bool) : List (K × V) :=
  m.eraseP fun e => decide (e.1 = k) && p e.2

/-- `m` holds the values of `all`, each under its key. -/
def Indexes (key : V → K) (m : List (K × V)) (all : List V) : Prop :=
  m.Perm (all.map fun v => (key v, v))

variable {key : V → K} {m : List (K × V)} {all : List V}

theorem Indexes.nil : Indexes key [] [] := List.Perm.nil

theorem Indexes.concat (h : Indexes key m all) (v : V) :
    Indexes key (m ++ [(key v, v)]) (all ++ [v]) := by
  unfold Indexes
  rw [List.map_append]
  exact h.append_right _

theorem Indexes.mem_iff (h : Indexes key m all) {e : K × V} :
    e ∈ m ↔ e.2 ∈ all ∧ e.1 = key e.2 := by
  have hmem : e ∈ m ↔ e ∈ all.map fun v => (key v, v) := List.Perm.mem_iff h
  rw [hmem, List.mem_map]
  constructor
  · rintro ⟨v, hv, rfl⟩
    exact ⟨hv, rfl⟩
  · rintro ⟨hv, hk⟩
    exact ⟨e.2, hv, Prod.ext hk.symm rfl⟩

theorem eraseP_congr {α : Type _} {p q : α → Bool} :
    ∀ {l : List α}, (∀ a ∈ l, p a = q a) → l.eraseP p = l.eraseP q
  | [], _ => rfl
  | a :: l, h => by
    have ha := h a List.mem_cons_self
    have ih := eraseP_congr fun b hb => h b (List.mem_cons_of_mem a hb)
    rw [List.eraseP_cons, List.eraseP_cons, ha, ih]

variable [DecidableEq K]

/-- When `p` picks out `v` in its bucket, erasing by `p` takes out the entry of `v`. -/
theorem Indexes.eraseFirst [DecidableEq V] (h : Indexes key m all) {v : V} {p : V → Bool}
    (hp : ∀ w ∈ all, key w = key v → (p w = true ↔ w = v)) :
    Indexes key (eraseFirst m (key v) p) (all.erase v) := by
  have hpick : Multimap.eraseFirst m (key v) p = m.erase (key v, v) := by
    rw [List.erase_eq_eraseP']
    refine eraseP_congr fun e he => ?_
    obtain ⟨hall, hkey⟩ := h.mem_iff.mp he
    rw [Bool.eq_iff_iff, Bool.and_eq_true, decide_eq_true_eq, beq_iff_eq]
    constructor
    · rintro ⟨hk, hpe⟩
      exact Prod.ext hk ((hp e.2 hall (hkey.symm.trans hk)).mp hpe)
    · rintro rfl
      exact ⟨rfl, (hp v hall rfl).mpr rfl⟩
  have hinj : Function.Injective fun v : V => (key v, v) := fun a b hab => (Prod.mk.inj hab).2
  unfold Indexes
  rw [hpick, List.map_erase hinj]
  exact List.Perm.erase _ h

/-- A bucket holds the values with its key. -/
theorem Indexes.equalRange (h : Indexes key m all) (k : K) :
    (equalRange m k).Perm (all.filter fun v => decide (key v = k)) := by
  have hperm := (List.Perm.filter (fun e : K × V => decide (e.1 = k)) h).map (·.2)
  have hfilter : ((all.map fun v => (key v, v)).filter fun e => decide (e.1 = k)).map (·.2) =
      all.filter fun v => decide (key v = k) := by
    rw [List.filter_map, List.map_map]
    exact List.map_id _
  rw [hfilter] at hperm
  exact hperm

end Multimap
