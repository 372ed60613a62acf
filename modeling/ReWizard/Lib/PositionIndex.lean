import Mathlib.Data.List.Induction

/-!
# Indices of positions

A list that grows at its end with an index beside it, which keeps the positions of the values under
their keys. `Agrees key idx all` says that the bucket of each key holds the positions of exactly the
values with this key, in order. A bucket then reads back as the scan of the list (`Agrees.read`).

`Latest key idx all` is the same for an index with one position under a key, which a later value with
the key overwrites: it is the position of the last value with this key.
-/

namespace PositionIndex

variable {K V : Type _} [DecidableEq K]

/-- The positions of the values with the key `k`, in order. -/
def positions (key : V → K) (k : K) (all : List V) : List Nat :=
  (List.range all.length).filter fun i => decide (all[i]?.map key = some k)

/-- The bucket of `k`: a key that nothing was filed under has none. -/
def bucket (idx : K → Option (List Nat)) (k : K) : List Nat := (idx k).getD []

/-- File a position under `k`. -/
def file (idx : K → Option (List Nat)) (k : K) (position : Nat) : K → Option (List Nat) :=
  fun k' => if k' = k then some (bucket idx k ++ [position]) else idx k'

/-- The index holds the positions of all values. -/
def Agrees (key : V → K) (idx : K → Option (List Nat)) (all : List V) : Prop :=
  ∀ k, bucket idx k = positions key k all

variable {key : V → K} {idx : K → Option (List Nat)} {all : List V}

theorem bucket_file (idx : K → Option (List Nat)) (k k' : K) (position : Nat) :
    bucket (file idx k position) k' =
      bucket idx k' ++ if k' = k then [position] else [] := by
  unfold file
  by_cases h : k' = k
  · subst h
    simp [bucket]
  · simp [bucket, h]

/-- A value at the end adds its position to those of its key, and to no others. -/
theorem positions_concat (key : V → K) (k : K) (all : List V) (v : V) :
    positions key k (all ++ [v]) =
      positions key k all ++ if k = key v then [all.length] else [] := by
  have hold : (List.range all.length).filter
      (fun i => decide ((all ++ [v])[i]?.map key = some k)) = positions key k all := by
    refine List.filter_congr fun i hi => ?_
    rw [List.getElem?_append_left (List.mem_range.mp hi)]
  unfold positions at hold ⊢
  rw [List.length_append, List.length_singleton, List.range_succ, List.filter_append, hold]
  by_cases h : k = key v
  · simp [h]
  · simp [h, Ne.symm h]

theorem Agrees.empty : Agrees key (fun _ => none) [] := fun _ => rfl

/-- Filing the new value's position keeps the agreement. -/
theorem Agrees.concat (h : Agrees key idx all) (v : V) :
    Agrees key (file idx (key v) all.length) (all ++ [v]) := by
  intro k
  rw [bucket_file, positions_concat, h k]

/-- The values at the positions are what a scan finds. -/
theorem map_positions (key : V → K) (k : K) (all : List V) :
    (positions key k all).map (fun i => all[i]?) =
      (all.filter fun v => decide (key v = k)).map some := by
  induction all using List.reverseRecOn with
  | nil => rfl
  | append_singleton all v ih =>
    have hold : (positions key k all).map (fun i => (all ++ [v])[i]?) =
        (positions key k all).map fun i => all[i]? := by
      refine List.map_congr_left fun i hi => ?_
      have hlt : i < all.length := List.mem_range.mp (List.mem_filter.mp hi).1
      rw [List.getElem?_append_left hlt]
    rw [positions_concat, List.map_append, hold, ih, List.filter_append, List.map_append]
    by_cases h : k = key v
    · simp [h]
    · simp [h, Ne.symm h]

/-- A bucket reads back as a scan of the list. -/
theorem Agrees.read (h : Agrees key idx all) (k : K) :
    (bucket idx k).map (fun i => all[i]?) =
      (all.filter fun v => decide (key v = k)).map some := by
  rw [h k, map_positions]

/-! ## The latest position -/

/-- The position and the value that are found under `k`: those of the last value with this key, or
none when no value has it. -/
inductive FindsLast (key : V → K) (all : List V) (k : K) : Option Nat → Option V → Prop
  | none (hnone : ∀ u ∈ all, key u ≠ k) : FindsLast key all k none none
  | some (earlier : List V) (v : V) (later : List V) (hall : all = earlier ++ v :: later)
      (hkey : key v = k) (hlast : ∀ u ∈ later, key u ≠ k) :
      FindsLast key all k (some earlier.length) (some v)

/-- The index holds the position of the last value with each key. -/
def Latest (key : V → K) (idx : K → Option Nat) (all : List V) : Prop :=
  ∀ k, FindsLast key all k (idx k) ((idx k).bind fun i => all[i]?)

omit [DecidableEq K]

theorem Latest.empty : Latest key (fun _ => none) [] :=
  fun _ => .none fun _ hu => absurd hu List.not_mem_nil

theorem getElem?_length (earlier : List V) (v : V) (later : List V) :
    (earlier ++ v :: later)[earlier.length]? = some v := by
  rw [List.getElem?_append_right (Nat.le_refl _), Nat.sub_self]
  rfl

/-- Every position in the index is one of the list. -/
theorem Latest.valid {pos : K → Option Nat} (h : Latest key pos all) {k : K} {i : Nat}
    (hi : pos k = some i) : i < all.length := by
  have hk := h k
  rw [hi] at hk
  generalize (some i).bind (fun i => all[i]?) = found at hk
  cases hk with
  | some earlier v later hall =>
    rw [hall, List.length_append, List.length_cons]
    omega

/-- A value at the end overwrites the position under its key. -/
theorem Latest.concat {pos pos' : K → Option Nat} (h : Latest key pos all) (v : V)
    (hself : pos' (key v) = some all.length) (hother : ∀ k, k ≠ key v → pos' k = pos k) :
    Latest key pos' (all ++ [v]) := by
  intro k
  by_cases hk : k = key v
  · subst hk
    rw [hself, Option.bind_some, getElem?_length]
    exact .some all v [] rfl rfl fun _ hu => absurd hu List.not_mem_nil
  · have hfound := h k
    rw [hother k hk]
    generalize pos k = position at hfound ⊢
    generalize position.bind (fun i => all[i]?) = found at hfound
    cases hfound with
    | none hnone =>
      refine .none fun u hu => ?_
      rcases List.mem_append.mp hu with hu | hu
      · exact hnone u hu
      · rw [List.mem_singleton.mp hu]
        exact Ne.symm hk
    | some earlier w later hall hkey hlast =>
      have hall' : all ++ [v] = earlier ++ w :: (later ++ [v]) := by
        rw [hall, List.append_assoc, List.cons_append]
      rw [Option.bind_some, hall', getElem?_length]
      refine .some earlier w (later ++ [v]) rfl hkey fun u hu => ?_
      rcases List.mem_append.mp hu with hu | hu
      · exact hlast u hu
      · rw [List.mem_singleton.mp hu]
        exact Ne.symm hk

end PositionIndex
