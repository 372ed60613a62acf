import Mathlib.Order.Lattice
import Mathlib.Data.List.Pairwise
import Mathlib.Data.List.Sort

/-!
# Ordered maps and sets

Finite maps and sets over a linear order, kept as strictly ascending lists: `toList` is the order
in which an ordered container is iterated. `OrdMap.floor? k` is the entry with the greatest key
not above `k` (the predecessor of an upper-bound search).
-/

/-- A finite map as an association list in ascending key order. -/
structure OrdMap (α β : Type _) [LinearOrder α] where
  toList : List (α × β)
  sorted : toList.Pairwise (fun a b => a.1 < b.1)

/-- A finite set as an ascending list. -/
structure OrdSet (α : Type _) [LinearOrder α] where
  toList : List α
  sorted : toList.Pairwise (· < ·)

namespace OrdMap

variable {α β : Type _} [LinearOrder α]

/-! ## Insertion and lookup -/

def insertList (k : α) (v : β) : List (α × β) → List (α × β)
  | [] => [(k, v)]
  | e :: l =>
    if k < e.1 then (k, v) :: e :: l
    else if k = e.1 then (k, v) :: l
    else e :: insertList k v l

theorem mem_insertList {k : α} {v : β} {x : α × β} :
    ∀ {l : List (α × β)}, x ∈ insertList k v l → x = (k, v) ∨ x ∈ l
  | [], h => .inl (List.mem_singleton.mp h)
  | e :: l, h => by
    simp only [insertList] at h
    split at h
    · exact List.mem_cons.mp h
    · split at h
      · rcases List.mem_cons.mp h with h | h
        · exact .inl h
        · exact .inr (List.mem_cons_of_mem _ h)
      · rcases List.mem_cons.mp h with rfl | h
        · exact .inr List.mem_cons_self
        · exact (mem_insertList h).imp id (List.mem_cons_of_mem _)

theorem insertList_sorted {k : α} {v : β} :
    ∀ {l : List (α × β)}, l.Pairwise (fun a b => a.1 < b.1) →
      (insertList k v l).Pairwise (fun a b => a.1 < b.1)
  | [], _ => List.pairwise_singleton _ _
  | e :: l, h => by
    obtain ⟨he, hl⟩ := List.pairwise_cons.mp h
    simp only [insertList]
    split
    · rename_i hk
      refine List.pairwise_cons.mpr ⟨fun x hx => ?_, h⟩
      rcases List.mem_cons.mp hx with rfl | hx
      · exact hk
      · exact lt_trans hk (he x hx)
    · rename_i hk
      split
      · rename_i heq
        exact List.pairwise_cons.mpr ⟨fun x hx => heq ▸ he x hx, hl⟩
      · rename_i hne
        refine List.pairwise_cons.mpr ⟨fun x hx => ?_, insertList_sorted hl⟩
        rcases mem_insertList hx with rfl | hx
        · exact lt_of_le_of_ne (not_lt.mp hk) (Ne.symm hne)
        · exact he x hx

def empty : OrdMap α β := ⟨[], List.Pairwise.nil⟩

def insert (m : OrdMap α β) (k : α) (v : β) : OrdMap α β :=
  ⟨insertList k v m.toList, insertList_sorted m.sorted⟩

def get? (m : OrdMap α β) (k : α) : Option β :=
  (m.toList.find? fun e => decide (e.1 = k)).map (·.2)

def contains (m : OrdMap α β) (k : α) : Bool := (m.get? k).isSome

def keys (m : OrdMap α β) : List α := m.toList.map (·.1)

def erase (m : OrdMap α β) (k : α) : OrdMap α β :=
  ⟨m.toList.filter fun e => decide (e.1 ≠ k), m.sorted.sublist List.filter_sublist⟩

/-- Change the value filed under `k`, if there is one. -/
def modify (m : OrdMap α β) (k : α) (f : β → β) : OrdMap α β :=
  match m.get? k with
  | none => m
  | some v => m.insert k (f v)

/-- The map with every value changed. -/
def mapValues {γ : Type _} (m : OrdMap α β) (f : β → γ) : OrdMap α γ :=
  ⟨m.toList.map fun e => (e.1, f e.2), List.pairwise_map.mpr m.sorted⟩

/-- The entry with the greatest key that is at most `k`. -/
def floor? (m : OrdMap α β) (k : α) : Option (α × β) :=
  (m.toList.filter fun e => decide (e.1 ≤ k)).getLast?

theorem mem_toList_of_get? {m : OrdMap α β} {k : α} {v : β} (h : m.get? k = some v) :
    (k, v) ∈ m.toList := by
  simp only [get?, Option.map_eq_some_iff] at h
  obtain ⟨e, he, rfl⟩ := h
  have hk : e.1 = k := by simpa using List.find?_some he
  subst hk
  exact List.mem_of_find?_eq_some he

theorem get?_of_mem_toList {m : OrdMap α β} {k : α} {v : β} (h : (k, v) ∈ m.toList) :
    m.get? k = some v := by
  obtain ⟨l, hs⟩ := m
  simp only [get?]
  simp only at h
  induction l with
  | nil => cases h
  | cons e l ih =>
    obtain ⟨he, hl⟩ := List.pairwise_cons.mp hs
    rcases List.mem_cons.mp h with rfl | h
    · simp
    · have hne : e.1 ≠ k := ne_of_lt (he _ h)
      rw [List.find?_cons_of_neg (by simpa using hne)]
      exact ih hl h

theorem get?_eq_some_iff {m : OrdMap α β} {k : α} {v : β} :
    m.get? k = some v ↔ (k, v) ∈ m.toList :=
  ⟨mem_toList_of_get?, get?_of_mem_toList⟩

theorem mem_keys_iff {m : OrdMap α β} {k : α} : k ∈ m.keys ↔ (m.get? k).isSome := by
  simp only [keys, List.mem_map, Option.isSome_iff_exists, get?_eq_some_iff]
  constructor
  · rintro ⟨⟨a, b⟩, h, rfl⟩
    exact ⟨b, h⟩
  · rintro ⟨b, h⟩
    exact ⟨(k, b), h, rfl⟩

theorem keys_sorted (m : OrdMap α β) : m.keys.Pairwise (· < ·) :=
  List.pairwise_map.mpr m.sorted

theorem keys_nodup (m : OrdMap α β) : m.keys.Nodup := m.keys_sorted.imp ne_of_lt

theorem mem_insertList_iff {k : α} {v : β} {x : α × β} :
    ∀ {l : List (α × β)}, l.Pairwise (fun a b => a.1 < b.1) →
      (x ∈ insertList k v l ↔ x = (k, v) ∨ (x ∈ l ∧ x.1 ≠ k))
  | [], _ => by simp [insertList]
  | e :: l, h => by
    obtain ⟨he, hl⟩ := List.pairwise_cons.mp h
    have ih := mem_insertList_iff (k := k) (v := v) (x := x) hl
    simp only [insertList]
    split
    · rename_i hk
      have hne : ∀ y ∈ e :: l, y.1 ≠ k := fun y hy => by
        rcases List.mem_cons.mp hy with rfl | hy
        · exact (ne_of_lt hk).symm
        · exact (ne_of_lt (lt_trans hk (he y hy))).symm
      rw [List.mem_cons]
      exact or_congr_right ⟨fun hx => ⟨hx, hne x hx⟩, And.left⟩
    · split
      · rename_i heq
        have hne : ∀ y ∈ l, y.1 ≠ k := fun y hy => (ne_of_lt (heq ▸ he y hy)).symm
        rw [List.mem_cons, List.mem_cons]
        refine or_congr_right ⟨fun hx => ⟨.inr hx, hne x hx⟩, fun ⟨hx, hk⟩ => ?_⟩
        exact hx.resolve_left fun h => hk (h ▸ heq.symm)
      · rename_i hne
        rw [List.mem_cons, List.mem_cons, ih]
        constructor
        · rintro (rfl | rfl | ⟨h1, h2⟩)
          · exact .inr ⟨.inl rfl, fun h => hne h.symm⟩
          · exact .inl rfl
          · exact .inr ⟨.inr h1, h2⟩
        · rintro (h | ⟨h | h, hk⟩)
          · exact .inr (.inl h)
          · exact .inl h
          · exact .inr (.inr ⟨h, hk⟩)

theorem mem_toList_insert {m : OrdMap α β} {k : α} {v : β} {x : α × β} :
    x ∈ (m.insert k v).toList ↔ x = (k, v) ∨ (x ∈ m.toList ∧ x.1 ≠ k) :=
  mem_insertList_iff m.sorted

theorem mem_keys_insert {m : OrdMap α β} {k a : α} {v : β} :
    a ∈ (m.insert k v).keys ↔ a = k ∨ a ∈ m.keys := by
  simp only [keys, List.mem_map, mem_toList_insert]
  constructor
  · rintro ⟨x, rfl | ⟨hx, -⟩, rfl⟩
    · exact .inl rfl
    · exact .inr ⟨x, hx, rfl⟩
  · rintro (rfl | ⟨x, hx, rfl⟩)
    · exact ⟨_, .inl rfl, rfl⟩
    · by_cases hk : x.1 = k
      · exact ⟨(k, v), .inl rfl, hk.symm⟩
      · exact ⟨x, .inr ⟨hx, hk⟩, rfl⟩

/-- Inserting makes at most one entry more. -/
theorem length_insert_le (m : OrdMap α β) (k : α) (v : β) :
    (m.insert k v).toList.length ≤ m.toList.length + 1 := by
  have hlist : ∀ l : List (α × β), (insertList k v l).length ≤ l.length + 1 := by
    intro l
    induction l with
    | nil => exact Nat.le_refl _
    | cons e l ih =>
      unfold insertList
      split
      · exact Nat.le_refl _
      · split
        · exact Nat.le_succ _
        · exact Nat.succ_le_succ ih
  exact hlist m.toList

/-- Erasing the lowest key leaves the other entries. -/
theorem erase_lowest {m : OrdMap α β} {e : α × β} {rest : List (α × β)}
    (h : m.toList = e :: rest) : (m.erase e.1).toList = rest := by
  have hsorted := m.sorted
  rw [h] at hsorted
  show m.toList.filter (fun x => decide (x.1 ≠ e.1)) = rest
  rw [h, List.filter_cons_of_neg (by simp)]
  exact List.filter_eq_self.mpr fun x hx =>
    decide_eq_true (ne_of_gt ((List.pairwise_cons.mp hsorted).1 x hx))

@[simp] theorem get?_insert_self (m : OrdMap α β) (k : α) (v : β) :
    (m.insert k v).get? k = some v :=
  get?_of_mem_toList (mem_toList_insert.mpr (.inl rfl))

theorem get?_insert_of_ne {m : OrdMap α β} {k k' : α} {v : β} (h : k' ≠ k) :
    (m.insert k v).get? k' = m.get? k' := by
  apply Option.ext
  intro w
  rw [get?_eq_some_iff, get?_eq_some_iff, mem_toList_insert]
  constructor
  · rintro (h' | h')
    · exact absurd (Prod.mk.inj h').1 h
    · exact h'.1
  · exact fun h' => .inr ⟨h', h⟩

theorem get?_insert (m : OrdMap α β) (k k' : α) (v : β) :
    (m.insert k v).get? k' = if k' = k then some v else m.get? k' := by
  split
  · rename_i h
    rw [h, get?_insert_self]
  · rename_i h
    exact get?_insert_of_ne h

/-- Inserting entries with distinct keys, one after the other. -/
theorem get?_foldl_insert {k : α} {v : β} : ∀ {l : List (α × β)} {m : OrdMap α β},
    (l.map (·.1)).Nodup →
      ((l.foldl (fun m e => m.insert e.1 e.2) m).get? k = some v ↔
        (k, v) ∈ l ∨ (k ∉ l.map (·.1) ∧ m.get? k = some v))
  | [], m, _ => by simp
  | e :: l, m, hnd => by
    rw [List.map_cons, List.nodup_cons] at hnd
    rw [List.foldl_cons, get?_foldl_insert hnd.2, get?_insert, List.mem_cons, List.map_cons,
      List.mem_cons, not_or]
    constructor
    · rintro (h | ⟨hk, h⟩)
      · exact .inl (.inr h)
      · split at h
        · rename_i hke
          exact .inl (.inl (Prod.ext hke (Option.some.inj h).symm))
        · rename_i hke
          exact .inr ⟨⟨hke, hk⟩, h⟩
    · rintro ((rfl | h) | ⟨⟨hke, hk⟩, h⟩)
      · exact .inr ⟨hnd.1, if_pos rfl⟩
      · exact .inl h
      · exact .inr ⟨hk, (if_neg hke).trans h⟩

/-! ## The greatest key below a bound -/

/-- The entry found has the greatest key that is not above the bound. -/
theorem floor?_eq_some_iff {m : OrdMap α β} {k : α} {e : α × β} :
    m.floor? k = some e ↔ e ∈ m.toList ∧ e.1 ≤ k ∧ ∀ x ∈ m.toList, x.1 ≤ k → x.1 ≤ e.1 := by
  have hmem : ∀ x, x ∈ m.toList.filter (fun e => decide (e.1 ≤ k)) ↔ x ∈ m.toList ∧ x.1 ≤ k :=
    fun x => by rw [List.mem_filter, decide_eq_true_eq]
  have hsorted := m.sorted.sublist (List.filter_sublist (p := fun e => decide (e.1 ≤ k)))
  unfold floor?
  generalize m.toList.filter (fun e => decide (e.1 ≤ k)) = l at hmem hsorted ⊢
  constructor
  · intro h
    obtain ⟨before, rfl⟩ := List.getLast?_eq_some_iff.mp h
    obtain ⟨he, hle⟩ := (hmem e).mp (by simp)
    refine ⟨he, hle, fun x hx hxk => ?_⟩
    rcases List.mem_append.mp ((hmem x).mpr ⟨hx, hxk⟩) with hx | hx
    · exact le_of_lt ((List.pairwise_append.mp hsorted).2.2 x hx e (List.mem_singleton.mpr rfl))
    · rw [List.mem_singleton.mp hx]
  · rintro ⟨he, hle, hmax⟩
    obtain ⟨before, after, rfl⟩ := List.append_of_mem ((hmem e).mpr ⟨he, hle⟩)
    -- nothing comes after the entry, because it would have a greater key
    cases after with
    | nil => exact List.getLast?_concat
    | cons x rest =>
      have hlt := (List.pairwise_cons.mp (List.pairwise_append.mp hsorted).2.1).1 x
        List.mem_cons_self
      obtain ⟨hx, hxk⟩ := (hmem x).mp (by simp)
      exact absurd (hmax x hx hxk) (not_le.mpr hlt)

theorem floor?_mem {m : OrdMap α β} {k : α} {e : α × β} (h : m.floor? k = some e) :
    e ∈ m.toList := (floor?_eq_some_iff.mp h).1

theorem floor?_eq_none_iff {m : OrdMap α β} {k : α} :
    m.floor? k = none ↔ ∀ x ∈ m.toList, k < x.1 := by
  unfold floor?
  rw [List.getLast?_eq_none_iff, List.filter_eq_nil_iff]
  simp only [decide_eq_true_eq, not_le]

/-- An entry that is inserted is found from its key on, up to the next key. -/
theorem floor?_insert {m : OrdMap α β} {k a : α} {v : β} {e : α × β}
    (h : (m.insert k v).floor? a = some e) : (e = (k, v) ∧ k ≤ a) ∨ m.floor? a = some e := by
  obtain ⟨hmem, hle, hmax⟩ := floor?_eq_some_iff.mp h
  rcases mem_toList_insert.mp hmem with rfl | ⟨hold, hne⟩
  · exact .inl ⟨rfl, hle⟩
  · refine .inr (floor?_eq_some_iff.mpr ⟨hold, hle, fun x hx hxa => ?_⟩)
    by_cases hxk : x.1 = k
    · exact hxk ▸ hmax (k, v) (mem_toList_insert.mpr (.inl rfl)) (hxk ▸ hxa)
    · exact hmax x (mem_toList_insert.mpr (.inr ⟨hx, hxk⟩)) hxa

/-- An insertion that does not come between an entry and the bound leaves what is found. -/
theorem floor?_insert_of_floor? {m : OrdMap α β} {k a : α} {v : β} {e : α × β}
    (h : m.floor? a = some e) (hk : k ≤ a → k < e.1) : (m.insert k v).floor? a = some e := by
  obtain ⟨hmem, hle, hmax⟩ := floor?_eq_some_iff.mp h
  have hne : e.1 ≠ k := fun heq => (hk (heq ▸ hle)).ne heq.symm
  refine floor?_eq_some_iff.mpr ⟨mem_toList_insert.mpr (.inr ⟨hmem, hne⟩), hle, fun x hx hxa => ?_⟩
  rcases mem_toList_insert.mp hx with rfl | ⟨hx, -⟩
  · exact (hk hxa).le
  · exact hmax x hx hxa

/-- Between an entry and a bound at which it is found, it is found, too. -/
theorem floor?_of_between {m : OrdMap α β} {a b : α} {e : α × β} (h : m.floor? a = some e)
    (heb : e.1 ≤ b) (hba : b ≤ a) : m.floor? b = some e := by
  obtain ⟨hmem, -, hmax⟩ := floor?_eq_some_iff.mp h
  exact floor?_eq_some_iff.mpr ⟨hmem, heb, fun x hx hxb => hmax x hx (hxb.trans hba)⟩

/-- A key that is in the map is its own bound. -/
theorem floor?_of_get? {m : OrdMap α β} {k : α} {v : β} (h : m.get? k = some v) :
    m.floor? k = some (k, v) :=
  floor?_eq_some_iff.mpr ⟨mem_toList_of_get? h, le_refl k, fun _ _ hx => hx⟩

end OrdMap

namespace OrdSet

variable {α : Type _} [LinearOrder α]

def insertList (a : α) : List α → List α
  | [] => [a]
  | b :: l =>
    if a < b then a :: b :: l
    else if a = b then b :: l
    else b :: insertList a l

theorem mem_insertList {a x : α} : ∀ {l : List α}, x ∈ insertList a l ↔ x = a ∨ x ∈ l
  | [] => by simp [insertList]
  | b :: l => by
    have ih := mem_insertList (a := a) (x := x) (l := l)
    simp only [insertList]
    split
    · simp
    · split
      · rename_i h
        subst h
        simp
      · rw [List.mem_cons, List.mem_cons, ih, or_left_comm]

theorem insertList_sorted {a : α} : ∀ {l : List α}, l.Pairwise (· < ·) →
    (insertList a l).Pairwise (· < ·)
  | [], _ => List.pairwise_singleton _ _
  | b :: l, h => by
    obtain ⟨hb, hl⟩ := List.pairwise_cons.mp h
    simp only [insertList]
    split
    · rename_i hab
      refine List.pairwise_cons.mpr ⟨fun x hx => ?_, h⟩
      rcases List.mem_cons.mp hx with rfl | hx
      · exact hab
      · exact lt_trans hab (hb x hx)
    · rename_i hab
      split
      · exact h
      · rename_i hne
        refine List.pairwise_cons.mpr ⟨fun x hx => ?_, insertList_sorted hl⟩
        rcases mem_insertList.mp hx with rfl | hx
        · exact lt_of_le_of_ne (not_lt.mp hab) (Ne.symm hne)
        · exact hb x hx

def empty : OrdSet α := ⟨[], List.Pairwise.nil⟩

def insert (s : OrdSet α) (a : α) : OrdSet α := ⟨insertList a s.toList, insertList_sorted s.sorted⟩

def erase (s : OrdSet α) (a : α) : OrdSet α :=
  ⟨s.toList.filter fun b => decide (b ≠ a), s.sorted.sublist List.filter_sublist⟩

def ofList (l : List α) : OrdSet α := l.foldl insert empty

instance : Membership α (OrdSet α) := ⟨fun s a => a ∈ s.toList⟩

instance (a : α) (s : OrdSet α) : Decidable (a ∈ s) := inferInstanceAs (Decidable (a ∈ s.toList))

theorem mem_def {a : α} {s : OrdSet α} : a ∈ s ↔ a ∈ s.toList := Iff.rfl

/-- A set is its members. -/
theorem ext {s s' : OrdSet α} (h : ∀ a, a ∈ s ↔ a ∈ s') : s = s' := by
  obtain ⟨l, hl⟩ := s
  obtain ⟨l', hl'⟩ := s'
  obtain rfl : l = l' := hl.eq_of_mem_iff hl' h
  rfl

@[simp] theorem not_mem_empty (a : α) : a ∉ (empty : OrdSet α) := List.not_mem_nil

@[simp] theorem mem_insert {s : OrdSet α} {a x : α} : x ∈ s.insert a ↔ x = a ∨ x ∈ s :=
  mem_insertList

@[simp] theorem mem_erase {s : OrdSet α} {a x : α} : x ∈ s.erase a ↔ x ∈ s ∧ x ≠ a := by
  simp [mem_def, erase]

end OrdSet
