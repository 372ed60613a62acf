import Mathlib.Data.List.Pairwise
import Mathlib.Data.List.Nodup
import Mathlib.Data.List.Sort

/-!
# Tables with row ids

`Table V` is a relation with an automatic row id: the rows in ascending order of their ids, and the
greatest id that was ever given out. `UniqueTable key` has a uniqueness constraint on `key`, the
two insertions with a conflict clause (`upsert` replaces the row in conflict, `insertNew` drops the
new one), and a deletion by the key. An insertion takes its id before it meets the conflict, so that
id is not given out again.

* `scan`: the rows in the order in which a query comes to them, which may be any
  (`Table.exists_scan`);
* `upserts_rows_eq_iff`: when a sequence of upserts changes no row;
* `Represents`: the table as a partial map, with `upsert` and `delete` as updates of it.
-/

/-- Rows with ascending ids. Row ids are natural numbers: the table does not run out of them. -/
structure Table (V : Type _) where
  rows : List (Nat × V)
  seq : Nat
  ids_sorted : rows.Pairwise fun a b => a.1 < b.1
  ids_le_seq : ∀ r ∈ rows, r.1 ≤ seq

namespace Table

variable {V : Type _}

def empty : Table V := ⟨[], 0, List.Pairwise.nil, by simp⟩

def values (t : Table V) : List V := t.rows.map (·.2)

/-- Insert a row under a new id. -/
def insert (t : Table V) (v : V) : Table V where
  rows := t.rows ++ [(t.seq + 1, v)]
  seq := t.seq + 1
  ids_sorted := by
    refine List.pairwise_append.mpr ⟨t.ids_sorted, List.pairwise_singleton _ _, ?_⟩
    intro a ha b hb
    have := t.ids_le_seq a ha
    rw [List.mem_singleton.mp hb]
    exact Nat.lt_succ_of_le this
  ids_le_seq := by
    intro r hr
    rcases List.mem_append.mp hr with hr | hr
    · exact Nat.le_succ_of_le (t.ids_le_seq r hr)
    · obtain rfl := List.mem_singleton.mp hr
      exact Nat.le_refl _

/-- Replace values in place. -/
def mapValues (t : Table V) (f : V → V) : Table V where
  rows := t.rows.map fun r => (r.1, f r.2)
  seq := t.seq
  ids_sorted := List.pairwise_map.mpr t.ids_sorted
  ids_le_seq := by
    intro r hr
    obtain ⟨r', hr', rfl⟩ := List.mem_map.mp hr
    exact t.ids_le_seq r' hr'

/-- Give out an id for no row. -/
def skipId (t : Table V) : Table V where
  rows := t.rows
  seq := t.seq + 1
  ids_sorted := t.ids_sorted
  ids_le_seq := fun r hr => Nat.le_succ_of_le (t.ids_le_seq r hr)

/-- Delete the rows whose values fail the test. Their ids are not given out again. -/
def filterValues (t : Table V) (p : V → Bool) : Table V where
  rows := t.rows.filter fun r => p r.2
  seq := t.seq
  ids_sorted := t.ids_sorted.sublist List.filter_sublist
  ids_le_seq := fun r hr => t.ids_le_seq r (List.mem_of_mem_filter hr)

@[simp] theorem rows_insert (t : Table V) (v : V) :
    (t.insert v).rows = t.rows ++ [(t.seq + 1, v)] := rfl

@[simp] theorem values_insert (t : Table V) (v : V) : (t.insert v).values = t.values ++ [v] := by
  simp [values]

@[simp] theorem values_mapValues (t : Table V) (f : V → V) :
    (t.mapValues f).values = t.values.map f := by
  simp [values, mapValues, Function.comp_def]

@[simp] theorem values_skipId (t : Table V) : t.skipId.values = t.values := rfl

@[simp] theorem values_filterValues (t : Table V) (p : V → Bool) :
    (t.filterValues p).values = t.values.filter p := by
  unfold values filterValues
  rw [List.filter_map]
  rfl

@[simp] theorem values_empty : (empty : Table V).values = [] := rfl

end Table

/-! ## Scans -/

section

variable {V : Type _}

/-- The rows in the order of the ranks of their ids. -/
def scan (rank : Nat → Nat) (rows : List (Nat × V)) : List (Nat × V) :=
  rows.insertionSort fun a b => rank a.1 ≤ rank b.1

theorem scan_perm (rank : Nat → Nat) (rows : List (Nat × V)) : (scan rank rows).Perm rows :=
  List.perm_insertionSort _ rows

@[simp] theorem mem_scan {rank : Nat → Nat} {rows : List (Nat × V)} {r : Nat × V} :
    r ∈ scan rank rows ↔ r ∈ rows :=
  (scan_perm rank rows).mem_iff

theorem pairwise_scan (rank : Nat → Nat) (rows : List (Nat × V)) :
    (scan rank rows).Pairwise fun a b => rank a.1 ≤ rank b.1 := by
  have htotal : Std.Total fun a b : Nat × V => rank a.1 ≤ rank b.1 :=
    ⟨fun a b => Nat.le_total (rank a.1) (rank b.1)⟩
  have htrans : IsTrans (Nat × V) fun a b => rank a.1 ≤ rank b.1 :=
    ⟨fun _ _ _ => Nat.le_trans⟩
  exact List.pairwise_insertionSort _ rows

/-- A scan may come to the rows of a table in any order. -/
theorem Table.exists_scan (t : Table V) {order : List (Nat × V)} (h : order.Perm t.rows) :
    ∃ rank, scan rank t.rows = order := by
  have hids : (order.map (·.1)).Nodup := by
    rw [(h.map (·.1)).nodup_iff]
    exact List.pairwise_map.mpr (t.ids_sorted.imp Nat.ne_of_lt)
  -- the position in the order ranks the ids
  let rank : Nat → Nat := fun id => (order.map (·.1)).idxOf id
  have hsorted : order.Pairwise fun a b => rank a.1 ≤ rank b.1 := by
    refine List.pairwise_iff_getElem.mpr fun i j hi hj hij => ?_
    have hidx : ∀ k, (hk : k < order.length) → rank order[k].1 = k := fun k hk => by
      have hpos := hids.idxOf_getElem k (by rwa [List.length_map])
      rwa [List.getElem_map] at hpos
    rw [hidx i hi, hidx j hj]
    exact Nat.le_of_lt hij
  refine ⟨rank, ((scan_perm rank t.rows).trans h.symm).eq_of_pairwise ?_
    (pairwise_scan rank t.rows) hsorted⟩
  intro a b ha hb hab hba
  have ha : a ∈ order := h.symm.subset ((scan_perm rank t.rows).subset ha)
  have hid : a.1 = b.1 :=
    (List.idxOf_inj (List.mem_map_of_mem ha)).mp (Nat.le_antisymm hab hba)
  exact List.inj_on_of_nodup_map hids ha hb hid

end

/-- A table in which no two rows have the same `key`. -/
structure UniqueTable {V K : Type _} (key : V → K) where
  table : Table V
  unique : (table.values.map key).Nodup

namespace UniqueTable

variable {V K : Type _} {key : V → K}

def empty : UniqueTable key := ⟨Table.empty, by simp⟩

def rows (t : UniqueTable key) : List (Nat × V) := t.table.rows

def values (t : UniqueTable key) : List V := t.table.values

/-- Some row has the key. -/
def HasKey (t : UniqueTable key) (k : K) : Prop := k ∈ t.values.map key

theorem values_eq (t : UniqueTable key) : t.values = t.rows.map (·.2) := rfl

theorem mem_values {t : UniqueTable key} {v : V} : v ∈ t.values ↔ ∃ r ∈ t.rows, r.2 = v := by
  rw [values_eq, List.mem_map]

/-- A table that may have to be created. -/
theorem mem_values_getD {o : Option (UniqueTable key)} {v : V}
    (h : v ∈ (o.getD empty).values) : ∃ t, o = some t ∧ v ∈ t.values := by
  cases o with
  | none => cases h
  | some t => exact ⟨t, rfl, h⟩

theorem row_keys_nodup (t : UniqueTable key) : (t.rows.map fun r => key r.2).Nodup := by
  have hunique := t.unique
  unfold Table.values at hunique
  rwa [List.map_map] at hunique

theorem row_eq_of_key_eq {t : UniqueTable key} {r r' : Nat × V} (hr : r ∈ t.rows)
    (hr' : r' ∈ t.rows) (h : key r.2 = key r'.2) : r = r' :=
  List.inj_on_of_nodup_map t.row_keys_nodup hr hr' h

/-- What tells the keys apart tells the rows apart. -/
theorem nodup_map_rows {t : UniqueTable key} {β : Type _} {f : Nat × V → β}
    (hf : ∀ r ∈ t.rows, ∀ r' ∈ t.rows, f r = f r' → key r.2 = key r'.2) : (t.rows.map f).Nodup :=
  List.Nodup.map_on (fun r hr r' hr' he => row_eq_of_key_eq hr hr' (hf r hr r' hr' he))
    t.row_keys_nodup.of_map

theorem eq_of_key_eq {t : UniqueTable key} {v w : V} (hv : v ∈ t.values) (hw : w ∈ t.values)
    (h : key v = key w) : v = w :=
  List.inj_on_of_nodup_map t.unique hv hw h

variable [DecidableEq K]

instance (t : UniqueTable key) (k : K) : Decidable (t.HasKey k) :=
  inferInstanceAs (Decidable (_ ∈ _))

/-- `v` where the key is `v`'s, the old value elsewhere. -/
def replace (key : V → K) (v w : V) : V := if key w = key v then v else w

theorem key_replace (v w : V) : key (replace key v w) = key w := by
  unfold replace
  split
  · rename_i h
    exact h.symm
  · rfl

/-- Insert `v`. A row with the same key takes `v`'s columns instead, and keeps its id. -/
def upsert (t : UniqueTable key) (v : V) : UniqueTable key :=
  if h : t.HasKey (key v) then
    { table := (t.table.mapValues (replace key v)).skipId
      unique := by
        rw [Table.values_skipId, Table.values_mapValues, List.map_map]
        have : key ∘ replace key v = key := funext (key_replace v)
        rw [this]
        exact t.unique }
  else
    { table := t.table.insert v
      unique := by
        rw [Table.values_insert, List.map_append, List.nodup_append]
        refine ⟨t.unique, List.nodup_singleton _, fun a ha b hb hab => h ?_⟩
        rw [List.map_singleton, List.mem_singleton] at hb
        exact (hab.trans hb) ▸ ha }

/-- Insert `v` unless a row has the same key. -/
def insertNew (t : UniqueTable key) (v : V) : UniqueTable key :=
  if t.HasKey (key v) then ⟨t.table.skipId, t.unique⟩ else t.upsert v

/-- Delete the row with the key. -/
def delete (t : UniqueTable key) (k : K) : UniqueTable key where
  table := t.table.filterValues fun v => decide (key v ≠ k)
  unique := by
    rw [Table.values_filterValues]
    exact t.unique.sublist (List.filter_sublist.map key)

/-- The row with the key. -/
def row? (t : UniqueTable key) (k : K) : Option (Nat × V) :=
  t.rows.find? fun r => decide (key r.2 = k)

/-! ## One upsert -/

theorem rows_upsert_of_hasKey {t : UniqueTable key} {v : V} (h : t.HasKey (key v)) :
    (t.upsert v).rows = t.rows.map fun r => (r.1, replace key v r.2) := by
  simp [upsert, h, rows, Table.mapValues, Table.skipId]

theorem rows_upsert_of_not_hasKey {t : UniqueTable key} {v : V} (h : ¬ t.HasKey (key v)) :
    (t.upsert v).rows = t.rows ++ [(t.table.seq + 1, v)] := by
  simp [upsert, h, rows]

theorem mem_values_upsert {t : UniqueTable key} {v w : V} :
    w ∈ (t.upsert v).values ↔ w = v ∨ (w ∈ t.values ∧ key w ≠ key v) := by
  by_cases h : t.HasKey (key v)
  · rw [values_eq, rows_upsert_of_hasKey h, List.map_map]
    simp only [List.mem_map, Function.comp_apply, values_eq, replace]
    obtain ⟨u, hu, hk⟩ := List.mem_map.mp h
    obtain ⟨r₀, hr₀, rfl⟩ := List.mem_map.mp hu
    constructor
    · rintro ⟨r, hr, rfl⟩
      by_cases hrv : key r.2 = key v
      · exact .inl (if_pos hrv)
      · exact .inr (by rw [if_neg hrv]; exact ⟨⟨r, hr, rfl⟩, hrv⟩)
    · rintro (rfl | ⟨⟨r, hr, rfl⟩, hne⟩)
      · exact ⟨r₀, hr₀, if_pos hk⟩
      · exact ⟨r, hr, if_neg hne⟩
  · rw [values_eq, rows_upsert_of_not_hasKey h, List.map_append, List.mem_append, ← values_eq,
      List.map_singleton, List.mem_singleton]
    constructor
    · rintro (hw | hw)
      · exact .inr ⟨hw, fun hk => h (hk ▸ List.mem_map_of_mem hw)⟩
      · exact .inl hw
    · rintro (hw | hw)
      · exact .inr hw
      · exact .inl hw.1

theorem mem_values_insertNew {t : UniqueTable key} {v w : V} :
    w ∈ (t.insertNew v).values ↔ w ∈ t.values ∨ (w = v ∧ ¬ t.HasKey (key v)) := by
  unfold insertNew
  by_cases h : t.HasKey (key v)
  · rw [if_pos h]
    show w ∈ t.values ↔ _
    exact ⟨.inl, fun hw => hw.elim id fun hv => absurd h hv.2⟩
  · rw [if_neg h, mem_values_upsert]
    constructor
    · rintro (hw | hw)
      · exact .inr ⟨hw, h⟩
      · exact .inl hw.1
    · rintro (hw | hw)
      · exact .inr ⟨hw, fun hk => h (hk ▸ List.mem_map_of_mem hw)⟩
      · exact .inl hw.1

/-- In a table of distinct rows. -/
theorem mem_values_insertNew_id [DecidableEq V] {t : UniqueTable (id : V → V)} {v w : V} :
    w ∈ (t.insertNew v).values ↔ w ∈ t.values ∨ w = v := by
  rw [mem_values_insertNew]
  constructor
  · exact Or.imp_right And.left
  · rintro (hw | rfl)
    · exact .inl hw
    · by_cases h : t.HasKey (id w)
      · unfold HasKey at h
        rw [List.map_id] at h
        exact .inl h
      · exact .inr ⟨rfl, h⟩

theorem mem_values_delete {t : UniqueTable key} {k : K} {w : V} :
    w ∈ (t.delete k).values ↔ w ∈ t.values ∧ key w ≠ k := by
  show w ∈ (t.table.filterValues _).values ↔ w ∈ t.table.values ∧ _
  rw [Table.values_filterValues, List.mem_filter, decide_eq_true_iff]

/-! ## A sequence of upserts -/

/-- The upserts of a list, one after the other. -/
def upserts (t : UniqueTable key) (vs : List V) : UniqueTable key := vs.foldl upsert t

/-- `v` is in the list, and nothing after it has its key. -/
def IsLast (key : V → K) (v : V) : List V → Prop
  | [] => False
  | w :: rest => (w = v ∧ ∀ u ∈ rest, key u ≠ key v) ∨ IsLast key v rest

theorem mem_values_upserts {w : V} : ∀ {vs : List V} {t : UniqueTable key},
    w ∈ (t.upserts vs).values ↔ IsLast key w vs ∨ (w ∈ t.values ∧ ∀ u ∈ vs, key u ≠ key w)
  | [], t => by simp [upserts, IsLast]
  | v :: rest, t => by
    have ih : w ∈ ((t.upsert v).upserts rest).values ↔ _ := mem_values_upserts
    show w ∈ ((t.upsert v).upserts rest).values ↔ _
    rw [ih, mem_values_upsert]
    simp only [IsLast, List.forall_mem_cons]
    constructor
    · rintro (h | ⟨rfl | ⟨hw, hne⟩, hr⟩)
      · exact .inl (.inr h)
      · exact .inl (.inl ⟨rfl, hr⟩)
      · exact .inr ⟨hw, fun h => hne h.symm, hr⟩
    · rintro ((⟨rfl, hr⟩ | h) | ⟨hw, hne, hr⟩)
      · exact .inr ⟨.inl rfl, hr⟩
      · exact .inl h
      · exact .inr ⟨.inr ⟨hw, fun h => hne h.symm⟩, hr⟩

/-- The rows that were there keep their ids and keys, in order, and new rows come after them. -/
theorem keys_upsert_append (t : UniqueTable key) (v : V) :
    (t.rows.map fun r => (r.1, key r.2)) <+: (t.upsert v).rows.map fun r => (r.1, key r.2) := by
  by_cases h : t.HasKey (key v)
  · rw [rows_upsert_of_hasKey h, List.map_map]
    simp only [Function.comp_def, key_replace]
    exact List.prefix_rfl
  · rw [rows_upsert_of_not_hasKey h, List.map_append]
    exact List.prefix_append _ _

theorem keys_upserts_append : ∀ (vs : List V) (t : UniqueTable key),
    (t.rows.map fun r => (r.1, key r.2)) <+: (t.upserts vs).rows.map fun r => (r.1, key r.2)
  | [], _ => List.prefix_rfl
  | v :: rest, t => (keys_upsert_append t v).trans (keys_upserts_append rest (t.upsert v))

/-- **Upserts that change nothing**: a sequence of upserts leaves every row as it was exactly when
the last value of each key is stored already. -/
theorem upserts_rows_eq_iff {t : UniqueTable key} {vs : List V} :
    (t.upserts vs).rows = t.rows ↔ ∀ v, IsLast key v vs → v ∈ t.values := by
  constructor
  · intro h v hv
    have : v ∈ (t.upserts vs).values := mem_values_upserts.mpr (.inl hv)
    rwa [values_eq, h] at this
  · intro h
    obtain ⟨more, hmore⟩ := keys_upserts_append vs t
    -- no key is new, so no row is
    have hnil : more = [] := by
      rw [List.eq_nil_iff_forall_not_mem]
      intro e he
      have hmem : e ∈ (t.upserts vs).rows.map fun r => (r.1, key r.2) :=
        hmore ▸ List.mem_append_right _ he
      obtain ⟨r, hr, rfl⟩ := List.mem_map.mp hmem
      have hval : r.2 ∈ t.values := by
        have hr' : r.2 ∈ (t.upserts vs).values := List.mem_map_of_mem hr
        rcases mem_values_upserts.mp hr' with hl | ⟨hv, -⟩
        · exact h _ hl
        · exact hv
      have hnd := (t.upserts vs).unique
      have hkeys : (t.upserts vs).table.values.map key = t.values.map key ++ more.map (·.2) := by
        have := congrArg (List.map Prod.snd) hmore
        rw [List.map_append, List.map_map, List.map_map] at this
        show ((t.upserts vs).rows.map (·.2)).map key = (t.rows.map (·.2)).map key ++ _
        rw [List.map_map, List.map_map]
        exact this.symm
      rw [hkeys, List.nodup_append] at hnd
      exact hnd.2.2 _ (List.mem_map_of_mem hval) _ (List.mem_map_of_mem he) rfl
    rw [hnil, List.append_nil] at hmore
    -- the two row lists agree in ids and keys, and a key has one value
    have hlen : (t.upserts vs).rows.length = t.rows.length := by
      simpa using (congrArg List.length hmore).symm
    refine List.ext_getElem hlen fun n h1 h2 => ?_
    have hn : (t.rows[n].1, key t.rows[n].2)
        = ((t.upserts vs).rows[n].1, key (t.upserts vs).rows[n].2) := by
      have := List.getElem_of_eq hmore (i := n) (by simpa using h2)
      simpa using this
    obtain ⟨hid, hkey⟩ := Prod.mk.inj hn
    have hnew : (t.upserts vs).rows[n].2 ∈ (t.upserts vs).values :=
      List.mem_map_of_mem (List.getElem_mem h1)
    have hold : t.rows[n].2 ∈ t.values := List.mem_map_of_mem (List.getElem_mem h2)
    have hval : (t.upserts vs).rows[n].2 ∈ t.values := by
      rcases mem_values_upserts.mp hnew with hl | ⟨hv, -⟩
      · exact h _ hl
      · exact hv
    exact Prod.ext hid.symm (eq_of_key_eq hval hold hkey.symm)

/-! ## The row with a key -/

theorem mem_of_row? {t : UniqueTable key} {k : K} {r : Nat × V} (h : t.row? k = some r) :
    r ∈ t.rows ∧ key r.2 = k := by
  refine ⟨List.mem_of_find?_eq_some h, ?_⟩
  have hp := List.find?_some h
  exact of_decide_eq_true hp

theorem row?_eq_some_iff {t : UniqueTable key} {k : K} {r : Nat × V} :
    t.row? k = some r ↔ r ∈ t.rows ∧ key r.2 = k := by
  constructor
  · exact mem_of_row?
  · rintro ⟨hr, rfl⟩
    cases h : t.row? (key r.2) with
    | none =>
      have hno := List.find?_eq_none.mp h r hr
      exact absurd (decide_eq_true rfl) hno
    | some r' =>
      obtain ⟨hr', hkey⟩ := mem_of_row? h
      exact congrArg some (row_eq_of_key_eq hr' hr hkey)

/-- A row keeps its id as long as rows are only added and written over. -/
theorem row?_id_of_prefix {t t' : UniqueTable key}
    (h : (t.rows.map fun r => (r.1, key r.2)) <+: t'.rows.map fun r => (r.1, key r.2)) {k : K}
    {r : Nat × V} (hr : t.row? k = some r) : ∃ r', t'.row? k = some r' ∧ r'.1 = r.1 := by
  obtain ⟨hmem, hkey⟩ := row?_eq_some_iff.mp hr
  have hin : (r.1, key r.2) ∈ t'.rows.map fun r => (r.1, key r.2) :=
    h.subset (List.mem_map.mpr ⟨r, hmem, rfl⟩)
  obtain ⟨r', hr', heq⟩ := List.mem_map.mp hin
  obtain ⟨hid, hkey'⟩ := Prod.mk.inj heq
  exact ⟨r', row?_eq_some_iff.mpr ⟨hr', hkey'.trans hkey⟩, hid⟩

/-! ## The table as a map -/

section Map

variable {κ α : Type _} {row : κ → α → V} {m : κ → Option α}

/-- The rows are those of the entries of the map `m`; `row` is how an entry is kept. -/
def Represents (t : UniqueTable key) (row : κ → α → V) (m : κ → Option α) : Prop :=
  ∀ v, v ∈ t.values ↔ ∃ k a, m k = some a ∧ row k a = v

omit [DecidableEq K] in
theorem represents_nil {t : UniqueTable key} (h : t.rows = []) :
    t.Represents row fun _ => none := by
  intro v
  rw [values_eq, h]
  constructor
  · intro hv
    cases hv
  · rintro ⟨_, _, hm, _⟩
    cases hm

variable [DecidableEq κ] {t : UniqueTable key} {k : κ}

/-- The key of the table tells the keys of the map apart. -/
theorem Represents.upsert (h : t.Represents row m) {a : α}
    (hkey : ∀ k' a', m k' = some a' → (key (row k' a') = key (row k a) ↔ k' = k)) :
    (t.upsert (row k a)).Represents row (Function.update m k (some a)) := by
  intro v
  rw [mem_values_upsert, h v]
  constructor
  · rintro (rfl | ⟨⟨k', a', hm, rfl⟩, hne⟩)
    · exact ⟨k, a, Function.update_self k _ m, rfl⟩
    · have hk : k' ≠ k := fun hk => hne ((hkey k' a' hm).mpr hk)
      exact ⟨k', a', (Function.update_of_ne hk _ m).trans hm, rfl⟩
  · rintro ⟨k', a', hm, rfl⟩
    by_cases hk : k' = k
    · subst hk
      rw [Function.update_self] at hm
      exact .inl (congrArg (row k') (Option.some.inj hm).symm)
    · rw [Function.update_of_ne hk] at hm
      exact .inr ⟨⟨k', a', hm, rfl⟩, fun he => hk ((hkey k' a' hm).mp he)⟩

theorem Represents.delete (h : t.Represents row m) {d : K}
    (hkey : ∀ k' a', m k' = some a' → (key (row k' a') = d ↔ k' = k)) :
    (t.delete d).Represents row (Function.update m k none) := by
  intro v
  rw [mem_values_delete, h v]
  constructor
  · rintro ⟨⟨k', a', hm, rfl⟩, hne⟩
    have hk : k' ≠ k := fun hk => hne ((hkey k' a' hm).mpr hk)
    exact ⟨k', a', (Function.update_of_ne hk _ m).trans hm, rfl⟩
  · rintro ⟨k', a', hm, rfl⟩
    by_cases hk : k' = k
    · subst hk
      rw [Function.update_self] at hm
      cases hm
    · rw [Function.update_of_ne hk] at hm
      exact ⟨⟨k', a', hm, rfl⟩, fun he => hk ((hkey k' a' hm).mp he)⟩

end Map

end UniqueTable
