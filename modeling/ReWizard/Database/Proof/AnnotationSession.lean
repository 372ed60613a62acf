import ReWizard.Database.Proof.XrefSession

/-!
# Annotations and the database

The edits of a `SymbolManager` and what becomes of them in the database. `SaveTo` writes over the
rows of the addresses it knows and deletes none: `annotationSession_restored_iff` says when
`LoadFrom` after `SaveTo` gives back what the manager held.
-/

namespace ReWizard

/-! ## Edits -/

/-- A call in a session on one database. -/
inductive AnnotationCall
  | setName (address : Nat) (name kind : String)
  | setComment (address : Nat) (text : String)
  | setType (address : Nat) (type : String)
  | remove (address : Nat)
  | clear
  | saveTo

/-- A manager and the database. -/
structure AnnotationState where
  manager : SymbolManager := {}
  db : Option (Conn Tables)

def AnnotationCall.apply (s : AnnotationState) : AnnotationCall → AnnotationState
  | .setName a name kind => { s with manager := s.manager.setName a name kind }
  | .setComment a text => { s with manager := s.manager.setComment a text }
  | .setType a type => { s with manager := s.manager.setType a type }
  | .remove a => { s with manager := s.manager.remove a }
  | .clear => { s with manager := s.manager.clear }
  | .saveTo => { s with db := s.manager.saveTo Faults.never s.db }

/-- The values fit their columns: 64-bit addresses and no NUL. -/
def AnnotationCall.Storable : AnnotationCall → Prop
  | .setName a name kind => a < 2 ^ 64 ∧ NulFree name ∧ NulFree kind
  | .setComment a text => a < 2 ^ 64 ∧ NulFree text
  | .setType a type => a < 2 ^ 64 ∧ NulFree type
  | .remove _ | .clear | .saveTo => True

/-- A manager that loads right after a save holds, at every address, the annotation that the saving
manager holds. -/
def AnnotationState.Restored (s : AnnotationState) : Prop :=
  ∀ (O : RowOrder) (loader : SymbolManager) (a : Nat),
    SymbolManager.getAnnotation
      (loader.loadFrom Faults.never O (s.manager.saveTo Faults.never s.db)).1 a =
        s.manager.getAnnotation a

/-! ## Rows -/

/-- The texts of an annotation have no NUL. -/
structure Annotation.NulFree (a : Annotation) : Prop where
  name : ReWizard.NulFree a.name
  comment : ReWizard.NulFree a.comment
  type : ReWizard.NulFree a.type
  kind : ReWizard.NulFree a.kind

theorem Annotation.nulFree_empty : Annotation.NulFree {} :=
  ⟨by decide, by decide, by decide, by decide⟩

/-- An address and its annotation, as `LoadFrom` files a row. -/
def AnnotationColumns.entry (row : AnnotationColumns) : Nat × Annotation :=
  (row.address.toNat, ⟨cStr row.name, cStr row.comment, cStr row.type, cStr row.kind⟩)

/-- The row of an entry. -/
def entryColumns (e : Nat × Annotation) : AnnotationColumns :=
  annotationColumns e.1 e.2.name e.2.comment e.2.type e.2.kind

def StorableEntry (e : Nat × Annotation) : Prop := e.1 < 2 ^ 64 ∧ e.2.NulFree

theorem StorableEntry.toNat_address {e : Nat × Annotation} (h : StorableEntry e) :
    (entryColumns e).address.toNat = e.1 := by
  show (BitVec.ofNat 64 e.1).toNat = e.1
  rw [BitVec.toNat_ofNat, Nat.mod_eq_of_lt h.1]

theorem StorableEntry.entry_columns {e : Nat × Annotation} (h : StorableEntry e) :
    (entryColumns e).entry = e := by
  have hname : cStr (cStr e.2.name) = e.2.name := by rw [h.2.name.cStr_eq, h.2.name.cStr_eq]
  have hcomment : cStr (cStr e.2.comment) = e.2.comment := by
    rw [h.2.comment.cStr_eq, h.2.comment.cStr_eq]
  have htype : cStr (cStr e.2.type) = e.2.type := by rw [h.2.type.cStr_eq, h.2.type.cStr_eq]
  have hkind : cStr (cStr e.2.kind) = e.2.kind := by rw [h.2.kind.cStr_eq, h.2.kind.cStr_eq]
  refine Prod.ext h.toNat_address ?_
  show Annotation.mk (cStr (cStr e.2.name)) (cStr (cStr e.2.comment)) (cStr (cStr e.2.type))
    (cStr (cStr e.2.kind)) = e.2
  rw [hname, hcomment, htype, hkind]

/-- The annotations in the table. -/
def Tables.storedAnnotations (t : Tables) : List (Nat × Annotation) :=
  match t.userAnnotations with
  | none => []
  | some table => table.values.map AnnotationColumns.entry

theorem Tables.storedAnnotations_of_some {t : Tables}
    {table : UniqueTable AnnotationColumns.address} (h : t.userAnnotations = some table) :
    t.storedAnnotations = table.values.map AnnotationColumns.entry := by
  unfold storedAnnotations
  rw [h]

/-- Two rows with one address are the same row. -/
theorem storedAnnotations_nodup (t : Tables) : (t.storedAnnotations.map (·.1)).Nodup := by
  unfold Tables.storedAnnotations
  cases t.userAnnotations with
  | none => exact List.nodup_nil
  | some table =>
    have hunique : (table.values.map AnnotationColumns.address).Nodup := table.unique
    have hmap : (table.values.map AnnotationColumns.entry).map (·.1) =
        (table.values.map AnnotationColumns.address).map BitVec.toNat := by
      rw [List.map_map, List.map_map]
      rfl
    show ((table.values.map AnnotationColumns.entry).map (·.1)).Nodup
    rw [hmap]
    exact hunique.map fun _ _ h => BitVec.eq_of_toNat_eq h

/-! ## Saving -/

/-- One save writes the row of its address. -/
theorem saveAnnotation_never {c : Conn Tables} (hsome : c.contents.userAnnotations.isSome)
    {e : Nat × Annotation} (he : StorableEntry e) :
    let saved := saveAnnotation Faults.never e.1 e.2.name e.2.comment e.2.type e.2.kind c
    saved.2.contents.userAnnotations.isSome ∧ ∀ d, d ∈ saved.2.contents.storedAnnotations ↔
      d = e ∨ (d ∈ c.contents.storedAnnotations ∧ d.1 ≠ e.1) := by
  obtain ⟨table, htable⟩ := Option.isSome_iff_exists.mp hsome
  let t : Tables := { c.contents with userAnnotations := some (table.upsert (entryColumns e)) }
  have hupsert : upsertAnnotation (entryColumns e) c.contents = some t := by
    unfold upsertAnnotation
    rw [htable]
    rfl
  have hsave : saveAnnotation Faults.never e.1 e.2.name e.2.comment e.2.type e.2.kind c =
      (true, { c with contents := t, clock := c.clock + 2 }) := execute_never hsome hupsert
  have haddr : ∀ row : AnnotationColumns,
      row.address = (entryColumns e).address ↔ row.entry.1 = e.1 := by
    intro row
    rw [← he.toNat_address]
    exact ⟨congrArg BitVec.toNat, BitVec.eq_of_toNat_eq⟩
  dsimp only
  rw [hsave]
  refine ⟨rfl, fun d => ?_⟩
  show d ∈ (table.upsert (entryColumns e)).values.map AnnotationColumns.entry ↔ _
  rw [Tables.storedAnnotations_of_some htable]
  simp only [List.mem_map, UniqueTable.mem_values_upsert]
  constructor
  · rintro ⟨row, rfl | ⟨hrow, hne⟩, rfl⟩
    · exact .inl he.entry_columns
    · exact .inr ⟨⟨row, hrow, rfl⟩, fun h => hne ((haddr row).mpr h)⟩
  · rintro (rfl | ⟨⟨row, hrow, rfl⟩, hne⟩)
    · exact ⟨_, .inl rfl, he.entry_columns⟩
    · exact ⟨row, .inr ⟨hrow, fun h => hne ((haddr row).mp h)⟩, rfl⟩

/-- Saving entries with distinct addresses: the rows at other addresses stay. -/
theorem saveAnnotations_never : ∀ {entries : List (Nat × Annotation)} {c : Conn Tables},
    c.contents.userAnnotations.isSome → (∀ e ∈ entries, StorableEntry e) →
      (entries.map (·.1)).Nodup →
      let c' := SymbolManager.saveAnnotations Faults.never entries c
      c'.contents.userAnnotations.isSome ∧ ∀ d, d ∈ c'.contents.storedAnnotations ↔
        d ∈ entries ∨ (d ∈ c.contents.storedAnnotations ∧ d.1 ∉ entries.map (·.1))
  | [], c, hsome, _, _ => ⟨hsome, fun d => by simp [SymbolManager.saveAnnotations]⟩
  | e :: rest, c, hsome, hstore, hnd => by
    rw [List.map_cons, List.nodup_cons] at hnd
    obtain ⟨hsome', hone⟩ := saveAnnotation_never hsome (hstore e List.mem_cons_self)
    obtain ⟨hlast, hrest⟩ :=
      saveAnnotations_never hsome' (fun d hd => hstore d (List.mem_cons_of_mem e hd)) hnd.2
    refine ⟨hlast, fun d => ?_⟩
    show d ∈ (SymbolManager.saveAnnotations Faults.never rest _).contents.storedAnnotations ↔ _
    rw [hrest d, hone d, List.mem_cons, List.map_cons, List.mem_cons, not_or]
    constructor
    · rintro (hd | ⟨rfl | ⟨hd, hne⟩, hnot⟩)
      · exact .inl (.inr hd)
      · exact .inl (.inl rfl)
      · exact .inr ⟨hd, hne, hnot⟩
    · rintro ((rfl | hd) | ⟨hd, hne, hnot⟩)
      · exact .inr ⟨.inl rfl, hnd.1⟩
      · exact .inl hd
      · exact .inr ⟨.inr ⟨hd, hne⟩, hnot⟩

/-! ## Loading -/

/-- An address and its annotation, as `LoadFrom` files a record. -/
def AnnotationRecord.entry (rec : AnnotationRecord) : Nat × Annotation :=
  (rec.address, ⟨rec.name, rec.comment, rec.type, rec.kind⟩)

theorem annotations_addRecords : ∀ (records : List AnnotationRecord) (m : SymbolManager),
    (m.addRecords records).annotations =
      (records.map AnnotationRecord.entry).foldl (fun m e => m.insert e.1 e.2) m.annotations
  | [], _ => rfl
  | r :: rest, m => by
    show (SymbolManager.addRecords _ rest).annotations = _
    rw [annotations_addRecords rest]
    rfl

theorem selectAnnotations_entries (rank : Nat → Nat) (t : Tables) :
    ((selectAnnotations rank t).map AnnotationRecord.entry).Perm t.storedAnnotations := by
  unfold selectAnnotations Tables.storedAnnotations
  cases t.userAnnotations with
  | none => exact .refl _
  | some table =>
    dsimp only
    rw [List.map_map, UniqueTable.values_eq, List.map_map]
    exact (scan_perm rank table.rows).map _

/-- No two records have one address. -/
theorem selectAnnotations_nodup (rank : Nat → Nat) (t : Tables) :
    (((selectAnnotations rank t).map AnnotationRecord.entry).map (·.1)).Nodup :=
  ((selectAnnotations_entries rank t).map _).nodup_iff.mpr (storedAnnotations_nodup t)

/-- What loading makes of the table, in whatever order the rows come. -/
theorem loadAnnotations_never {c : Conn Tables} (h : c.contents.userAnnotations.isSome)
    (O : RowOrder) (m : SymbolManager) (a : Nat) (ann : Annotation) :
    SymbolManager.getAnnotation (m.loadFrom Faults.never O (some c)).1 a = some ann ↔
      (a, ann) ∈ c.contents.storedAnnotations := by
  have hquery : (queryAllAnnotations Faults.never O c).1 =
      selectAnnotations (O (c.clock + 1)) c.contents :=
    query_never (fun time => selectAnnotations (O time)) h
  show (m.clear.addRecords (queryAllAnnotations Faults.never O c).1).annotations.get? a = _ ↔ _
  rw [annotations_addRecords, hquery, OrdMap.get?_foldl_insert (selectAnnotations_nodup _ _),
    (selectAnnotations_entries _ _).mem_iff]
  exact ⟨fun h => h.elim id fun h => (by cases h.2), .inl⟩

/-! ## Sessions -/

/-- Every annotation in the table is at an address that the manager holds. -/
def AnnotationState.OnlyHeld (s : AnnotationState) : Prop :=
  ∀ c ∈ s.db, ∀ e ∈ c.contents.storedAnnotations,
    Option.isSome <| SymbolManager.getAnnotation s.manager e.1

/-- The database has its table, and the manager's annotations fit it. -/
structure AnnotationState.Open (s : AnnotationState) : Prop where
  db : ∃ c, s.db = some c ∧ c.contents.userAnnotations.isSome
  storable : ∀ e ∈ s.manager.annotations.toList, StorableEntry e

theorem edit_storable {m : SymbolManager} (h : ∀ e ∈ m.annotations.toList, StorableEntry e)
    {a : Nat} {f : Annotation → Annotation} (ha : a < 2 ^ 64)
    (hf : ∀ ann : Annotation, ann.NulFree → (f ann).NulFree) :
    ∀ e ∈ (m.edit a f).annotations.toList, StorableEntry e := by
  intro e he
  rcases OrdMap.mem_toList_insert.mp he with rfl | ⟨he, -⟩
  · refine ⟨ha, hf _ ?_⟩
    cases hget : m.annotations.get? a with
    | none => exact Annotation.nulFree_empty
    | some ann => exact (h _ (OrdMap.mem_toList_of_get? hget)).2
  · exact h e he

theorem AnnotationCall.apply_open {s : AnnotationState} (h : s.Open) (call : AnnotationCall)
    (hc : call.Storable) : (call.apply s).Open := by
  cases call with
  | setName a name kind =>
    refine ⟨h.db, edit_storable h.storable hc.1 fun ann hann => ?_⟩
    exact ⟨hc.2.1, hann.comment, hann.type, hc.2.2⟩
  | setComment a text =>
    refine ⟨h.db, edit_storable h.storable hc.1 fun ann hann => ?_⟩
    exact ⟨hann.name, hc.2, hann.type, hann.kind⟩
  | setType a type =>
    refine ⟨h.db, edit_storable h.storable hc.1 fun ann hann => ?_⟩
    exact ⟨hann.name, hann.comment, hc.2, hann.kind⟩
  | remove a => exact ⟨h.db, fun e he => h.storable e (List.mem_of_mem_filter he)⟩
  | clear => exact ⟨h.db, fun e he => by cases he⟩
  | saveTo =>
    obtain ⟨c, hdb, hsome⟩ := h.db
    refine ⟨⟨SymbolManager.saveAnnotations Faults.never s.manager.annotations.toList c, ?_, ?_⟩,
      h.storable⟩
    · show s.manager.saveTo Faults.never s.db = _
      rw [hdb]
      rfl
    · exact (saveAnnotations_never hsome h.storable s.manager.annotations.keys_nodup).1

/-- One save and one load. -/
theorem AnnotationState.Open.restored_iff {s : AnnotationState} (h : s.Open) :
    s.Restored ↔ s.OnlyHeld := by
  obtain ⟨c, hdb, hsome⟩ := h.db
  obtain ⟨hsome', hsaved⟩ :=
    saveAnnotations_never hsome h.storable s.manager.annotations.keys_nodup
  have hload : ∀ (O : RowOrder) (loader : SymbolManager) (a : Nat) (ann : Annotation),
      SymbolManager.getAnnotation
        (loader.loadFrom Faults.never O (s.manager.saveTo Faults.never s.db)).1 a = some ann ↔
          s.manager.getAnnotation a = some ann ∨
            ((a, ann) ∈ c.contents.storedAnnotations ∧ a ∉ s.manager.annotations.keys) := by
    intro O loader a ann
    have hto : s.manager.saveTo Faults.never s.db =
        some (SymbolManager.saveAnnotations Faults.never s.manager.annotations.toList c) := by
      rw [hdb]
      rfl
    rw [hto, loadAnnotations_never hsome', hsaved, ← OrdMap.get?_eq_some_iff]
    rfl
  constructor
  · intro hr c' hc' e he
    cases hdb.symm.trans (Option.mem_def.mp hc')
    by_contra hnone
    have hloaded := (hload .byId {} e.1 e.2).mpr
      (.inr ⟨he, fun hkey => hnone (OrdMap.mem_keys_iff.mp hkey)⟩)
    rw [hr .byId {} e.1] at hloaded
    exact hnone (Option.isSome_iff_exists.mpr ⟨e.2, hloaded⟩)
  · intro honly O loader a
    apply Option.ext
    intro ann
    rw [hload]
    constructor
    · rintro (hget | ⟨hmem, hnot⟩)
      · exact hget
      · exact absurd (OrdMap.mem_keys_iff.mpr (honly c hdb _ hmem)) hnot
    · exact .inl

/-- **Annotations over a session**: in every session on a database with the schema, `LoadFrom`
right after `SaveTo` gives back what the manager held at it if and only if the table held nothing
at other addresses before. -/
theorem annotationSession_restored_iff (c : Conn Tables) (hc : SchemaCreated c.contents)
    (calls : List AnnotationCall) (hcalls : ∀ call ∈ calls, call.Storable) :
    (calls.foldl AnnotationCall.apply { db := some c }).Restored ↔
      (calls.foldl AnnotationCall.apply { db := some c }).OnlyHeld := by
  have hfresh : AnnotationState.Open { db := some c } :=
    ⟨⟨c, rfl, hc.2.2.2.2⟩, fun e he => by cases he⟩
  have hopen : (calls.foldl AnnotationCall.apply { db := some c }).Open :=
    List.foldlRecOn (motive := AnnotationState.Open) calls _ hfresh
      fun s hs call hcall => call.apply_open hs (hcalls call hcall)
  exact hopen.restored_iff

/-! ## An annotation that comes back -/

/-- Name an address, save, and comment on it. -/
def saveOneName : List AnnotationCall :=
  [.setName 0x140001000 "main" "function", .saveTo, .setComment 0x140001000 "Entry point"]

theorem saveOneName_restored :
    (saveOneName.foldl AnnotationCall.apply { db := some newDatabase }).Restored := by
  refine (annotationSession_restored_iff newDatabase ⟨rfl, rfl, rfl, rfl, rfl⟩ saveOneName ?_).mpr ?_
  · simp only [saveOneName, List.forall_mem_cons, AnnotationCall.Storable]
    exact ⟨⟨by decide, by decide, by decide⟩, trivial, ⟨by decide, by decide⟩, by simp⟩
  · have honly : ∀ c ∈ (saveOneName.foldl AnnotationCall.apply { db := some newDatabase }).db,
        ∀ e ∈ c.contents.storedAnnotations,
          Option.isSome <| SymbolManager.getAnnotation (saveOneName.foldl AnnotationCall.apply
            { db := some newDatabase }).manager e.1 := by
      decide +kernel
    exact honly

/-- Remove the annotation after it was saved. -/
def removeSavedName : List AnnotationCall := saveOneName ++ [.remove 0x140001000]

/-- An annotation that was removed after a save is in the table after the next one. -/
theorem removeSavedName_comes_back :
    ¬ (removeSavedName.foldl AnnotationCall.apply { db := some newDatabase }).Restored := by
  intro h
  exact absurd (h .byId {} 0x140001000) (by decide +kernel)

end ReWizard
