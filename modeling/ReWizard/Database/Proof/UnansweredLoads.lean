import ReWizard.Database.Proof.AnnotationSession

/-!
# Loads that are not answered

`LoadFrom` clears the manager before it asks, and a query reports a failure as it reports the end
of its rows: the rows in front of it are all that there is. `loadFrom_losesNothing_iff` says when a
query that cannot be answered leaves the manager's contents as they were, in whatever order it
comes to the rows.
-/

namespace ReWizard

/-! ## What a query reads -/

/-- The rows in front of the first step that fails, from the time of the first step on. -/
def rowsBefore {R : Type} (F : Faults) : Nat → List R → List R
  | _, [] => []
  | time, r :: rest => if F time = .ok then r :: rowsBefore F (time + 1) rest else []

/-- The records of all cross-references, in the order of a query that starts to step at a time. -/
def xrefsAt (O : RowOrder) (time : Nat) : Tables → List XrefRecord := selectXrefs (O time)

def annotationsAt (O : RowOrder) (time : Nat) : Tables → List AnnotationRecord :=
  selectAnnotations (O time)

/-- The rows that a query of `select` on a table gets to. -/
def rowsRead {R : Type} (F : Faults) (name : TableName) (select : Nat → Tables → List R) :
    AnalysisDatabase → List R
  | .closed => []
  | .opened c =>
    if F c.clock = .ok ∧ c.contents.has name = true then
      rowsBefore F (c.clock + 1) (select (c.clock + 1) c.contents)
    else []

/-- The query can be prepared, and every step is carried out, that behind the last row too. -/
structure Answered {R : Type} (F : Faults) (name : TableName) (select : Nat → Tables → List R)
    (c : Conn Tables) : Prop where
  prepare : F c.clock = .ok
  hasTable : c.contents.has name = true
  steps : ∀ k ≤ (select (c.clock + 1) c.contents).length, F (c.clock + 1 + k) = .ok

/-- The handle is closed, or the query fails somewhere. -/
def Unanswered {R : Type} (F : Faults) (name : TableName) (select : Nat → Tables → List R) :
    AnalysisDatabase → Prop
  | .closed => True
  | .opened c => ¬ Answered F name select c

section

variable {R : Type} {F : Faults}

theorem fetch_fst : ∀ (rows : List R) (c : Conn Tables),
    (fetch F rows c).1 = rowsBefore F c.clock rows
  | [], _ => rfl
  | r :: rest, c => by
    unfold fetch rowsBefore Conn.statement Conn.attempt
    cases hF : F c.clock with
    | fail => rfl
    | abort => rfl
    | ok => exact congrArg (r :: ·) (fetch_fst rest c.tick)

/-- A query has the rows that it gets to. -/
theorem query_fst {name : TableName} {select : Nat → Tables → List R}
    {q : Conn Tables → List R × Conn Tables} (hq : ∀ c, q c =
      match prepare F name c with
      | (false, c) => ([], c)
      | (true, c) => fetch F (select c.clock c.contents) c) :
    ∀ db : AnalysisDatabase, (db.query q).1 = rowsRead F name select db
  | .closed => rfl
  | .opened c => by
    show (q c).1 = if F c.clock = .ok ∧ c.contents.has name = true then
      rowsBefore F (c.clock + 1) (select (c.clock + 1) c.contents) else []
    rw [hq]
    unfold prepare Conn.statement Conn.attempt
    cases F c.clock with
    | fail => simp
    | abort => simp
    | ok =>
      by_cases hhas : c.contents.has name = true
      · simp only [hhas, if_true, Option.map_some, and_self]
        exact fetch_fst _ _
      · simp [hhas]

/-- The rows that are read are the first ones of the table. -/
theorem rowsBefore_isPrefix : ∀ (rows : List R) (time : Nat), rowsBefore F time rows <+: rows
  | [], _ => List.prefix_rfl
  | r :: rest, time => by
    unfold rowsBefore
    split
    · exact List.cons_prefix_cons.mpr ⟨rfl, rowsBefore_isPrefix rest (time + 1)⟩
    · exact List.nil_prefix

end

/-! ## Cross-references -/

namespace XrefManager

/-- The containers have the same elements. -/
structure SameContents (m m' : XrefManager) : Prop where
  all : m'.all.Perm m.all
  byFrom : m'.byFrom.Perm m.byFrom
  byTo : m'.byTo.Perm m.byTo

/-- The manager holds the cross-references of the records and no others. -/
structure HoldsRecords (m : XrefManager) (records : List XrefRecord) : Prop where
  indexed : m.Indexed
  mem_iff : ∀ x, x ∈ m.all ↔ ∃ rec ∈ records, (⟨rec.fromAddr, rec.toAddr, rec.type⟩ : Xref) = x

/-- If the database cannot answer, a load changes no contents. -/
def LosesNothing (F : Faults) (O : RowOrder) (db : AnalysisDatabase) (m : XrefManager) : Prop :=
  Unanswered F .xrefs (xrefsAt O) db → m.SameContents (m.loadFromDatabase F O db).1

/-- Managers of which one has its index hold the same when they hold the same cross-references. -/
theorem Indexed.sameContents_iff {m m' : XrefManager} (h : m'.Indexed) :
    m.SameContents m' ↔ m.Indexed ∧ ∀ x, x ∈ m.all ↔ x ∈ m'.all := by
  constructor
  · intro hsame
    refine ⟨⟨hsame.all.nodup_iff.mp h.nodup, ?_, ?_⟩, fun x => hsame.all.mem_iff.symm⟩
    · exact hsame.byFrom.symm.trans (h.byFrom.trans (hsame.all.map _))
    · exact hsame.byTo.symm.trans (h.byTo.trans (hsame.all.map _))
  · rintro ⟨hm, hmem⟩
    have hall : m'.all.Perm m.all :=
      (List.perm_ext_iff_of_nodup h.nodup hm.nodup).mpr fun x => (hmem x).symm
    exact ⟨hall, h.byFrom.trans ((hall.map _).trans hm.byFrom.symm),
      h.byTo.trans ((hall.map _).trans hm.byTo.symm)⟩

theorem loadFromDatabase_opened (F : Faults) (O : RowOrder) (m : XrefManager) (c : Conn Tables) :
    (m.loadFromDatabase F O (.opened c)).1 = (m.loadFrom F O (some c)).1 := rfl

/-- A load keeps what it finds again. -/
theorem sameContents_loadFromDatabase_iff (F : Faults) (O : RowOrder) (db : AnalysisDatabase)
    (m : XrefManager) : m.SameContents (m.loadFromDatabase F O db).1 ↔
      m.HoldsRecords (rowsRead F .xrefs (xrefsAt O) db) := by
  have hload : (m.loadFromDatabase F O db).1 =
      m.clear.addRecords (rowsRead F .xrefs (xrefsAt O) db) := by
    rw [← query_fst (q := queryAllXrefs F O) (fun _ => rfl)]
    rfl
  have hindexed : (m.clear.addRecords (rowsRead F .xrefs (xrefsAt O) db)).Indexed :=
    indexed_empty.addRecords _
  rw [hload, hindexed.sameContents_iff]
  simp only [mem_addRecords, clear, List.not_mem_nil, false_or]
  exact ⟨fun h => ⟨h.1, h.2⟩, fun h => ⟨h.indexed, h.mem_iff⟩⟩

end XrefManager

/-! ## Annotations -/

namespace SymbolManager

/-- The annotations are the same at every address. -/
def SameContents (m m' : SymbolManager) : Prop := ∀ a, m'.getAnnotation a = m.getAnnotation a

/-- The manager holds the annotations of the records and no others. -/
def HoldsRecords (m : SymbolManager) (records : List AnnotationRecord) : Prop :=
  ∀ a ann, m.getAnnotation a = some ann ↔ ∃ rec ∈ records, rec.entry = (a, ann)

/-- If the database cannot answer, a load changes no contents. -/
def LosesNothing (F : Faults) (O : RowOrder) (db : AnalysisDatabase) (m : SymbolManager) : Prop :=
  Unanswered F .userAnnotations (annotationsAt O) db →
    m.SameContents (m.loadFromDatabase F O db).1

theorem loadFromDatabase_opened (F : Faults) (O : RowOrder) (m : SymbolManager)
    (c : Conn Tables) : (m.loadFromDatabase F O (.opened c)).1 = (m.loadFrom F O (some c)).1 := rfl

/-- No two rows that are read have one address. -/
theorem rowsRead_entries_nodup (F : Faults) (O : RowOrder) : ∀ db : AnalysisDatabase,
    (((rowsRead F .userAnnotations (annotationsAt O) db).map AnnotationRecord.entry).map
      (·.1)).Nodup
  | .closed => List.nodup_nil
  | .opened c => by
    unfold rowsRead
    dsimp only
    split
    · exact (selectAnnotations_nodup _ c.contents).sublist
        (((rowsBefore_isPrefix _ _).sublist.map _).map _)
    · exact List.nodup_nil

/-- A load keeps what it finds again. -/
theorem sameContents_loadFromDatabase_iff (F : Faults) (O : RowOrder) (db : AnalysisDatabase)
    (m : SymbolManager) : m.SameContents (m.loadFromDatabase F O db).1 ↔
      m.HoldsRecords (rowsRead F .userAnnotations (annotationsAt O) db) := by
  have hload : (m.loadFromDatabase F O db).1 =
      m.clear.addRecords (rowsRead F .userAnnotations (annotationsAt O) db) := by
    rw [← query_fst (q := queryAllAnnotations F O) (fun _ => rfl)]
    rfl
  have hget : ∀ a ann, SymbolManager.getAnnotation (m.loadFromDatabase F O db).1 a = some ann ↔
      ∃ rec ∈ rowsRead F .userAnnotations (annotationsAt O) db, rec.entry = (a, ann) := by
    intro a ann
    rw [hload]
    unfold getAnnotation
    rw [annotations_addRecords, OrdMap.get?_foldl_insert (rowsRead_entries_nodup F O db),
      List.mem_map]
    exact ⟨fun h => h.elim id fun h => (by cases h.2), .inl⟩
  unfold SameContents HoldsRecords
  refine forall_congr' fun a => ?_
  constructor
  · intro h ann
    rw [← h, hget]
  · intro h
    apply Option.ext
    intro ann
    rw [hget, h]

end SymbolManager

/-- **Loads that are not answered**: for every manager and every database, a load whose query
cannot be answered leaves the contents as they were if and only if they are what the rows read
before the failure hold. These are the first ones in the order in which the query comes to the rows
of the table. -/
theorem loadFrom_losesNothing_iff (F : Faults) (O : RowOrder) (db : AnalysisDatabase) :
    (∀ m : XrefManager, m.LosesNothing F O db ↔
      (Unanswered F .xrefs (xrefsAt O) db →
        m.HoldsRecords (rowsRead F .xrefs (xrefsAt O) db))) ∧
    ∀ m : SymbolManager, m.LosesNothing F O db ↔
      (Unanswered F .userAnnotations (annotationsAt O) db →
        m.HoldsRecords (rowsRead F .userAnnotations (annotationsAt O) db)) :=
  ⟨fun m => imp_congr_right fun _ => m.sameContents_loadFromDatabase_iff F O db,
    fun m => imp_congr_right fun _ => m.sameContents_loadFromDatabase_iff F O db⟩

/-! ## A closed database -/

/-- A manager with one cross-reference loses it to a database that has been closed. -/
theorem closedDatabase_loses :
    ¬ (XrefManager.addXref {} 0x401000 0x402000 "call").LosesNothing Faults.never .byId
      .closed := by
  intro h
  exact absurd (h trivial).all.length_eq (by decide)

end ReWizard
