import ReWizard.Database.Persistence
import ReWizard.Database.Proof.SaveModule
import Mathlib.Data.List.TakeWhile

/-!
# Cross-references and the database

The edits of an `XrefManager` and what becomes of them in the database.

* `xrefManager_indexed`: the index invariant and the queries, after any operations;
* `xrefSession_restored_iff`: when `LoadFrom` after `SaveTo` gives back what the manager held.
  Nothing is ever deleted from the table, so it has to hold nothing else before.
-/

namespace ReWizard

/-! ## Edits -/

inductive XrefEdit
  | addXref (src dst : Nat) (type : String)
  | removeXref (src dst : Nat) (type : String)
  | clear

def XrefEdit.apply : XrefEdit → XrefManager → XrefManager
  | .addXref src dst type, m => m.addXref src dst type
  | .removeXref src dst type, m => m.removeXref src dst type
  | .clear, m => m.clear

/-- An edit, or a load from any database. -/
inductive XrefOperation
  | edit (e : XrefEdit)
  | loadFrom (F : Faults) (O : RowOrder) (db : Option (Conn Tables))

def XrefOperation.apply (m : XrefManager) : XrefOperation → XrefManager
  | .edit e => e.apply m
  | .loadFrom F O db => (m.loadFrom F O db).1

theorem XrefManager.Indexed.addRecords {m : XrefManager} (h : m.Indexed)
    (records : List XrefRecord) : (m.addRecords records).Indexed :=
  List.foldlRecOn (motive := XrefManager.Indexed) records _ h fun _ hm _ _ => hm.addXref _ _ _

theorem XrefEdit.apply_indexed {m : XrefManager} (h : m.Indexed) (e : XrefEdit) :
    (e.apply m).Indexed := by
  cases e with
  | addXref src dst type => exact h.addXref src dst type
  | removeXref src dst type => exact h.removeXref src dst type
  | clear => exact XrefManager.indexed_empty

theorem XrefOperation.apply_indexed {m : XrefManager} (h : m.Indexed) (op : XrefOperation) :
    (op.apply m).Indexed := by
  cases op with
  | edit e => exact e.apply_indexed h
  | loadFrom F O db =>
    cases db with
    | none => exact h
    | some c => exact XrefManager.indexed_empty.addRecords _

/-- **The index invariant**: after any operations the two multimaps file exactly the
cross-references that are there, and the queries answer accordingly. -/
theorem xrefManager_indexed (ops : List XrefOperation) :
    let m := ops.foldl XrefOperation.apply {}
    m.Indexed ∧ ∀ a, m.QueriesAgree a := by
  have h : (ops.foldl XrefOperation.apply {}).Indexed :=
    List.foldlRecOn (motive := XrefManager.Indexed) ops _ XrefManager.indexed_empty
      fun _ hm op _ => op.apply_indexed hm
  exact ⟨h, h.queriesAgree⟩

/-! ## Columns and addresses -/

theorem ofInt64_toInt64 {a : Nat} (h : a < 2 ^ 64) : ofInt64 (toInt64 a) = a := by
  unfold ofInt64 toInt64
  rw [BitVec.ofInt_toInt, BitVec.toNat_ofNat, Nat.mod_eq_of_lt h]

/-- The string has no NUL character. -/
def NulFree (s : String) : Prop := '\x00' ∉ s.toList

instance (s : String) : Decidable (NulFree s) := inferInstanceAs (Decidable (_ ∉ _))

theorem NulFree.cStr_eq {s : String} (h : NulFree s) : cStr s = s := by
  have htake : s.toList.takeWhile (fun ch => decide (ch ≠ '\x00')) = s.toList :=
    List.takeWhile_eq_self_iff.mpr fun ch hch => decide_eq_true fun he => h (he ▸ hch)
  unfold cStr
  rw [htake, String.ofList_toList]

/-- A cross-reference as the columns hold it without loss: 64-bit addresses and no NUL. -/
def Xref.Storable (x : Xref) : Prop := x.src < 2 ^ 64 ∧ x.dst < 2 ^ 64 ∧ NulFree x.type

/-- The cross-reference that `LoadFrom` makes of a row. -/
def XrefColumns.xref (row : XrefColumns) : Xref :=
  ⟨ofInt64 row.fromAddr, ofInt64 row.toAddr, cStr row.type⟩

def XrefRecord.xref (rec : XrefRecord) : Xref := ⟨rec.fromAddr, rec.toAddr, rec.type⟩

theorem Xref.Storable.xref_columns {x : Xref} (h : x.Storable) :
    (xrefColumns x.src x.dst x.type).xref = x := by
  obtain ⟨hsrc, hdst, htype⟩ := h
  unfold XrefColumns.xref xrefColumns
  simp only [ofInt64_toInt64 hsrc, ofInt64_toInt64 hdst, htype.cStr_eq]

/-! ## Statements without faults -/

theorem prepare_never {table : TableName} {c : Conn Tables} (h : c.contents.has table = true) :
    prepare Faults.never table c = (true, { c with clock := c.clock + 1 }) :=
  Conn.statement_never (if_pos h)

theorem execute_never {table : TableName} {f : Tables → Option Tables} {c : Conn Tables}
    {t : Tables} (hhas : c.contents.has table = true) (hf : f c.contents = some t) :
    execute Faults.never table f c = (true, { c with contents := t, clock := c.clock + 2 }) := by
  unfold execute
  rw [prepare_never hhas]
  exact Conn.statement_never hf

theorem fetch_never {R : Type} : ∀ (rows : List R) (c : Conn Tables),
    (fetch Faults.never rows c).1 = rows
  | [], _ => rfl
  | r :: rest, c => by
    have hstep : Conn.statement Faults.never some c = (true, { c with clock := c.clock + 1 }) :=
      Conn.statement_never rfl
    unfold fetch
    rw [hstep]
    exact congrArg (r :: ·) (fetch_never rest _)

/-- A query has the rows that it selects. -/
theorem query_never {R : Type} {table : TableName} (select : Nat → Tables → List R)
    {c : Conn Tables} (h : c.contents.has table = true) :
    (match prepare Faults.never table c with
      | (false, c) => ([], c)
      | (true, c) => fetch Faults.never (select c.clock c.contents) c).1 =
        select (c.clock + 1) c.contents := by
  rw [prepare_never h]
  exact fetch_never _ _

/-! ## The table of cross-references -/

/-- The cross-references in the table. -/
def Tables.storedXrefs (t : Tables) : List Xref :=
  match t.xrefs with
  | none => []
  | some table => table.values.map XrefColumns.xref

theorem Tables.storedXrefs_of_some {t : Tables} {table : UniqueTable (id : XrefColumns → _)}
    (h : t.xrefs = some table) : t.storedXrefs = table.values.map XrefColumns.xref := by
  unfold storedXrefs
  rw [h]

/-- A row more, unless it is there. -/
theorem mem_map_insertNew {table : UniqueTable (id : XrefColumns → XrefColumns)} {x : Xref}
    (hx : x.Storable) (y : Xref) :
    y ∈ (table.insertNew (xrefColumns x.src x.dst x.type)).values.map XrefColumns.xref ↔
      y ∈ table.values.map XrefColumns.xref ∨ y = x := by
  simp only [List.mem_map, UniqueTable.mem_values_insertNew_id]
  constructor
  · rintro ⟨row, hrow | rfl, rfl⟩
    · exact .inl ⟨row, hrow, rfl⟩
    · exact .inr hx.xref_columns
  · rintro (⟨row, hrow, rfl⟩ | rfl)
    · exact ⟨row, .inl hrow, rfl⟩
    · exact ⟨_, .inr rfl, hx.xref_columns⟩

/-- One save. -/
theorem saveXref_never {c : Conn Tables} (hsome : c.contents.xrefs.isSome) {x : Xref}
    (hx : x.Storable) :
    (saveXref Faults.never x.src x.dst x.type c).2.contents.xrefs.isSome ∧
      ∀ y, y ∈ (saveXref Faults.never x.src x.dst x.type c).2.contents.storedXrefs ↔
        y ∈ c.contents.storedXrefs ∨ y = x := by
  obtain ⟨table, htable⟩ := Option.isSome_iff_exists.mp hsome
  let t : Tables := { c.contents with
    xrefs := some (table.insertNew (xrefColumns x.src x.dst x.type)) }
  have hinsert : insertXref (xrefColumns x.src x.dst x.type) c.contents = some t := by
    unfold insertXref
    rw [htable]
    rfl
  have hsave : saveXref Faults.never x.src x.dst x.type c =
      (true, { c with contents := t, clock := c.clock + 2 }) := execute_never hsome hinsert
  rw [hsave]
  refine ⟨rfl, fun y => ?_⟩
  rw [Tables.storedXrefs_of_some htable]
  exact mem_map_insertNew hx y

/-- What saving adds. -/
theorem saveXrefs_never : ∀ (xrefs : List Xref) {c : Conn Tables}, c.contents.xrefs.isSome →
    (∀ x ∈ xrefs, x.Storable) →
      (XrefManager.saveXrefs Faults.never xrefs c).contents.xrefs.isSome ∧
      ∀ y, y ∈ (XrefManager.saveXrefs Faults.never xrefs c).contents.storedXrefs ↔
        y ∈ c.contents.storedXrefs ∨ y ∈ xrefs
  | [], c, hsome, _ => ⟨hsome, fun x => by simp [XrefManager.saveXrefs]⟩
  | x :: rest, c, hsome, hstore => by
    obtain ⟨hsome', hone⟩ := saveXref_never hsome (hstore x List.mem_cons_self)
    obtain ⟨hlast, hrest⟩ :=
      saveXrefs_never rest hsome' fun y hy => hstore y (List.mem_cons_of_mem x hy)
    refine ⟨hlast, fun y => ?_⟩
    show y ∈ (XrefManager.saveXrefs Faults.never rest _).contents.storedXrefs ↔ _
    rw [hrest y, hone y, List.mem_cons, or_assoc]

theorem mem_addRecords {x : Xref} : ∀ {records : List XrefRecord} {m : XrefManager},
    x ∈ (m.addRecords records).all ↔
      x ∈ m.all ∨ ∃ rec ∈ records, (⟨rec.fromAddr, rec.toAddr, rec.type⟩ : Xref) = x
  | [], m => by simp [XrefManager.addRecords]
  | rec :: rest, m => by
    have ih : x ∈ ((m.addXref rec.fromAddr rec.toAddr rec.type).addRecords rest).all ↔ _ :=
      mem_addRecords
    show x ∈ ((m.addXref rec.fromAddr rec.toAddr rec.type).addRecords rest).all ↔ _
    rw [ih, XrefManager.mem_addXref, List.exists_mem_cons_iff, or_assoc, or_left_comm]
    exact ⟨Or.imp_right (Or.imp_left Eq.symm), Or.imp_right (Or.imp_left Eq.symm)⟩

/-- What loading makes of the table, in whatever order the rows come. -/
theorem loadFrom_never {c : Conn Tables} (h : c.contents.xrefs.isSome) (O : RowOrder)
    (m : XrefManager) (x : Xref) :
    x ∈ (m.loadFrom Faults.never O (some c)).1.all ↔ x ∈ c.contents.storedXrefs := by
  obtain ⟨table, htable⟩ := Option.isSome_iff_exists.mp h
  have hquery : (queryAllXrefs Faults.never O c).1 = selectXrefs (O (c.clock + 1)) c.contents :=
    query_never (fun time => selectXrefs (O time)) h
  show x ∈ (m.clear.addRecords (queryAllXrefs Faults.never O c).1).all ↔ _
  rw [mem_addRecords, hquery, Tables.storedXrefs_of_some htable]
  unfold selectXrefs
  rw [htable]
  simp only [List.mem_map, List.mem_insertionSort, mem_scan]
  constructor
  · rintro (hnil | ⟨rec, ⟨r, hr, rfl⟩, rfl⟩)
    · cases hnil
    · exact ⟨r.2, List.mem_map_of_mem hr, rfl⟩
  · rintro ⟨row, hrow, rfl⟩
    obtain ⟨r, hr, rfl⟩ := List.mem_map.mp hrow
    exact .inr ⟨_, ⟨r, hr, rfl⟩, rfl⟩

/-! ## Sessions -/

/-- A call in a session on one database. -/
inductive XrefCall
  | edit (e : XrefEdit)
  | saveTo

/-- The values of an added cross-reference fit their columns. -/
def XrefCall.Storable : XrefCall → Prop
  | .edit (.addXref src dst type) => Xref.Storable ⟨src, dst, type⟩
  | .edit _ | .saveTo => True

/-- A manager and the database. -/
structure XrefState where
  manager : XrefManager := {}
  db : Option (Conn Tables)

def XrefCall.apply (s : XrefState) : XrefCall → XrefState
  | .edit e => { s with manager := e.apply s.manager }
  | .saveTo => { s with db := s.manager.saveTo Faults.never s.db }

/-- A manager that loads right after a save holds what the saving manager holds. -/
def XrefState.Restored (s : XrefState) : Prop :=
  ∀ (O : RowOrder) (loader : XrefManager) (x : Xref),
    x ∈ (loader.loadFrom Faults.never O (s.manager.saveTo Faults.never s.db)).1.all ↔
      x ∈ s.manager.all

/-- Every cross-reference in the table is one that the manager holds. -/
def XrefState.OnlyHeld (s : XrefState) : Prop :=
  ∀ c ∈ s.db, ∀ x ∈ c.contents.storedXrefs, x ∈ s.manager.all

/-- The database has its table, and the manager's cross-references fit it. -/
structure XrefState.Open (s : XrefState) : Prop where
  db : ∃ c, s.db = some c ∧ c.contents.xrefs.isSome
  storable : ∀ x ∈ s.manager.all, x.Storable

theorem XrefEdit.apply_storable {m : XrefManager} (h : ∀ x ∈ m.all, x.Storable) (e : XrefEdit)
    (he : (XrefCall.edit e).Storable) : ∀ x ∈ (e.apply m).all, x.Storable := by
  intro x hx
  cases e with
  | addXref src dst type =>
    rcases XrefManager.mem_addXref.mp hx with rfl | hx
    · exact he
    · exact h x hx
  | removeXref src dst type =>
    have hsub : x ∈ m.all := by
      dsimp only [XrefEdit.apply, XrefManager.removeXref] at hx
      split at hx
      · exact List.mem_of_mem_erase hx
      · exact hx
    exact h x hsub
  | clear => cases hx

theorem XrefCall.apply_open {s : XrefState} (h : s.Open) (call : XrefCall) (hc : call.Storable) :
    (call.apply s).Open := by
  cases call with
  | edit e => exact ⟨h.db, e.apply_storable h.storable hc⟩
  | saveTo =>
    obtain ⟨c, hdb, hsome⟩ := h.db
    refine ⟨⟨XrefManager.saveXrefs Faults.never s.manager.all c, ?_, ?_⟩, h.storable⟩
    · show s.manager.saveTo Faults.never s.db = _
      rw [hdb]
      rfl
    · exact (saveXrefs_never s.manager.all hsome h.storable).1

/-- One save and one load. -/
theorem XrefState.Open.restored_iff {s : XrefState} (h : s.Open) : s.Restored ↔ s.OnlyHeld := by
  obtain ⟨c, hdb, hsome⟩ := h.db
  obtain ⟨hsome', hsaved⟩ := saveXrefs_never s.manager.all hsome h.storable
  have hload : ∀ (O : RowOrder) (loader : XrefManager) (x : Xref),
      x ∈ (loader.loadFrom Faults.never O (s.manager.saveTo Faults.never s.db)).1.all ↔
        x ∈ c.contents.storedXrefs ∨ x ∈ s.manager.all := by
    intro O loader x
    have hto : s.manager.saveTo Faults.never s.db =
        some (XrefManager.saveXrefs Faults.never s.manager.all c) := by
      rw [hdb]
      rfl
    rw [hto, loadFrom_never hsome', hsaved]
  constructor
  · intro hr c' hc' x hx
    cases hdb.symm.trans (Option.mem_def.mp hc')
    exact (hr .byId {} x).mp ((hload .byId {} x).mpr (.inl hx))
  · intro honly O loader x
    rw [hload]
    exact ⟨fun hx => hx.elim (honly c hdb x) id, .inr⟩

/-- **Cross-references over a session**: in every session on a database with the schema, `LoadFrom`
right after `SaveTo` gives back what the manager held at it if and only if the table held nothing
else before. -/
theorem xrefSession_restored_iff (c : Conn Tables) (hc : SchemaCreated c.contents)
    (calls : List XrefCall) (hcalls : ∀ call ∈ calls, call.Storable) :
    (calls.foldl XrefCall.apply { db := some c }).Restored ↔
      (calls.foldl XrefCall.apply { db := some c }).OnlyHeld := by
  have hfresh : XrefState.Open { db := some c } :=
    ⟨⟨c, rfl, hc.2.2.2.1⟩, fun x hx => by cases hx⟩
  have hopen : (calls.foldl XrefCall.apply { db := some c }).Open :=
    List.foldlRecOn (motive := XrefState.Open) calls _ hfresh
      fun s hs call hcall => call.apply_open hs (hcalls call hcall)
  exact hopen.restored_iff

/-! ## A cross-reference that comes back -/

/-- Add one cross-reference and save it. -/
def saveOneXref : List XrefCall := [.edit (.addXref 0x401000 0x402000 "call"), .saveTo]

theorem saveOneXref_restored :
    (saveOneXref.foldl XrefCall.apply { db := some newDatabase }).Restored := by
  refine (xrefSession_restored_iff newDatabase ⟨rfl, rfl, rfl, rfl, rfl⟩ saveOneXref ?_).mpr ?_
  · intro call hcall
    rcases List.mem_cons.mp hcall with rfl | hcall
    · exact ⟨by decide, by decide, by decide⟩
    · rw [List.mem_singleton.mp hcall]
      trivial
  · have honly : ∀ c ∈ (saveOneXref.foldl XrefCall.apply { db := some newDatabase }).db,
        ∀ x ∈ c.contents.storedXrefs,
          x ∈ (saveOneXref.foldl XrefCall.apply { db := some newDatabase }).manager.all := by
      decide +kernel
    exact honly

/-- Save it, and remove it again. -/
def removeSavedXref : List XrefCall :=
  saveOneXref ++ [.edit (.removeXref 0x401000 0x402000 "call")]

/-- A cross-reference that was removed after a save is in the table after the next one. -/
theorem removeSavedXref_comes_back :
    ¬ (removeSavedXref.foldl XrefCall.apply { db := some newDatabase }).Restored := by
  intro h
  have hback := (h .byId {} ⟨0x401000, 0x402000, "call"⟩).mp (by decide +kernel)
  exact absurd hback (by decide +kernel)

end ReWizard
