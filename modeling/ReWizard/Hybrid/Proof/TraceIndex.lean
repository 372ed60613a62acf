import ReWizard.Hybrid.SimpleTraceReader

/-!
# The index of a trace

Between two entries the index of a `SimpleTraceReader` holds the positions of all records
(`SimpleTraceReader.Indexed`): an entry is read before anything is stored, and its position and its
record are stored together. What stops `Load` stops it between two entries.

* `loadAll_getRecordsForPC`: after any calls of `Load`, a lookup by pc is a scan of the records.
-/

namespace ReWizard

namespace SimpleTraceReader

/-- The index holds the positions of the records under their pc. -/
def Indexed (r : SimpleTraceReader) : Prop :=
  PositionIndex.Agrees TraceRecord.pc r.pcIndex r.records

theorem Indexed.empty : Indexed {} := PositionIndex.Agrees.empty

theorem Indexed.pushRecord {r : SimpleTraceReader} (h : r.Indexed) (rec : TraceRecord) :
    (r.pushRecord rec).Indexed :=
  PositionIndex.Agrees.concat h rec

/-- The entries that were read before a bad one keep their records and their positions. -/
theorem Indexed.loadEntries : ∀ {entries : List Json} {r : SimpleTraceReader}, r.Indexed →
    (r.loadEntries entries).2.Indexed
  | [], _, h => h
  | entry :: rest, r, h => by
    unfold SimpleTraceReader.loadEntries
    cases readEntry entry with
    | error e => exact h
    | ok rec => exact Indexed.loadEntries (h.pushRecord rec)

theorem Indexed.load {r : SimpleTraceReader} (h : r.Indexed) (parse : List UInt8 → Option Json)
    (file : Option (List UInt8)) : (r.load parse file).2.Indexed := by
  unfold SimpleTraceReader.load
  split
  · exact Indexed.empty.loadEntries
  · exact h

theorem loadAll_indexed (parse : List UInt8 → Option Json) (files : List (Option (List UInt8))) :
    (loadAll parse files).Indexed := by
  induction files using List.reverseRecOn with
  | nil => exact Indexed.empty
  | append_singleton files file ih =>
    unfold loadAll at ih ⊢
    rw [List.foldl_append]
    exact ih.load parse file

/-- After any calls of `Load`, whatever the files hold and wherever the calls stop,
`GetRecordsForPC` gives the positions of exactly the records with the pc, in order, and reading
them gives what a scan of the records finds. -/
theorem loadAll_getRecordsForPC (parse : List UInt8 → Option Json)
    (files : List (Option (List UInt8))) (pc : Nat) :
    let r := loadAll parse files
    r.getRecordsForPC pc = PositionIndex.positions TraceRecord.pc pc r.records ∧
      (r.getRecordsForPC pc).map (fun i => r.records[i]?) =
        (ReWizard.getRecordsForPC r.records pc).map some := by
  have h := loadAll_indexed parse files
  exact ⟨h pc, PositionIndex.Agrees.read h pc⟩

end SimpleTraceReader

end ReWizard
