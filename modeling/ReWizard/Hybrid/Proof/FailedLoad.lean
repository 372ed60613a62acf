import ReWizard.Hybrid.Proof.TraceIndex

/-!
# Loads of a trace that fail

`Load` drops the records it has as soon as the file turns out to be an array, and an entry that
cannot be read ends the loop with the records before it in the reader. `load_unchanged_iff` says
when a failed load leaves what the reader answers as it was.
-/

namespace ReWizard

namespace SimpleTraceReader

/-- A call of `Load` that fails leaves the records and the answers by pc as they were. -/
def LoadUnchanged (parse : List UInt8 → Option Json) (r : SimpleTraceReader)
    (file : Option (List UInt8)) : Prop :=
  (r.load parse file).1 = false →
    (r.load parse file).2.records = r.records ∧
      ∀ pc, (r.load parse file).2.getRecordsForPC pc = r.getRecordsForPC pc

/-- The entry can be read. -/
def Readable (entry : Json) : Prop := ∃ rec, readEntry entry = .ok rec

/-- The records of the entries in front of the first that cannot be read. -/
def readPrefix : List Json → List TraceRecord
  | [] => []
  | entry :: rest =>
    match readEntry entry with
    | .error _ => []
    | .ok rec => rec :: readPrefix rest

/-- If the file holds an array, its entries can all be read, or those in front of the first that
cannot give the records that the reader has, under the index of these. -/
def LoadHarmless (parse : List UInt8 → Option Json) (r : SimpleTraceReader)
    (file : Option (List UInt8)) : Prop :=
  ∀ entries, file.bind parse = some (.array entries) →
    (∀ entry ∈ entries, Readable entry) ∨ (readPrefix entries = r.records ∧ r.Indexed)

/-- The loop comes to the end when all entries can be read. -/
theorem loadEntries_fst : ∀ (entries : List Json) (r : SimpleTraceReader),
    (r.loadEntries entries).1 = true ↔ ∀ entry ∈ entries, Readable entry
  | [], _ => ⟨fun _ _ h => (by cases h), fun _ => rfl⟩
  | entry :: rest, r => by
    rw [List.forall_mem_cons]
    unfold loadEntries Readable
    cases hread : readEntry entry with
    | error e =>
      refine ⟨fun h => (by cases h), fun h => ?_⟩
      obtain ⟨rec, hrec⟩ := h.1
      cases hrec
    | ok rec =>
      refine (loadEntries_fst rest (r.pushRecord rec)).trans ?_
      exact ⟨fun h => ⟨⟨rec, rfl⟩, h⟩, And.right⟩

/-- The loop adds the records of the entries that it gets past. -/
theorem loadEntries_records : ∀ (entries : List Json) (r : SimpleTraceReader),
    (r.loadEntries entries).2.records = r.records ++ readPrefix entries
  | [], r => (List.append_nil r.records).symm
  | entry :: rest, r => by
    unfold loadEntries readPrefix
    cases readEntry entry with
    | error e => exact (List.append_nil r.records).symm
    | ok rec =>
      refine (loadEntries_records rest (r.pushRecord rec)).trans ?_
      exact List.append_assoc r.records [rec] (readPrefix rest)

/-- A reader whose records and index are in agreement has the same answers as another exactly when
the other has the same records, and its index agrees with them too. -/
theorem Indexed.same_iff {r r' : SimpleTraceReader} (h : r'.Indexed) :
    (r'.records = r.records ∧ ∀ pc, r'.getRecordsForPC pc = r.getRecordsForPC pc) ↔
      r'.records = r.records ∧ r.Indexed := by
  refine and_congr_right fun hrecords => ?_
  unfold Indexed PositionIndex.Agrees at h ⊢
  rw [← hrecords]
  exact forall_congr' fun pc =>
    ⟨fun hpc => hpc.symm.trans (h pc), fun hpc => (h pc).trans hpc.symm⟩

/-- **Failed loads**: for every reader and every file, a load that fails changes no answer if and
only if the file is not an array, or the entries before the bad one give back the records that the
reader had. -/
theorem load_unchanged_iff (parse : List UInt8 → Option Json) (r : SimpleTraceReader)
    (file : Option (List UInt8)) : LoadUnchanged parse r file ↔ LoadHarmless parse r file := by
  unfold LoadUnchanged LoadHarmless load
  split
  · rename_i entries hfile
    have hindexed : (SimpleTraceReader.loadEntries {} entries).2.Indexed :=
      Indexed.empty.loadEntries
    have hrecords : (SimpleTraceReader.loadEntries {} entries).2.records = readPrefix entries :=
      loadEntries_records entries {}
    rw [hindexed.same_iff, hrecords, ← Bool.not_eq_true, loadEntries_fst, ← or_iff_not_imp_left]
    constructor
    · intro h entries' hentries
      cases hfile.symm.trans hentries
      exact h
    · exact fun h => h entries hfile
  · rename_i hfile
    exact ⟨fun _ entries hentries => absurd hentries (hfile entries), fun _ _ => ⟨rfl, fun _ => rfl⟩⟩

/-! ## A load that drops the records -/

/-- The file `[{}]`. -/
def oneEntry : List UInt8 := [0x5B, 0x7B, 0x7D, 0x5D]

/-- The file `[{"pc":1}]`. -/
def numberedEntry : List UInt8 := [0x5B, 0x7B, 0x22, 0x70, 0x63, 0x22, 0x3A, 0x31, 0x7D, 0x5D]

/-- The parser on the two files. -/
def parseTwoFiles (bytes : List UInt8) : Option Json :=
  if bytes = oneEntry then some (.array [.object []])
  else if bytes = numberedEntry then some (.array [.object [("pc", .number)]])
  else none

/-- The pc of the second file is not a string: the load fails, and the record of the first file is
gone. -/
theorem numberedEntry_not_unchanged :
    ¬ LoadUnchanged parseTwoFiles (loadAll parseTwoFiles [some oneEntry]) (some numberedEntry) := by
  intro h
  exact absurd (congrArg List.length (h (by decide +kernel)).1) (by decide +kernel)

end SimpleTraceReader

end ReWizard
