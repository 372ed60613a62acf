import ReWizard.Database.Proof.AnnotationSession
import Mathlib.Data.Set.Insert

/-!
# The tables as collections

What the tables are for: a map from addresses to the functions saved last, the set of the
cross-references saved, and a map from addresses to annotations (`Collections`). `Tables.Holds`
ties the rows to them, `DatabaseCall.run_holds` is the step of the simulation, and
`databaseCalls_collections` says how the queries answer after any calls.
-/

namespace ReWizard

/-! ## Calls -/

/-- A call that writes to one of the tables. -/
inductive DatabaseCall
  | saveFunction (fn : Function)
  | saveXref (x : Xref)
  | saveAnnotation (address : Nat) (ann : Annotation)
  | deleteAnnotation (address : Nat)

def DatabaseCall.run (c : Conn Tables) : DatabaseCall → Bool × Conn Tables
  | .saveFunction fn => ReWizard.saveFunction Faults.never fn c
  | .saveXref x => ReWizard.saveXref Faults.never x.src x.dst x.type c
  | DatabaseCall.saveAnnotation a ann =>
    ReWizard.saveAnnotation Faults.never a ann.name ann.comment ann.type ann.kind c
  | DatabaseCall.deleteAnnotation a => ReWizard.deleteAnnotation Faults.never a c

def runCalls (calls : List DatabaseCall) (c : Conn Tables) : Conn Tables :=
  calls.foldl (fun c call => (call.run c).2) c

/-- A function as the columns hold it without loss: 64-bit addresses and no NUL. -/
structure Function.Storable (fn : Function) : Prop where
  startAddress : fn.startAddress < 2 ^ 64
  endAddress : fn.endAddress < 2 ^ 64
  name : NulFree fn.name

def DatabaseCall.Storable : DatabaseCall → Prop
  | .saveFunction fn => fn.Storable
  | .saveXref x => x.Storable
  | DatabaseCall.saveAnnotation a ann => StorableEntry (a, ann)
  | DatabaseCall.deleteAnnotation a => a < 2 ^ 64

/-! ## Collections -/

/-- What has been saved: the last function for each address, the cross-references, and the
annotation of each address. -/
structure Collections where
  functions : Nat → Option Function := fun _ => none
  xrefs : Set Xref := ∅
  annotations : Nat → Option Annotation := fun _ => none

def Collections.apply (s : Collections) : DatabaseCall → Collections
  | .saveFunction fn =>
    { s with functions := Function.update s.functions fn.startAddress (some fn) }
  | .saveXref x => { s with xrefs := insert x s.xrefs }
  | DatabaseCall.saveAnnotation a ann =>
    { s with annotations := Function.update s.annotations a (some ann) }
  | DatabaseCall.deleteAnnotation a =>
    { s with annotations := Function.update s.annotations a none }

/-- The functions are filed under their start, and everything fits its columns. -/
structure Collections.Fits (s : Collections) : Prop where
  functions : ∀ a fn, s.functions a = some fn → fn.startAddress = a ∧ fn.Storable
  xrefs : ∀ x ∈ s.xrefs, x.Storable
  annotations : ∀ a ann, s.annotations a = some ann → StorableEntry (a, ann)

theorem Collections.fits_empty : Collections.Fits {} where
  functions _ _ h := by cases h
  xrefs _ h := by cases h
  annotations _ _ h := by cases h

/-- An updated entry is the new one, or was there. -/
theorem of_update_eq_some {α : Type} {m : Nat → Option α} {k a : Nat} {o : Option α} {v : α}
    (h : Function.update m k o a = some v) : (a = k ∧ o = some v) ∨ m a = some v := by
  by_cases ha : a = k
  · subst ha
    rw [Function.update_self] at h
    exact .inl ⟨rfl, h⟩
  · rw [Function.update_of_ne ha] at h
    exact .inr h

theorem Collections.Fits.apply {s : Collections} (h : s.Fits) {call : DatabaseCall}
    (hcall : call.Storable) : (s.apply call).Fits := by
  cases call with
  | saveFunction fn =>
    refine ⟨fun a fn' hfn => ?_, h.xrefs, h.annotations⟩
    rcases of_update_eq_some hfn with ⟨rfl, hnew⟩ | hold
    · cases hnew
      exact ⟨rfl, hcall⟩
    · exact h.functions a fn' hold
  | saveXref x =>
    refine ⟨h.functions, fun y hy => ?_, h.annotations⟩
    rcases hy with rfl | hy
    · exact hcall
    · exact h.xrefs y hy
  | saveAnnotation a ann =>
    refine ⟨h.functions, h.xrefs, fun b ann' hann => ?_⟩
    rcases of_update_eq_some hann with ⟨rfl, hnew⟩ | hold
    · cases hnew
      exact hcall
    · exact h.annotations b ann' hold
  | deleteAnnotation a =>
    refine ⟨h.functions, h.xrefs, fun b ann' hann => ?_⟩
    rcases of_update_eq_some hann with ⟨-, hnew⟩ | hold
    · cases hnew
    · exact h.annotations b ann' hold

/-! ## One call -/

/-- The table that a call writes to. -/
def DatabaseCall.table : DatabaseCall → TableName
  | .saveFunction _ => .functions
  | .saveXref _ => .xrefs
  | DatabaseCall.saveAnnotation .. | DatabaseCall.deleteAnnotation _ => .userAnnotations

/-- The effect of the statement of a call. -/
def DatabaseCall.effect : DatabaseCall → Tables → Option Tables
  | .saveFunction fn => upsertFunction (functionColumns fn)
  | .saveXref x => insertXref (xrefColumns x.src x.dst x.type)
  | DatabaseCall.saveAnnotation a ann => upsertAnnotation (entryColumns (a, ann))
  | DatabaseCall.deleteAnnotation a => eraseAnnotation (BitVec.ofNat 64 a)

theorem DatabaseCall.run_eq (call : DatabaseCall) (c : Conn Tables) :
    call.run c = execute Faults.never call.table call.effect c := by
  cases call <;> rfl

/-- The tables other than `name` are the same. -/
structure Tables.SameBut (name : TableName) (t t' : Tables) : Prop where
  functions : name ≠ .functions → t'.functions = t.functions
  basicBlocks : name ≠ .basicBlocks → t'.basicBlocks = t.basicBlocks
  symbols : name ≠ .symbols → t'.symbols = t.symbols
  xrefs : name ≠ .xrefs → t'.xrefs = t.xrefs
  userAnnotations : name ≠ .userAnnotations → t'.userAnnotations = t.userAnnotations

theorem Tables.SameBut.refl (name : TableName) (t : Tables) : Tables.SameBut name t t :=
  ⟨fun _ => rfl, fun _ => rfl, fun _ => rfl, fun _ => rfl, fun _ => rfl⟩

theorem DatabaseCall.effect_sameBut {call : DatabaseCall} {t t' : Tables}
    (h : call.effect t = some t') : Tables.SameBut call.table t t' := by
  cases call with
  | saveFunction fn =>
    obtain ⟨table, -, rfl⟩ := Option.map_eq_some_iff.mp h
    exact ⟨fun hne => absurd rfl hne, fun _ => rfl, fun _ => rfl, fun _ => rfl, fun _ => rfl⟩
  | saveXref x =>
    obtain ⟨table, -, rfl⟩ := Option.map_eq_some_iff.mp h
    exact ⟨fun _ => rfl, fun _ => rfl, fun _ => rfl, fun hne => absurd rfl hne, fun _ => rfl⟩
  | saveAnnotation a ann =>
    obtain ⟨table, -, rfl⟩ := Option.map_eq_some_iff.mp h
    exact ⟨fun _ => rfl, fun _ => rfl, fun _ => rfl, fun _ => rfl, fun hne => absurd rfl hne⟩
  | deleteAnnotation a =>
    obtain ⟨table, -, rfl⟩ := Option.map_eq_some_iff.mp h
    exact ⟨fun _ => rfl, fun _ => rfl, fun _ => rfl, fun _ => rfl, fun hne => absurd rfl hne⟩

/-- **Frame**: a call leaves the other tables alone, whether or not it succeeds. -/
theorem DatabaseCall.run_sameBut (call : DatabaseCall) (c : Conn Tables) :
    Tables.SameBut call.table c.contents (call.run c).2.contents := by
  rw [call.run_eq]
  by_cases hhas : c.contents.has call.table = true
  · cases heffect : call.effect c.contents with
    | some t =>
      rw [execute_never hhas heffect]
      exact effect_sameBut heffect
    | none =>
      have hfail : (execute Faults.never call.table call.effect c).2.contents = c.contents := by
        simp [execute, prepare, Conn.statement, Conn.attempt, Faults.never, hhas, heffect,
          Conn.andThen, Conn.tick]
      rw [hfail]
      exact Tables.SameBut.refl _ _
  · have hfail : (execute Faults.never call.table call.effect c).2.contents = c.contents := by
      simp [execute, prepare, Conn.statement, Conn.attempt, Faults.never, hhas, Conn.andThen,
        Conn.tick]
    rw [hfail]
    exact Tables.SameBut.refl _ _

/-! ## Rows -/

theorem toInt64_inj {a b : Nat} (ha : a < 2 ^ 64) (hb : b < 2 ^ 64) :
    toInt64 a = toInt64 b ↔ a = b := by
  constructor
  · intro h
    have hof := congrArg ofInt64 h
    rwa [ofInt64_toInt64 ha, ofInt64_toInt64 hb] at hof
  · exact congrArg toInt64

/-- The rows are those of the collections. -/
structure Tables.Holds (t : Tables) (s : Collections) : Prop where
  functions : ∃ table, t.functions = some table ∧
    table.Represents (fun _ fn => functionColumns fn) s.functions
  xrefs : ∃ table, t.xrefs = some table ∧
    ∀ row, row ∈ table.values ↔ ∃ x ∈ s.xrefs, xrefColumns x.src x.dst x.type = row
  annotations : ∃ table, t.userAnnotations = some table ∧
    table.Represents (fun a ann => entryColumns (a, ann)) s.annotations

/-- The functions table after a save. -/
theorem represents_saveFunction {table : UniqueTable FunctionColumns.address} {s : Collections}
    (hs : s.Fits) (h : table.Represents (fun _ fn => functionColumns fn) s.functions)
    {fn : Function} (hfn : fn.Storable) :
    (table.upsert (functionColumns fn)).Represents (fun _ fn => functionColumns fn)
      (Function.update s.functions fn.startAddress (some fn)) := by
  refine h.upsert (k := fn.startAddress) fun a fn' hfn' => ?_
  obtain ⟨rfl, hfits⟩ := hs.functions a fn' hfn'
  exact toInt64_inj hfits.startAddress hfn.startAddress

theorem entryColumns_address_eq_iff {e : Nat × Annotation} (he : StorableEntry e) {a : Nat}
    (ha : a < 2 ^ 64) : (entryColumns e).address = BitVec.ofNat 64 a ↔ e.1 = a := by
  constructor
  · intro h
    have htoNat := congrArg BitVec.toNat h
    rwa [he.toNat_address, BitVec.toNat_ofNat, Nat.mod_eq_of_lt ha] at htoNat
  · rintro rfl
    rfl

/-- **One call** does to the rows what it does to the collections. -/
theorem DatabaseCall.effect_holds {s : Collections} (hs : s.Fits) {t : Tables} (h : t.Holds s)
    {call : DatabaseCall} (hcall : call.Storable) :
    ∃ t', call.effect t = some t' ∧ t'.Holds (s.apply call) := by
  obtain ⟨⟨fns, hfns, hrepFns⟩, ⟨xrefs, hxrefs, hmem⟩, ⟨anns, hanns, hrepAnns⟩⟩ := h
  cases call with
  | saveFunction fn =>
    refine ⟨{ t with functions := some (fns.upsert (functionColumns fn)) }, ?_, ?_⟩
    · exact Option.map_eq_some_iff.mpr ⟨fns, hfns, rfl⟩
    · exact ⟨⟨_, rfl, represents_saveFunction hs hrepFns hcall⟩, ⟨xrefs, hxrefs, hmem⟩,
        ⟨anns, hanns, hrepAnns⟩⟩
  | saveXref x =>
    refine ⟨{ t with xrefs := some (xrefs.insertNew (xrefColumns x.src x.dst x.type)) }, ?_, ?_⟩
    · exact Option.map_eq_some_iff.mpr ⟨xrefs, hxrefs, rfl⟩
    · refine ⟨⟨fns, hfns, hrepFns⟩, ⟨_, rfl, fun row => ?_⟩, ⟨anns, hanns, hrepAnns⟩⟩
      rw [UniqueTable.mem_values_insertNew_id, hmem row]
      constructor
      · rintro (⟨y, hy, rfl⟩ | rfl)
        · exact ⟨y, .inr hy, rfl⟩
        · exact ⟨x, .inl rfl, rfl⟩
      · rintro ⟨y, rfl | hy, rfl⟩
        · exact .inr rfl
        · exact .inl ⟨y, hy, rfl⟩
  | saveAnnotation a ann =>
    refine ⟨{ t with userAnnotations := some (anns.upsert (entryColumns (a, ann))) }, ?_, ?_⟩
    · exact Option.map_eq_some_iff.mpr ⟨anns, hanns, rfl⟩
    · refine ⟨⟨fns, hfns, hrepFns⟩, ⟨xrefs, hxrefs, hmem⟩, ⟨_, rfl, ?_⟩⟩
      refine hrepAnns.upsert (k := a) fun b ann' hann' => ?_
      exact entryColumns_address_eq_iff (hs.annotations b ann' hann') hcall.1
  | deleteAnnotation a =>
    refine ⟨{ t with userAnnotations := some (anns.delete (BitVec.ofNat 64 a)) }, ?_, ?_⟩
    · exact Option.map_eq_some_iff.mpr ⟨anns, hanns, rfl⟩
    · refine ⟨⟨fns, hfns, hrepFns⟩, ⟨xrefs, hxrefs, hmem⟩, ⟨_, rfl, ?_⟩⟩
      refine hrepAnns.delete fun b ann' hann' => ?_
      exact entryColumns_address_eq_iff (hs.annotations b ann' hann') hcall

theorem Tables.Holds.has {t : Tables} {s : Collections} (h : t.Holds s) (call : DatabaseCall) :
    t.has call.table = true := by
  obtain ⟨⟨fns, hfns, -⟩, ⟨xrefs, hxrefs, -⟩, ⟨anns, hanns, -⟩⟩ := h
  cases call with
  | saveFunction fn => exact Option.isSome_of_eq_some hfns
  | saveXref x => exact Option.isSome_of_eq_some hxrefs
  | saveAnnotation a ann => exact Option.isSome_of_eq_some hanns
  | deleteAnnotation a => exact Option.isSome_of_eq_some hanns

theorem DatabaseCall.run_holds {s : Collections} (hs : s.Fits) {c : Conn Tables}
    (h : c.contents.Holds s) {call : DatabaseCall} (hcall : call.Storable) :
    (call.run c).1 = true ∧ (call.run c).2.contents.Holds (s.apply call) := by
  obtain ⟨t, heffect, hholds⟩ := effect_holds hs h hcall
  rw [call.run_eq, execute_never (h.has call) heffect]
  exact ⟨rfl, hholds⟩

/-- **Any calls** do to the rows what they do to the collections. -/
theorem runCalls_holds : ∀ {calls : List DatabaseCall} {s : Collections} {c : Conn Tables},
    s.Fits → c.contents.Holds s → (∀ call ∈ calls, call.Storable) →
      (calls.foldl Collections.apply s).Fits ∧
        (runCalls calls c).contents.Holds (calls.foldl Collections.apply s)
  | [], _, _, hs, h, _ => ⟨hs, h⟩
  | call :: rest, s, c, hs, h, hcalls => by
    have hcall := hcalls call List.mem_cons_self
    obtain ⟨-, hstep⟩ := call.run_holds hs h hcall
    have hrest : ∀ d ∈ rest, d.Storable := fun d hd => hcalls d (List.mem_cons_of_mem call hd)
    have ih := runCalls_holds (hs.apply hcall) hstep hrest
    exact ih

/-! ## Queries without faults -/

theorem queryFunctionByAddress_never {c : Conn Tables} (h : c.contents.has .functions = true)
    (a : Nat) :
    (queryFunctionByAddress Faults.never a c).1 = selectFunctionByAddress a c.contents := by
  unfold queryFunctionByAddress
  rw [prepare_never h]
  rfl

/-! ## The functions -/

/-- The values of a saved function, under a row id. -/
def savedRecord (id : Nat) (fn : Function) : FunctionRecord where
  id := id
  address := fn.startAddress
  size := fn.endAddress - fn.startAddress
  name := fn.name
  type := "function"
  convention := ""
  hasOpaquePredicates := fn.hasOpaquePredicates
  isHybridVerified := fn.hybridVerified
  isTrampoline := fn.isTrampoline

theorem decide_flag (b : Bool) : decide ((if b then (1 : Int) else 0) ≠ 0) = b := by
  cases b <;> rfl

theorem Function.Storable.functionRecord_eq {fn : Function} (h : fn.Storable) (id : Nat) :
    functionRecord (id, functionColumns fn) = savedRecord id fn := by
  have hsize : ofInt64 (functionColumns fn).size = fn.endAddress - fn.startAddress := by
    show ofInt64 (toInt64 (if fn.endAddress > fn.startAddress then _ else 0)) = _
    split
    · exact ofInt64_toInt64 (Nat.lt_of_le_of_lt (Nat.sub_le _ _) h.endAddress)
    · rename_i hle
      exact (Nat.sub_eq_zero_of_le (Nat.le_of_not_gt hle)).symm ▸ ofInt64_toInt64 (by decide)
  have haddress : ofInt64 (functionColumns fn).address = fn.startAddress :=
    ofInt64_toInt64 h.startAddress
  unfold functionRecord savedRecord
  rw [haddress, hsize]
  simp only [functionColumns, h.name.cStr_eq, decide_flag]

/-- The two queries answer as a map from addresses to the functions saved last. -/
structure FunctionsAgree (saved : Nat → Option Function) (c : Conn Tables) : Prop where
  addresses_nodup : ((queryFunctions Faults.never c).1.map (·.address)).Nodup
  mem_addresses : ∀ a,
    a ∈ (queryFunctions Faults.never c).1.map (·.address) ↔ (saved a).isSome
  mem_iff : ∀ rec, rec ∈ (queryFunctions Faults.never c).1 ↔
    rec.address < 2 ^ 64 ∧ (queryFunctionByAddress Faults.never rec.address c).1 = some rec
  byAddress : ∀ a < 2 ^ 64, ∃ id,
    (queryFunctionByAddress Faults.never a c).1 = (saved a).map (savedRecord id)

section

variable {table : UniqueTable FunctionColumns.address} {s : Collections}

/-- The function of a row. -/
theorem row_savedFunction (hs : s.Fits)
    (h : table.Represents (fun _ fn => functionColumns fn) s.functions) {r : Nat × FunctionColumns}
    (hr : r ∈ table.rows) : ∃ fn, s.functions fn.startAddress = some fn ∧ fn.Storable ∧
      r.2 = functionColumns fn ∧ functionRecord r = savedRecord r.1 fn := by
  obtain ⟨a, fn, hfn, hrow⟩ := (h r.2).mp (UniqueTable.mem_values.mpr ⟨r, hr, rfl⟩)
  obtain ⟨rfl, hfits⟩ := hs.functions a fn hfn
  refine ⟨fn, hfn, hfits, hrow.symm, ?_⟩
  have hrecord := hfits.functionRecord_eq r.1
  rwa [show functionColumns fn = r.2 from hrow] at hrecord

/-- The row of a function. -/
theorem savedFunction_row (h : table.Represents (fun _ fn => functionColumns fn) s.functions)
    {a : Nat} {fn : Function} (hfn : s.functions a = some fn) :
    ∃ r ∈ table.rows, r.2 = functionColumns fn :=
  UniqueTable.mem_values.mp ((h _).mpr ⟨a, fn, hfn, rfl⟩)

/-- The row found for an address. -/
theorem row?_savedFunction (hs : s.Fits)
    (h : table.Represents (fun _ fn => functionColumns fn) s.functions) {a : Nat}
    (ha : a < 2 ^ 64) :
    ∃ id, (table.row? (toInt64 a)).map functionRecord = (s.functions a).map (savedRecord id) := by
  cases hget : s.functions a with
  | none =>
    have hnone : table.row? (toInt64 a) = none := by
      by_contra hsome
      obtain ⟨r, hr⟩ := Option.ne_none_iff_exists'.mp hsome
      obtain ⟨hmem, hkey⟩ := UniqueTable.mem_of_row? hr
      obtain ⟨fn, hfn, hfits, hrow, -⟩ := row_savedFunction hs h hmem
      rw [hrow] at hkey
      rw [(toInt64_inj hfits.startAddress ha).mp hkey, hget] at hfn
      cases hfn
    rw [hnone]
    exact ⟨0, rfl⟩
  | some fn =>
    obtain ⟨r, hr, hrow⟩ := savedFunction_row h hget
    obtain ⟨rfl, hfits⟩ := hs.functions a fn hget
    have hfound : table.row? (toInt64 fn.startAddress) = some r :=
      UniqueTable.row?_eq_some_iff.mpr ⟨hr, by rw [hrow]; rfl⟩
    rw [hfound]
    have hrecord := hfits.functionRecord_eq r.1
    rw [← hrow] at hrecord
    exact ⟨r.1, congrArg some hrecord⟩

/-- A record is of the row that is found for its address. -/
theorem row?_functionRecord (hs : s.Fits)
    (h : table.Represents (fun _ fn => functionColumns fn) s.functions) {r : Nat × FunctionColumns}
    (hr : r ∈ table.rows) :
    (functionRecord r).address < 2 ^ 64 ∧
      table.row? (toInt64 (functionRecord r).address) = some r := by
  obtain ⟨fn, -, hfits, hrow, hrecord⟩ := row_savedFunction hs h hr
  have haddress : (functionRecord r).address = fn.startAddress := congrArg (·.address) hrecord
  have hkey : r.2.address = toInt64 fn.startAddress := congrArg (·.address) hrow
  rw [haddress]
  exact ⟨hfits.startAddress, UniqueTable.row?_eq_some_iff.mpr ⟨hr, hkey⟩⟩

theorem functionRecord_addresses_nodup (hs : s.Fits)
    (h : table.Represents (fun _ fn => functionColumns fn) s.functions) :
    (table.rows.map fun r => (functionRecord r).address).Nodup := by
  refine UniqueTable.nodup_map_rows fun r hr r' hr' he => ?_
  have hfound := (row?_functionRecord hs h hr).2
  rw [he, (row?_functionRecord hs h hr').2] at hfound
  rw [Option.some.inj hfound]

theorem mem_functionRecord_addresses (hs : s.Fits)
    (h : table.Represents (fun _ fn => functionColumns fn) s.functions) (a : Nat) :
    a ∈ (table.rows.map fun r => (functionRecord r).address) ↔ (s.functions a).isSome := by
  rw [List.mem_map]
  constructor
  · rintro ⟨r, hr, rfl⟩
    obtain ⟨fn, hfn, -, -, hrecord⟩ := row_savedFunction hs h hr
    rw [hrecord]
    exact Option.isSome_of_eq_some hfn
  · intro hsome
    obtain ⟨fn, hfn⟩ := Option.isSome_iff_exists.mp hsome
    obtain ⟨r, hr, hrow⟩ := savedFunction_row h hfn
    obtain ⟨rfl, hfits⟩ := hs.functions a fn hfn
    refine ⟨r, hr, ?_⟩
    show ofInt64 r.2.address = fn.startAddress
    rw [hrow]
    exact ofInt64_toInt64 hfits.startAddress

theorem Tables.Holds.functionsAgree {c : Conn Tables} (h : c.contents.Holds s) (hs : s.Fits) :
    FunctionsAgree s.functions c := by
  obtain ⟨table, htable, hrep⟩ := h.functions
  have hperm : (queryFunctions Faults.never c).1.Perm (table.rows.map functionRecord) := by
    have hquery : (queryFunctions Faults.never c).1 = selectFunctions c.contents :=
      query_never (fun _ => selectFunctions) (Option.isSome_of_eq_some htable)
    rw [hquery]
    unfold selectFunctions
    rw [htable]
    exact (List.perm_insertionSort _ table.rows).map functionRecord
  have hbyAddress : ∀ a, (queryFunctionByAddress Faults.never a c).1 =
      (table.row? (toInt64 a)).map functionRecord := by
    intro a
    rw [queryFunctionByAddress_never (Option.isSome_of_eq_some htable)]
    unfold selectFunctionByAddress
    rw [htable]
  refine ⟨?_, fun a => ?_, fun rec => ?_, fun a ha => ?_⟩
  · rw [(hperm.map _).nodup_iff, List.map_map]
    exact functionRecord_addresses_nodup hs hrep
  · rw [(hperm.map _).mem_iff, List.map_map]
    exact mem_functionRecord_addresses hs hrep a
  · rw [hperm.mem_iff, List.mem_map, hbyAddress]
    constructor
    · rintro ⟨r, hr, rfl⟩
      obtain ⟨hlt, hfound⟩ := row?_functionRecord hs hrep hr
      exact ⟨hlt, congrArg (Option.map functionRecord) hfound⟩
    · rintro ⟨-, hfound⟩
      obtain ⟨r, hr, hrec⟩ := Option.map_eq_some_iff.mp hfound
      exact ⟨r, (UniqueTable.mem_of_row? hr).1, hrec⟩
  · rw [hbyAddress]
    exact row?_savedFunction hs hrep ha

end

/-! ## Row ids -/

/-- The function of an address keeps its row id. -/
def RowIdsKept (c d : Conn Tables) : Prop :=
  ∀ a rec, (queryFunctionByAddress Faults.never a c).1 = some rec →
    ∃ rec', (queryFunctionByAddress Faults.never a d).1 = some rec' ∧ rec'.id = rec.id

/-- The functions table keeps the ids of its rows. -/
def Tables.KeepsIds (t t' : Tables) : Prop :=
  ∀ table, t.functions = some table → ∃ table', t'.functions = some table' ∧
    (table.rows.map fun r => (r.1, r.2.address)) <+: table'.rows.map fun r => (r.1, r.2.address)

theorem Tables.KeepsIds.refl (t : Tables) : t.KeepsIds t :=
  fun table h => ⟨table, h, List.prefix_rfl⟩

theorem Tables.KeepsIds.trans {t t' t'' : Tables} (h : t.KeepsIds t') (h' : t'.KeepsIds t'') :
    t.KeepsIds t'' := by
  intro table htable
  obtain ⟨table', htable', hprefix⟩ := h table htable
  obtain ⟨table'', htable'', hprefix'⟩ := h' table' htable'
  exact ⟨table'', htable'', hprefix.trans hprefix'⟩

theorem DatabaseCall.run_keepsIds (call : DatabaseCall) (c : Conn Tables) :
    c.contents.KeepsIds (call.run c).2.contents := by
  by_cases hcall : call.table = .functions
  · cases call with
    | saveFunction fn =>
      intro table htable
      have heffect : upsertFunction (functionColumns fn) c.contents =
          some { c.contents with functions := some (table.upsert (functionColumns fn)) } :=
        Option.map_eq_some_iff.mpr ⟨table, htable, rfl⟩
      have hrun : (DatabaseCall.saveFunction fn).run c = _ :=
        execute_never (Option.isSome_of_eq_some htable) heffect
      rw [hrun]
      exact ⟨_, rfl, UniqueTable.keys_upsert_append table _⟩
    | saveXref x => cases hcall
    | saveAnnotation a ann => cases hcall
    | deleteAnnotation a => cases hcall
  · intro table htable
    exact ⟨table, ((call.run_sameBut c).functions hcall).trans htable, List.prefix_rfl⟩

theorem runCalls_keepsIds : ∀ (calls : List DatabaseCall) (c : Conn Tables),
    c.contents.KeepsIds (runCalls calls c).contents
  | [], c => Tables.KeepsIds.refl c.contents
  | call :: rest, c => (call.run_keepsIds c).trans (runCalls_keepsIds rest (call.run c).2)

theorem Tables.KeepsIds.rowIdsKept {c d : Conn Tables} (h : c.contents.KeepsIds d.contents)
    (hc : c.contents.functions.isSome) : RowIdsKept c d := by
  obtain ⟨table, htable⟩ := Option.isSome_iff_exists.mp hc
  obtain ⟨table', htable', hprefix⟩ := h table htable
  intro a rec hrec
  rw [queryFunctionByAddress_never hc] at hrec
  rw [queryFunctionByAddress_never (Option.isSome_of_eq_some htable')]
  unfold selectFunctionByAddress at hrec ⊢
  rw [htable] at hrec
  rw [htable']
  obtain ⟨r, hr, rfl⟩ := Option.map_eq_some_iff.mp hrec
  obtain ⟨r', hr', hid⟩ := UniqueTable.row?_id_of_prefix hprefix hr
  exact ⟨functionRecord r', congrArg (Option.map functionRecord) hr', hid⟩

/-! ## The cross-references -/

/-- The queries answer as a set of cross-references, in any order. -/
structure XrefsAgree (O : RowOrder) (saved : Set Xref) (c : Conn Tables) : Prop where
  nodup : ((queryAllXrefs Faults.never O c).1.map XrefRecord.xref).Nodup
  mem_iff : ∀ x, x ∈ (queryAllXrefs Faults.never O c).1.map XrefRecord.xref ↔ x ∈ saved
  queryTo : ∀ a < 2 ^ 64, (queryXrefsTo Faults.never O a c).1.Perm
    ((queryAllXrefs Faults.never O c).1.filter fun rec => rec.toAddr = a)
  queryFrom : ∀ a < 2 ^ 64, (queryXrefsFrom Faults.never O a c).1.Perm
    ((queryAllXrefs Faults.never O c).1.filter fun rec => rec.fromAddr = a)

section

variable {table : UniqueTable (id : XrefColumns → XrefColumns)} {s : Collections}

/-- The cross-reference of a row. -/
theorem row_savedXref (hs : s.Fits)
    (h : ∀ row, row ∈ table.values ↔ ∃ x ∈ s.xrefs, xrefColumns x.src x.dst x.type = row)
    {r : Nat × XrefColumns} (hr : r ∈ table.rows) :
    ∃ x ∈ s.xrefs, x.Storable ∧ r.2 = xrefColumns x.src x.dst x.type ∧ (xrefRecord r).xref = x := by
  obtain ⟨x, hx, hrow⟩ := (h r.2).mp (UniqueTable.mem_values.mpr ⟨r, hr, rfl⟩)
  have hfits := hs.xrefs x hx
  refine ⟨x, hx, hfits, hrow.symm, ?_⟩
  show r.2.xref = x
  rw [← hrow]
  exact hfits.xref_columns

/-- All rows, in some order. -/
theorem selectXrefs_perm (rank : Nat → Nat) {t : Tables} (htable : t.xrefs = some table) :
    (selectXrefs rank t).Perm (table.rows.map xrefRecord) := by
  unfold selectXrefs
  rw [htable]
  exact ((List.perm_insertionSort _ _).trans (scan_perm rank table.rows)).map xrefRecord

/-- A query of the cross-references with one address in a column. -/
theorem selectXrefsWhere_perm (rank rank' : Nat → Nat) {t : Tables} (htable : t.xrefs = some table)
    {column order : XrefColumns → Int} {a : Nat} {field : XrefRecord → Nat}
    (hfield : ∀ r ∈ table.rows, column r.2 = toInt64 a ↔ field (xrefRecord r) = a) :
    (selectXrefsWhere column order a rank t).Perm
      ((selectXrefs rank' t).filter fun rec => field rec = a) := by
  refine List.Perm.trans ?_ ((selectXrefs_perm rank' htable).filter _).symm
  unfold selectXrefsWhere
  rw [htable]
  refine (((List.perm_insertionSort _ _).trans (scan_perm rank _)).map xrefRecord).trans ?_
  rw [List.filter_map]
  have hfilter : table.rows.filter (fun r => decide (column r.2 = toInt64 a)) =
      table.rows.filter ((fun rec => decide (field rec = a)) ∘ xrefRecord) :=
    List.filter_congr fun r hr => decide_eq_decide.mpr (hfield r hr)
  rw [hfilter]

theorem Tables.Holds.xrefsAgree {c : Conn Tables} (h : c.contents.Holds s) (hs : s.Fits)
    (O : RowOrder) : XrefsAgree O s.xrefs c := by
  obtain ⟨table, htable, hmem⟩ := h.xrefs
  have hhas : c.contents.has .xrefs = true := Option.isSome_of_eq_some htable
  have hall : (queryAllXrefs Faults.never O c).1 = selectXrefs (O (c.clock + 1)) c.contents :=
    query_never (fun time => selectXrefs (O time)) hhas
  have hwhere : ∀ column order a, (queryXrefsWhere Faults.never O column order a c).1 =
      selectXrefsWhere column order a (O (c.clock + 1)) c.contents :=
    fun column order a => query_never (fun time => selectXrefsWhere column order a (O time)) hhas
  have hperm := selectXrefs_perm (O (c.clock + 1)) htable
  refine ⟨?_, fun x => ?_, fun a ha => ?_, fun a ha => ?_⟩
  · rw [hall, (hperm.map _).nodup_iff, List.map_map]
    refine UniqueTable.nodup_map_rows fun r hr r' hr' he => ?_
    obtain ⟨x, -, -, hrow, hx⟩ := row_savedXref hs hmem hr
    obtain ⟨x', -, -, hrow', hx'⟩ := row_savedXref hs hmem hr'
    have heq : x = x' := hx.symm.trans (he.trans hx')
    rw [hrow, hrow', heq]
  · rw [hall, (hperm.map _).mem_iff, List.map_map, List.mem_map]
    constructor
    · rintro ⟨r, hr, rfl⟩
      obtain ⟨x, hx, -, -, heq⟩ := row_savedXref hs hmem hr
      show (xrefRecord r).xref ∈ s.xrefs
      rw [heq]
      exact hx
    · intro hx
      obtain ⟨r, hr, hrow⟩ := UniqueTable.mem_values.mp ((hmem _).mpr ⟨x, hx, rfl⟩)
      refine ⟨r, hr, ?_⟩
      show r.2.xref = x
      rw [hrow]
      exact (hs.xrefs x hx).xref_columns
  · show (queryXrefsWhere Faults.never O _ _ a c).1.Perm _
    rw [hwhere, hall]
    refine selectXrefsWhere_perm _ _ htable fun r hr => ?_
    obtain ⟨x, -, hfits, hrow, heq⟩ := row_savedXref hs hmem hr
    have hdst : (xrefRecord r).toAddr = x.dst := congrArg Xref.dst heq
    rw [hdst, hrow]
    exact toInt64_inj hfits.2.1 ha
  · show (queryXrefsWhere Faults.never O _ _ a c).1.Perm _
    rw [hwhere, hall]
    refine selectXrefsWhere_perm _ _ htable fun r hr => ?_
    obtain ⟨x, -, hfits, hrow, heq⟩ := row_savedXref hs hmem hr
    have hsrc : (xrefRecord r).fromAddr = x.src := congrArg Xref.src heq
    rw [hsrc, hrow]
    exact toInt64_inj hfits.1 ha

end

/-! ## The annotations -/

/-- A record of an annotation. -/
def recordOf (a : Nat) (ann : Annotation) : AnnotationRecord :=
  ⟨a, ann.name, ann.comment, ann.type, ann.kind⟩

theorem recordOf_inj {a b : Nat} {ann ann' : Annotation} (h : recordOf a ann = recordOf b ann') :
    a = b ∧ ann = ann' := by
  cases ann
  cases ann'
  simpa [recordOf] using h

/-- The query answers as a map from addresses to annotations, in any order. -/
structure AnnotationsAgree (O : RowOrder) (saved : Nat → Option Annotation) (c : Conn Tables) :
    Prop where
  addresses_nodup : ((queryAllAnnotations Faults.never O c).1.map (·.address)).Nodup
  mem_iff : ∀ a ann, recordOf a ann ∈ (queryAllAnnotations Faults.never O c).1 ↔ saved a = some ann

theorem annotationRecord_eq (row : AnnotationColumns) :
    annotationRecord row = recordOf row.entry.1 row.entry.2 := rfl

theorem Tables.Holds.annotationsAgree {c : Conn Tables} {s : Collections}
    (h : c.contents.Holds s) (hs : s.Fits) (O : RowOrder) : AnnotationsAgree O s.annotations c := by
  obtain ⟨table, htable, hrep⟩ := h.annotations
  have hquery : (queryAllAnnotations Faults.never O c).1 =
      selectAnnotations (O (c.clock + 1)) c.contents :=
    query_never (fun time => selectAnnotations (O time)) (Option.isSome_of_eq_some htable)
  have hselect : (selectAnnotations (O (c.clock + 1)) c.contents).Perm
      (table.values.map annotationRecord) := by
    unfold selectAnnotations
    rw [htable, UniqueTable.values_eq, List.map_map]
    exact (scan_perm _ table.rows).map _
  rw [← hquery] at hselect
  refine ⟨?_, fun a ann => ?_⟩
  · have hnodup := storedAnnotations_nodup c.contents
    rw [Tables.storedAnnotations_of_some htable, List.map_map] at hnodup
    rw [(hselect.map _).nodup_iff, List.map_map]
    exact hnodup
  · rw [hselect.mem_iff, List.mem_map]
    constructor
    · rintro ⟨row, hrow, heq⟩
      obtain ⟨b, ann', hann', rfl⟩ := (hrep row).mp hrow
      rw [annotationRecord_eq, (hs.annotations b ann' hann').entry_columns] at heq
      obtain ⟨rfl, rfl⟩ := recordOf_inj heq
      exact hann'
    · intro hann
      refine ⟨entryColumns (a, ann), (hrep _).mpr ⟨a, ann, hann, rfl⟩, ?_⟩
      rw [annotationRecord_eq, (hs.annotations a ann hann).entry_columns]

/-! ## Any calls -/

/-- Nothing has been saved. -/
structure Tables.NoRows (t : Tables) : Prop where
  functions : ∀ table, t.functions = some table → table.rows = []
  xrefs : ∀ table, t.xrefs = some table → table.rows = []
  userAnnotations : ∀ table, t.userAnnotations = some table → table.rows = []

theorem Tables.NoRows.holds {t : Tables} (h : t.NoRows) (ht : SchemaCreated t) : t.Holds {} := by
  obtain ⟨hfns, -, -, hxrefs, hanns⟩ := ht
  obtain ⟨fns, hfns⟩ := Option.isSome_iff_exists.mp hfns
  obtain ⟨xrefs, hxrefs⟩ := Option.isSome_iff_exists.mp hxrefs
  obtain ⟨anns, hanns⟩ := Option.isSome_iff_exists.mp hanns
  refine ⟨⟨fns, hfns, UniqueTable.represents_nil (h.functions fns hfns)⟩, ⟨xrefs, hxrefs, ?_⟩,
    ⟨anns, hanns, UniqueTable.represents_nil (h.userAnnotations anns hanns)⟩⟩
  intro row
  rw [UniqueTable.values_eq, h.xrefs xrefs hxrefs]
  constructor
  · intro hrow
    cases hrow
  · rintro ⟨x, hx, -⟩
    cases hx

theorem runCalls_append (pre post : List DatabaseCall) (c : Conn Tables) :
    runCalls (pre ++ post) c = runCalls post (runCalls pre c) :=
  List.foldl_append

/-- **The tables are collections**: after any calls on a new database without faults the queries
answer as the collections of what was saved, a function keeps its row id, and no call changes a
table other than its own. -/
theorem databaseCalls_collections (c : Conn Tables) (hc : SchemaCreated c.contents)
    (hempty : c.contents.NoRows) (calls : List DatabaseCall)
    (hcalls : ∀ call ∈ calls, call.Storable) :
    let s := calls.foldl Collections.apply {}
    let d := runCalls calls c
    FunctionsAgree s.functions d ∧ (∀ O, XrefsAgree O s.xrefs d) ∧
      (∀ O, AnnotationsAgree O s.annotations d) ∧
      (∀ pre post, calls = pre ++ post → RowIdsKept (runCalls pre c) d) ∧
      ∀ (call : DatabaseCall) (e : Conn Tables),
        Tables.SameBut call.table e.contents (call.run e).2.contents := by
  intro s d
  obtain ⟨hs, hd⟩ := runCalls_holds Collections.fits_empty (hempty.holds hc) hcalls
  refine ⟨hd.functionsAgree hs, hd.xrefsAgree hs, hd.annotationsAgree hs, ?_,
    DatabaseCall.run_sameBut⟩
  rintro pre post rfl
  have hstorable : ∀ call ∈ pre, call.Storable :=
    fun call hcall => hcalls call (List.mem_append_left post hcall)
  have hpre := runCalls_holds Collections.fits_empty (hempty.holds hc) hstorable
  have hsome : (runCalls pre c).contents.functions.isSome := by
    obtain ⟨table, htable, -⟩ := hpre.2.functions
    exact Option.isSome_of_eq_some htable
  have hkeeps := runCalls_keepsIds post (runCalls pre c)
  rw [← runCalls_append] at hkeeps
  exact hkeeps.rowIdsKept hsome

/-! ## A kernel address saved twice -/

/-- A driver's entry point, in the upper half of the addresses. -/
def driverEntry : Function where
  name := "DriverEntry"
  startAddress := 0xFFFFF80000001000
  endAddress := 0xFFFFF80000001040

/-- Save it and a call to it, annotate it, save both again, and take the annotation back. -/
def saveTwice : List DatabaseCall :=
  [ .saveFunction { driverEntry with name := "sub_1000" },
    .saveXref ⟨0x401000, 0xFFFFF80000001000, "call"⟩,
    DatabaseCall.saveAnnotation 0xFFFFF80000001000 { name := "entry" },
    .saveFunction driverEntry,
    .saveXref ⟨0x401000, 0xFFFFF80000001000, "call"⟩,
    DatabaseCall.deleteAnnotation 0xFFFFF80000001000 ]

theorem newDatabase_noRows : newDatabase.contents.NoRows where
  functions table h := by
    cases h
    rfl
  xrefs table h := by
    cases h
    rfl
  userAnnotations table h := by
    cases h
    rfl

theorem saveTwice_storable : ∀ call ∈ saveTwice, call.Storable := by
  simp only [saveTwice, List.forall_mem_cons, DatabaseCall.Storable]
  refine ⟨⟨by decide, by decide, by decide⟩, ⟨by decide, by decide, by decide⟩,
    ⟨by decide, by decide, by decide, by decide, by decide⟩, ⟨by decide, by decide, by decide⟩,
    ⟨by decide, by decide, by decide⟩, by decide, by simp⟩

theorem saveTwice_collections :
    FunctionsAgree (saveTwice.foldl Collections.apply {}).functions
        (runCalls saveTwice newDatabase) ∧
      (∀ O, XrefsAgree O (saveTwice.foldl Collections.apply {}).xrefs
        (runCalls saveTwice newDatabase)) ∧
      (∀ O, AnnotationsAgree O (saveTwice.foldl Collections.apply {}).annotations
        (runCalls saveTwice newDatabase)) ∧
      (∀ pre post, saveTwice = pre ++ post →
        RowIdsKept (runCalls pre newDatabase) (runCalls saveTwice newDatabase)) ∧
      ∀ (call : DatabaseCall) (e : Conn Tables),
        Tables.SameBut call.table e.contents (call.run e).2.contents :=
  databaseCalls_collections newDatabase ⟨rfl, rfl, rfl, rfl, rfl⟩ newDatabase_noRows saveTwice
    saveTwice_storable

example : (queryFunctions Faults.never (runCalls saveTwice newDatabase)).1 =
    [savedRecord 1 driverEntry] := by decide +kernel

end ReWizard
