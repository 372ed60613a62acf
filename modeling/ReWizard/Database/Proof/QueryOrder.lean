import ReWizard.Database.Proof.BatchSaves
import ReWizard.Database.Proof.XrefSession
import ReWizard.Lib.SignedOrder

/-!
# The order of query results

Addresses are stored as signed 64-bit numbers, `ORDER BY` compares these, and the records have them
as unsigned again. `queries_ordered_iff` says when the records come in the order of their addresses,
after any calls that write to the database.
-/

namespace ReWizard

open Conn SignedOrder

/-! ## Calls that write -/

/-- A call that may write to the database. (`SaveInstruction` has no effect.) -/
inductive WriteCall
  | createSchema
  | beginTransaction
  | commit
  | rollback
  | saveFunction (fn : Function)
  | saveBasicBlock (bb : BasicBlock) (functionId : Int)
  | saveBatch (b : Batch)
  | saveXref (src dst : Nat) (type : String)
  | saveAnnotation (address : Nat) (ann : Annotation)
  | deleteAnnotation (address : Nat)
  | saveModule (m : Module)

def WriteCall.run (F : Faults) : WriteCall → Conn Tables → Bool × Conn Tables
  | .createSchema => ReWizard.createSchema F
  | .beginTransaction => Conn.begin F
  | .commit => Conn.commit F
  | .rollback => Conn.rollback
  | .saveFunction fn => ReWizard.saveFunction F fn
  | .saveBasicBlock bb functionId => ReWizard.saveBasicBlock F bb functionId
  | .saveBatch b => b.save F
  | .saveXref src dst type => ReWizard.saveXref F src dst type
  | WriteCall.saveAnnotation a ann =>
    ReWizard.saveAnnotation F a ann.name ann.comment ann.type ann.kind
  | WriteCall.deleteAnnotation a => ReWizard.deleteAnnotation F a
  | .saveModule m => ReWizard.saveModule F m

/-- The calls on a new file. -/
def runWrites (F : Faults) (calls : List WriteCall) : Conn Tables :=
  calls.foldl (fun c call => (call.run F c).2) { contents := {} }

/-! ## Columns of 64 bits -/

/-- The number fits a column. -/
def IsInt64 (i : Int) : Prop := (BitVec.ofInt 64 i).toInt = i

theorem isInt64_toInt64 (a : Nat) : IsInt64 (toInt64 a) := by
  unfold IsInt64 toInt64
  rw [BitVec.ofInt_toInt]

theorem toInt64_ofInt64 {i : Int} (h : IsInt64 i) : toInt64 (ofInt64 i) = i := by
  unfold toInt64 ofInt64
  rw [BitVec.ofNat_toNat, BitVec.setWidth_eq]
  exact h

/-- The addresses in the tables fit their columns. -/
structure Tables.Int64Columns (t : Tables) : Prop where
  functions : ∀ table, t.functions = some table → ∀ row ∈ table.values, IsInt64 row.address
  xrefs : ∀ table, t.xrefs = some table →
    ∀ row ∈ table.values, IsInt64 row.fromAddr ∧ IsInt64 row.toAddr

namespace Tables.Int64Columns

variable {t t' : Tables}

theorem of_same (h : t.Int64Columns) (hfunctions : t'.functions = t.functions)
    (hxrefs : t'.xrefs = t.xrefs) : t'.Int64Columns :=
  ⟨hfunctions ▸ h.functions, hxrefs ▸ h.xrefs⟩

theorem create (h : t.Int64Columns) (name : TableName) : (t.create name).Int64Columns := by
  cases name with
  | functions =>
    refine ⟨fun table htable row hrow => ?_, h.xrefs⟩
    cases htable
    obtain ⟨old, hold, hmem⟩ := UniqueTable.mem_values_getD hrow
    exact h.functions old hold row hmem
  | xrefs =>
    refine ⟨h.functions, fun table htable row hrow => ?_⟩
    cases htable
    obtain ⟨old, hold, hmem⟩ := UniqueTable.mem_values_getD hrow
    exact h.xrefs old hold row hmem
  | basicBlocks | symbols | userAnnotations => exact h.of_same rfl rfl
  | bbSuccessors | bbPredecessors | instructions => exact h

theorem upsertFunction (h : t.Int64Columns) (fn : Function)
    (hstep : ReWizard.upsertFunction (functionColumns fn) t = some t') : t'.Int64Columns := by
  obtain ⟨table, htable, rfl⟩ := Option.map_eq_some_iff.mp hstep
  refine ⟨fun table' htable' row hrow => ?_, h.xrefs⟩
  cases htable'
  rcases UniqueTable.mem_values_upsert.mp hrow with rfl | ⟨hold, -⟩
  · exact isInt64_toInt64 fn.startAddress
  · exact h.functions table htable row hold

theorem insertXref (h : t.Int64Columns) (src dst : Nat) (type : String)
    (hstep : ReWizard.insertXref (xrefColumns src dst type) t = some t') : t'.Int64Columns := by
  obtain ⟨table, htable, rfl⟩ := Option.map_eq_some_iff.mp hstep
  refine ⟨h.functions, fun table' htable' row hrow => ?_⟩
  cases htable'
  rcases UniqueTable.mem_values_insertNew_id.mp hrow with hold | rfl
  · exact h.xrefs table htable row hold
  · exact ⟨isInt64_toInt64 src, isInt64_toInt64 dst⟩

end Tables.Int64Columns

section

variable {F : Faults}

theorem keeps_prepare (P : Tables → Prop) (name : TableName) : Keeps P (prepare F name) := by
  refine keeps_statement fun t t' h hstep => ?_
  split at hstep
  · exact Option.some.inj hstep ▸ h
  · cases hstep

theorem keeps_execute {P : Tables → Prop} {name : TableName} {f : Tables → Option Tables}
    (hf : ∀ t t', P t → f t = some t' → P t') : Keeps P (execute F name f) :=
  (keeps_prepare P name).andThen (keeps_statement hf)

theorem keeps_queryFunctions {P : Tables → Prop} {c : Conn Tables} (h : c.Has P) :
    (queryFunctions F c).2.Has P :=
  queryFunctions_inv (keeps_statement fun _ _ ht hstep => Option.some.inj hstep ▸ ht)
    (keeps_prepare P .functions) h

theorem keeps_createSchema : Keeps Tables.Int64Columns (createSchema F) := by
  refine Keeps.forEach (fun s => keeps_statement fun t t' h hstep => ?_) schema
  cases s with
  | createTable name => exact Option.some.inj hstep ▸ h.create name
  | createIndex _ name =>
    unfold SchemaStatement.run at hstep
    dsimp only at hstep
    split at hstep
    · exact Option.some.inj hstep ▸ h
    · cases hstep

theorem keeps_saveFunction (fn : Function) : Keeps Tables.Int64Columns (saveFunction F fn) :=
  keeps_execute fun _ _ h hstep => h.upsertFunction fn hstep

theorem keeps_saveXref (src dst : Nat) (type : String) :
    Keeps Tables.Int64Columns (saveXref F src dst type) :=
  keeps_execute fun _ _ h hstep => h.insertXref src dst type hstep

/-- An insert into another table. -/
theorem keeps_insertSymbol (row : SymbolColumns) :
    Keeps Tables.Int64Columns (statement F (insertSymbol row)) := by
  refine keeps_statement fun t t' h hstep => ?_
  obtain ⟨table, -, rfl⟩ := Option.map_eq_some_iff.mp hstep
  exact h.of_same rfl rfl

theorem keeps_saveBasicBlock (bb : BasicBlock) (functionId : Int) :
    Keeps Tables.Int64Columns (saveBasicBlock F bb functionId) := by
  refine keeps_execute fun t t' h hstep => ?_
  obtain ⟨table, -, rfl⟩ := Option.map_eq_some_iff.mp hstep
  exact h.of_same rfl rfl

theorem keeps_saveBatch (b : Batch) : Keeps Tables.Int64Columns (b.save F) := by
  rw [Batch.save_eq]
  refine Keeps.transaction ?_
  cases b with
  | functions fns => exact Keeps.forEach keeps_saveFunction fns
  | basicBlocks bbs functionId =>
    exact Keeps.forEach (fun bb => keeps_saveBasicBlock bb functionId) bbs
  | symbols st =>
    have himports : Keeps Tables.Int64Columns
        (forEach (fun imp => statement F (insertSymbol (importColumns imp))) st.imports) :=
      Keeps.forEach (fun _ => keeps_insertSymbol _) st.imports
    exact (keeps_prepare _ _).andThen
      (himports.andThen (Keeps.forEach (fun _ => keeps_insertSymbol _) st.exports))

theorem keeps_saveFunctionRows (ids : OrdMap Nat Nat) (fn : Function) :
    Keeps Tables.Int64Columns (saveFunctionRows F ids fn) := by
  intro c h
  unfold saveFunctionRows
  cases ids.get? fn.startAddress with
  | none => exact h
  | some funcId =>
    exact (Keeps.forEach (fun bb => keeps_saveBasicBlock bb funcId) fn.basicBlocks).andThen
      (Keeps.forEach (fun _ => keeps_saveXref _ _ _) fn.callSites.toList) c h

theorem keeps_saveModule (m : Module) : Keeps Tables.Int64Columns (saveModule F m) := by
  refine keeps_createSchema.andThen ((keeps_saveBatch (.functions m.functions)).andThen ?_)
  intro c h
  refine Keeps.transaction ?_ _ (keeps_queryFunctions h)
  exact (Keeps.forEach (keeps_saveFunctionRows _) m.functions).andThen
    (keeps_saveBatch (.symbols m.symbolTable))

theorem WriteCall.keeps (call : WriteCall) : Keeps Tables.Int64Columns (call.run F) := by
  cases call with
  | createSchema => exact keeps_createSchema
  | beginTransaction => exact keeps_begin
  | commit => exact keeps_commit
  | rollback => exact keeps_rollback
  | saveFunction fn => exact keeps_saveFunction fn
  | saveBasicBlock bb functionId => exact keeps_saveBasicBlock bb functionId
  | saveBatch b => exact keeps_saveBatch b
  | saveXref src dst type => exact keeps_saveXref src dst type
  | saveAnnotation a ann =>
    refine keeps_execute fun t t' h hstep => ?_
    obtain ⟨table, -, rfl⟩ := Option.map_eq_some_iff.mp hstep
    exact h.of_same rfl rfl
  | deleteAnnotation a =>
    refine keeps_execute fun t t' h hstep => ?_
    obtain ⟨table, -, rfl⟩ := Option.map_eq_some_iff.mp hstep
    exact h.of_same rfl rfl
  | saveModule m => exact keeps_saveModule m

/-- After any calls, whatever fails. -/
theorem runWrites_int64Columns (calls : List WriteCall) :
    (runWrites F calls).contents.Int64Columns := by
  have hempty : Conn.Has Tables.Int64Columns { contents := {} } := by
    refine ⟨⟨fun _ h => (by cases h), fun _ h => (by cases h)⟩, fun _ h => (by cases h)⟩
  have hlast : (runWrites F calls).Has Tables.Int64Columns :=
    List.foldlRecOn (motive := Conn.Has Tables.Int64Columns) calls _ hempty
      fun c hc call _ => call.keeps c hc
  exact hlast.contents

end

/-! ## Addresses on both sides of the sign -/

/-- No address below 2^63 beside one from 2^63 on. -/
def OneHalf (addresses : Set Nat) : Prop :=
  ∀ a ∈ addresses, ∀ b ∈ addresses, a < 2 ^ 63 → b < 2 ^ 63

theorem msb_eq_iff (x y : BitVec 64) : x.msb = y.msb ↔ (x.toNat < 2 ^ 63 ↔ y.toNat < 2 ^ 63) := by
  rw [BitVec.msb_eq_decide, BitVec.msb_eq_decide, decide_eq_decide]
  omega

/-- The signs of the elements with a property. -/
theorem forall_msb_eq_iff {α : Type} {p : α → Prop} (key : α → BitVec 64) :
    (∀ a, p a → ∀ b, p b → (key a).msb = (key b).msb) ↔
      OneHalf {n | ∃ a, p a ∧ (key a).toNat = n} := by
  constructor
  · rintro h _ ⟨a, ha, rfl⟩ _ ⟨b, hb, rfl⟩
    exact ((msb_eq_iff _ _).mp (h a ha b hb)).mp
  · intro h a ha b hb
    rw [msb_eq_iff]
    exact ⟨h _ ⟨a, ha, rfl⟩ _ ⟨b, hb, rfl⟩, h _ ⟨b, hb, rfl⟩ _ ⟨a, ha, rfl⟩⟩

/-- Rows in the order of a column. -/
theorem sorted_ordered_iff {V : Type} {rows : List (Nat × V)} {column : V → Int}
    (hcolumn : ∀ r ∈ rows, IsInt64 (column r.2)) :
    (rows.insertionSort fun a b => column a.2 ≤ column b.2).Pairwise
        (fun a b => ofInt64 (column a.2) ≤ ofInt64 (column b.2)) ↔
      OneHalf {n | ∃ r, r ∈ rows ∧ ofInt64 (column r.2) = n} := by
  have htotal : Std.Total fun a b : Nat × V => column a.2 ≤ column b.2 :=
    ⟨fun a b => le_total (column a.2) (column b.2)⟩
  have htrans : IsTrans (Nat × V) fun a b => column a.2 ≤ column b.2 :=
    ⟨fun _ _ _ => le_trans⟩
  let key : Nat × V → BitVec 64 := fun r => BitVec.ofInt 64 (column r.2)
  have hsorted : (rows.insertionSort fun a b => column a.2 ≤ column b.2).Pairwise
      fun a b => (key a).toInt ≤ (key b).toInt := by
    refine (List.pairwise_insertionSort _ rows).imp_of_mem fun {a b} ha hb hle => ?_
    rw [hcolumn a ((List.mem_insertionSort _).mp ha), hcolumn b ((List.mem_insertionSort _).mp hb)]
    exact hle
  refine (pairwise_toNat_iff hsorted).trans ?_
  simp only [List.mem_insertionSort]
  exact forall_msb_eq_iff (p := fun r => r ∈ rows) key

/-- Rows in the order of two columns. -/
theorem pairwise_insertionSort_lex (rows : List (Nat × XrefColumns)) :
    (rows.insertionSort fun a b => a.2.fromAddr < b.2.fromAddr ∨
      (a.2.fromAddr = b.2.fromAddr ∧ a.2.toAddr ≤ b.2.toAddr)).Pairwise
        fun a b => a.2.fromAddr < b.2.fromAddr ∨
          (a.2.fromAddr = b.2.fromAddr ∧ a.2.toAddr ≤ b.2.toAddr) := by
  have htotal : Std.Total fun a b : Nat × XrefColumns => a.2.fromAddr < b.2.fromAddr ∨
      (a.2.fromAddr = b.2.fromAddr ∧ a.2.toAddr ≤ b.2.toAddr) := ⟨fun a b => by omega⟩
  have htrans : IsTrans (Nat × XrefColumns) fun a b => a.2.fromAddr < b.2.fromAddr ∨
      (a.2.fromAddr = b.2.fromAddr ∧ a.2.toAddr ≤ b.2.toAddr) := ⟨fun a b c h h' => by omega⟩
  exact List.pairwise_insertionSort _ rows

/-! ## The queries -/

/-- A query without faults has the rows that it selects, none from a table that is not there. -/
theorem query_never_all {R : Type} {name : TableName} (select : Nat → Tables → List R)
    {c : Conn Tables}
    (habsent : c.contents.has name = false → ∀ time, select time c.contents = []) :
    (match prepare Faults.never name c with
      | (false, c) => ([], c)
      | (true, c) => fetch Faults.never (select c.clock c.contents) c).1 =
        select (c.clock + 1) c.contents := by
  cases hhas : c.contents.has name with
  | true => exact query_never select hhas
  | false =>
    have hfalse := prepare_of_absent (F := Faults.never) hhas
    rw [habsent hhas]
    generalize prepare Faults.never name c = q at hfalse ⊢
    obtain ⟨b, d⟩ := q
    subst hfalse
    rfl

/-- `QueryFunctions` is in the order of the addresses. -/
def FunctionsOrdered (c : Conn Tables) : Prop :=
  (queryFunctions Faults.never c).1.Pairwise fun r r' => r.address ≤ r'.address

def XrefsToOrdered (O : RowOrder) (a : Nat) (c : Conn Tables) : Prop :=
  (queryXrefsTo Faults.never O a c).1.Pairwise fun r r' => r.fromAddr ≤ r'.fromAddr

def XrefsFromOrdered (O : RowOrder) (a : Nat) (c : Conn Tables) : Prop :=
  (queryXrefsFrom Faults.never O a c).1.Pairwise fun r r' => r.toAddr ≤ r'.toAddr

def AllXrefsOrdered (O : RowOrder) (c : Conn Tables) : Prop :=
  (queryAllXrefs Faults.never O c).1.Pairwise fun r r' =>
    r.fromAddr < r'.fromAddr ∨ (r.fromAddr = r'.fromAddr ∧ r.toAddr ≤ r'.toAddr)

/-- The addresses of the functions in the table. -/
def Tables.starts (t : Tables) : Set Nat :=
  {n | ∃ table, t.functions = some table ∧ ∃ r ∈ table.rows, ofInt64 r.2.address = n}

/-- The addresses that cross-references come from. -/
def Tables.sources (t : Tables) : Set Nat := {n | ∃ x ∈ t.storedXrefs, x.src = n}

/-- The addresses that cross-references to `a` come from. -/
def Tables.sourcesTo (t : Tables) (a : Nat) : Set Nat :=
  {n | ∃ x ∈ t.storedXrefs, x.dst = a ∧ x.src = n}

/-- The addresses that cross-references from `a` go to. -/
def Tables.targetsFrom (t : Tables) (a : Nat) : Set Nat :=
  {n | ∃ x ∈ t.storedXrefs, x.src = a ∧ x.dst = n}

section

variable {O : RowOrder} {t : Tables} {c : Conn Tables}

theorem functionsOrdered_iff (h : c.contents.Int64Columns) :
    FunctionsOrdered c ↔ OneHalf c.contents.starts := by
  have hquery : (queryFunctions Faults.never c).1 = selectFunctions c.contents := by
    refine query_never_all (fun _ => selectFunctions) fun habsent _ => ?_
    have hnone : c.contents.functions = none := by simpa [Tables.has] using habsent
    unfold selectFunctions
    rw [hnone]
  unfold FunctionsOrdered selectFunctions Tables.starts at *
  rw [hquery]
  cases htable : c.contents.functions with
  | none =>
    refine ⟨fun _ a ha => ?_, fun _ => List.Pairwise.nil⟩
    obtain ⟨table, hsome, -⟩ := ha
    cases hsome
  | some table =>
    have hcolumn : ∀ r ∈ table.rows, IsInt64 r.2.address := fun r hr =>
      h.functions table htable r.2 (UniqueTable.mem_values.mpr ⟨r, hr, rfl⟩)
    refine List.pairwise_map.trans ((sorted_ordered_iff hcolumn).trans ?_)
    simp

/-- The rows of the cross-references, as they are stored. -/
theorem mem_storedXrefs {table : UniqueTable (id : XrefColumns → XrefColumns)}
    (htable : t.xrefs = some table) {x : Xref} :
    x ∈ t.storedXrefs ↔ ∃ r ∈ table.rows, r.2.xref = x := by
  rw [Tables.storedXrefs_of_some htable, List.mem_map]
  constructor
  · rintro ⟨row, hrow, rfl⟩
    obtain ⟨r, hr, rfl⟩ := UniqueTable.mem_values.mp hrow
    exact ⟨r, hr, rfl⟩
  · rintro ⟨r, hr, rfl⟩
    exact ⟨r.2, UniqueTable.mem_values.mpr ⟨r, hr, rfl⟩, rfl⟩

theorem storedXrefs_of_none (htable : t.xrefs = none) : t.storedXrefs = [] := by
  unfold Tables.storedXrefs
  rw [htable]

/-- The cross-references with one address in a column, in the order of the other. -/
theorem selectXrefsWhere_ordered_iff {column order : XrefColumns → Int} (field other : Xref → Nat)
    {a : Nat} (ha : a < 2 ^ 64) (rank : Nat → Nat)
    (hcolumn : ∀ row : XrefColumns, field row.xref = ofInt64 (column row))
    (horder : ∀ row : XrefColumns, other row.xref = ofInt64 (order row))
    (h : ∀ table, t.xrefs = some table →
      ∀ row ∈ table.values, IsInt64 (column row) ∧ IsInt64 (order row)) :
    (selectXrefsWhere column order a rank t).Pairwise (fun r r' => other r.xref ≤ other r'.xref) ↔
      OneHalf {n | ∃ x ∈ t.storedXrefs, field x = a ∧ other x = n} := by
  unfold selectXrefsWhere
  cases htable : t.xrefs with
  | none =>
    rw [storedXrefs_of_none htable]
    refine ⟨fun _ n hn => ?_, fun _ => List.Pairwise.nil⟩
    obtain ⟨x, hx, -⟩ := hn
    cases hx
  | some table =>
    have h64 : ∀ r ∈ table.rows, IsInt64 (column r.2) ∧ IsInt64 (order r.2) := fun r hr =>
      h table htable r.2 (UniqueTable.mem_values.mpr ⟨r, hr, rfl⟩)
    have hset : {n | ∃ x ∈ t.storedXrefs, field x = a ∧ other x = n} =
        {n | ∃ r, r ∈ scan rank (table.rows.filter fun r => decide (column r.2 = toInt64 a)) ∧
          ofInt64 (order r.2) = n} := by
      ext n
      simp only [Set.mem_ofPred_eq, mem_storedXrefs htable, mem_scan, List.mem_filter,
        decide_eq_true_eq]
      constructor
      · rintro ⟨_, ⟨r, hr, rfl⟩, hfield, rfl⟩
        refine ⟨r, ⟨hr, ?_⟩, (horder r.2).symm⟩
        rw [← hfield, hcolumn, toInt64_ofInt64 (h64 r hr).1]
      · rintro ⟨r, ⟨hr, hfilter⟩, rfl⟩
        refine ⟨_, ⟨r, hr, rfl⟩, ?_, horder r.2⟩
        rw [hcolumn, hfilter, ofInt64_toInt64 ha]
    rw [hset, ← sorted_ordered_iff fun r hr => (h64 r (List.mem_of_mem_filter (mem_scan.mp hr))).2]
    refine List.pairwise_map.trans ?_
    show List.Pairwise (fun r r' : Nat × XrefColumns => other r.2.xref ≤ other r'.2.xref) _ ↔ _
    simp only [horder]

/-- All cross-references, in the order of both columns. -/
theorem selectXrefs_ordered_iff (rank : Nat → Nat) (h : t.Int64Columns) :
    (selectXrefs rank t).Pairwise (fun r r' =>
        r.fromAddr < r'.fromAddr ∨ (r.fromAddr = r'.fromAddr ∧ r.toAddr ≤ r'.toAddr)) ↔
      OneHalf t.sources ∧ ∀ a, OneHalf (t.targetsFrom a) := by
  unfold selectXrefs Tables.sources Tables.targetsFrom
  cases htable : t.xrefs with
  | none =>
    rw [storedXrefs_of_none htable]
    refine ⟨fun _ => ⟨fun n hn => ?_, fun a n hn => ?_⟩, fun _ => List.Pairwise.nil⟩
    · obtain ⟨x, hx, -⟩ := hn
      cases hx
    · obtain ⟨x, hx, -⟩ := hn
      cases hx
  | some table =>
    let key₁ : Nat × XrefColumns → BitVec 64 := fun r => BitVec.ofInt 64 r.2.fromAddr
    let key₂ : Nat × XrefColumns → BitVec 64 := fun r => BitVec.ofInt 64 r.2.toAddr
    have h64 : ∀ r ∈ table.rows, IsInt64 r.2.fromAddr ∧ IsInt64 r.2.toAddr := fun r hr =>
      h.xrefs table htable r.2 (UniqueTable.mem_values.mpr ⟨r, hr, rfl⟩)
    have hsorted := (pairwise_insertionSort_lex (scan rank table.rows)).imp_of_mem
      (S := LexInt key₁ key₂) fun {a b} ha hb hlex => by
        obtain ⟨hfrom, hto⟩ := h64 a (mem_scan.mp ((List.mem_insertionSort _).mp ha))
        obtain ⟨hfrom', hto'⟩ := h64 b (mem_scan.mp ((List.mem_insertionSort _).mp hb))
        unfold LexInt
        rwa [hfrom, hto, hfrom', hto']
    refine List.pairwise_map.trans ((pairwise_lex_toNat_iff hsorted).trans ?_)
    simp only [List.mem_insertionSort, mem_scan, mem_storedXrefs htable]
    refine and_congr ?_ ?_
    · rw [forall_msb_eq_iff (p := fun r => r ∈ table.rows) key₁]
      simp [key₁, XrefColumns.xref, ofInt64]
    · have hgroups : (∀ a ∈ table.rows, ∀ b ∈ table.rows, key₁ a = key₁ b →
          (key₂ a).msb = (key₂ b).msb) ↔ ∀ n, ∀ a, (a ∈ table.rows ∧ ofInt64 a.2.fromAddr = n) →
            ∀ b, (b ∈ table.rows ∧ ofInt64 b.2.fromAddr = n) → (key₂ a).msb = (key₂ b).msb := by
        constructor
        · rintro hall n a ⟨ha, rfl⟩ b ⟨hb, hkey⟩
          exact hall a ha b hb (BitVec.eq_of_toNat_eq hkey.symm)
        · intro hall a ha b hb hkey
          exact hall _ a ⟨ha, rfl⟩ b ⟨hb, congrArg BitVec.toNat hkey.symm⟩
      rw [hgroups]
      refine forall_congr' fun n => ?_
      rw [forall_msb_eq_iff (p := fun r => r ∈ table.rows ∧ ofInt64 r.2.fromAddr = n) key₂]
      simp [key₂, XrefColumns.xref, ofInt64, and_assoc]

theorem selectXrefs_of_absent (habsent : t.has .xrefs = false) :
    (∀ rank, selectXrefs rank t = []) ∧
      ∀ column order a rank, selectXrefsWhere column order a rank t = [] := by
  have hnone : t.xrefs = none := by simpa [Tables.has] using habsent
  unfold selectXrefs selectXrefsWhere
  rw [hnone]
  exact ⟨fun _ => rfl, fun _ _ _ _ => rfl⟩

theorem xrefsToOrdered_iff (h : c.contents.Int64Columns) {a : Nat} (ha : a < 2 ^ 64) :
    XrefsToOrdered O a c ↔ OneHalf (c.contents.sourcesTo a) := by
  have hquery : (queryXrefsTo Faults.never O a c).1 = _ :=
    query_never_all
      (fun time => selectXrefsWhere XrefColumns.toAddr XrefColumns.fromAddr a (O time))
      fun habsent _ => (selectXrefs_of_absent habsent).2 _ _ _ _
  unfold XrefsToOrdered
  rw [hquery]
  exact selectXrefsWhere_ordered_iff Xref.dst Xref.src ha _ (fun _ => rfl) (fun _ => rfl)
    fun table htable row hrow => (h.xrefs table htable row hrow).symm

theorem xrefsFromOrdered_iff (h : c.contents.Int64Columns) {a : Nat} (ha : a < 2 ^ 64) :
    XrefsFromOrdered O a c ↔ OneHalf (c.contents.targetsFrom a) := by
  have hquery : (queryXrefsFrom Faults.never O a c).1 = _ :=
    query_never_all
      (fun time => selectXrefsWhere XrefColumns.fromAddr XrefColumns.toAddr a (O time))
      fun habsent _ => (selectXrefs_of_absent habsent).2 _ _ _ _
  unfold XrefsFromOrdered
  rw [hquery]
  exact selectXrefsWhere_ordered_iff Xref.src Xref.dst ha _ (fun _ => rfl) (fun _ => rfl) h.xrefs

theorem allXrefsOrdered_iff (h : c.contents.Int64Columns) :
    AllXrefsOrdered O c ↔ OneHalf c.contents.sources ∧ ∀ a, OneHalf (c.contents.targetsFrom a) := by
  have hquery : (queryAllXrefs Faults.never O c).1 = _ :=
    query_never_all (fun time => selectXrefs (O time))
      fun habsent _ => (selectXrefs_of_absent habsent).1 _
  unfold AllXrefsOrdered
  rw [hquery]
  exact selectXrefs_ordered_iff _ h

end

/-- **The order of query results**: after any calls that write to the database, whatever fails in
them and in whatever order the queries come to the rows, each query is in the order of the
addresses if and only if none of the addresses that it sorts by is below 2^63 while another is
not. -/
theorem queries_ordered_iff (F : Faults) (O : RowOrder) (calls : List WriteCall) :
    let c := runWrites F calls
    (FunctionsOrdered c ↔ OneHalf c.contents.starts) ∧
      (∀ a < 2 ^ 64, XrefsToOrdered O a c ↔ OneHalf (c.contents.sourcesTo a)) ∧
      (∀ a < 2 ^ 64, XrefsFromOrdered O a c ↔ OneHalf (c.contents.targetsFrom a)) ∧
      (AllXrefsOrdered O c ↔
        OneHalf c.contents.sources ∧ ∀ a, OneHalf (c.contents.targetsFrom a)) := by
  intro c
  have h : c.contents.Int64Columns := runWrites_int64Columns calls
  exact ⟨functionsOrdered_iff h, fun _ ha => xrefsToOrdered_iff h ha,
    fun _ ha => xrefsFromOrdered_iff h ha, allXrefsOrdered_iff h⟩

/-- A function of a program and one of the kernel. -/
def kernelAndUser : List WriteCall :=
  [ .createSchema, .saveFunction { name := "main", startAddress := 0x401000 },
    .saveFunction { name := "DriverEntry", startAddress := 0xFFFFF80000001000 } ]

/-- The kernel's function comes first. -/
theorem kernelAndUser_not_ordered :
    ¬ FunctionsOrdered (runWrites Faults.never kernelAndUser) := by
  have hnot : ¬ (queryFunctions Faults.never (runWrites Faults.never kernelAndUser)).1.Pairwise
      fun r r' => r.address ≤ r'.address := by decide +kernel
  exact hnot

end ReWizard
