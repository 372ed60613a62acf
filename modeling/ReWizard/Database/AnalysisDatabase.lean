import ReWizard.Lib.Table
import ReWizard.Lib.Transaction
import ReWizard.Analysis.Module
import Mathlib.Data.List.Sort

/-!
# The analysis database

`AnalysisDatabase` for an open handle: the schema, saving functions, blocks, cross-references,
symbols and annotations, deleting annotations, the queries that are read back, and `SaveModule`.
The tables are the contents of a connection (`Conn Tables`); a table is absent until `CreateSchema`
makes it. Every prepared statement is two points at which SQLite may fail, the prepare and the step.

Columns hold what is bound to the statement: addresses are signed 64-bit integers, and a text ends
at its first NUL. Foreign keys are not enforced (SQLite's default). In which order a query comes to
rows that its `ORDER BY` does not tell apart is open (`RowOrder`).
-/

namespace ReWizard

/-! ## Rows -/

/-- `static_cast<sqlite3_int64>`. -/
def toInt64 (a : Nat) : Int := (BitVec.ofNat 64 a).toInt

/-- `static_cast<uintptr_t>` of a column. -/
def ofInt64 (i : Int) : Nat := (BitVec.ofInt 64 i).toNat

/-- The text that a `char*` of the string denotes. -/
def cStr (s : String) : String := String.ofList (s.toList.takeWhile fun ch => decide (ch ≠ '\x00'))

structure FunctionColumns where
  address : Int
  size : Int
  name : String
  type : String
  convention : String
  hasOpaquePredicates : Int
  isHybridVerified : Int
  isTrampoline : Int
  deriving DecidableEq, Repr

structure BasicBlockColumns where
  functionId : Int
  startAddr : Int
  endAddr : Int
  name : String
  deriving DecidableEq, Repr

structure SymbolColumns where
  address : Int
  name : String
  type : String
  sourceDll : String
  ordinal : Int
  deriving DecidableEq, Repr

structure XrefColumns where
  fromAddr : Int
  toAddr : Int
  type : String
  deriving DecidableEq, Repr

/-- The columns of text are never null: no statement binds a null. The address is its 64 bits, as
nothing is ordered by it. -/
structure AnnotationColumns where
  address : BitVec 64
  name : String
  comment : String
  type : String
  kind : String
  deriving DecidableEq, Repr

/-- A row of `QueryFunctions`. -/
structure FunctionRecord where
  id : Nat
  address : Nat
  size : Nat
  name : String
  type : String
  convention : String
  hasOpaquePredicates : Bool
  isHybridVerified : Bool
  isTrampoline : Bool
  deriving DecidableEq, Repr

/-- A row of `QuerySymbolsByAddress`. -/
structure SymbolRecord where
  id : Nat
  address : Nat
  name : String
  type : String
  sourceDll : String
  ordinal : Int
  deriving DecidableEq, Repr

/-- A row of `QueryAllXrefs`. -/
structure XrefRecord where
  id : Nat
  fromAddr : Nat
  toAddr : Nat
  type : String
  deriving DecidableEq, Repr

/-- A row of `QueryAllAnnotations`. -/
structure AnnotationRecord where
  address : Nat
  name : String
  comment : String
  type : String
  kind : String
  deriving DecidableEq, Repr

/-- The tables that the modelled operations read or write. `functions` and `userAnnotations` are
unique in their address, `xrefs` in all its columns; the other two have no constraint that an
insert can meet. In `user_annotations` the address is the row id, and the ids here only tell its
rows apart. -/
structure Tables where
  functions : Option (UniqueTable FunctionColumns.address) := none
  basicBlocks : Option (Table BasicBlockColumns) := none
  symbols : Option (Table SymbolColumns) := none
  xrefs : Option (UniqueTable (id : XrefColumns → XrefColumns)) := none
  userAnnotations : Option (UniqueTable AnnotationColumns.address) := none

/-- What SQL leaves open: for each time, ranks of the row ids. A query that starts to step at the
time comes to the rows by them, and its `ORDER BY` sorts what it comes to. -/
def RowOrder := Nat → Nat → Nat

/-- By the row ids. -/
def RowOrder.byId : RowOrder := fun _ id => id

/-! ## The schema -/

inductive TableName
  | functions | basicBlocks | bbSuccessors | bbPredecessors | instructions | symbols | xrefs
  | userAnnotations
  deriving DecidableEq, Repr

/-- `CREATE TABLE IF NOT EXISTS`. The tables without a field keep no rows here. -/
def Tables.create (t : Tables) : TableName → Tables
  | .functions => { t with functions := some (t.functions.getD UniqueTable.empty) }
  | .basicBlocks => { t with basicBlocks := some (t.basicBlocks.getD Table.empty) }
  | .symbols => { t with symbols := some (t.symbols.getD Table.empty) }
  | .xrefs => { t with xrefs := some (t.xrefs.getD UniqueTable.empty) }
  | .userAnnotations => { t with userAnnotations := some (t.userAnnotations.getD UniqueTable.empty) }
  | .bbSuccessors | .bbPredecessors | .instructions => t

/-- The table is there. The tables without a field are created just before they are named. -/
def Tables.has (t : Tables) : TableName → Bool
  | .functions => t.functions.isSome
  | .basicBlocks => t.basicBlocks.isSome
  | .symbols => t.symbols.isSome
  | .xrefs => t.xrefs.isSome
  | .userAnnotations => t.userAnnotations.isSome
  | .bbSuccessors | .bbPredecessors | .instructions => true

inductive SchemaStatement
  | createTable (table : TableName)
  | createIndex (name : String) (table : TableName)
  deriving DecidableEq, Repr

/-- An index has no effect on the rows, but its table must be there. -/
def SchemaStatement.run : SchemaStatement → Tables → Option Tables
  | .createTable table, t => some (t.create table)
  | .createIndex _ table, t => if t.has table then some t else none

def schema : List SchemaStatement :=
  [ .createTable .functions,
    .createIndex "idx_functions_address" .functions,
    .createIndex "idx_functions_name" .functions,
    .createTable .basicBlocks,
    .createIndex "idx_bb_start" .basicBlocks,
    .createIndex "idx_bb_function" .basicBlocks,
    .createTable .bbSuccessors,
    .createTable .bbPredecessors,
    .createTable .instructions,
    .createIndex "idx_insn_addr" .instructions,
    .createIndex "idx_insn_function" .instructions,
    .createIndex "idx_insn_block" .instructions,
    .createTable .symbols,
    .createIndex "idx_sym_address" .symbols,
    .createIndex "idx_sym_name" .symbols,
    .createTable .xrefs,
    .createIndex "idx_xref_to" .xrefs,
    .createIndex "idx_xref_from" .xrefs,
    .createTable .userAnnotations ]

/-! ## Statements -/

section

variable (F : Faults) (O : RowOrder)

def createSchema : Conn Tables → Bool × Conn Tables :=
  Conn.forEach (fun s => Conn.statement F s.run) schema

/-- `sqlite3_prepare_v2` of a statement on `table`. -/
def prepare (table : TableName) : Conn Tables → Bool × Conn Tables :=
  Conn.statement F fun t => if t.has table then some t else none

/-- Prepare a statement on `table` and step it once, with the effect `f`. -/
def execute (table : TableName) (f : Tables → Option Tables) (c : Conn Tables) :
    Bool × Conn Tables :=
  Conn.andThen (prepare F table c) (Conn.statement F f)

/-! ## Functions -/

/-- The values `SaveFunction` binds. -/
def functionColumns (fn : Function) : FunctionColumns where
  address := toInt64 fn.startAddress
  size := toInt64 (if fn.endAddress > fn.startAddress then fn.endAddress - fn.startAddress else 0)
  name := cStr fn.name
  type := "function"
  convention := ""
  hasOpaquePredicates := if fn.hasOpaquePredicates then 1 else 0
  isHybridVerified := if fn.hybridVerified then 1 else 0
  isTrampoline := if fn.isTrampoline then 1 else 0

/-- `INSERT INTO functions … ON CONFLICT(address) DO UPDATE`. -/
def upsertFunction (row : FunctionColumns) (t : Tables) : Option Tables :=
  t.functions.map fun table => { t with functions := some (table.upsert row) }

def saveFunction (fn : Function) : Conn Tables → Bool × Conn Tables :=
  execute F .functions (upsertFunction (functionColumns fn))

def saveFunctions (fns : List Function) : Conn Tables → Bool × Conn Tables :=
  Conn.transaction F (Conn.forEach (saveFunction F) fns)

def functionRecord (r : Nat × FunctionColumns) : FunctionRecord where
  id := r.1
  address := ofInt64 r.2.address
  size := ofInt64 r.2.size
  name := r.2.name
  type := r.2.type
  convention := r.2.convention
  hasOpaquePredicates := decide (r.2.hasOpaquePredicates ≠ 0)
  isHybridVerified := decide (r.2.isHybridVerified ≠ 0)
  isTrampoline := decide (r.2.isTrampoline ≠ 0)

/-- Step through the rows of a query. A step that fails ends the rows as the last one does. -/
def fetch {R : Type} : List R → Conn Tables → List R × Conn Tables
  | [], c => ([], (Conn.statement F some c).2)
  | r :: rest, c =>
    match Conn.statement F some c with
    | (false, c) => ([], c)
    | (true, c) => let (rows, c) := fetch rest c; (r :: rows, c)

/-- `SELECT … FROM functions ORDER BY address`. -/
def selectFunctions (t : Tables) : List FunctionRecord :=
  match t.functions with
  | none => []
  | some table =>
    (table.rows.insertionSort fun a b => a.2.address ≤ b.2.address).map functionRecord

def queryFunctions (c : Conn Tables) : List FunctionRecord × Conn Tables :=
  match prepare F .functions c with
  | (false, c) => ([], c)
  | (true, c) => fetch F (selectFunctions c.contents) c

/-- `SELECT … FROM functions WHERE address = ?1 LIMIT 1`. -/
def selectFunctionByAddress (address : Nat) (t : Tables) : Option FunctionRecord :=
  match t.functions with
  | none => none
  | some table => (table.row? (toInt64 address)).map functionRecord

/-- The statement is stepped once, whether or not it has a row. -/
def queryFunctionByAddress (address : Nat) (c : Conn Tables) :
    Option FunctionRecord × Conn Tables :=
  match prepare F .functions c with
  | (false, c) => (none, c)
  | (true, c) =>
    match Conn.statement F some c with
    | (false, c) => (none, c)
    | (true, c) => (selectFunctionByAddress address c.contents, c)

/-! ## Blocks, cross-references and symbols -/

/-- The values `SaveBasicBlock` binds. -/
def basicBlockColumns (bb : BasicBlock) (functionId : Int) : BasicBlockColumns :=
  ⟨functionId, toInt64 bb.startAddress, toInt64 bb.endAddress, cStr bb.name⟩

/-- `INSERT INTO basic_blocks … ON CONFLICT DO NOTHING`, where there is nothing to conflict with. -/
def insertBasicBlock (row : BasicBlockColumns) (t : Tables) : Option Tables :=
  t.basicBlocks.map fun table => { t with basicBlocks := some (table.insert row) }

def saveBasicBlock (bb : BasicBlock) (functionId : Int) : Conn Tables → Bool × Conn Tables :=
  execute F .basicBlocks (insertBasicBlock (basicBlockColumns bb functionId))

def saveBasicBlocks (bbs : List BasicBlock) (functionId : Int) : Conn Tables → Bool × Conn Tables :=
  Conn.transaction F (Conn.forEach (fun bb => saveBasicBlock F bb functionId) bbs)

def xrefColumns (src dst : Nat) (type : String) : XrefColumns :=
  ⟨toInt64 src, toInt64 dst, cStr type⟩

/-- `INSERT INTO xrefs … ON CONFLICT DO NOTHING`. -/
def insertXref (row : XrefColumns) (t : Tables) : Option Tables :=
  t.xrefs.map fun table => { t with xrefs := some (table.insertNew row) }

def saveXref (src dst : Nat) (type : String) : Conn Tables → Bool × Conn Tables :=
  execute F .xrefs (insertXref (xrefColumns src dst type))

def xrefRecord (r : Nat × XrefColumns) : XrefRecord :=
  ⟨r.1, ofInt64 r.2.fromAddr, ofInt64 r.2.toAddr, cStr r.2.type⟩

/-- `SELECT … FROM xrefs ORDER BY from_addr, to_addr`. The type does not count in the order. -/
def selectXrefs (rank : Nat → Nat) (t : Tables) : List XrefRecord :=
  match t.xrefs with
  | none => []
  | some table =>
    ((scan rank table.rows).insertionSort fun a b => a.2.fromAddr < b.2.fromAddr ∨
      (a.2.fromAddr = b.2.fromAddr ∧ a.2.toAddr ≤ b.2.toAddr)).map xrefRecord

def queryAllXrefs (c : Conn Tables) : List XrefRecord × Conn Tables :=
  match prepare F .xrefs c with
  | (false, c) => ([], c)
  | (true, c) => fetch F (selectXrefs (O c.clock) c.contents) c

/-- `SELECT … FROM xrefs WHERE column = ?1 ORDER BY order`. -/
def selectXrefsWhere (column order : XrefColumns → Int) (address : Nat) (rank : Nat → Nat)
    (t : Tables) : List XrefRecord :=
  match t.xrefs with
  | none => []
  | some table =>
    ((scan rank (table.rows.filter fun r => decide (column r.2 = toInt64 address))).insertionSort
      fun a b => order a.2 ≤ order b.2).map xrefRecord

def queryXrefsWhere (column order : XrefColumns → Int) (address : Nat) (c : Conn Tables) :
    List XrefRecord × Conn Tables :=
  match prepare F .xrefs c with
  | (false, c) => ([], c)
  | (true, c) => fetch F (selectXrefsWhere column order address (O c.clock) c.contents) c

def queryXrefsTo : Nat → Conn Tables → List XrefRecord × Conn Tables :=
  queryXrefsWhere F O XrefColumns.toAddr XrefColumns.fromAddr

def queryXrefsFrom : Nat → Conn Tables → List XrefRecord × Conn Tables :=
  queryXrefsWhere F O XrefColumns.fromAddr XrefColumns.toAddr

def importColumns (sym : ImportedSymbol) : SymbolColumns :=
  ⟨toInt64 sym.address, cStr sym.name, "import", cStr sym.dll, 0⟩

def exportColumns (sym : ExportedSymbol) : SymbolColumns :=
  ⟨toInt64 sym.address, cStr sym.name, "export", "", sym.ordinal⟩

/-- `INSERT INTO symbols … ON CONFLICT DO NOTHING`, where there is nothing to conflict with. -/
def insertSymbol (row : SymbolColumns) (t : Tables) : Option Tables :=
  t.symbols.map fun table => { t with symbols := some (table.insert row) }

/-- `SaveSymbolTable`: one prepared statement, stepped for each import and then for each export. -/
def saveSymbolTable (st : SymbolTable) : Conn Tables → Bool × Conn Tables :=
  Conn.transaction F fun c =>
    Conn.andThen (prepare F .symbols c) fun c =>
      Conn.andThen
        (Conn.forEach (fun imp => Conn.statement F (insertSymbol (importColumns imp))) st.imports c)
        (Conn.forEach (fun exp => Conn.statement F (insertSymbol (exportColumns exp))) st.exports)

def symbolRecord (r : Nat × SymbolColumns) : SymbolRecord :=
  ⟨r.1, ofInt64 r.2.address, r.2.name, r.2.type, r.2.sourceDll, r.2.ordinal⟩

/-- `SELECT … FROM symbols WHERE address = ?1`. -/
def selectSymbolsByAddress (address : Nat) (rank : Nat → Nat) (t : Tables) : List SymbolRecord :=
  match t.symbols with
  | none => []
  | some table =>
    (scan rank (table.rows.filter fun r => decide (r.2.address = toInt64 address))).map symbolRecord

def querySymbolsByAddress (address : Nat) (c : Conn Tables) : List SymbolRecord × Conn Tables :=
  match prepare F .symbols c with
  | (false, c) => ([], c)
  | (true, c) => fetch F (selectSymbolsByAddress address (O c.clock) c.contents) c

/-! ## Annotations -/

/-- The values `SaveAnnotation` binds. -/
def annotationColumns (address : Nat) (name comment type kind : String) : AnnotationColumns :=
  ⟨BitVec.ofNat 64 address, cStr name, cStr comment, cStr type, cStr kind⟩

/-- `INSERT INTO user_annotations … ON CONFLICT(address) DO UPDATE`. -/
def upsertAnnotation (row : AnnotationColumns) (t : Tables) : Option Tables :=
  t.userAnnotations.map fun table => { t with userAnnotations := some (table.upsert row) }

def saveAnnotation (address : Nat) (name comment type kind : String) :
    Conn Tables → Bool × Conn Tables :=
  execute F .userAnnotations <| upsertAnnotation (annotationColumns address name comment type kind)

/-- `DELETE FROM user_annotations WHERE address = ?1`. -/
def eraseAnnotation (address : BitVec 64) (t : Tables) : Option Tables :=
  t.userAnnotations.map fun table => { t with userAnnotations := some (table.delete address) }

def deleteAnnotation (address : Nat) : Conn Tables → Bool × Conn Tables :=
  execute F .userAnnotations <| eraseAnnotation (BitVec.ofNat 64 address)

def annotationRecord (row : AnnotationColumns) : AnnotationRecord :=
  ⟨row.address.toNat, cStr row.name, cStr row.comment, cStr row.type, cStr row.kind⟩

/-- `SELECT … FROM user_annotations`. -/
def selectAnnotations (rank : Nat → Nat) (t : Tables) : List AnnotationRecord :=
  match t.userAnnotations with
  | none => []
  | some table => (scan rank table.rows).map fun r => annotationRecord r.2

/-- The annotations may come in any order. -/
theorem exists_selectAnnotations {t : Tables} {table : UniqueTable AnnotationColumns.address}
    (htable : t.userAnnotations = some table) {order : List (Nat × AnnotationColumns)}
    (h : order.Perm table.rows) :
    ∃ rank, selectAnnotations rank t = order.map fun r => annotationRecord r.2 := by
  obtain ⟨rank, hrank⟩ := table.table.exists_scan h
  refine ⟨rank, ?_⟩
  unfold selectAnnotations
  rw [htable]
  exact congrArg _ hrank

def queryAllAnnotations (c : Conn Tables) : List AnnotationRecord × Conn Tables :=
  match prepare F .userAnnotations c with
  | (false, c) => ([], c)
  | (true, c) => fetch F (selectAnnotations (O c.clock) c.contents) c

/-! ## Modules -/

/-- The map from addresses to row ids that `SaveModule` builds from the query. -/
def funcIdByAddr (funcs : List FunctionRecord) : OrdMap Nat Nat :=
  funcs.foldl (fun ids rec => ids.insert rec.address rec.id) OrdMap.empty

/-- The blocks and the call sites of one function. A function without a row id is passed over. -/
def saveFunctionRows (ids : OrdMap Nat Nat) (fn : Function) (c : Conn Tables) :
    Bool × Conn Tables :=
  match ids.get? fn.startAddress with
  | none => (true, c)
  | some funcId =>
    Conn.andThen (Conn.forEach (fun bb => saveBasicBlock F bb funcId) fn.basicBlocks c)
      (Conn.forEach (fun cs => saveXref F (ofLex cs).1 (ofLex cs).2 "call") fn.callSites.toList)

/-- What `SaveModule` does between its own `BEGIN` and its `COMMIT` or `ROLLBACK`. -/
def saveModuleRows (ids : OrdMap Nat Nat) (m : Module) (c : Conn Tables) : Bool × Conn Tables :=
  Conn.andThen (Conn.forEach (saveFunctionRows F ids) m.functions c)
    (saveSymbolTable F m.symbolTable)

def saveModule (m : Module) (c : Conn Tables) : Bool × Conn Tables :=
  Conn.andThen (createSchema F c) fun c =>
    Conn.andThen (saveFunctions F m.functions c) fun c =>
      let (funcs, c) := queryFunctions F c
      Conn.transaction F (saveModuleRows F (funcIdByAddr funcs) m) c

end

end ReWizard
