import ReWizard.Analysis.XrefManager
import ReWizard.Database.AnalysisDatabase

/-!
# What the managers keep in the database

`SaveTo` and `LoadFrom` of `XrefManager`, and `SymbolManager` with its edits. The database is
`none` for a null pointer. `SaveTo` does not look at what the statements report.
-/

namespace ReWizard

/-! ## Handles -/

/-- What a pointer that is not null points to. A closed database has no connection (`m_db`). -/
inductive AnalysisDatabase
  | closed
  | opened (c : Conn Tables)

/-- Without a connection a query has no rows. -/
def AnalysisDatabase.query {R : Type} (q : Conn Tables → List R × Conn Tables) :
    AnalysisDatabase → List R × AnalysisDatabase
  | closed => ([], closed)
  | opened c => let (rows, c) := q c; (rows, opened c)

/-! ## Cross-references -/

namespace XrefManager

section

variable (F : Faults) (O : RowOrder)

/-- The loop of `SaveTo`. -/
def saveXrefs (xrefs : List Xref) (c : Conn Tables) : Conn Tables :=
  xrefs.foldl (fun c x => (saveXref F x.src x.dst x.type c).2) c

def saveTo (m : XrefManager) (db : Option (Conn Tables)) : Option (Conn Tables) :=
  db.map (saveXrefs F m.all)

/-- The loop of `LoadFrom`. -/
def addRecords (m : XrefManager) (records : List XrefRecord) : XrefManager :=
  records.foldl (fun m rec => m.addXref rec.fromAddr rec.toAddr rec.type) m

def loadFrom (m : XrefManager) : Option (Conn Tables) → XrefManager × Option (Conn Tables)
  | none => (m, none)
  | some c => let (all, c) := queryAllXrefs F O c; (m.clear.addRecords all, some c)

/-- `LoadFrom` with a database that may be closed. -/
def loadFromDatabase (m : XrefManager) (db : AnalysisDatabase) : XrefManager × AnalysisDatabase :=
  let (all, db) := db.query (queryAllXrefs F O); (m.clear.addRecords all, db)

end

end XrefManager

/-! ## Annotations -/

structure Annotation where
  name : String := ""
  comment : String := ""
  type : String := ""
  kind : String := ""
  deriving DecidableEq, Repr

/-- The annotations by address, in the order of their addresses. -/
structure SymbolManager where
  annotations : OrdMap Nat Annotation := OrdMap.empty

namespace SymbolManager

def getAnnotation (m : SymbolManager) (address : Nat) : Option Annotation :=
  m.annotations.get? address

/-- Change `m_annotations[address]`, which is there with empty texts if it was not. -/
def edit (m : SymbolManager) (address : Nat) (f : Annotation → Annotation) : SymbolManager :=
  ⟨m.annotations.insert address (f ((m.annotations.get? address).getD {}))⟩

def setName (m : SymbolManager) (address : Nat) (name kind : String) : SymbolManager :=
  m.edit address fun a => { a with name := name, kind := kind }

def setComment (m : SymbolManager) (address : Nat) (text : String) : SymbolManager :=
  m.edit address fun a => { a with comment := text }

def setType (m : SymbolManager) (address : Nat) (type : String) : SymbolManager :=
  m.edit address fun a => { a with type := type }

def remove (m : SymbolManager) (address : Nat) : SymbolManager := ⟨m.annotations.erase address⟩

def clear (_ : SymbolManager) : SymbolManager := {}

section

variable (F : Faults) (O : RowOrder)

/-- The loop of `SaveTo`. -/
def saveAnnotations (entries : List (Nat × Annotation)) (c : Conn Tables) : Conn Tables :=
  entries.foldl (fun c e =>
    let saved := saveAnnotation F e.1 e.2.name e.2.comment e.2.type e.2.kind c; saved.2) c

def saveTo (m : SymbolManager) (db : Option (Conn Tables)) : Option (Conn Tables) :=
  db.map (saveAnnotations F m.annotations.toList)

/-- The loop of `LoadFrom`. -/
def addRecords (m : SymbolManager) (records : List AnnotationRecord) : SymbolManager :=
  records.foldl (fun m rec => m.edit rec.address fun _ =>
    ⟨rec.name, rec.comment, rec.type, rec.kind⟩) m

def loadFrom (m : SymbolManager) : Option (Conn Tables) → SymbolManager × Option (Conn Tables)
  | none => (m, none)
  | some c => let (records, c) := queryAllAnnotations F O c; (m.clear.addRecords records, some c)

/-- `LoadFrom` with a database that may be closed. -/
def loadFromDatabase (m : SymbolManager) (db : AnalysisDatabase) :
    SymbolManager × AnalysisDatabase :=
  let (records, db) := db.query (queryAllAnnotations F O); (m.clear.addRecords records, db)

end

end SymbolManager

end ReWizard
