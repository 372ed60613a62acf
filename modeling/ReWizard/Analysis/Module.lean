import ReWizard.Analysis.Disassembler
import ReWizard.Analysis.Units
import Mathlib.Data.Finset.Insert
import Mathlib.Data.String.Basic

/-!
# Modules, the loaded image and the analysis context

`Module` owns the functions, the instructions, the symbol table and the cross-references that the
passes build up. What the passes only read, the mapped image and the decoder, is the `Target`.
`AnalysisContext` is what changes: the module and the set of visited addresses.
-/

namespace ReWizard

/-! ## Symbols -/

structure ImportedSymbol where
  name : String
  dll : String
  address : Nat
  iatEntry : Nat
  deriving DecidableEq, Repr

structure ExportedSymbol where
  name : String
  address : Nat
  ordinal : Nat
  deriving DecidableEq, Repr

structure RelocationEntry where
  address : Nat
  type : Nat
  deriving DecidableEq, Repr

/-- The symbols in insertion order, and their positions by address and by name. -/
structure SymbolTable where
  imports : List ImportedSymbol := []
  exports : List ExportedSymbol := []
  relocations : List RelocationEntry := []
  importByAddr : OrdMap Nat Nat := OrdMap.empty
  importByName : OrdMap String Nat := OrdMap.empty
  exportByAddr : OrdMap Nat Nat := OrdMap.empty
  exportByName : OrdMap String Nat := OrdMap.empty

namespace SymbolTable

def addImport (t : SymbolTable) (sym : ImportedSymbol) : SymbolTable :=
  { t with
    imports := t.imports ++ [sym]
    importByAddr := t.importByAddr.insert sym.address t.imports.length
    importByName := t.importByName.insert sym.name t.imports.length }

def addExport (t : SymbolTable) (sym : ExportedSymbol) : SymbolTable :=
  { t with
    exports := t.exports ++ [sym]
    exportByAddr := t.exportByAddr.insert sym.address t.exports.length
    exportByName := t.exportByName.insert sym.name t.exports.length }

def addRelocation (t : SymbolTable) (reloc : RelocationEntry) : SymbolTable :=
  { t with relocations := t.relocations ++ [reloc] }

end SymbolTable

/-! ## Cross-references -/

structure Xref where
  src : Nat
  dst : Nat
  type : String
  deriving DecidableEq, Repr

/-- The cross-references, and each again under its source and under its destination. The hash
containers are lists here, in the order of insertion. -/
structure XrefManager where
  byFrom : List (Nat × Xref) := []
  byTo : List (Nat × Xref) := []
  all : List Xref := []
  deriving DecidableEq, Repr

/-- `AddXref`: a cross-reference that is already there is not filed again. -/
def XrefManager.addXref (m : XrefManager) (src dst : Nat) (type : String) : XrefManager :=
  let x : Xref := ⟨src, dst, type⟩
  if x ∈ m.all then m
  else ⟨m.byFrom ++ [(src, x)], m.byTo ++ [(dst, x)], m.all ++ [x]⟩

/-! ## The loaded image -/

/-- An import of the parsed PE file. -/
structure PeImportEntry where
  name : String
  iatAddress : Nat
  isOrdinal : Bool
  ordinal : Nat

structure PeExportEntry where
  name : String
  address : Nat
  ordinal : Nat

structure PeRelocationEntry where
  position : Nat
  type : Nat

/-- The tables of a PE file: imports by library, exports when there is an export directory, and
relocations by page. -/
structure PeTables where
  imports : List (String × List PeImportEntry)
  exports : Option (List PeExportEntry)
  relocations : List (Nat × List PeRelocationEntry)

/-- The parsed binary. `pe` is absent for the other formats. -/
structure Binary where
  imagebase : Nat
  entrypoint : Nat
  pe : Option PeTables

/-- The mapped image. The mapping is where an operating system puts one: not at the null address,
and with room for an instruction above its last byte. -/
structure FileLoader where
  currentImageBase : Nat
  mappedSize : Nat
  memory : Nat → UInt8
  executableSections : List (Nat × Nat)
  binary : Binary
  base_pos : 0 < currentImageBase
  belowTop : currentImageBase + mappedSize + maxInstructionLength < addrSpace

namespace FileLoader

def imageEnd (l : FileLoader) : Nat := l.currentImageBase + l.mappedSize

def isWithinMapping (l : FileLoader) (addr : Nat) : Bool :=
  decide (l.currentImageBase ≤ addr ∧ addr < l.imageEnd)

/-- `IsExecutableAddress`. -/
def isExecutableAddress (l : FileLoader) (addr : Nat) : Bool :=
  l.executableSections.any fun r => decide (r.1 ≤ addr ∧ addr < r.2)

theorem isWithinMapping_iff {l : FileLoader} {a : Nat} :
    l.isWithinMapping a = true ↔ l.currentImageBase ≤ a ∧ a < l.imageEnd :=
  decide_eq_true_iff

end FileLoader

/-- What the analysis of one binary reads and never changes. -/
structure Target where
  loader : FileLoader
  disassembler : Disassembler

namespace Target

/-- `DisassembleSingle` on the bytes of the image at `addr`. -/
def disassemble (t : Target) (addr : Nat) : Option ExtendedInstruction :=
  t.disassembler.disassembleSingle t.loader.memory addr maxInstructionLength

theorem disassemble_eq_some {t : Target} {a : Nat} {i : ExtendedInstruction}
    (h : t.disassemble a = some i) :
    i.address = a ∧ i.isIndirect = false ∧ i.indirectValue = 0 ∧
      0 < i.instruction.length ∧ i.instruction.length ≤ maxInstructionLength :=
  Disassembler.disassembleSingle_eq_some h

/-- Inside the mapping the address after an instruction does not wrap. -/
theorem next_eq {t : Target} {a : Nat} {i : ExtendedInstruction} (h : t.disassemble a = some i)
    (ha : a < t.loader.imageEnd) : i.next = a + i.instruction.length := by
  obtain ⟨hi, -, -, -, hl⟩ := disassemble_eq_some h
  have := t.loader.belowTop
  unfold ExtendedInstruction.next
  rw [hi]
  unfold FileLoader.imageEnd at ha
  exact addrAdd_of_lt (by omega)

end Target

/-! ## Modules -/

/-- Every record is filed under its own address. -/
def Keyed (instructions : OrdMap Nat ExtendedInstruction) : Prop :=
  ∀ a i, instructions.get? a = some i → i.address = a

theorem Keyed.empty : Keyed OrdMap.empty := fun _ _ h => nomatch h

theorem Keyed.insert {m : OrdMap Nat ExtendedInstruction} (h : Keyed m) {a : Nat}
    {i : ExtendedInstruction} (hi : i.address = a) : Keyed (m.insert a i) := by
  intro b j hj
  rw [OrdMap.get?_insert] at hj
  split at hj
  · rename_i hb
    cases hj
    rw [hi, hb]
  · exact h b j hj

/-- The map from start addresses holds pointers to functions: a position in the function list, or
`none` for a function that was destroyed. -/
structure Module where
  instructions : OrdMap Nat ExtendedInstruction := OrdMap.empty
  functions : List Function := []
  functionByStart : OrdMap Nat (Option Nat) := OrdMap.empty
  symbolTable : SymbolTable := {}
  xrefManager : XrefManager := {}
  keyed : Keyed instructions := by exact .empty

namespace Module

def addFunction (m : Module) (f : Function) : Module :=
  { m with
    functions := m.functions ++ [f]
    functionByStart := m.functionByStart.insert f.startAddress (some m.functions.length) }

/-- `GetFunctions().clear()`: the functions are destroyed, and the pointers to them stay. -/
def clearFunctions (m : Module) : Module :=
  { m with functions := [], functionByStart := m.functionByStart.mapValues fun _ => none }

/-- The function with the greatest start not above the address, if the address is in its range. -/
def getFunctionForAddress (m : Module) (address : Nat) : Option Function :=
  match m.functionByStart.floor? address with
  | none => none
  | some (_, none) => none
  | some (_, some k) =>
    match m.functions[k]? with
    | none => none
    | some f => if f.startAddress ≤ address ∧ address < f.endAddress then some f else none

/-- `GetFunctionForAddress` reads a function that was destroyed, which is undefined. -/
def Dangles (m : Module) (address : Nat) : Prop :=
  (m.functionByStart.floor? address).map (·.2) = some none

instance (m : Module) (address : Nat) : Decidable (m.Dangles address) :=
  inferInstanceAs (Decidable (_ = _))

def getInstruction (m : Module) (address : Nat) : Option ExtendedInstruction :=
  m.instructions.get? address

/-- `AddInstruction`: the record of an address that has one is kept. -/
def addInstruction (m : Module) (i : ExtendedInstruction) : Module :=
  if m.instructions.contains i.address then m
  else
    { m with
      instructions := m.instructions.insert i.address i
      keyed := m.keyed.insert rfl }

/-- The instructions at `addr`, and one after another from there up to `stop`, as far as there are
records. Every instruction is at least a byte long, so as many steps as bytes are enough. -/
def insnsFrom (m : Module) (stop : Nat) : Nat → Nat → List ExtendedInstruction
  | 0, _ => []
  | n + 1, addr =>
    if stop ≤ addr then []
    else
      match m.getInstruction addr with
      | none => []
      | some i => i :: insnsFrom m stop n (addrAdd addr i.instruction.length)

/-- The instructions of a block, as every pass walks through them. -/
def blockInsns (m : Module) (b : BasicBlock) : List ExtendedInstruction :=
  m.insnsFrom b.endAddress (b.endAddress - b.startAddress) b.startAddress

theorem getInstruction_address {m : Module} {a : Nat} {i : ExtendedInstruction}
    (h : m.getInstruction a = some i) : i.address = a := m.keyed a i h

theorem mem_insnsFrom {m : Module} {stop : Nat} {i : ExtendedInstruction} :
    ∀ {n addr : Nat}, i ∈ m.insnsFrom stop n addr → m.getInstruction i.address = some i
  | 0, _, h => by cases h
  | n + 1, addr, h => by
    unfold insnsFrom at h
    split at h
    · cases h
    · split at h
      · cases h
      · rename_i j hj
        rcases List.mem_cons.mp h with rfl | h
        · rw [getInstruction_address hj]
          exact hj
        · exact mem_insnsFrom h

/-- The instructions of the blocks are those of the module. -/
theorem mem_blockInsns {m : Module} {b : BasicBlock} {i : ExtendedInstruction}
    (h : i ∈ m.blockInsns b) : m.getInstruction i.address = some i := mem_insnsFrom h

def addXref (m : Module) (src dst : Nat) (type : String) : Module :=
  { m with xrefManager := m.xrefManager.addXref src dst type }

end Module

/-- The code of a function: the instructions of its blocks. -/
def Function.code (m : Module) (f : Function) : List (List ExtendedInstruction) :=
  f.basicBlocks.map m.blockInsns

theorem Function.code_of_split {m : Module} {f : Function} {done rest : List BasicBlock}
    {b : BasicBlock} (h : f.basicBlocks = done ++ b :: rest) :
    (f.code m)[done.length]? = some (m.blockInsns b) := by
  unfold Function.code
  rw [List.getElem?_map, h, List.getElem?_append_right (Nat.le_refl _), Nat.sub_self]
  rfl

structure AnalysisContext where
  module : Module := {}
  visited : Finset Nat := ∅

end ReWizard
