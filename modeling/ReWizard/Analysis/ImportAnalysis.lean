import ReWizard.Analysis.Module

/-!
# Symbols of the binary

`ImportAnalysisPass`: the symbol table is filled from the tables of a PE file. Other formats are
left alone.
-/

namespace ReWizard

/-- The symbol of one import: the address is that of its slot in the import table. -/
def importedSymbol (imageBase : Nat) (dllName : String) (entry : PeImportEntry) : ImportedSymbol :=
  let iatEntry := addrAdd imageBase entry.iatAddress
  { name :=
      if entry.isOrdinal ∧ entry.name = "" then dllName ++ "!Ordinal_" ++ toString entry.ordinal
      else entry.name
    dll := dllName
    address := iatEntry
    iatEntry := iatEntry }

def exportedSymbol (imageBase : Nat) (exp : PeExportEntry) : ExportedSymbol :=
  ⟨exp.name, addrAdd imageBase exp.address, exp.ordinal⟩

def relocationEntry (imageBase virtualAddress : Nat) (entry : PeRelocationEntry) :
    RelocationEntry :=
  ⟨addrAdd (addrAdd imageBase virtualAddress) entry.position, entry.type⟩

/-- The symbol table that the pass builds from nothing. -/
def peSymbolTable (imageBase : Nat) (pe : PeTables) : SymbolTable :=
  let t := pe.imports.foldl (fun t imp =>
    imp.2.foldl (fun t entry => t.addImport (importedSymbol imageBase imp.1 entry)) t) {}
  let t := (pe.exports.getD []).foldl (fun t exp => t.addExport (exportedSymbol imageBase exp)) t
  pe.relocations.foldl (fun t reloc =>
    reloc.2.foldl (fun t entry => t.addRelocation (relocationEntry imageBase reloc.1 entry)) t) t

/-- `ImportAnalysisPass::Run`. -/
def importAnalysis (t : Target) (ctx : AnalysisContext) : AnalysisContext :=
  match t.loader.binary.pe with
  | none => ctx
  | some pe =>
    { ctx with module :=
      { ctx.module with symbolTable := peSymbolTable t.loader.currentImageBase pe } }

end ReWizard
