import ReWizard.Lib.PositionIndex
import ReWizard.Analysis.Module
import Mathlib.Data.List.DropRight

/-!
# The symbol table

The lookups of `SymbolTable` and `Clear`. `Indexed` is the invariant of its seven containers over
any calls: the vectors are the symbols added since the last `Clear`, and each map finds the last one
with a key. A lookup reads nothing at a position outside of its vector, which is undefined in the
source; `run_listsSince` says that there is no such position.
-/

namespace ReWizard

open PositionIndex

namespace SymbolTable

/-! ## Lookups -/

/-- `GetImportByAddress`. -/
def getImportByAddress (t : SymbolTable) (address : Nat) : Option ImportedSymbol :=
  (t.importByAddr.get? address).bind fun k => t.imports[k]?

/-- `GetImportByName`. -/
def getImportByName (t : SymbolTable) (name : String) : Option ImportedSymbol :=
  (t.importByName.get? name).bind fun k => t.imports[k]?

/-- `GetExportByAddress`. -/
def getExportByAddress (t : SymbolTable) (address : Nat) : Option ExportedSymbol :=
  (t.exportByAddr.get? address).bind fun k => t.exports[k]?

/-- `GetExportByName`. -/
def getExportByName (t : SymbolTable) (name : String) : Option ExportedSymbol :=
  (t.exportByName.get? name).bind fun k => t.exports[k]?

/-- `Clear`, container by container. -/
def clear (t : SymbolTable) : SymbolTable :=
  { t with
    imports := []
    exports := []
    relocations := []
    importByAddr := OrdMap.empty
    importByName := OrdMap.empty
    exportByAddr := OrdMap.empty
    exportByName := OrdMap.empty }

/-! ## Calls -/

inductive Call
  | addImport (sym : ImportedSymbol)
  | addExport (sym : ExportedSymbol)
  | addRelocation (reloc : RelocationEntry)
  | clear
  deriving DecidableEq, Repr

def apply (t : SymbolTable) : Call → SymbolTable
  | .addImport sym => t.addImport sym
  | .addExport sym => t.addExport sym
  | .addRelocation reloc => t.addRelocation reloc
  | .clear => t.clear

/-- The table after some calls. -/
def run (calls : List Call) : SymbolTable := calls.foldl apply {}

def Call.importOf : Call → Option ImportedSymbol
  | .addImport sym => some sym
  | _ => none

def Call.exportOf : Call → Option ExportedSymbol
  | .addExport sym => some sym
  | _ => none

def Call.relocationOf : Call → Option RelocationEntry
  | .addRelocation reloc => some reloc
  | _ => none

/-- The calls after the last `Clear`. -/
def sinceClear (calls : List Call) : List Call := calls.rtakeWhile fun c => decide (c ≠ .clear)

theorem sinceClear_concat (calls : List Call) {c : Call} (h : c ≠ .clear) :
    sinceClear (calls ++ [c]) = sinceClear calls ++ [c] :=
  List.rtakeWhile_concat_pos _ _ _ (decide_eq_true h)

theorem sinceClear_clear (calls : List Call) : sinceClear (calls ++ [.clear]) = [] :=
  List.rtakeWhile_concat_neg _ _ _ (by simp)

/-! ## The index invariant -/

/-- The vectors list what was added since the last `Clear`, in order, and each map holds the position
of the last symbol with each key. -/
structure Indexed (calls : List Call) (t : SymbolTable) : Prop where
  imports : t.imports = (sinceClear calls).filterMap Call.importOf
  exports : t.exports = (sinceClear calls).filterMap Call.exportOf
  relocations : t.relocations = (sinceClear calls).filterMap Call.relocationOf
  importByAddr : Latest ImportedSymbol.address t.importByAddr.get? t.imports
  importByName : Latest ImportedSymbol.name t.importByName.get? t.imports
  exportByAddr : Latest ExportedSymbol.address t.exportByAddr.get? t.exports
  exportByName : Latest ExportedSymbol.name t.exportByName.get? t.exports

theorem Indexed.empty : Indexed [] {} where
  imports := rfl
  exports := rfl
  relocations := rfl
  importByAddr := Latest.empty
  importByName := Latest.empty
  exportByAddr := Latest.empty
  exportByName := Latest.empty

/-- `m[key] = position` for a new value at the end of the vector. -/
theorem latest_insert {K V : Type} [LinearOrder K] {key : V → K} {m : OrdMap K Nat} {all : List V}
    (h : Latest key m.get? all) (v : V) :
    Latest key (m.insert (key v) all.length).get? (all ++ [v]) :=
  h.concat v (OrdMap.get?_insert_self m _ _) fun _ hk => OrdMap.get?_insert_of_ne hk

theorem filterMap_sinceClear_concat {V : Type} (f : Call → Option V) (calls : List Call) {c : Call}
    (h : c ≠ .clear) : (sinceClear (calls ++ [c])).filterMap f =
      (sinceClear calls).filterMap f ++ (f c).toList := by
  rw [sinceClear_concat calls h, List.filterMap_append]
  cases hf : f c with
  | none => rw [List.filterMap_cons_none hf]; rfl
  | some v => rw [List.filterMap_cons_some hf]; rfl

variable {calls : List Call} {t : SymbolTable}

/-- A call keeps the invariant. -/
theorem Indexed.apply (h : Indexed calls t) (c : Call) : Indexed (calls ++ [c]) (t.apply c) := by
  by_cases hc : c = .clear
  · subst hc
    have hnil : ∀ {V : Type} (f : Call → Option V),
        [] = (sinceClear (calls ++ [Call.clear])).filterMap f := fun f => by
      rw [sinceClear_clear]
      rfl
    exact ⟨hnil _, hnil _, hnil _, Latest.empty, Latest.empty, Latest.empty, Latest.empty⟩
  · have himports : t.imports ++ c.importOf.toList = _ := h.imports ▸
      (filterMap_sinceClear_concat Call.importOf calls hc).symm
    have hexports : t.exports ++ c.exportOf.toList = _ := h.exports ▸
      (filterMap_sinceClear_concat Call.exportOf calls hc).symm
    have hrelocations : t.relocations ++ c.relocationOf.toList = _ := h.relocations ▸
      (filterMap_sinceClear_concat Call.relocationOf calls hc).symm
    cases c with
    | addImport sym =>
      exact ⟨himports, (List.append_nil _).symm.trans hexports,
        (List.append_nil _).symm.trans hrelocations, latest_insert h.importByAddr sym,
        latest_insert h.importByName sym, h.exportByAddr, h.exportByName⟩
    | addExport sym =>
      exact ⟨(List.append_nil _).symm.trans himports, hexports,
        (List.append_nil _).symm.trans hrelocations, h.importByAddr, h.importByName,
        latest_insert h.exportByAddr sym, latest_insert h.exportByName sym⟩
    | addRelocation reloc =>
      exact ⟨(List.append_nil _).symm.trans himports, (List.append_nil _).symm.trans hexports,
        hrelocations, h.importByAddr, h.importByName, h.exportByAddr, h.exportByName⟩
    | clear => exact absurd rfl hc

/-- Any calls keep the invariant. -/
theorem indexed_run (calls : List Call) : Indexed calls (run calls) := by
  induction calls using List.reverseRecOn with
  | nil => exact Indexed.empty
  | append_singleton calls c ih =>
    rw [run, List.foldl_concat]
    exact ih.apply c

/-! ## What the table answers -/

/-- A vector and a map of positions by a key: every position in the map is one of the vector, and a
lookup finds the last value with the key. -/
structure Consistent {K V : Type} (key : V → K) (all : List V) (idx : K → Option Nat)
    (lookup : K → Option V) : Prop where
  valid : ∀ k i, idx k = some i → i < all.length
  lookup : ∀ k, FindsLast key all k (idx k) (lookup k)

/-- The table after some calls: the vectors are the symbols since the last `Clear` in order, and the
four lookups find the last of them with a key. -/
structure ListsSince (calls : List Call) (t : SymbolTable) : Prop where
  imports : t.imports = (sinceClear calls).filterMap Call.importOf
  exports : t.exports = (sinceClear calls).filterMap Call.exportOf
  relocations : t.relocations = (sinceClear calls).filterMap Call.relocationOf
  importByAddress :
    Consistent ImportedSymbol.address t.imports t.importByAddr.get? t.getImportByAddress
  importByName : Consistent ImportedSymbol.name t.imports t.importByName.get? t.getImportByName
  exportByAddress :
    Consistent ExportedSymbol.address t.exports t.exportByAddr.get? t.getExportByAddress
  exportByName : Consistent ExportedSymbol.name t.exports t.exportByName.get? t.getExportByName

theorem consistent_of_latest {K V : Type} {key : V → K} {all : List V} {idx : K → Option Nat}
    (h : Latest key idx all) : Consistent key all idx fun k => (idx k).bind fun i => all[i]? where
  valid _ _ hi := h.valid hi
  lookup := h

/-- **The symbol table** over any calls: no map has a position outside of its vector, and every
lookup returns the most recent symbol with the key, or nothing when there is none. -/
theorem run_listsSince (calls : List Call) : ListsSince calls (run calls) := by
  have h := indexed_run calls
  exact ⟨h.imports, h.exports, h.relocations, consistent_of_latest h.importByAddr,
    consistent_of_latest h.importByName, consistent_of_latest h.exportByAddr,
    consistent_of_latest h.exportByName⟩

/-- Two imports at one address and an export, after a `Clear`. -/
example : (run [.addExport ⟨"old", 5, 1⟩, .clear, .addImport ⟨"f", "a.dll", 16, 16⟩,
    .addImport ⟨"g", "b.dll", 16, 16⟩, .addExport ⟨"f", 5, 2⟩]).getImportByAddress 16 =
      some ⟨"g", "b.dll", 16, 16⟩ := by decide

end SymbolTable

end ReWizard
