import ReWizard.Database.Proof.SaveModule

/-!
# Batches of rows

`SaveFunctions`, `SaveBasicBlocks` and `SaveSymbolTable` each bracket their rows in a transaction.

* `batch_closed_iff`: when such a call leaves no transaction open, and the rows as they were if it
  fails. A `COMMIT` that fails with the transaction left active is not followed by a `ROLLBACK`;
* `saveTwice_sameRows_iff`: when saving symbols or blocks once more changes no table. Their tables
  have no constraint for `ON CONFLICT DO NOTHING` to meet, so every row is inserted again.
-/

namespace ReWizard

open Conn

/-! ## Batches -/

/-- The arguments of a call that saves rows in a transaction. -/
inductive Batch
  | functions (fns : List Function)
  | basicBlocks (bbs : List BasicBlock) (functionId : Int)
  | symbols (st : SymbolTable)

namespace Batch

def save (F : Faults) : Batch → Conn Tables → Bool × Conn Tables
  | .functions fns => saveFunctions F fns
  | .basicBlocks bbs functionId => saveBasicBlocks F bbs functionId
  | .symbols st => saveSymbolTable F st

/-- What is between the `BEGIN` and the `COMMIT` or `ROLLBACK`. -/
def body (F : Faults) : Batch → Conn Tables → Bool × Conn Tables
  | .functions fns => forEach (saveFunction F) fns
  | .basicBlocks bbs functionId => forEach (fun bb => saveBasicBlock F bb functionId) bbs
  | .symbols st => fun c =>
    andThen (prepare F .symbols c) fun c =>
      andThen (forEach (fun imp => statement F (insertSymbol (importColumns imp))) st.imports c)
        (forEach (fun exp => statement F (insertSymbol (exportColumns exp))) st.exports)

/-- The table that the rows go to. -/
def table : Batch → TableName
  | .functions _ => .functions
  | .basicBlocks _ _ => .basicBlocks
  | .symbols _ => .symbols

/-- How many statements the body is: a function or a block is prepared and stepped, the symbols are
prepared once. -/
def statements : Batch → Nat
  | .functions fns => fns.length * 2
  | .basicBlocks bbs _ => bbs.length * 2
  | .symbols st => 1 + (st.imports.length + st.exports.length)

theorem save_eq (F : Faults) (b : Batch) : b.save F = transaction F (b.body F) := by
  cases b <;> rfl

end Batch

/-! ## Rows -/

/-- The rows of `basic_blocks`, without their ids. -/
def Tables.storedBlocks (t : Tables) : List BasicBlockColumns :=
  match t.basicBlocks with
  | none => []
  | some table => table.values

/-- The rows of `symbols`, without their ids. -/
def Tables.storedSymbols (t : Tables) : List SymbolColumns :=
  match t.symbols with
  | none => []
  | some table => table.values

/-- The tables after the insert of a block. -/
def storeBlock (row : BasicBlockColumns) (t : Tables) : Tables := (insertBasicBlock row t).getD t

/-- The tables after the insert of a symbol. -/
def storeSymbol (row : SymbolColumns) (t : Tables) : Tables := (insertSymbol row t).getD t

theorem insertBasicBlock_eq {t : Tables} (h : t.basicBlocks.isSome) (row : BasicBlockColumns) :
    insertBasicBlock row t = some (storeBlock row t) ∧ (storeBlock row t).basicBlocks.isSome ∧
      (storeBlock row t).storedBlocks = t.storedBlocks ++ [row] := by
  obtain ⟨table, htable⟩ := Option.isSome_iff_exists.mp h
  simp [storeBlock, insertBasicBlock, Tables.storedBlocks, htable]

theorem insertSymbol_eq {t : Tables} (h : t.symbols.isSome) (row : SymbolColumns) :
    insertSymbol row t = some (storeSymbol row t) ∧ (storeSymbol row t).symbols.isSome ∧
      (storeSymbol row t).storedSymbols = t.storedSymbols ++ [row] := by
  obtain ⟨table, htable⟩ := Option.isSome_iff_exists.mp h
  simp [storeSymbol, insertSymbol, Tables.storedSymbols, htable]

/-- Inserts one after the other, with `stored` for the rows that a table has. -/
theorem stored_foldl {α V : Type} (there : Tables → Prop) (stored : Tables → List V)
    {store : V → Tables → Tables} (row : α → V)
    (hstore : ∀ v t, there t → there (store v t) ∧ stored (store v t) = stored t ++ [v]) :
    ∀ (l : List α) {t : Tables}, there t →
      there (l.foldl (fun t a => store (row a) t) t) ∧
        stored (l.foldl (fun t a => store (row a) t) t) = stored t ++ l.map row
  | [], t, h => ⟨h, (List.append_nil _).symm⟩
  | a :: rest, t, h => by
    obtain ⟨hthere, hstored⟩ := hstore (row a) t h
    obtain ⟨hthere', hstored'⟩ := stored_foldl there stored row hstore rest hthere
    refine ⟨hthere', hstored'.trans ?_⟩
    rw [hstored, List.map_cons, List.append_assoc]
    rfl

/-! ## Scripts -/

section

variable {F : Faults} {c : Conn Tables}

/-- On a table that is not there, nothing can be prepared. -/
theorem prepare_of_absent {name : TableName} (h : c.contents.has name = false) :
    (prepare F name c).1 = false := by
  unfold prepare statement attempt
  cases F c.clock with
  | fail => rfl
  | abort => rfl
  | ok => simp [h]

theorem andThen_of_false {r : Bool × Conn Tables} {k : Conn Tables → Bool × Conn Tables}
    (h : r.1 = false) : (andThen r k).1 = false := by
  obtain ⟨b, d⟩ := r
  subst h
  rfl

end

namespace Batch

/-- The tables after the rows of the batch. -/
def store : Batch → Tables → Tables
  | .functions fns => storeFunctions fns
  | .basicBlocks bbs functionId =>
    fun t => bbs.foldl (fun t bb => storeBlock (basicBlockColumns bb functionId) t) t
  | .symbols st => fun t =>
    st.exports.foldl (fun t exp => storeSymbol (exportColumns exp) t)
      (st.imports.foldl (fun t imp => storeSymbol (importColumns imp) t) t)

/-- The rows of a batch can be inserted: their table is there, or there are none. -/
def HasTable (b : Batch) (t : Tables) : Prop := t.has b.table = true ∨ b.statements = 0

section

variable {F : Faults} {b : Batch} {c : Conn Tables}

theorem body_within {s : Tables} (hs : c.saved = some s) : Within s (b.body F c) := by
  cases b with
  | functions fns => exact forEach_within (fun _ _ hd => execute_within hd) fns c hs
  | basicBlocks bbs functionId => exact forEach_within (fun _ _ hd => execute_within hd) bbs c hs
  | symbols st =>
    refine andThen_within (statement_within hs) fun d hd => andThen_within ?_ fun e he => ?_
    · exact forEach_within (fun _ _ => statement_within) st.imports d hd
    · exact forEach_within (fun _ _ => statement_within) st.exports e he

theorem symbols_script {α : Type} (row : α → SymbolColumns) (l : List α)
    (h : c.contents.symbols.isSome) :
    Script F l.length (fun t => l.foldl (fun t a => storeSymbol (row a) t) t)
      (forEach (fun a => statement F (insertSymbol (row a))) l) c := by
  have hscript := forEach_script (F := F) (P := fun t : Tables => t.symbols.isSome)
    (f := fun a t => storeSymbol (row a) t) (fun a t ht => (insertSymbol_eq ht (row a)).2.1)
    (fun a d hd => statement_script (insertSymbol_eq hd (row a)).1) l c h
  rwa [Nat.mul_one] at hscript

theorem body_script_of_has (h : c.contents.has b.table = true) :
    Script F b.statements b.store (b.body F) c := by
  cases b with
  | functions fns => exact saveFunctions_script fns h
  | basicBlocks bbs functionId =>
    exact forEach_script (P := fun t => t.basicBlocks.isSome)
      (fun bb t ht => (insertBasicBlock_eq ht _).2.1)
      (fun bb d hd => execute_script hd (insertBasicBlock_eq hd _).1) bbs c h
  | symbols st =>
    have hprepare : Script F 1 id (prepare F .symbols) c := statement_script (if_pos h)
    have himports : (st.imports.foldl (fun t imp => storeSymbol (importColumns imp) t)
        c.contents).symbols.isSome :=
      (stored_foldl (fun t => t.symbols.isSome) Tables.storedSymbols importColumns
        (fun v t ht => (insertSymbol_eq ht v).2) st.imports h).1
    let prepared : Conn Tables := { c with clock := c.clock + 1 }
    have himport := symbols_script (F := F) (c := prepared) importColumns st.imports h
    have hexport := symbols_script (F := F) (c := { prepared with
      contents := st.imports.foldl (fun t imp => storeSymbol (importColumns imp) t) c.contents
      clock := prepared.clock + st.imports.length }) exportColumns st.exports himports
    exact hprepare.andThen (himport.andThen hexport)

theorem body_script (h : b.HasTable c.contents) : Script F b.statements b.store (b.body F) c := by
  rcases h with h | h
  · exact body_script_of_has h
  · -- a batch without a statement
    cases b with
    | functions fns =>
      obtain rfl : fns = [] := by simpa [statements] using h
      exact Script.nil
    | basicBlocks bbs functionId =>
      obtain rfl : bbs = [] := by simpa [statements] using h
      exact Script.nil
    | symbols st => simp [statements] at h

theorem body_fails (h : ¬ b.HasTable c.contents) : (b.body F c).1 = false := by
  obtain ⟨hhas, hpos⟩ := not_or.mp h
  rw [Bool.not_eq_true] at hhas
  cases b with
  | functions fns =>
    cases fns with
    | nil => exact absurd rfl hpos
    | cons fn rest => exact andThen_of_false (andThen_of_false (prepare_of_absent hhas))
  | basicBlocks bbs functionId =>
    cases bbs with
    | nil => exact absurd rfl hpos
    | cons bb rest => exact andThen_of_false (andThen_of_false (prepare_of_absent hhas))
  | symbols st => exact andThen_of_false (prepare_of_absent hhas)

end

end Batch

/-! ## Open transactions -/

/-- No transaction is open after the call, and if it failed, the tables hold the rows they held. -/
structure Closed (before : Tables) (r : Bool × Conn Tables) : Prop where
  noTransaction : r.2.saved = none
  sameRows : r.1 = false → SameRows before r.2.contents

/-- All statements up to the `COMMIT` are carried out, and the `COMMIT` fails with the transaction
left active. -/
structure CommitFails (F : Faults) (b : Batch) (c : Conn Tables) : Prop where
  hasTable : b.HasTable c.contents
  ok : ∀ k < b.statements + 1, F (c.clock + k) = .ok
  commit : F (c.clock + 1 + b.statements) = .fail

/-- **Batches**: outside a transaction, a call that saves a batch leaves none open, and undoes its
rows when it fails, if and only if its `COMMIT` is not what fails. -/
theorem batch_closed_iff (F : Faults) (b : Batch) (c : Conn Tables) (hc : c.saved = none) :
    Closed c.contents (b.save F c) ↔ ¬ CommitFails F b c := by
  rw [Batch.save_eq]
  have hw : Within c.contents (b.body F c.opened) := Batch.body_within rfl
  constructor
  · intro h hfails
    have hopen := transaction_left_open hc (Batch.body_script (c := c.opened) hfails.hasTable)
      hfails.ok hfails.commit
    rw [h.noTransaction] at hopen
    cases hopen
  · intro h
    by_cases htable : b.HasTable c.contents
    · obtain ⟨hsaved, hcontents⟩ := transaction_closed hc hw
        (Batch.body_script (c := c.opened) htable) fun hok hfail => h ⟨htable, hok, hfail⟩
      refine ⟨hsaved, fun hfalse => ?_⟩
      rw [hcontents hfalse]
      exact SameRows.refl _
    · obtain ⟨-, hsaved, hcontents⟩ := transaction_undone hc fun _ =>
        ⟨hw, Batch.body_fails (c := c.opened) htable⟩
      refine ⟨hsaved, fun _ => ?_⟩
      rw [hcontents]
      exact SameRows.refl _

/-- The database is busy at the time `k`. -/
def busyAt (k : Nat) : Faults := fun i => if i = k then .fail else .ok

/-- Busy when the one function is inserted. -/
theorem busyInsert_closed : Closed newDatabase.contents
    ((Batch.functions oneFunction.functions).save (busyAt 2) newDatabase) :=
  (batch_closed_iff (busyAt 2) (.functions oneFunction.functions) newDatabase rfl).mpr fun h =>
    absurd (h.ok 2 (by decide)) (by decide)

/-- Busy at the `COMMIT` of the one function: the transaction stays open. -/
theorem busyCommit_not_closed : ¬ Closed newDatabase.contents
    ((Batch.functions oneFunction.functions).save (busyAt 3) newDatabase) := by
  intro h
  exact absurd h.noTransaction (by decide +kernel)

/-! ## The same rows once more -/

namespace Batch

/-- What a call has done when it succeeds. -/
theorem save_of_true {F : Faults} {b : Batch} {c : Conn Tables} (h : (b.save F c).1 = true) :
    b.HasTable c.contents ∧ (b.save F c).2.contents = b.store c.contents := by
  rw [save_eq] at h ⊢
  cases hc : c.saved with
  | some s =>
    rw [transaction_of_open hc] at h
    cases h
  | none =>
    have hw : Within c.contents (b.body F c.opened) := body_within rfl
    have htable : b.HasTable c.contents := by
      by_contra hnot
      obtain ⟨hfalse, -⟩ := transaction_undone (F := F) hc fun _ =>
        ⟨hw, body_fails (c := c.opened) hnot⟩
      rw [hfalse] at h
      cases h
    exact ⟨htable, transaction_of_true hc hw (body_script (c := c.opened) htable) h⟩

end Batch

/-- The call succeeds, and succeeds again right after. -/
def SucceedsTwice (op : Conn Tables → Bool × Conn Tables) (c : Conn Tables) : Prop :=
  (op c).1 = true ∧ (op (op c).2).1 = true

/-- After the second call there are the same rows as after the first, each as often. -/
def SameRowsTwice {V : Type} (stored : Tables → List V) (op : Conn Tables → Bool × Conn Tables)
    (c : Conn Tables) : Prop :=
  (stored (op (op c).2).2.contents).Perm (stored (op c).2.contents)

/-- A call that appends rows has the same rows after the second time when there are none. -/
theorem sameRowsTwice_iff {V : Type} {stored : Tables → List V}
    {op : Conn Tables → Bool × Conn Tables} {c : Conn Tables} {rows : List V}
    (h : stored (op (op c).2).2.contents = stored (op c).2.contents ++ rows) :
    SameRowsTwice stored op c ↔ rows = [] := by
  unfold SameRowsTwice
  rw [h]
  constructor
  · intro hperm
    have hlength := hperm.length_eq
    rw [List.length_append] at hlength
    exact List.length_eq_zero_iff.mp (by omega)
  · rintro rfl
    rw [List.append_nil]

section

variable {F : Faults} {c : Conn Tables}

theorem saveBasicBlocks_of_true {bbs : List BasicBlock} {functionId : Int}
    (h : (saveBasicBlocks F bbs functionId c).1 = true) :
    (saveBasicBlocks F bbs functionId c).2.contents.storedBlocks = c.contents.storedBlocks ++
      bbs.map fun bb => basicBlockColumns bb functionId := by
  obtain ⟨htable, hcontents⟩ := Batch.save_of_true (b := .basicBlocks bbs functionId) h
  have hcontents : (saveBasicBlocks F bbs functionId c).2.contents = _ := hcontents
  rw [hcontents]
  rcases htable with hhas | hnil
  · exact (stored_foldl (fun t => t.basicBlocks.isSome) Tables.storedBlocks
      (fun bb => basicBlockColumns bb functionId) (fun v t ht => (insertBasicBlock_eq ht v).2) bbs
      hhas).2
  · obtain rfl : bbs = [] := by simpa [Batch.statements] using hnil
    exact (List.append_nil _).symm

theorem saveSymbolTable_of_true {st : SymbolTable} (h : (saveSymbolTable F st c).1 = true) :
    (saveSymbolTable F st c).2.contents.storedSymbols = c.contents.storedSymbols ++
      (st.imports.map importColumns ++ st.exports.map exportColumns) := by
  obtain ⟨htable, hcontents⟩ := Batch.save_of_true (b := .symbols st) h
  have hcontents : (saveSymbolTable F st c).2.contents = _ := hcontents
  rw [hcontents]
  have hhas : c.contents.symbols.isSome := htable.resolve_right (by simp [Batch.statements])
  have hinsert : ∀ (v : SymbolColumns) (t : Tables), t.symbols.isSome →
      (storeSymbol v t).symbols.isSome ∧ (storeSymbol v t).storedSymbols = t.storedSymbols ++ [v] :=
    fun v t ht => (insertSymbol_eq ht v).2
  obtain ⟨himports, hstored⟩ := stored_foldl (fun t => t.symbols.isSome) Tables.storedSymbols
    importColumns hinsert st.imports hhas
  refine (stored_foldl (fun t => t.symbols.isSome) Tables.storedSymbols exportColumns hinsert
    st.exports himports).2.trans ?_
  rw [hstored, List.append_assoc]

end

/-- **The same rows once more**: in every database, saving a symbol table or a list of blocks a
second time leaves the rows of the first time if and only if there is nothing to save. -/
theorem saveTwice_sameRows_iff (F : Faults) (c : Conn Tables) :
    (∀ st, SucceedsTwice (saveSymbolTable F st) c →
      (SameRowsTwice Tables.storedSymbols (saveSymbolTable F st) c ↔
        st.imports = [] ∧ st.exports = [])) ∧
    ∀ bbs functionId, SucceedsTwice (saveBasicBlocks F bbs functionId) c →
      (SameRowsTwice Tables.storedBlocks (saveBasicBlocks F bbs functionId) c ↔ bbs = []) := by
  constructor
  · intro st h
    rw [sameRowsTwice_iff (saveSymbolTable_of_true h.2), List.append_eq_nil_iff,
      List.map_eq_nil_iff, List.map_eq_nil_iff]
  · intro bbs functionId h
    rw [sameRowsTwice_iff (saveBasicBlocks_of_true h.2), List.map_eq_nil_iff]

/-- In a new database a symbol table without symbols has the same rows twice, and a block has not. -/
theorem saveTwice_newDatabase :
    SameRowsTwice Tables.storedSymbols (saveSymbolTable Faults.never {}) newDatabase ∧
      ¬ SameRowsTwice Tables.storedBlocks
        (saveBasicBlocks Faults.never [BasicBlock.create 0x1000] 1) newDatabase := by
  obtain ⟨hsymbols, hblocks⟩ := saveTwice_sameRows_iff Faults.never newDatabase
  refine ⟨(hsymbols {} ⟨by decide +kernel, by decide +kernel⟩).mpr ⟨rfl, rfl⟩, fun h => ?_⟩
  have hnil := (hblocks [BasicBlock.create 0x1000] 1 ⟨by decide +kernel, by decide +kernel⟩).mp h
  cases hnil

/-- One import. -/
def oneImport : SymbolTable where
  imports := [⟨"CreateFileW", "KERNEL32.dll", 0x140002000, 0x140002000⟩]

/-- A new database has the import twice. -/
theorem oneImport_twice :
    SucceedsTwice (saveSymbolTable Faults.never oneImport) newDatabase ∧
      ¬ SameRowsTwice Tables.storedSymbols (saveSymbolTable Faults.never oneImport)
        newDatabase := by
  refine ⟨⟨by decide +kernel, by decide +kernel⟩, fun h => ?_⟩
  exact absurd h.length_eq (by decide +kernel)

end ReWizard
