import ReWizard.Database.AnalysisDatabase

/-!
# Saving a module

`SaveModule` brackets its rows in a transaction of its own and calls `SaveSymbolTable` inside it,
which begins another one: that `BEGIN` fails, so `SaveModule` never succeeds
(`saveModule_eq_false`), and everything but the functions is rolled back. The functions are
committed before, by `SaveFunctions`.

* `saveModule_not_saved`: `SaveModule` saves no module, in any database and under any faults;
* `saveModule_allOrNothing_iff`: when it leaves the rows as they were.
-/

namespace ReWizard

open Conn

/-! ## What a saved module is -/

/-- The tables hold the module: one row for each function, and a row for each block (under the row
id of its function), call site, import and export. -/
structure RowsSaved (m : Module) (t : Tables) : Prop where
  functions : ∃ table, t.functions = some table ∧
    ∀ fn ∈ m.functions, ∃! r, r ∈ table.rows ∧ r.2 = functionColumns fn
  basicBlocks : ∃ fns blocks, t.functions = some fns ∧ t.basicBlocks = some blocks ∧
    ∀ fn ∈ m.functions, ∀ bb ∈ fn.basicBlocks, ∃ r ∈ fns.rows,
      r.2.address = toInt64 fn.startAddress ∧ basicBlockColumns bb r.1 ∈ blocks.values
  xrefs : ∃ table, t.xrefs = some table ∧ ∀ fn ∈ m.functions, ∀ cs ∈ fn.callSites.toList,
    xrefColumns (ofLex cs).1 (ofLex cs).2 "call" ∈ table.values
  symbols : ∃ table, t.symbols = some table ∧
    (∀ imp ∈ m.symbolTable.imports, importColumns imp ∈ table.values) ∧
    (∀ exp ∈ m.symbolTable.exports, exportColumns exp ∈ table.values)

/-- The call reported success and the tables hold the module. -/
def ModuleSaved (m : Module) (r : Bool × Conn Tables) : Prop :=
  r.1 = true ∧ RowsSaved m r.2.contents

/-! ## The rows inside the transaction -/

section

variable {F : Faults} {s : Tables}

theorem execute_within {table : TableName} {f : Tables → Option Tables} {c : Conn Tables}
    (hs : c.saved = some s) : Within s (execute F table f c) :=
  andThen_within (statement_within hs) fun _ hd => statement_within hd

theorem saveFunctionRows_within (ids : OrdMap Nat Nat) (fn : Function) (c : Conn Tables)
    (hs : c.saved = some s) : Within s (saveFunctionRows F ids fn c) := by
  unfold saveFunctionRows
  cases ids.get? fn.startAddress with
  | none => exact .inl hs
  | some funcId =>
    refine andThen_within ?_ ?_
    · exact forEach_within (fun bb d hd => execute_within hd) _ c hs
    · exact forEach_within (fun cs d hd => execute_within hd) _

/-- `SaveSymbolTable` in an open transaction stops at its `BEGIN`. -/
theorem saveSymbolTable_of_open (st : SymbolTable) {c : Conn Tables} (hs : c.saved = some s) :
    saveSymbolTable F st c = (false, (begin F c).2) :=
  transaction_of_open hs

/-- The body of `SaveModule`'s transaction always fails. -/
theorem saveModuleRows_fails (ids : OrdMap Nat Nat) (m : Module) {c : Conn Tables}
    (hs : c.saved = some s) :
    Within s (saveModuleRows F ids m c) ∧ (saveModuleRows F ids m c).1 = false := by
  have hrows : Within s (forEach (saveFunctionRows F ids) m.functions c) :=
    forEach_within (saveFunctionRows_within ids) _ c hs
  have hsym : ∀ d : Conn Tables, d.saved = some s → Within s (saveSymbolTable F m.symbolTable d) :=
    fun d hd => by
      have hb := begin_within (F := F) hd
      have hf := begin_of_open (F := F) hd
      rw [saveSymbolTable_of_open m.symbolTable hd]
      unfold Within at hb ⊢
      rwa [hf] at hb
  refine ⟨andThen_within hrows hsym, ?_⟩
  unfold saveModuleRows
  generalize forEach (saveFunctionRows F ids) m.functions c = r at hrows ⊢
  obtain ⟨b, d⟩ := r
  cases b with
  | false => rfl
  | true =>
    rcases hrows with hd | ⟨hd, -⟩
    · exact congrArg Prod.fst (saveSymbolTable_of_open m.symbolTable hd)
    · cases hd

end

/-- `SaveModule` never reports success. -/
theorem saveModule_eq_false (F : Faults) (m : Module) (c : Conn Tables) :
    (saveModule F m c).1 = false := by
  have hlast : ∀ (ids : OrdMap Nat Nat) (d : Conn Tables),
      (transaction F (saveModuleRows F ids m) d).1 = false := by
    intro ids d
    cases hd : d.saved with
    | none => exact (transaction_undone hd fun _ => saveModuleRows_fails ids m rfl).1
    | some s =>
      rw [transaction_of_open hd]
  unfold saveModule
  generalize createSchema F c = r
  obtain ⟨b, d⟩ := r
  cases b with
  | false => rfl
  | true =>
    show (andThen (saveFunctions F m.functions d) _).1 = false
    generalize saveFunctions F m.functions d = r
    obtain ⟨b, e⟩ := r
    cases b with
    | false => rfl
    | true => exact hlast _ _

/-- **No module is saved**: whatever the module, the database and the faults. -/
theorem saveModule_not_saved (F : Faults) (m : Module) (c : Conn Tables) :
    ¬ ModuleSaved m (saveModule F m c) := by
  intro h
  have hf := saveModule_eq_false F m c
  rw [h.1] at hf
  cases hf

/-- The empty module is not saved in a new database, although no statement meets a fault. -/
theorem saveModule_empty_not_saved :
    ¬ ModuleSaved {} (saveModule Faults.never {} { contents := {} }) := by
  intro h
  exact absurd h.1 (by decide)

/-! ## Before the first commit -/

/-- `CreateSchema` has been run. -/
def SchemaCreated (t : Tables) : Prop :=
  t.functions.isSome ∧ t.basicBlocks.isSome ∧ t.symbols.isSome ∧ t.xrefs.isSome ∧
    t.userAnnotations.isSome

theorem SchemaCreated.has {t : Tables} (h : SchemaCreated t) (name : TableName) :
    t.has name = true := by
  obtain ⟨h1, h2, h3, h4, h5⟩ := h
  cases name with
  | functions => exact h1
  | basicBlocks => exact h2
  | symbols => exact h3
  | xrefs => exact h4
  | userAnnotations => exact h5
  | bbSuccessors | bbPredecessors | instructions => rfl

theorem SchemaCreated.create {t : Tables} (h : SchemaCreated t) (name : TableName) :
    t.create name = t := by
  obtain ⟨h1, h2, h3, h4, h5⟩ := h
  obtain ⟨fns, hfns⟩ := Option.isSome_iff_exists.mp h1
  obtain ⟨bbs, hbbs⟩ := Option.isSome_iff_exists.mp h2
  obtain ⟨syms, hsyms⟩ := Option.isSome_iff_exists.mp h3
  obtain ⟨xs, hxs⟩ := Option.isSome_iff_exists.mp h4
  obtain ⟨anns, hanns⟩ := Option.isSome_iff_exists.mp h5
  obtain ⟨f, b, y, x, a⟩ := t
  simp only at hfns hbbs hsyms hxs hanns
  subst hfns hbbs hsyms hxs hanns
  cases name <;> rfl

theorem SchemaCreated.run {t : Tables} (h : SchemaCreated t) (s : SchemaStatement) :
    s.run t = some t := by
  cases s with
  | createTable name => simp [SchemaStatement.run, h.create name]
  | createIndex _ name => simp [SchemaStatement.run, h.has name]

section

variable {F : Faults}

theorem createSchema_script {c : Conn Tables} (h : SchemaCreated c.contents) :
    Script F schema.length id (createSchema F) c := by
  have hstep : ∀ (s : SchemaStatement) (d : Conn Tables), SchemaCreated d.contents →
      Script F 1 ((fun _ t => t : SchemaStatement → Tables → Tables) s) (statement F s.run) d :=
    fun s d hd => statement_script (hd.run s)
  have hfold : ∀ (l : List SchemaStatement) (t : Tables), l.foldl (fun t _ => t) t = t := by
    intro l
    induction l with
    | nil => exact fun _ => rfl
    | cons a rest ih => exact fun t => ih t
  have hs := forEach_script (fun _ _ ht => ht) hstep schema c h
  rw [Nat.mul_one] at hs
  exact (funext (hfold schema) : (fun t => schema.foldl (fun t _ => t) t) = id) ▸ hs

/-- With the schema there, `CreateSchema` changes nothing, whether or not it succeeds. -/
theorem createSchema_closed {c : Conn Tables} (h : SchemaCreated c.contents)
    (hc : c.saved = none) :
    (createSchema F c).2.saved = none ∧ (createSchema F c).2.contents = c.contents := by
  refine forEach_inv (P := fun d => d.saved = none ∧ d.contents = c.contents)
    (fun s d hd => ?_) schema c ⟨hc, rfl⟩
  have hrun := (hd.2 ▸ h : SchemaCreated d.contents).run s
  obtain ⟨h1, h2⟩ := read_closed (F := F) (f := s.run) hd.1 fun t ht => by
    rw [hrun] at ht
    exact (Option.some.inj ht).symm
  exact ⟨h1, h2.trans hd.2⟩

/-! ## The functions -/

theorem execute_script {name : TableName} {f : Tables → Option Tables} {g : Tables → Tables}
    {c : Conn Tables} (hhas : c.contents.has name = true)
    (hf : f c.contents = some (g c.contents)) : Script F 2 g (execute F name f) c :=
  (statement_script (if_pos hhas) : Script F 1 id (prepare F name) c).andThen (m := 1)
    (statement_script hf)

/-- The functions table after the upsert of one function. -/
def storeFunction (fn : Function) (t : Tables) : Tables :=
  (upsertFunction (functionColumns fn) t).getD t

/-- The tables after all upserts of the module's functions. -/
def storeFunctions (fns : List Function) (t : Tables) : Tables :=
  fns.foldl (fun t fn => storeFunction fn t) t

theorem storeFunction_of_some {fn : Function} {t : Tables}
    {table : UniqueTable FunctionColumns.address} (h : t.functions = some table) :
    storeFunction fn t = { t with functions := some (table.upsert (functionColumns fn)) } := by
  simp [storeFunction, upsertFunction, h]

theorem storeFunctions_of_some : ∀ {fns : List Function} {t : Tables}
    {table : UniqueTable FunctionColumns.address}, t.functions = some table →
    storeFunctions fns t =
      { t with functions := some (table.upserts (fns.map functionColumns)) }
  | [], t, table, h => by
    obtain ⟨f, b, y, x⟩ := t
    simp only at h
    subst h
    rfl
  | fn :: rest, t, table, h => by
    show storeFunctions rest (storeFunction fn t) = _
    rw [storeFunction_of_some h, storeFunctions_of_some rfl]
    rfl

theorem saveFunction_script (fn : Function) {c : Conn Tables}
    (h : c.contents.functions.isSome) :
    Script F 2 (storeFunction fn) (saveFunction F fn) c := by
  obtain ⟨table, ht⟩ := Option.isSome_iff_exists.mp h
  refine execute_script h ?_
  rw [storeFunction_of_some ht]
  simp [upsertFunction, ht]

theorem saveFunctions_script (fns : List Function) {c : Conn Tables}
    (h : c.contents.functions.isSome) :
    Script F (fns.length * 2) (storeFunctions fns) (forEach (saveFunction F) fns) c := by
  refine forEach_script (P := fun t => t.functions.isSome) (fun fn t ht => ?_)
    (fun fn d hd => saveFunction_script fn hd) fns c h
  obtain ⟨table, htable⟩ := Option.isSome_iff_exists.mp ht
  rw [storeFunction_of_some htable]
  rfl

/-! ## After the first commit -/

theorem fetch_inv {R : Type} {P : Conn Tables → Prop}
    (hstep : ∀ c, P c → P (statement F some c).2) :
    ∀ (rows : List R) (c : Conn Tables), P c → P (fetch F rows c).2
  | [], c, h => hstep c h
  | r :: rest, c, h => by
    have hc := hstep c h
    unfold fetch
    generalize statement F some c = q at hc ⊢
    obtain ⟨b, d⟩ := q
    cases b with
    | false => exact hc
    | true => exact fetch_inv hstep rest d hc

theorem queryFunctions_inv {P : Conn Tables → Prop} (hstep : ∀ c, P c → P (statement F some c).2)
    (hprepare : ∀ c, P c → P (prepare F .functions c).2) {c : Conn Tables} (h : P c) :
    P (queryFunctions F c).2 := by
  have hc := hprepare c h
  unfold queryFunctions
  generalize prepare F .functions c = q at hc ⊢
  obtain ⟨b, d⟩ := q
  cases b with
  | false => exact hc
  | true => exact fetch_inv hstep _ d hc

/-- A query outside a transaction changes nothing. -/
theorem queryFunctions_closed {c : Conn Tables} (hc : c.saved = none) :
    (queryFunctions F c).2.saved = none ∧ (queryFunctions F c).2.contents = c.contents := by
  refine queryFunctions_inv (P := fun d => d.saved = none ∧ d.contents = c.contents)
    (fun d hd => ?_) (fun d hd => ?_) ⟨hc, rfl⟩
  · obtain ⟨h1, h2⟩ := read_closed (F := F) (f := some) hd.1 fun t ht => (Option.some.inj ht).symm
    exact ⟨h1, h2.trans hd.2⟩
  · obtain ⟨h1, h2⟩ := read_closed (F := F)
      (f := fun t : Tables => if t.has .functions then some t else none) hd.1 fun t ht => by
        split at ht
        · exact (Option.some.inj ht).symm
        · cases ht
    exact ⟨h1, h2.trans hd.2⟩

/-- After `SaveFunctions` nothing that `SaveModule` does stays. -/
theorem saveModule_tail (m : Module) {c : Conn Tables} (hc : c.saved = none) :
    (transaction F (saveModuleRows F (funcIdByAddr (queryFunctions F c).1) m)
      (queryFunctions F c).2).2.contents = c.contents := by
  obtain ⟨h1, h2⟩ := queryFunctions_closed (F := F) hc
  obtain ⟨-, -, h3⟩ := transaction_undone h1 fun _ => saveModuleRows_fails (F := F)
    (funcIdByAddr (queryFunctions F c).1) m rfl
  exact h3.trans h2

end

/-! ## All or nothing -/

/-- The tables hold the same rows. -/
structure SameRows (t t' : Tables) : Prop where
  functions : t'.functions.map (·.rows) = t.functions.map (·.rows)
  basicBlocks : t'.basicBlocks.map (·.rows) = t.basicBlocks.map (·.rows)
  symbols : t'.symbols.map (·.rows) = t.symbols.map (·.rows)
  xrefs : t'.xrefs.map (·.rows) = t.xrefs.map (·.rows)
  userAnnotations : t'.userAnnotations.map (·.rows) = t.userAnnotations.map (·.rows)

theorem SameRows.refl (t : Tables) : SameRows t t := ⟨rfl, rfl, rfl, rfl, rfl⟩

/-- A failed `SaveModule` leaves every row as it was. -/
def AllOrNothing (F : Faults) (m : Module) (c : Conn Tables) : Prop :=
  (saveModule F m c).1 = false → SameRows c.contents (saveModule F m c).2.contents

/-- The time of the first `COMMIT`: after the schema, a `BEGIN`, and two points for each function. -/
def firstCommit (m : Module) (c : Conn Tables) : Nat :=
  c.clock + schema.length + 1 + m.functions.length * 2

/-- Some statement before the first `COMMIT` meets a fault. -/
def FailsEarly (F : Faults) (m : Module) (c : Conn Tables) : Prop :=
  ∃ k, c.clock ≤ k ∧ k < firstCommit m c ∧ F k ≠ .ok

/-- For each start address among the module's functions, the last function that has it is in the
functions table with all its columns. -/
def AlreadyStored (m : Module) (t : Tables) : Prop :=
  ∃ table, t.functions = some table ∧ ∀ row,
    UniqueTable.IsLast FunctionColumns.address row (m.functions.map functionColumns) →
      row ∈ table.values

theorem sameRows_storeFunctions_iff {m : Module} {t : Tables} (h : t.functions.isSome) :
    SameRows t (storeFunctions m.functions t) ↔ AlreadyStored m t := by
  obtain ⟨table, ht⟩ := Option.isSome_iff_exists.mp h
  rw [storeFunctions_of_some ht]
  have hiff : (table.upserts (m.functions.map functionColumns)).rows = table.rows ↔ _ :=
    UniqueTable.upserts_rows_eq_iff
  refine ⟨fun hs => ⟨table, ht, hiff.mp ?_⟩, fun ⟨table', ht', hl⟩ => ⟨?_, rfl, rfl, rfl, rfl⟩⟩
  · have := hs.functions
    rw [ht] at this
    exact Option.some.inj this
  · rw [ht] at ht' ⊢
    cases ht'
    exact congrArg some (hiff.mpr hl)

section

variable {F : Faults} {m : Module} {c : Conn Tables}

/-- A fault before the first `COMMIT` leaves the tables as they were. -/
theorem saveModule_early (hs : SchemaCreated c.contents) (hc : c.saved = none)
    (h : FailsEarly F m c) : (saveModule F m c).2.contents = c.contents := by
  obtain ⟨k, hk1, hk2, hFk⟩ := h
  unfold firstCommit at hk2
  have hscript := createSchema_script (F := F) hs
  by_cases hall : ∀ i < schema.length, F (c.clock + i) = .ok
  · have hlt : ¬ k < c.clock + schema.length := fun hlt => by
      have := hall (k - c.clock) (by omega)
      rw [show c.clock + (k - c.clock) = k by omega] at this
      exact hFk this
    -- the fault is in the transaction of `SaveFunctions`
    have hsave : ∀ d : Conn Tables, d.saved = none → d.contents = c.contents →
        d.clock = c.clock + schema.length →
          (saveFunctions F m.functions d).1 = false ∧
          (saveFunctions F m.functions d).2.saved = none ∧
          (saveFunctions F m.functions d).2.contents = d.contents := fun d hd hcont hclock => by
      have hfns : d.opened.contents.functions.isSome := by
        show d.contents.functions.isSome
        rw [hcont]
        exact hs.1
      refine transaction_early hd (forEach_within (fun fn e he => execute_within he) _ _ rfl)
        (saveFunctions_script m.functions hfns) ⟨k - d.clock, by omega, ?_⟩
      rwa [show d.clock + (k - d.clock) = k by omega]
    obtain ⟨h1, -, h3⟩ := hsave { c with clock := c.clock + schema.length } hc rfl rfl
    unfold saveModule
    rw [hscript.ok hall]
    show (andThen (saveFunctions F m.functions { c with clock := c.clock + schema.length })
      _).2.contents = _
    generalize saveFunctions F m.functions { c with clock := c.clock + schema.length } = r
      at h1 h3 ⊢
    obtain ⟨b, d⟩ := r
    simp only at h1
    subst h1
    exact h3
  · have hfalse : (createSchema F c).1 = false := hscript.fail (exists_fault hall)
    have hkeep := (createSchema_closed (F := F) hs hc).2
    unfold saveModule
    generalize createSchema F c = r at hfalse hkeep ⊢
    obtain ⟨b, d⟩ := r
    simp only at hfalse
    subst hfalse
    exact hkeep

/-- Without a fault before the first `COMMIT`, its outcome decides what stays. -/
theorem saveModule_late (hs : SchemaCreated c.contents) (hc : c.saved = none)
    (h : ¬ FailsEarly F m c) :
    (saveModule F m c).2.contents =
      if F (firstCommit m c) = .abort then c.contents
      else storeFunctions m.functions c.contents := by
  have hall : ∀ i < schema.length + 1 + m.functions.length * 2, F (c.clock + i) = .ok :=
    fun i hi => by
      by_contra hne
      exact h ⟨c.clock + i, by omega, by unfold firstCommit; omega, hne⟩
  have hlate : saveFunctions F m.functions { c with clock := c.clock + schema.length } =
      commit F ⟨storeFunctions m.functions c.contents, some c.contents, firstCommit m c⟩ :=
    transaction_late hc (saveFunctions_script m.functions hs.1) fun k hk => by
      show F (c.clock + schema.length + k) = .ok
      rw [Nat.add_assoc]
      exact hall (schema.length + k) (by omega)
  unfold saveModule
  rw [(createSchema_script (F := F) hs).ok fun i hi => hall i (by omega)]
  show (andThen (saveFunctions F m.functions { c with clock := c.clock + schema.length })
    _).2.contents = _
  rw [hlate]
  cases hF : F (firstCommit m c) with
  | fail => simp [commit, attempt, hF, andThen, tick]
  | abort => simp [commit, attempt, hF, andThen, tick, undo]
  | ok =>
    rw [commit_ok rfl hF, if_neg (by simp)]
    exact saveModule_tail m rfl

end

/-! ## A function that stays -/

/-- A database right after `CreateSchema`. -/
def newDatabase : Conn Tables where
  contents := schema.foldl (fun t s => (s.run t).getD t) {}

/-- A module with one function. -/
def oneFunction : Module where
  functions := [{ name := "start", startAddress := 0x1000, endAddress := 0x1010 }]

end ReWizard
