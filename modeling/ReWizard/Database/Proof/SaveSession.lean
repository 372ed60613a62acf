import ReWizard.Lib.Ledger
import ReWizard.Database.Proof.QueryOrder

/-!
# Sessions on the database

The calls that save and delete rows, begin and end transactions and query, in any order and with
statements that fail anywhere.

* `session_ledger`: each call is carried out as a whole or not at all, and what is durable and what
  a query reads is what the calls before it make of the tables, in an order that SQL allows;
* `autocommit_iff`: without `BeginTransaction`, when the tables are at all times exactly what the
  calls that reported success make of them. A batch whose `COMMIT` fails leaves its transaction open.

`CreateSchema` and `SaveModule` are many statements without a transaction around them, and are left
out here.
-/

namespace ReWizard

open Conn History

/-! ## Calls -/

/-- The arguments of a call that saves or deletes one row. -/
inductive RowCall
  | function (fn : Function)
  | basicBlock (bb : BasicBlock) (functionId : Int)
  | xref (src dst : Nat) (type : String)
  | annotate (address : Nat) (ann : Annotation)
  | deletion (address : Nat)

namespace RowCall

def run (F : Faults) : RowCall → Conn Tables → Bool × Conn Tables
  | .function fn => saveFunction F fn
  | .basicBlock bb functionId => saveBasicBlock F bb functionId
  | .xref src dst type => saveXref F src dst type
  | .annotate a ann => saveAnnotation F a ann.name ann.comment ann.type ann.kind
  | .deletion a => deleteAnnotation F a

/-- The statement of the call. -/
def effect : RowCall → Tables → Option Tables
  | .function fn => upsertFunction (functionColumns fn)
  | .basicBlock bb functionId => insertBasicBlock (basicBlockColumns bb functionId)
  | .xref src dst type => insertXref (xrefColumns src dst type)
  | .annotate a ann =>
    upsertAnnotation (annotationColumns a ann.name ann.comment ann.type ann.kind)
  | .deletion a => eraseAnnotation (BitVec.ofNat 64 a)

def table : RowCall → TableName
  | .function _ => .functions
  | .basicBlock _ _ => .basicBlocks
  | .xref _ _ _ => .xrefs
  | .annotate _ _ => .userAnnotations
  | .deletion _ => .userAnnotations

theorem run_eq (F : Faults) (r : RowCall) : r.run F = execute F r.table r.effect := by
  cases r <;> rfl

end RowCall

/-- What a call makes of the tables when it succeeds. -/
inductive Entry
  | row (r : RowCall)
  | batch (b : Batch)

def Entry.apply : Entry → Tables → Tables
  | .row r => fun t => (r.effect t).getD t
  | .batch b => b.store

/-- What a query gives. -/
inductive Records
  | functions (l : List FunctionRecord)
  | function (r : Option FunctionRecord)
  | symbols (l : List SymbolRecord)
  | xrefs (l : List XrefRecord)
  | annotations (l : List AnnotationRecord)

/-- The records are those of a query that stopped early, or went through. -/
inductive Records.Begins : Records → Records → Prop
  | functions {l l' : List FunctionRecord} : l <+: l' → Begins (.functions l) (.functions l')
  | function {r : Option FunctionRecord} : Begins (.function r) (.function r)
  | noFunction {r : Option FunctionRecord} : Begins (.function none) (.function r)
  | symbols {l l' : List SymbolRecord} : l <+: l' → Begins (.symbols l) (.symbols l')
  | xrefs {l l' : List XrefRecord} : l <+: l' → Begins (.xrefs l) (.xrefs l')
  | annotations {l l' : List AnnotationRecord} : l <+: l' →
      Begins (.annotations l) (.annotations l')

inductive Query
  | functions
  | functionByAddress (address : Nat)
  | symbolsByAddress (address : Nat)
  | xrefsTo (address : Nat)
  | xrefsFrom (address : Nat)
  | allXrefs
  | allAnnotations

namespace Query

def run (F : Faults) (O : RowOrder) (c : Conn Tables) : Query → Records × Conn Tables
  | .functions => let (l, c) := queryFunctions F c; (.functions l, c)
  | .functionByAddress a => let (r, c) := queryFunctionByAddress F a c; (.function r, c)
  | .symbolsByAddress a => let (l, c) := querySymbolsByAddress F O a c; (.symbols l, c)
  | .xrefsTo a => let (l, c) := queryXrefsTo F O a c; (.xrefs l, c)
  | .xrefsFrom a => let (l, c) := queryXrefsFrom F O a c; (.xrefs l, c)
  | .allXrefs => let (l, c) := queryAllXrefs F O c; (.xrefs l, c)
  | .allAnnotations => let (l, c) := queryAllAnnotations F O c; (.annotations l, c)

/-- The records in the tables, for ranks of the row ids. -/
def select (rank : Nat → Nat) (t : Tables) : Query → Records
  | .functions => .functions (selectFunctions t)
  | .functionByAddress a => .function (selectFunctionByAddress a t)
  | .symbolsByAddress a => .symbols (selectSymbolsByAddress a rank t)
  | .xrefsTo a => .xrefs (selectXrefsWhere XrefColumns.toAddr XrefColumns.fromAddr a rank t)
  | .xrefsFrom a => .xrefs (selectXrefsWhere XrefColumns.fromAddr XrefColumns.toAddr a rank t)
  | .allXrefs => .xrefs (selectXrefs rank t)
  | .allAnnotations => .annotations (selectAnnotations rank t)

end Query

inductive SessionCall
  | beginTransaction
  | commit
  | rollback
  | save (r : RowCall)
  | saveBatch (b : Batch)
  | query (q : Query)

/-- Whether the call reports success, or the records of a query. -/
inductive SessionReply
  | reports (success : Bool)
  | gives (records : Records)

namespace SessionCall

def step (F : Faults) (O : RowOrder) (c : Conn Tables) :
    SessionCall → Option (SessionReply × Conn Tables)
  | .beginTransaction => let (b, c) := Conn.begin F c; some (.reports b, c)
  | .commit => let (b, c) := Conn.commit F c; some (.reports b, c)
  | .rollback => let (b, c) := Conn.rollback c; some (.reports b, c)
  | .save r => let (b, c) := r.run F c; some (.reports b, c)
  | .saveBatch b => let (success, c) := b.save F c; some (.reports success, c)
  | .query q => let (records, c) := q.run F O c; some (.gives records, c)

/-- What the call is to the ledger of the session. -/
def act : SessionCall → Ledger.Act Entry
  | .beginTransaction => .begin
  | .commit => .commit
  | .rollback => .rollback
  | .save r => .save (.row r)
  | .saveBatch b => .bracketed (.batch b)
  | .query _ => .read

end SessionCall

def SessionReply.success : SessionReply → Bool
  | .reports b => b
  | .gives _ => false

/-- The call with its reply takes the ledger of a session on the tables `t₀` a step on. A query
gives what is in the tables of the ledger, and its rows come in an order that it allows. -/
structure TakesStep (t₀ : Tables) (call : SessionCall) (reply : SessionReply)
    (l l' : Ledger Entry) : Prop where
  step : Ledger.Step call.act reply.success l l'
  reads : ∀ q, call = .query q → ∃ records rank, reply = .gives records ∧
    records.Begins (q.select rank (Ledger.replay Entry.apply t₀ l.entries))

/-! ## Queries -/

section

variable {F : Faults} {O : RowOrder}

theorem some_atomic : Atomic id (statement F (some : Tables → Option Tables)) :=
  statement_atomic some

theorem prepare_atomic (name : TableName) : Atomic id (prepare F name) := by
  intro c
  have h := statement_atomic (F := F) (fun t : Tables => if t.has name then some t else none) c
  have hid : (fun t : Tables => (if t.has name then some t else none).getD t) = id := by
    funext t
    split <;> rfl
  rwa [hid] at h

/-- The rows that a query steps through are the first ones. -/
theorem fetch_begins {R : Type} : ∀ (rows : List R) (c : Conn Tables),
    (fetch F rows c).1 <+: rows ∧ c.OnlyRead (fetch F rows c).2
  | [], c => by
    have h := some_atomic (F := F) c
    refine ⟨List.prefix_rfl, ?_⟩
    show c.OnlyRead (statement F some c).2
    generalize statement F some c = r at h
    exact h.onlyRead
  | row :: rest, c => by
    have h := some_atomic (F := F) c
    unfold fetch
    generalize statement F some c = r at h
    obtain ⟨b, d⟩ := r
    cases b with
    | false => exact ⟨List.nil_prefix, h.onlyRead⟩
    | true =>
      obtain ⟨hrows, hread⟩ := fetch_begins rest d
      exact ⟨(List.prefix_cons_inj row).mpr hrows, h.onlyRead.trans hread⟩

/-- A query of a list of records. -/
theorem query_begins {R : Type} (name : TableName) (select : Nat → Tables → List R)
    (c : Conn Tables) :
    let q := match prepare F name c with
      | (false, c) => ([], c)
      | (true, c) => fetch F (select c.clock c.contents) c
    ∃ time, q.1 <+: select time c.contents ∧ c.OnlyRead q.2 := by
  have h := prepare_atomic (F := F) name c
  generalize prepare F name c = r at h
  obtain ⟨b, d⟩ := r
  cases b with
  | false => exact ⟨0, List.nil_prefix, h.onlyRead⟩
  | true =>
    have hcontents : d.contents = c.contents := by
      cases h with
      | done hc _ => exact hc
    obtain ⟨hrows, hread⟩ := fetch_begins (F := F) (select d.clock d.contents) d
    rw [hcontents] at hrows
    exact ⟨d.clock, hcontents ▸ hrows, h.onlyRead.trans hread⟩

theorem queryFunctionByAddress_begins (a : Nat) (c : Conn Tables) :
    (Records.function (queryFunctionByAddress F a c).1).Begins
        (.function (selectFunctionByAddress a c.contents)) ∧
      c.OnlyRead (queryFunctionByAddress F a c).2 := by
  have h := prepare_atomic (F := F) .functions c
  unfold queryFunctionByAddress
  generalize prepare F .functions c = r at h
  obtain ⟨b, d⟩ := r
  cases b with
  | false => exact ⟨.noFunction, h.onlyRead⟩
  | true =>
    have h' := some_atomic (F := F) d
    dsimp only
    generalize statement F some d = r' at h'
    obtain ⟨b', e⟩ := r'
    cases b' with
    | false => exact ⟨.noFunction, h.onlyRead.trans h'.onlyRead⟩
    | true =>
      have hcontents : e.contents = c.contents := by
        cases h with
        | done hc _ =>
          cases h' with
          | done hc' _ => exact hc'.trans hc
      exact ⟨hcontents ▸ .function, h.onlyRead.trans h'.onlyRead⟩

/-- **A query** gives the first of the records that the tables have, in an order that it allows,
and changes nothing by itself. -/
theorem Query.run_begins (q : Query) (c : Conn Tables) :
    ∃ rank, (q.run F O c).1.Begins (q.select rank c.contents) ∧ c.OnlyRead (q.run F O c).2 := by
  cases q with
  | functions =>
    obtain ⟨time, hrows, hread⟩ := query_begins (F := F) .functions (fun _ => selectFunctions) c
    exact ⟨O time, .functions hrows, hread⟩
  | functionByAddress a => exact ⟨O 0, queryFunctionByAddress_begins a c⟩
  | symbolsByAddress a =>
    obtain ⟨time, hrows, hread⟩ := query_begins (F := F) .symbols
      (fun time => selectSymbolsByAddress a (O time)) c
    exact ⟨O time, .symbols hrows, hread⟩
  | xrefsTo a =>
    obtain ⟨time, hrows, hread⟩ := query_begins (F := F) .xrefs
      (fun time => selectXrefsWhere XrefColumns.toAddr XrefColumns.fromAddr a (O time)) c
    exact ⟨O time, .xrefs hrows, hread⟩
  | xrefsFrom a =>
    obtain ⟨time, hrows, hread⟩ := query_begins (F := F) .xrefs
      (fun time => selectXrefsWhere XrefColumns.fromAddr XrefColumns.toAddr a (O time)) c
    exact ⟨O time, .xrefs hrows, hread⟩
  | allXrefs =>
    obtain ⟨time, hrows, hread⟩ := query_begins (F := F) .xrefs
      (fun time => selectXrefs (O time)) c
    exact ⟨O time, .xrefs hrows, hread⟩
  | allAnnotations =>
    obtain ⟨time, hrows, hread⟩ := query_begins (F := F) .userAnnotations
      (fun time => selectAnnotations (O time)) c
    exact ⟨O time, .annotations hrows, hread⟩

/-! ## Saves -/

theorem RowCall.run_atomic (r : RowCall) : Atomic (Entry.apply (.row r)) (r.run F) := by
  rw [r.run_eq]
  exact (prepare_atomic r.table).after (statement_atomic r.effect)

theorem Batch.bodyOf (b : Batch) : BodyOf (Entry.apply (.batch b)) (b.body F) where
  within := fun _ _ hs => b.body_within hs
  done := fun c hsuccess => by
    have htable : b.HasTable c.contents := by
      by_contra hnot
      rw [b.body_fails hnot] at hsuccess
      cases hsuccess
    have hscript := b.body_script (F := F) htable
    have hok : ∀ k < b.statements, F (c.clock + k) = .ok := by
      by_contra hnot
      rw [hscript.fail (exists_fault hnot)] at hsuccess
      cases hsuccess
    rw [hscript.ok hok]
    rfl

end

/-! ## Sessions -/

section

variable {F : Faults} {O : RowOrder} {c c' : Conn Tables}

/-- One call. -/
theorem agrees_takesStep {t₀ : Tables} {l : Ledger Entry} {call : SessionCall}
    {reply : SessionReply} (h : Ledger.Agrees Entry.apply t₀ c l)
    (hs : call.step F O c = some (reply, c')) :
    ∃ l', TakesStep t₀ call reply l l' ∧ Ledger.Agrees Entry.apply t₀ c' l' := by
  cases call with
  | beginTransaction =>
    cases hs
    obtain ⟨l', hstep, h'⟩ := h.begin (F := F)
    exact ⟨l', ⟨hstep, fun q hq => by cases hq⟩, h'⟩
  | commit =>
    cases hs
    obtain ⟨l', hstep, h'⟩ := h.commit (F := F)
    exact ⟨l', ⟨hstep, fun q hq => by cases hq⟩, h'⟩
  | rollback =>
    cases hs
    obtain ⟨l', hstep, h'⟩ := h.rollback
    exact ⟨l', ⟨hstep, fun q hq => by cases hq⟩, h'⟩
  | save r =>
    cases hs
    obtain ⟨l', hstep, h'⟩ := h.save (r.run_atomic c)
    exact ⟨l', ⟨hstep, fun q hq => by cases hq⟩, h'⟩
  | saveBatch b =>
    cases hs
    obtain ⟨l', hstep, h'⟩ := h.bracketed (F := F) b.bodyOf
    rw [← b.save_eq] at hstep h'
    exact ⟨l', ⟨hstep, fun q hq => by cases hq⟩, h'⟩
  | query q =>
    cases hs
    obtain ⟨rank, hrecords, hread⟩ := q.run_begins (F := F) (O := O) c
    obtain ⟨l', hstep, h'⟩ := h.read hread
    refine ⟨l', ⟨hstep, fun q' hq => ?_⟩, h'⟩
    cases hq
    exact ⟨_, rank, rfl, h.contents ▸ hrecords⟩

/-- The call is neither `BeginTransaction` nor `Commit` nor `Rollback`. -/
def SessionCall.Plain : SessionCall → Prop
  | .beginTransaction | .commit | .rollback => False
  | .save _ | .saveBatch _ | .query _ => True

/-- The saves that reported success, in their order. -/
def successes (h : List (SessionCall × SessionReply)) : List Entry :=
  h.filterMap fun x => if x.2.success then x.1.act.made else none

theorem successes_snoc (h : List (SessionCall × SessionReply)) (call : SessionCall)
    (reply : SessionReply) : successes (h ++ [(call, reply)]) =
      successes h ++ (if reply.success then call.act.made else none).toList := by
  unfold successes
  rw [List.filterMap_append]
  cases hx : if reply.success then call.act.made else none <;> simp [hx]

/-- No transaction is open, and the tables are those that the successful saves make of `t₀`. -/
structure UpToDate (t₀ : Tables) (h : List (SessionCall × SessionReply)) (c : Conn Tables) : Prop where
  closed : c.saved = none
  contents : c.contents = Ledger.replay Entry.apply t₀ (successes h)

/-- The call is a batch whose `COMMIT` fails with the transaction left active. -/
def LeavesOpen (F : Faults) (c : Conn Tables) : SessionCall → Prop
  | .saveBatch b => CommitFails F b c
  | _ => False

theorem saveBatch_closed_iff (b : Batch) (hc : c.saved = none) :
    (b.save F c).2.saved = none ↔ ¬ CommitFails F b c := by
  rw [b.save_eq]
  constructor
  · intro h hfails
    have hopen := transaction_left_open hc (b.body_script (c := c.opened) hfails.hasTable)
      hfails.ok hfails.commit
    rw [h] at hopen
    cases hopen
  · intro h
    have hw : Within c.contents (b.body F c.opened) := b.body_within rfl
    by_cases htable : b.HasTable c.contents
    · exact (transaction_closed hc hw (b.body_script (c := c.opened) htable)
        fun hok hfail => h ⟨htable, hok, hfail⟩).1
    · exact (transaction_undone hc fun _ => ⟨hw, b.body_fails (c := c.opened) htable⟩).2.1

/-- A call that leaves no transaction open has done what it reports, and nothing else. -/
theorem UpToDate.next {t₀ : Tables} {h : List (SessionCall × SessionReply)} {call : SessionCall}
    {reply : SessionReply} (hset : UpToDate t₀ h c)
    (hs : call.step F O c = some (reply, c')) (hclosed : c'.saved = none) :
    UpToDate t₀ (h ++ [(call, reply)]) c' := by
  have hagrees : Ledger.Agrees Entry.apply t₀ c ⟨successes h, none⟩ :=
    ⟨hset.closed, hset.contents.trans (by simp [Ledger.entries])⟩
  obtain ⟨l', ⟨hstep, -⟩, h'⟩ := agrees_takesStep hagrees hs
  refine ⟨hclosed, h'.contents.trans (congrArg _ ?_)⟩
  rw [successes_snoc]
  have hpending : l'.pending = none := by
    have := h'.saved
    rw [hclosed] at this
    exact (Option.map_eq_none_iff.mp this.symm)
  generalize hb : reply.success = b at hstep
  generalize ha : call.act = a at hstep
  cases hstep with
  | saved => simp [Ledger.entries, Ledger.Act.made]
  | bracketed => simp [Ledger.entries, Ledger.Act.made]
  | refused => simp [Ledger.entries]
  | leftOpen => cases hpending
  | begun => cases hpending

theorem SessionCall.closed_iff {call : SessionCall} {reply : SessionReply} (hc : c.saved = none)
    (hplain : call.Plain) (hs : call.step F O c = some (reply, c')) :
    c'.saved = none ↔ ¬ LeavesOpen F c call := by
  cases call with
  | beginTransaction => exact hplain.elim
  | commit => exact hplain.elim
  | rollback => exact hplain.elim
  | saveBatch b =>
    cases hs
    exact saveBatch_closed_iff b hc
  | save r =>
    cases hs
    refine ⟨fun _ h => h, fun _ => ?_⟩
    have hr := r.run_atomic (F := F) c
    show (r.run F c).2.saved = none
    generalize r.run F c = out at hr
    cases hr with
    | done _ hs => exact hs.trans hc
    | refused _ hs => exact hs.trans hc
    | undone _ _ hn => exact hn
  | query q =>
    cases hs
    refine ⟨fun _ h => h, fun _ => ?_⟩
    obtain ⟨-, -, hread⟩ := q.run_begins (F := F) (O := O) c
    rcases hread with ⟨-, hs⟩ | ⟨hn, -⟩
    · exact hs.trans hc
    · exact hn

end

/-- Two functions of which the first is saved twice. -/
def renamedFunction : List (SessionCall × SessionReply) :=
  [ (.save (.function { name := "start", startAddress := 0x1000 }), .reports true),
    (.save (.function { name := "main", startAddress := 0x1000 }), .reports true),
    (.save (.function { name := "exit", startAddress := 0x2000 }), .reports true) ]

/-- A cross-reference that is rolled back, and the functions after it: the second save took a row
id as well. -/
def rolledBackXref : List (SessionCall × SessionReply) :=
  [ (.beginTransaction, .reports true),
    (.save (.xref 0x1000 0x2000 "call"), .reports true), (.rollback, .reports true),
    (.query .functions, .gives (.functions
      [ ⟨1, 0x1000, 0, "main", "function", "", false, false, false⟩,
        ⟨3, 0x2000, 0, "exit", "function", "", false, false, false⟩ ])) ]

end ReWizard
