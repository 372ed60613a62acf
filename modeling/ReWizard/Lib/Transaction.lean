/-!
# Transactions over a connection with faults

`Conn T` is a connection to a store with contents `T`: the contents as the connection sees them,
the contents a rollback goes back to while a transaction is open, and a clock of the statements
tried so far. `Faults` says what becomes of the statement at each time. A rollback is not subject
to faults: in an open transaction it always undoes it.

Operations return whether they succeeded. `andThen` and `forEach` are the two ways to put them
together, both of which stop at the first failure, and `transaction` brackets one.

* `Within`: what an operation may do in an open transaction, and the rules for it;
* `Script`: an operation that is a fixed number of statements, and what it does when none fails;
* `transaction_undone`, `transaction_early`, `transaction_late`: what a bracketed operation leaves
  behind, by where the first failure is;
* `transaction_closed`, `transaction_left_open`: whether its transaction stays open;
* `Keeps`: a property of the contents that an operation keeps whatever fails, and the rules for it.
-/

/-- What becomes of a statement: it is carried out, it fails with no effect, or it fails and the
open transaction is rolled back with it. -/
inductive Outcome
  | ok
  | fail
  | abort
  deriving DecidableEq

/-- The outcome of the statement at each time. -/
def Faults := Nat → Outcome

/-- No statement fails. -/
def Faults.never : Faults := fun _ => .ok

structure Conn (T : Type _) where
  contents : T
  saved : Option T := none
  clock : Nat := 0

namespace Conn

variable {T : Type _}

/-- A statement was tried. -/
def tick (c : Conn T) : Conn T := { c with clock := c.clock + 1 }

/-- The open transaction, if there is one, is undone. -/
def undo (c : Conn T) : Conn T := { c with contents := c.saved.getD c.contents, saved := none }

/-- Try a statement with the effect `f`, where `none` is an error of the statement itself. -/
def attempt (F : Faults) (f : Conn T → Option (Conn T)) (c : Conn T) : Bool × Conn T :=
  match F c.clock with
  | .fail => (false, c.tick)
  | .abort => (false, c.undo.tick)
  | .ok =>
    match f c with
    | none => (false, c.tick)
    | some c' => (true, c'.tick)

/-- A statement that reads or writes the contents. -/
def statement (F : Faults) (f : T → Option T) : Conn T → Bool × Conn T :=
  attempt F fun c => (f c.contents).map fun t => { c with contents := t }

/-- `BEGIN`: an error when a transaction is open. -/
def begin (F : Faults) : Conn T → Bool × Conn T :=
  attempt F fun c => if c.saved.isSome then none else some { c with saved := some c.contents }

/-- `COMMIT`: an error when no transaction is open. -/
def commit (F : Faults) : Conn T → Bool × Conn T :=
  attempt F fun c => if c.saved.isSome then some { c with saved := none } else none

/-- `ROLLBACK`: an error when no transaction is open. -/
def rollback (c : Conn T) : Bool × Conn T :=
  if c.saved.isSome then (true, c.undo.tick) else (false, c.tick)

/-- Go on with `k` if the first operation succeeded. -/
def andThen (r : Bool × Conn T) (k : Conn T → Bool × Conn T) : Bool × Conn T :=
  match r with
  | (false, c) => (false, c)
  | (true, c) => k c

/-- One operation for each element, up to the first failure. -/
def forEach {α : Type _} (op : α → Conn T → Bool × Conn T) : List α → Conn T → Bool × Conn T
  | [], c => (true, c)
  | a :: rest, c => andThen (op a c) (forEach op rest)

/-- Commit after a success, roll back after a failure. -/
def finish (F : Faults) (r : Bool × Conn T) : Bool × Conn T :=
  match r with
  | (true, c) => commit F c
  | (false, c) => (false, (rollback c).2)

/-- Begin a transaction, run the body, and commit or roll back. -/
def transaction (F : Faults) (body : Conn T → Bool × Conn T) (c : Conn T) : Bool × Conn T :=
  andThen (begin F c) fun c => finish F (body c)

/-- Without faults a statement is carried out. -/
theorem statement_never {f : T → Option T} {c : Conn T} {t : T} (h : f c.contents = some t) :
    statement Faults.never f c = (true, { c with contents := t, clock := c.clock + 1 }) := by
  simp [statement, attempt, Faults.never, h, tick]

theorem forEach_inv {α : Type _} {op : α → Conn T → Bool × Conn T} {P : Conn T → Prop}
    (hop : ∀ a c, P c → P (op a c).2) : ∀ (l : List α) (c : Conn T), P c → P (forEach op l c).2
  | [], _, h => h
  | a :: rest, c, h => by
    have ha := hop a c h
    show P (andThen (op a c) (forEach op rest)).2
    generalize op a c = r at ha ⊢
    obtain ⟨b, d⟩ := r
    cases b with
    | false => exact ha
    | true => exact forEach_inv hop rest d ha

/-! ## Inside a transaction -/

/-- After an operation in a transaction over `s`: the transaction is still open, or the operation
failed and `s` is back. -/
def Within (s : T) (r : Bool × Conn T) : Prop :=
  r.2.saved = some s ∨ (r.1 = false ∧ r.2.saved = none ∧ r.2.contents = s)

theorem attempt_within {F : Faults} {f : Conn T → Option (Conn T)} {c : Conn T} {s : T}
    (hs : c.saved = some s) (hf : ∀ c', f c = some c' → c'.saved = some s) :
    Within s (attempt F f c) := by
  unfold attempt
  cases F c.clock with
  | fail => exact .inl hs
  | abort => exact .inr ⟨rfl, rfl, by simp [tick, undo, hs]⟩
  | ok =>
    cases hc : f c with
    | none => exact .inl hs
    | some c' => exact .inl (hf c' hc)

theorem statement_within {F : Faults} {f : T → Option T} {c : Conn T} {s : T}
    (hs : c.saved = some s) : Within s (statement F f c) := by
  refine attempt_within hs fun c' hc' => ?_
  obtain ⟨t, -, rfl⟩ := Option.map_eq_some_iff.mp hc'
  exact hs

/-- A second `BEGIN` fails. -/
theorem begin_of_open {F : Faults} {c : Conn T} {s : T} (hs : c.saved = some s) :
    (begin F c).1 = false := by
  unfold begin attempt
  cases F c.clock with
  | fail => rfl
  | abort => rfl
  | ok => simp [hs]

theorem begin_within {F : Faults} {c : Conn T} {s : T} (hs : c.saved = some s) :
    Within s (begin F c) := by
  refine attempt_within hs fun c' hc' => ?_
  simp [hs] at hc'

theorem andThen_within {r : Bool × Conn T} {k : Conn T → Bool × Conn T} {s : T}
    (hr : Within s r) (hk : ∀ c, c.saved = some s → Within s (k c)) : Within s (andThen r k) := by
  obtain ⟨b, c⟩ := r
  cases b with
  | false => exact hr
  | true =>
    rcases hr with hr | ⟨hr, -⟩
    · exact hk c hr
    · cases hr

theorem forEach_within {α : Type _} {op : α → Conn T → Bool × Conn T} {s : T}
    (hop : ∀ a c, c.saved = some s → Within s (op a c)) :
    ∀ (l : List α) (c : Conn T), c.saved = some s → Within s (forEach op l c)
  | [], _, hs => .inl hs
  | a :: rest, c, hs => andThen_within (hop a c hs) (forEach_within hop rest)

/-- Inside a transaction a bracketed operation never gets past its `BEGIN`. -/
theorem transaction_of_open {F : Faults} {body : Conn T → Bool × Conn T} {c : Conn T} {s : T}
    (hs : c.saved = some s) : transaction F body c = (false, (begin F c).2) := by
  have h := begin_of_open (F := F) hs
  unfold transaction andThen
  split
  · rename_i heq
    rw [heq]
  · rename_i heq
    rw [heq] at h
    cases h

/-- A rollback after a failed operation brings `s` back. -/
theorem rollback_of_within {c : Conn T} {s : T} (h : Within s (false, c)) :
    (rollback c).2.saved = none ∧ (rollback c).2.contents = s := by
  unfold rollback
  rcases h with h | ⟨-, h1, h2⟩
  · simp only at h
    rw [h]
    exact ⟨rfl, by simp [tick, undo, h]⟩
  · simp only at h1 h2
    rw [h1]
    exact ⟨h1, h2⟩

/-! ## Scripts -/

theorem exists_fault {F : Faults} {n time : Nat} (h : ¬ ∀ k < n, F (time + k) = .ok) :
    ∃ k < n, F (time + k) ≠ .ok := by
  simpa only [Classical.not_forall, exists_prop] using h

/-- `op` is `n` statements that together change the contents by `f`: it succeeds when all of them
are carried out, and fails otherwise. -/
structure Script (F : Faults) (n : Nat) (f : T → T) (op : Conn T → Bool × Conn T) (c : Conn T) :
    Prop where
  ok : (∀ k < n, F (c.clock + k) = .ok) →
    op c = (true, { c with contents := f c.contents, clock := c.clock + n })
  fail : (∃ k < n, F (c.clock + k) ≠ .ok) → (op c).1 = false

theorem Script.nil {F : Faults} {c : Conn T} : Script F 0 id (fun c => (true, c)) c :=
  ⟨fun _ => rfl, fun ⟨_, hk, _⟩ => absurd hk (Nat.not_lt_zero _)⟩

theorem statement_script {F : Faults} {f : T → Option T} {g : T → T} {c : Conn T}
    (h : f c.contents = some (g c.contents)) : Script F 1 g (statement F f) c := by
  refine ⟨fun hF => ?_, fun ⟨k, hk, hF⟩ => ?_⟩
  · have := hF 0 (by omega)
    rw [Nat.add_zero] at this
    simp [statement, attempt, this, h, tick]
  · obtain rfl : k = 0 := by omega
    rw [Nat.add_zero] at hF
    unfold statement attempt
    cases hc : F c.clock with
    | ok => exact absurd hc hF
    | fail => rfl
    | abort => rfl

theorem Script.andThen {F : Faults} {n m : Nat} {f g : T → T} {op k : Conn T → Bool × Conn T}
    {c : Conn T} (hop : Script F n f op c)
    (hk : Script F m g k { c with contents := f c.contents, clock := c.clock + n }) :
    Script F (n + m) (g ∘ f) (fun c => andThen (op c) k) c := by
  by_cases hn : ∀ i < n, F (c.clock + i) = .ok
  · have hop' := hop.ok hn
    refine ⟨fun hF => ?_, fun ⟨i, hi, hF⟩ => ?_⟩
    · have hm : ∀ i < m, F (c.clock + n + i) = .ok := fun i hi => by
        rw [Nat.add_assoc]
        exact hF (n + i) (by omega)
      simp only [hop', Conn.andThen, hk.ok hm, Function.comp_apply, Nat.add_assoc]
    · have him : ¬ i < n := fun h => hF (hn i h)
      simp only [hop', Conn.andThen]
      refine hk.fail ⟨i - n, by omega, ?_⟩
      show F (c.clock + n + (i - n)) ≠ .ok
      rwa [show c.clock + n + (i - n) = c.clock + i by omega]
  · refine ⟨fun hF => absurd (fun i hi => hF i (by omega)) hn, fun _ => ?_⟩
    have hfail := hop.fail (exists_fault hn)
    generalize op c = r at hfail ⊢
    obtain ⟨b, c'⟩ := r
    simp only at hfail
    rw [hfail]
    rfl

/-- A loop whose passes are scripts of `n` statements each. -/
theorem forEach_script {α : Type _} {F : Faults} {n : Nat} {f : α → T → T}
    {op : α → Conn T → Bool × Conn T} {P : T → Prop} (hP : ∀ a t, P t → P (f a t))
    (hop : ∀ a c, P c.contents → Script F n (f a) (op a) c) :
    ∀ (l : List α) (c : Conn T), P c.contents →
      Script F (l.length * n) (fun t => l.foldl (fun t a => f a t) t) (forEach op l) c
  | [], c, _ => by
    rw [List.length_nil, Nat.zero_mul]
    exact Script.nil
  | a :: rest, c, h => by
    have hrest := forEach_script hP hop rest
      { c with contents := f a c.contents, clock := c.clock + n } (hP a _ h)
    have := (hop a c h).andThen hrest
    rw [List.length_cons, Nat.succ_mul, Nat.add_comm (rest.length * n) n]
    exact this

/-! ## Bracketed operations -/

/-- The connection right after a successful `BEGIN`. -/
def opened (c : Conn T) : Conn T :=
  { contents := c.contents, saved := some c.contents, clock := c.clock + 1 }

theorem begin_ok {F : Faults} {c : Conn T} (hc : c.saved = none) (hF : F c.clock = .ok) :
    begin F c = (true, c.opened) := by
  simp [begin, attempt, hF, hc, tick, opened]

/-- A `BEGIN` that fails outside a transaction changes nothing. -/
theorem begin_fault {F : Faults} {c : Conn T} (hc : c.saved = none) (hF : F c.clock ≠ .ok) :
    (begin F c).1 = false ∧ (begin F c).2.saved = none ∧
      (begin F c).2.contents = c.contents := by
  unfold begin attempt
  cases h : F c.clock with
  | ok => exact absurd h hF
  | fail => exact ⟨rfl, hc, rfl⟩
  | abort => exact ⟨rfl, rfl, by simp [tick, undo, hc]⟩

theorem commit_ok {F : Faults} {c : Conn T} {s : T} (hc : c.saved = some s)
    (hF : F c.clock = .ok) :
    commit F c = (true, { c with saved := none, clock := c.clock + 1 }) := by
  simp [commit, attempt, hF, hc, tick]

/-- Outside a transaction, a statement without effect on the contents leaves them as they are. -/
theorem read_closed {F : Faults} {f : T → Option T} {c : Conn T} (hc : c.saved = none)
    (hf : ∀ t, f c.contents = some t → t = c.contents) :
    (statement F f c).2.saved = none ∧ (statement F f c).2.contents = c.contents := by
  unfold statement attempt
  cases F c.clock with
  | fail => exact ⟨hc, rfl⟩
  | abort => exact ⟨rfl, by simp [tick, undo, hc]⟩
  | ok =>
    cases h : f c.contents with
    | none => simp [h, tick, hc]
    | some t => simp [h, tick, hc, hf t h]

section Bracket

variable {F : Faults} {body : Conn T → Bool × Conn T} {c : Conn T} {n : Nat} {f : T → T}

/-- A bracketed operation whose body fails leaves the contents as they were. -/
theorem transaction_undone (hc : c.saved = none)
    (hbody : F c.clock = .ok →
      Within c.contents (body c.opened) ∧ (body c.opened).1 = false) :
    (transaction F body c).1 = false ∧ (transaction F body c).2.saved = none ∧
      (transaction F body c).2.contents = c.contents := by
  unfold transaction
  by_cases h0 : F c.clock = .ok
  · rw [begin_ok hc h0]
    obtain ⟨hw, hfail⟩ := hbody h0
    show (finish F (body c.opened)).1 = false ∧ (finish F (body c.opened)).2.saved = none ∧
      (finish F (body c.opened)).2.contents = c.contents
    generalize body c.opened = r at hw hfail ⊢
    obtain ⟨b, d⟩ := r
    simp only at hfail
    rw [hfail] at hw ⊢
    exact ⟨rfl, rollback_of_within hw⟩
  · obtain ⟨h1, h2, h3⟩ := begin_fault hc h0
    generalize begin F c = r at h1 h2 h3 ⊢
    obtain ⟨b, d⟩ := r
    simp only at h1
    rw [h1]
    exact ⟨rfl, h2, h3⟩

/-- A bracketed script that fails before its `COMMIT` leaves the contents as they were. -/
theorem transaction_early (hc : c.saved = none)
    (hw : Within c.contents (body c.opened)) (hs : Script F n f body c.opened)
    (hF : ∃ k < n + 1, F (c.clock + k) ≠ .ok) :
    (transaction F body c).1 = false ∧ (transaction F body c).2.saved = none ∧
      (transaction F body c).2.contents = c.contents := by
  refine transaction_undone hc fun h0 => ⟨hw, ?_⟩
  obtain ⟨k, hk, hFk⟩ := hF
  have hpos : 0 < k := by
    rcases Nat.eq_zero_or_pos k with rfl | hpos
    · exact absurd h0 hFk
    · exact hpos
  refine hs.fail ⟨k - 1, by omega, ?_⟩
  show F (c.clock + 1 + (k - 1)) ≠ .ok
  rwa [show c.clock + 1 + (k - 1) = c.clock + k by omega]

/-- A bracketed script without an earlier failure is decided by its `COMMIT`. -/
theorem transaction_late (hc : c.saved = none) (hs : Script F n f body c.opened)
    (hF : ∀ k < n + 1, F (c.clock + k) = .ok) :
    transaction F body c = commit F
      { contents := f c.contents, saved := some c.contents, clock := c.clock + 1 + n } := by
  have h0 : F c.clock = .ok := hF 0 (by omega)
  have hbody := hs.ok fun k hk => by
    show F (c.clock + 1 + k) = .ok
    rw [Nat.add_assoc, Nat.add_comm 1 k]
    exact hF (k + 1) (by omega)
  unfold transaction
  rw [begin_ok hc h0]
  show finish F (body c.opened) = _
  rw [hbody]
  rfl

/-- A bracketed script that fails leaves the contents as they were, and no transaction stays open,
unless its `COMMIT` is reached and fails with no effect. -/
theorem transaction_closed (hc : c.saved = none)
    (hw : Within c.contents (body c.opened)) (hs : Script F n f body c.opened)
    (hF : (∀ k < n + 1, F (c.clock + k) = .ok) → F (c.clock + 1 + n) ≠ .fail) :
    (transaction F body c).2.saved = none ∧
      ((transaction F body c).1 = false → (transaction F body c).2.contents = c.contents) := by
  by_cases hall : ∀ k < n + 1, F (c.clock + k) = .ok
  · rw [transaction_late hc hs hall]
    cases hcommit : F (c.clock + 1 + n) with
    | fail => exact absurd hcommit (hF hall)
    | abort => simp [commit, attempt, hcommit, undo, tick]
    | ok =>
      rw [commit_ok rfl hcommit]
      exact ⟨rfl, fun h => (by cases h)⟩
  · obtain ⟨-, hsaved, hcontents⟩ := transaction_early hc hw hs (exists_fault hall)
    exact ⟨hsaved, fun _ => hcontents⟩

/-- A `COMMIT` that fails with no effect. -/
theorem transaction_left_open (hc : c.saved = none) (hs : Script F n f body c.opened)
    (hall : ∀ k < n + 1, F (c.clock + k) = .ok) (hcommit : F (c.clock + 1 + n) = .fail) :
    (transaction F body c).2.saved = some c.contents := by
  rw [transaction_late hc hs hall]
  simp [commit, attempt, hcommit, tick]

/-- A bracketed script that succeeds has changed the contents. -/
theorem transaction_of_true (hc : c.saved = none)
    (hw : Within c.contents (body c.opened)) (hs : Script F n f body c.opened)
    (h : (transaction F body c).1 = true) :
    (transaction F body c).2.contents = f c.contents := by
  by_cases hall : ∀ k < n + 1, F (c.clock + k) = .ok
  · rw [transaction_late hc hs hall] at h ⊢
    cases hcommit : F (c.clock + 1 + n) with
    | fail => simp [commit, attempt, hcommit] at h
    | abort => simp [commit, attempt, hcommit] at h
    | ok => rw [commit_ok rfl hcommit]
  · rw [(transaction_early hc hw hs (exists_fault hall)).1] at h
    cases h

end Bracket

/-! ## Properties of the contents -/

/-- The contents have the property, and so do those that a rollback goes back to. -/
structure Has (P : T → Prop) (c : Conn T) : Prop where
  contents : P c.contents
  saved : ∀ s, c.saved = some s → P s

/-- `op` keeps the property, whether or not it succeeds. -/
def Keeps (P : T → Prop) (op : Conn T → Bool × Conn T) : Prop := ∀ c, c.Has P → (op c).2.Has P

section Keeps

variable {P : T → Prop} {F : Faults}

theorem Has.undo {c : Conn T} (h : c.Has P) : c.undo.Has P := by
  refine ⟨?_, fun s hs => (by cases hs)⟩
  cases hsaved : c.saved with
  | none => simpa [Conn.undo, hsaved] using h.contents
  | some s => simpa [Conn.undo, hsaved] using h.saved s hsaved

theorem keeps_attempt {f : Conn T → Option (Conn T)}
    (hf : ∀ c c', c.Has P → f c = some c' → c'.Has P) : Keeps P (attempt F f) := by
  intro c h
  unfold attempt
  cases F c.clock with
  | fail => exact ⟨h.contents, h.saved⟩
  | abort => exact ⟨h.undo.contents, h.undo.saved⟩
  | ok =>
    cases hc : f c with
    | none => exact ⟨h.contents, h.saved⟩
    | some c' => exact ⟨(hf c c' h hc).contents, (hf c c' h hc).saved⟩

theorem keeps_statement {f : T → Option T} (hf : ∀ t t', P t → f t = some t' → P t') :
    Keeps P (statement F f) := by
  refine keeps_attempt fun c c' h hc => ?_
  obtain ⟨t, ht, rfl⟩ := Option.map_eq_some_iff.mp hc
  exact ⟨hf c.contents t h.contents ht, h.saved⟩

theorem keeps_begin : Keeps P (begin F) := by
  refine keeps_attempt fun c c' h hc => ?_
  split at hc
  · cases hc
  · cases hc
    exact ⟨h.contents, fun s hs => Option.some.inj hs ▸ h.contents⟩

theorem keeps_commit : Keeps P (commit F) := by
  refine keeps_attempt fun c c' h hc => ?_
  split at hc
  · cases hc
    exact ⟨h.contents, fun s hs => (by cases hs)⟩
  · cases hc

theorem keeps_rollback : Keeps P (rollback (T := T)) := by
  intro c h
  unfold rollback
  split
  · exact ⟨h.undo.contents, h.undo.saved⟩
  · exact ⟨h.contents, h.saved⟩

theorem Keeps.andThen {op k : Conn T → Bool × Conn T} (hop : Keeps P op) (hk : Keeps P k) :
    Keeps P fun c => andThen (op c) k := by
  intro c h
  have hc := hop c h
  show (Conn.andThen (op c) k).2.Has P
  generalize op c = r at hc ⊢
  obtain ⟨b, d⟩ := r
  cases b with
  | false => exact hc
  | true => exact hk d hc

theorem Keeps.forEach {α : Type _} {op : α → Conn T → Bool × Conn T} (hop : ∀ a, Keeps P (op a))
    (l : List α) : Keeps P (forEach op l) :=
  fun c h => forEach_inv (fun a d hd => hop a d hd) l c h

theorem Keeps.transaction {body : Conn T → Bool × Conn T} (hbody : Keeps P body) :
    Keeps P (transaction F body) := by
  refine keeps_begin.andThen fun c h => ?_
  have hc := hbody c h
  generalize body c = r at hc ⊢
  obtain ⟨b, d⟩ := r
  cases b with
  | false => exact keeps_rollback d hc
  | true => exact keeps_commit d hc

end Keeps

end Conn
