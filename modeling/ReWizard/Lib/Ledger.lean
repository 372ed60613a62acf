import ReWizard.Lib.History
import ReWizard.Lib.Transaction

/-!
# Ledgers

A ledger says what a store holds by the entries that made it: the durable ones, and the ones of the
open transaction. `Ledger.Step` is what a call may do to a ledger when it gives a certain reply, and
`Ledger.Agrees` ties a connection to one. Calls on the connection refine the ledger:

* `Conn.Atomic`: an operation that is carried out, refused, or undone with the open transaction;
* `Agrees.save`, `Agrees.bracketed`, `Agrees.begin`, `Agrees.commit`, `Agrees.rollback`,
  `Agrees.read`: the step of the ledger that each kind of operation makes, whatever fails;
* `follows_durable`, `follows_entries`: no run takes back a durable entry or makes one up.
-/

/-- The entries in the order in which they were made. -/
structure Ledger (E : Type _) where
  durable : List E := []
  pending : Option (List E) := none

namespace Ledger

variable {E T : Type _}

/-- All entries, the durable ones first. -/
def entries (l : Ledger E) : List E := l.durable ++ l.pending.getD []

/-- The contents after the entries. -/
def replay (apply : E → T → T) (t : T) (entries : List E) : T :=
  entries.foldl (fun t e => apply e t) t

theorem replay_snoc (apply : E → T → T) (t : T) (l : List E) (e : E) :
    replay apply t (l ++ [e]) = apply e (replay apply t l) := by
  simp [replay]

/-- What a call is to a ledger: it makes an entry, makes one in a transaction of its own, begins,
commits or rolls back the transaction, or only reads. -/
inductive Act (E : Type _)
  | save (e : E)
  | bracketed (e : E)
  | begin
  | commit
  | rollback
  | read

def Act.made : Act E → Option E
  | .save e => some e
  | .bracketed e => some e
  | _ => none

/-- What a call may do that replies `true` or `false`. What a read replies counts as `false`. -/
inductive Step : Act E → Bool → Ledger E → Ledger E → Prop
  | saved {e : E} {d : List E} : Step (.save e) true ⟨d, none⟩ ⟨d ++ [e], none⟩
  | noted {e : E} {d p : List E} : Step (.save e) true ⟨d, some p⟩ ⟨d, some (p ++ [e])⟩
  | bracketed {e : E} {d : List E} : Step (.bracketed e) true ⟨d, none⟩ ⟨d ++ [e], none⟩
  /-- The transaction could not be committed and is still open. -/
  | leftOpen {e : E} {d : List E} : Step (.bracketed e) false ⟨d, none⟩ ⟨d, some [e]⟩
  | begun {d : List E} : Step .begin true ⟨d, none⟩ ⟨d, some []⟩
  | committed {d p : List E} : Step .commit true ⟨d, some p⟩ ⟨d ++ p, none⟩
  | rolledBack {d p : List E} : Step .rollback true ⟨d, some p⟩ ⟨d, none⟩
  | refused {a : Act E} {l : Ledger E} : Step a false l l
  /-- The store undid the open transaction with the call that failed. -/
  | undone {a : Act E} {d p : List E} : Step a false ⟨d, some p⟩ ⟨d, none⟩

namespace Step

variable {a : Act E} {b : Bool} {l l' : Ledger E}

/-- **Durability.** -/
theorem durable (h : Step a b l l') : l.durable <+: l'.durable := by
  cases h <;> simp

/-- **Nothing is made up**: an entry is one of before, in the same order, or that of the call. -/
theorem entries (h : Step a b l l') : l'.entries.Sublist (l.entries ++ a.made.toList) := by
  cases h <;> simp [Ledger.entries, Act.made]

end Step

/-! ## Runs -/

section

variable {C R : Type _} {takes : C → R → Ledger E → Ledger E → Prop} {h : List (C × R)}
  {l l' : Ledger E}

/-- What is durable stays so, in the order in which it was made. -/
theorem follows_durable (hstep : ∀ c r l l', takes c r l l' → ∃ a b, Step a b l l')
    (hf : History.Follows takes l h l') : l.durable <+: l'.durable := by
  induction hf with
  | nil => exact List.prefix_rfl
  | snoc _ htakes ih =>
    obtain ⟨a, b, hs⟩ := hstep _ _ _ _ htakes
    exact ih.trans hs.durable

/-- Nothing is made up, and nothing is done twice. -/
theorem follows_entries (made : C → Option E)
    (hstep : ∀ c r l l', takes c r l l' → ∃ a b, Step a b l l' ∧ a.made = made c)
    (hf : History.Follows takes l h l') :
    l'.entries.Sublist (l.entries ++ h.filterMap fun x => made x.1) := by
  induction hf with
  | nil => simp
  | @snoc h k k' c r _ htakes ih =>
    obtain ⟨a, b, hs, ha⟩ := hstep _ _ _ _ htakes
    refine hs.entries.trans ((ih.append_right _).trans ?_)
    rw [ha, List.filterMap_append, List.append_assoc]
    cases hc : made c <;> simp [hc]

end

end Ledger

namespace Conn

variable {T : Type _} {F : Faults}

/-- How an operation goes that is carried out as a whole or not at all. -/
inductive AtomicOut (f : T → T) (c : Conn T) : Bool × Conn T → Prop
  | done {c' : Conn T} : c'.contents = f c.contents → c'.saved = c.saved → AtomicOut f c (true, c')
  | refused {c' : Conn T} : c'.contents = c.contents → c'.saved = c.saved →
      AtomicOut f c (false, c')
  | undone {c' : Conn T} {s : T} : c.saved = some s → c'.contents = s → c'.saved = none →
      AtomicOut f c (false, c')

/-- The operation changes the contents by `f`, or fails. -/
def Atomic (f : T → T) (op : Conn T → Bool × Conn T) : Prop := ∀ c, AtomicOut f c (op c)

/-- How a statement goes. -/
theorem attempt_cases (F : Faults) (f : Conn T → Option (Conn T)) (c : Conn T) :
    attempt F f c = (false, c.tick) ∨ attempt F f c = (false, c.undo.tick) ∨
      ∃ c', f c = some c' ∧ attempt F f c = (true, c'.tick) := by
  unfold attempt
  cases F c.clock with
  | fail => exact .inl rfl
  | abort => exact .inr (.inl rfl)
  | ok =>
    cases hf : f c with
    | none => exact .inl rfl
    | some c' => exact .inr (.inr ⟨c', rfl, rfl⟩)

theorem statement_cases (F : Faults) (f : T → Option T) (c : Conn T) :
    statement F f c = (false, c.tick) ∨ statement F f c = (false, c.undo.tick) ∨
      ∃ t, f c.contents = some t ∧
        statement F f c = (true, { c with contents := t, clock := c.clock + 1 }) := by
  refine (attempt_cases F _ c).imp_right (Or.imp_right ?_)
  rintro ⟨c', hc', h⟩
  obtain ⟨t, ht, rfl⟩ := Option.map_eq_some_iff.mp hc'
  exact ⟨t, ht, h⟩

theorem begin_cases (F : Faults) (c : Conn T) :
    begin F c = (false, c.tick) ∨ begin F c = (false, c.undo.tick) ∨
      (c.saved = none ∧ begin F c = (true, c.opened)) := by
  refine (attempt_cases F _ c).imp_right (Or.imp_right ?_)
  rintro ⟨c', hc', h⟩
  split at hc'
  · cases hc'
  · rename_i hs
    cases hc'
    exact ⟨Option.not_isSome_iff_eq_none.mp hs, h⟩

theorem commit_cases (F : Faults) (c : Conn T) :
    commit F c = (false, c.tick) ∨ commit F c = (false, c.undo.tick) ∨
      (c.saved.isSome = true ∧
        commit F c = (true, { c with saved := none, clock := c.clock + 1 })) := by
  refine (attempt_cases F _ c).imp_right (Or.imp_right ?_)
  rintro ⟨c', hc', h⟩
  split at hc'
  · rename_i hs
    cases hc'
    exact ⟨hs, h⟩
  · cases hc'

/-- Undoing the open transaction. -/
theorem AtomicOut.undo (f : T → T) (c : Conn T) : AtomicOut f c (false, c.undo.tick) := by
  cases hs : c.saved with
  | none => exact .refused (by simp [tick, Conn.undo, hs]) (by simp [tick, Conn.undo, hs])
  | some s => exact .undone hs (by simp [tick, Conn.undo, hs]) rfl

theorem statement_atomic (f : T → Option T) :
    Atomic (fun t => (f t).getD t) (statement F f) := by
  intro c
  rcases statement_cases F f c with h | h | ⟨t, ht, h⟩
  · exact h ▸ .refused rfl rfl
  · exact h ▸ .undo _ c
  · exact h ▸ .done (by simp [ht]) rfl

/-- A statement without effect before the operation. -/
theorem Atomic.after {f : T → T} {op k : Conn T → Bool × Conn T} (hop : Atomic id op)
    (hk : Atomic f k) : Atomic f fun c => andThen (op c) k := by
  intro c
  have h := hop c
  show AtomicOut f c (andThen (op c) k)
  generalize op c = r at h
  cases h with
  | refused hc hs => exact .refused hc hs
  | undone hs hc hs' => exact .undone hs hc hs'
  | @done c' hc hs =>
    have h' := hk c'
    show AtomicOut f c (k c')
    generalize k c' = r' at h'
    cases h' with
    | done hc' hs' => exact .done (hc'.trans (congrArg f hc)) (hs'.trans hs)
    | refused hc' hs' => exact .refused (hc'.trans hc) (hs'.trans hs)
    | undone hs' hc' hn => exact .undone (hs ▸ hs') hc' hn

/-- Apart from the clock nothing changed, or the open transaction was undone. -/
def OnlyRead (c c' : Conn T) : Prop :=
  (c'.contents = c.contents ∧ c'.saved = c.saved) ∨
    (c'.saved = none ∧ c.saved = some c'.contents)

theorem OnlyRead.trans {c c' c'' : Conn T} (h : c.OnlyRead c') (h' : c'.OnlyRead c'') :
    c.OnlyRead c'' := by
  rcases h with ⟨hc, hs⟩ | ⟨hn, hs⟩ <;> rcases h' with ⟨hc', hs'⟩ | ⟨hn', hs'⟩
  · exact .inl ⟨hc'.trans hc, hs'.trans hs⟩
  · exact .inr ⟨hn', hs ▸ hs'⟩
  · exact .inr ⟨hs'.trans hn, hc' ▸ hs⟩
  · rw [hn] at hs'
    cases hs'

/-- An operation that has no effect when it is carried out. -/
theorem AtomicOut.onlyRead {c c' : Conn T} {b : Bool} (h : AtomicOut id c (b, c')) :
    c.OnlyRead c' := by
  cases h with
  | done hc hs => exact .inl ⟨hc, hs⟩
  | refused hc hs => exact .inl ⟨hc, hs⟩
  | undone hs hc hn => exact .inr ⟨hn, hc ▸ hs⟩

/-- How a bracketed operation goes outside a transaction. -/
inductive BracketOut (f : T → T) (c : Conn T) : Bool × Conn T → Prop
  | done {c' : Conn T} : c'.contents = f c.contents → c'.saved = none → BracketOut f c (true, c')
  | refused {c' : Conn T} : c'.contents = c.contents → c'.saved = none → BracketOut f c (false, c')
  | leftOpen {c' : Conn T} : c'.contents = f c.contents → c'.saved = some c.contents →
      BracketOut f c (false, c')

/-- The body of a bracketed operation keeps to its transaction, and changes the contents by `f` when
it succeeds. -/
structure BodyOf (f : T → T) (body : Conn T → Bool × Conn T) : Prop where
  within : ∀ c s, c.saved = some s → Within s (body c)
  done : ∀ c, (body c).1 = true → (body c).2.contents = f c.contents

section

variable {f : T → T} {body : Conn T → Bool × Conn T} {c : Conn T}

theorem transaction_closedOut (h : BodyOf f body) (hc : c.saved = none) :
    BracketOut f c (transaction F body c) := by
  by_cases h0 : F c.clock = .ok
  · have hw := h.within c.opened c.contents rfl
    have hdone := h.done c.opened
    unfold transaction
    rw [begin_ok hc h0]
    show BracketOut f c (finish F (body c.opened))
    generalize body c.opened = r at hw hdone
    obtain ⟨b, d⟩ := r
    cases b with
    | false =>
      obtain ⟨hs, hcontents⟩ := rollback_of_within hw
      exact .refused hcontents hs
    | true =>
      have hd : d.contents = f c.contents := hdone rfl
      have hs : d.saved = some c.contents := hw.resolve_right fun h => by cases h.1
      show BracketOut f c (commit F d)
      rcases commit_cases F d with h | h | ⟨-, h⟩
      · exact h ▸ .leftOpen hd hs
      · exact h ▸ .refused (by simp [tick, undo, hs]) rfl
      · exact h ▸ .done hd rfl
  · obtain ⟨hfalse, hs, hcontents⟩ := begin_fault hc h0
    unfold transaction
    generalize begin F c = r at hfalse hs hcontents
    obtain ⟨b, d⟩ := r
    simp only at hfalse
    subst hfalse
    exact .refused hcontents hs

/-- Inside a transaction a bracketed operation has no effect of its own. -/
theorem transaction_openOut (f : T → T) (body : Conn T → Bool × Conn T) {s : T} (hc : c.saved = some s) :
    (transaction F body c).1 = false ∧ AtomicOut f c (transaction F body c) := by
  rw [transaction_of_open hc]
  refine ⟨rfl, ?_⟩
  rcases begin_cases F c with h | h | ⟨hnone, -⟩
  · exact h ▸ .refused rfl rfl
  · exact h ▸ .undo f c
  · rw [hnone] at hc
    cases hc

end

end Conn

namespace Ledger

variable {E T : Type _} {F : Faults} {apply : E → T → T} {t₀ : T}

/-- The connection holds what the ledger says, and would be rolled back to the durable part. -/
structure Agrees (apply : E → T → T) (t₀ : T) (c : Conn T) (l : Ledger E) : Prop where
  saved : c.saved = l.pending.map fun _ => replay apply t₀ l.durable
  contents : c.contents = replay apply t₀ l.entries

namespace Agrees

variable {c c' : Conn T} {l : Ledger E}

theorem start {c : Conn T} (h : c.saved = none) : Agrees apply c.contents c {} :=
  ⟨h, rfl⟩

/-- Nothing happened. -/
theorem refused (h : Agrees apply t₀ c l) (hc : c'.contents = c.contents)
    (hs : c'.saved = c.saved) : Agrees apply t₀ c' l :=
  ⟨hs.trans h.saved, hc.trans h.contents⟩

/-- The open transaction, if there was one, is gone. -/
theorem undone (h : Agrees apply t₀ c l) (a : Act E) {s : T} (hs : c.saved = some s)
    (hc : c'.contents = s) (hn : c'.saved = none) :
    ∃ l', Step a false l l' ∧ Agrees apply t₀ c' l' := by
  obtain ⟨d, p⟩ := l
  have hsaved := h.saved
  rw [hs] at hsaved
  cases p with
  | none => cases hsaved
  | some p =>
    cases hsaved
    exact ⟨_, .undone, hn, by simp [entries, hc]⟩

/-- What an operation does that is no entry. -/
theorem noEntry (h : Agrees apply t₀ c l) (a : Act E) {f : T → T} (hr : Conn.AtomicOut f c (false, c')) :
    ∃ l', Step a false l l' ∧ Agrees apply t₀ c' l' := by
  cases hr with
  | refused hc hs => exact ⟨l, .refused, h.refused hc hs⟩
  | undone hs hc hn => exact h.undone a hs hc hn

theorem read (h : Agrees apply t₀ c l) (hread : c.OnlyRead c') :
    ∃ l', Step .read false l l' ∧ Agrees apply t₀ c' l' := by
  rcases hread with ⟨hc, hs⟩ | ⟨hn, hs⟩
  · exact ⟨l, .refused, h.refused hc hs⟩
  · exact h.undone _ hs rfl hn

/-- One entry. -/
theorem save (h : Agrees apply t₀ c l) {e : E} {r : Bool × Conn T}
    (hr : Conn.AtomicOut (apply e) c r) :
    ∃ l', Step (.save e) r.1 l l' ∧ Agrees apply t₀ r.2 l' := by
  cases hr with
  | refused hc hs => exact ⟨l, .refused, h.refused hc hs⟩
  | undone hs hc hn => exact h.undone _ hs hc hn
  | done hc hs =>
    obtain ⟨d, p⟩ := l
    have hsaved := h.saved
    have hcontents := hc.trans (congrArg (apply e) h.contents)
    cases p with
    | none =>
      refine ⟨_, .saved, hs.trans hsaved, hcontents.trans ?_⟩
      simp [entries, replay_snoc]
    | some p =>
      refine ⟨_, .noted, hs.trans hsaved, hcontents.trans ?_⟩
      simp [entries, ← List.append_assoc, replay_snoc]

/-- One entry in a transaction of its own. -/
theorem bracketed (h : Agrees apply t₀ c l) {e : E} {body : Conn T → Bool × Conn T}
    (hbody : Conn.BodyOf (apply e) body) :
    ∃ l', Step (.bracketed e) (Conn.transaction F body c).1 l l' ∧
      Agrees apply t₀ (Conn.transaction F body c).2 l' := by
  obtain ⟨d, p⟩ := l
  cases p with
  | none =>
    have hc := h.contents
    have hr := Conn.transaction_closedOut (F := F) hbody h.saved
    generalize Conn.transaction F body c = r at hr
    cases hr with
    | refused hc' hs => exact ⟨_, .refused, h.refused hc' (hs.trans h.saved.symm)⟩
    | done hc' hs =>
      refine ⟨_, .bracketed, hs, hc'.trans ((congrArg (apply e) hc).trans ?_)⟩
      simp [entries, replay_snoc]
    | leftOpen hc' hs =>
      refine ⟨_, .leftOpen, ?_, hc'.trans ((congrArg (apply e) hc).trans ?_)⟩
      · simpa [entries] using hs.trans (congrArg some hc)
      · simp [entries, replay_snoc]
  | some p =>
    obtain ⟨hfalse, hr⟩ := Conn.transaction_openOut (F := F) id body h.saved
    generalize Conn.transaction F body c = r at hfalse hr
    obtain ⟨b, d⟩ := r
    simp only at hfalse
    subst hfalse
    exact h.noEntry _ hr

theorem begin (h : Agrees apply t₀ c l) :
    ∃ l', Step .begin (Conn.begin F c).1 l l' ∧ Agrees apply t₀ (Conn.begin F c).2 l' := by
  rcases Conn.begin_cases F c with hr | hr | ⟨hnone, hr⟩
  · exact hr ▸ ⟨l, .refused, h.refused rfl rfl⟩
  · exact hr ▸ h.noEntry _ (.undo id c)
  · obtain ⟨d, p⟩ := l
    have hsaved := h.saved
    rw [hnone] at hsaved
    cases p with
    | none => exact hr ▸ ⟨_, .begun, by simpa [entries, Conn.opened] using h.contents, h.contents⟩
    | some p => cases hsaved

theorem commit (h : Agrees apply t₀ c l) :
    ∃ l', Step .commit (Conn.commit F c).1 l l' ∧ Agrees apply t₀ (Conn.commit F c).2 l' := by
  rcases Conn.commit_cases F c with hr | hr | ⟨hsome, hr⟩
  · exact hr ▸ ⟨l, .refused, h.refused rfl rfl⟩
  · exact hr ▸ h.noEntry _ (.undo id c)
  · obtain ⟨d, p⟩ := l
    rw [h.saved] at hsome
    cases p with
    | none => cases hsome
    | some p => exact hr ▸ ⟨_, .committed, rfl, by simpa [entries] using h.contents⟩

theorem rollback (h : Agrees apply t₀ c l) :
    ∃ l', Step .rollback (Conn.rollback c).1 l l' ∧ Agrees apply t₀ (Conn.rollback c).2 l' := by
  unfold Conn.rollback
  obtain ⟨d, p⟩ := l
  have hsaved := h.saved
  cases p with
  | none =>
    rw [hsaved]
    exact ⟨_, .refused, h.refused rfl rfl⟩
  | some p =>
    rw [hsaved]
    exact ⟨_, .rolledBack, rfl, by simp [Conn.undo, Conn.tick, hsaved, entries]⟩

end Agrees

end Ledger
