import Mathlib.Logic.Function.Iterate

/-!
# Loops

`Loop.run body n s` passes through a loop body at most `n` times from the state `s`; `none` means
the bound was met first. `Loop.exec` is the total form: the loop's result, or the start state when
the bound is too small. The rules:

* `Exits.inv`: an invariant of the body holds where the loop is left (partial correctness);
* `run_total`, `exec_exits`: a measure that every pass decreases makes the loop finish;
* `Reaches`: the states before the passes of a loop, with `Reaches.inv` for an invariant that only
  the passes from reached states need to keep, and `check` to evaluate a predicate on all of them;
* `exec_rel`: two loops in lockstep;
* `runChecked`: loops whose passes may fault, with `runChecked_eq` for a loop that does not;
* `iterate_settles`: a step that is repeated, and changes nothing or decreases a measure.
-/

namespace Loop

variable {σ : Type _}

/-- What one pass through the body does: another pass follows, or the loop is left. -/
inductive Out (σ : Type _)
  | next (s : σ)
  | done (s : σ)

theorem Out.next_or_done (o : Out σ) : ∃ s, o = .next s ∨ o = .done s := by
  cases o with
  | next s => exact ⟨s, .inl rfl⟩
  | done s => exact ⟨s, .inr rfl⟩

/-- The loop with at most `n` passes. -/
def run (body : σ → Out σ) : Nat → σ → Option σ
  | 0, _ => none
  | n + 1, s =>
    match body s with
    | .done t => some t
    | .next t => run body n t

/-- The loop with a bound on its passes that is large enough (`exec_exits`). -/
def exec (body : σ → Out σ) (n : Nat) (s : σ) : σ := (run body n s).getD s

/-! ## Invariants -/

/-- `Exits body s t`: from `s`, a pass is reached that leaves the loop with `t`. -/
inductive Exits (body : σ → Out σ) : σ → σ → Prop
  | done {s t : σ} : body s = .done t → Exits body s t
  | next {s s' t : σ} : body s = .next s' → Exits body s' t → Exits body s t

theorem exits_of_run {body : σ → Out σ} : ∀ {n : Nat} {s t : σ}, run body n s = some t →
    Exits body s t
  | 0, _, _, h => by cases h
  | n + 1, s, t, h => by
    simp only [run] at h
    split at h
    · rename_i u hu
      cases h
      exact .done hu
    · rename_i u hu
      exact .next hu (exits_of_run h)

/-- The invariant rule: `I` is kept by every pass, so it holds where the loop is left. -/
theorem Exits.inv {body : σ → Out σ} {I : σ → Prop} {s t : σ} (h : Exits body s t) (hs : I s)
    (hI : ∀ s s', I s → body s = .next s' → I s') : ∃ r, I r ∧ body r = .done t := by
  induction h with
  | done hd => exact ⟨_, hs, hd⟩
  | next hn _ ih => exact ih (hI _ _ hs hn)

/-- The same for `exec`, which is in an invariant state even when its bound is too small. -/
theorem exec_inv {body : σ → Out σ} {I : σ → Prop} {n : Nat} {s : σ} (hs : I s)
    (hnext : ∀ s s', I s → body s = .next s' → I s')
    (hdone : ∀ s s', I s → body s = .done s' → I s') : I (exec body n s) := by
  unfold exec
  cases hr : run body n s with
  | none => exact hs
  | some t =>
    obtain ⟨r, hr, hd⟩ := (exits_of_run hr).inv hs hnext
    exact hdone r t hr hd

/-! ## Termination -/

/-- A measure that every pass from an invariant state decreases bounds the number of passes. -/
theorem run_total {body : σ → Out σ} {I : σ → Prop} (m : σ → Nat)
    (hI : ∀ s s', I s → body s = .next s' → I s' ∧ m s' < m s) :
    ∀ {n : Nat} {s : σ}, I s → m s < n → ∃ t, run body n s = some t
  | 0, _, _, hm => absurd hm (Nat.not_lt_zero _)
  | n + 1, s, hs, hm => by
    simp only [run]
    split
    · exact ⟨_, rfl⟩
    · rename_i u hu
      obtain ⟨hu', hlt⟩ := hI s u hs hu
      exact run_total m hI hu' (by omega)

theorem exec_eq_of_run {body : σ → Out σ} {n : Nat} {s t : σ} (h : run body n s = some t) :
    exec body n s = t := by
  simp [exec, h]

/-- `exec` gives the loop's result when the measure starts below the bound. -/
theorem run_eq_exec {body : σ → Out σ} {I : σ → Prop} (m : σ → Nat)
    (hI : ∀ s s', I s → body s = .next s' → I s' ∧ m s' < m s) {n : Nat} {s : σ} (hs : I s)
    (hm : m s < n) : run body n s = some (exec body n s) := by
  obtain ⟨t, ht⟩ := run_total m hI hs hm
  rw [exec_eq_of_run ht]
  exact ht

theorem exec_exits {body : σ → Out σ} {I : σ → Prop} (m : σ → Nat)
    (hI : ∀ s s', I s → body s = .next s' → I s' ∧ m s' < m s) {n : Nat} {s : σ} (hs : I s)
    (hm : m s < n) : Exits body s (exec body n s) := exits_of_run (run_eq_exec m hI hs hm)

/-! ## Reached states -/

/-- `Reaches body s r`: the loop from `s` comes to a pass that starts in `r`. -/
inductive Reaches (body : σ → Out σ) (s : σ) : σ → Prop
  | refl : Reaches body s s
  | tail {r r' : σ} : Reaches body s r → body r = .next r' → Reaches body s r'

theorem Reaches.head {body : σ → Out σ} {s s' r : σ} (hn : body s = .next s')
    (h : Reaches body s' r) : Reaches body s r := by
  induction h with
  | refl => exact .tail .refl hn
  | tail _ hn' ih => exact .tail ih hn'

/-- A loop is left from the last state it reaches. -/
theorem Exits.reached {body : σ → Out σ} {s t : σ} (h : Exits body s t) :
    ∃ r, Reaches body s r ∧ body r = .done t := by
  induction h with
  | done hd => exact ⟨_, .refl, hd⟩
  | next hn _ ih =>
    obtain ⟨r, hr, hd⟩ := ih
    exact ⟨r, .head hn hr, hd⟩

/-- From every state it reaches, the loop is left in the same way. -/
theorem Reaches.exits {body : σ → Out σ} {s r t : σ} (h : Reaches body s r)
    (he : Exits body s t) : Exits body r t := by
  induction h with
  | refl => exact he
  | tail _ hn ih =>
    cases ih with
    | done hd => rw [hn] at hd; cases hd
    | next hn' he' => rw [hn] at hn'; cases hn'; exact he'

theorem Reaches.inv {body : σ → Out σ} {I : σ → Prop} {s r : σ} (h : Reaches body s r) (hs : I s)
    (hI : ∀ r r', Reaches body s r → I r → body r = .next r' → I r') : I r := by
  induction h with
  | refl => exact hs
  | tail hr hn ih => exact hI _ _ hr ih hn

/-- After its first state, a loop reaches what it reaches from the second. -/
theorem Reaches.cases_head {body : σ → Out σ} {s r : σ} (h : Reaches body s r) :
    r = s ∨ ∃ s', body s = .next s' ∧ Reaches body s' r := by
  induction h with
  | refl => exact .inl rfl
  | tail hr hn ih =>
    right
    rcases ih with rfl | ⟨s', hs, hr'⟩
    · exact ⟨_, hn, .refl⟩
    · exact ⟨s', hs, .tail hr' hn⟩

/-- The loop is left in at most `n` passes, and `p` holds of the state before each. -/
def check (body : σ → Out σ) (p : σ → Bool) : Nat → σ → Bool
  | 0, _ => false
  | n + 1, s =>
    p s &&
      match body s with
      | .next t => check body p n t
      | .done _ => true

theorem Reaches.of_check {body : σ → Out σ} {p : σ → Bool} : ∀ {n : Nat} {s r : σ},
    check body p n s = true → Reaches body s r → p r = true
  | 0, _, _, h, _ => by cases h
  | n + 1, s, r, h, hr => by
    unfold check at h
    obtain ⟨hs, hrest⟩ := Bool.and_eq_true_iff.mp h
    rcases hr.cases_head with rfl | ⟨s', hn, hr'⟩
    · exact hs
    · rw [hn] at hrest
      exact Reaches.of_check hrest hr'

/-- Bodies that agree on the states that the loop reaches make the same loop. -/
theorem run_congr {body body' : σ → Out σ} : ∀ {n : Nat} {s : σ},
    (∀ r, Reaches body s r → body' r = body r) → run body' n s = run body n s
  | 0, _, _ => rfl
  | n + 1, s, h => by
    unfold run
    rw [h s .refl]
    cases hs : body s with
    | done t => rfl
    | next t => exact run_congr fun r hr => h r (.head hs hr)

theorem exec_congr {body body' : σ → Out σ} {n : Nat} {s : σ}
    (h : ∀ r, Reaches body s r → body' r = body r) : exec body' n s = exec body n s := by
  unfold exec
  rw [run_congr h]

/-! ## Two loops in lockstep -/

/-- Both bodies go on, or both leave, in related states. -/
inductive Out.Rel {τ : Type _} (R : σ → τ → Prop) : Out σ → Out τ → Prop
  | next {s : σ} {t : τ} : R s t → Out.Rel R (.next s) (.next t)
  | done {s : σ} {t : τ} : R s t → Out.Rel R (.done s) (.done t)

/-- Bodies that keep states related make loops that end in related states. -/
theorem exec_rel {τ : Type _} {R : σ → τ → Prop} {body : σ → Out σ} {body' : τ → Out τ}
    (hbody : ∀ s t, R s t → Out.Rel R (body s) (body' t)) {n : Nat} {s : σ} {t : τ} (h : R s t) :
    R (exec body n s) (exec body' n t) := by
  have hrun : ∀ n s t, R s t → Option.Rel R (run body n s) (run body' n t) := by
    intro n
    induction n with
    | zero => exact fun _ _ _ => .none
    | succ n ih =>
      intro s t h
      have hout := hbody s t h
      unfold run
      cases hs : body s with
      | next u =>
        rw [hs] at hout
        cases ht : body' t with
        | next v =>
          rw [ht] at hout
          cases hout with
          | next h => exact ih u v h
        | done v =>
          rw [ht] at hout
          cases hout
      | done u =>
        rw [hs] at hout
        cases ht : body' t with
        | next v =>
          rw [ht] at hout
          cases hout
        | done v =>
          rw [ht] at hout
          cases hout with
          | done h => exact .some h
  have hout := hrun n s t h
  unfold exec
  cases hs : run body n s with
  | none =>
    rw [hs] at hout
    cases ht : run body' n t with
    | none => exact h
    | some v =>
      rw [ht] at hout
      cases hout
  | some u =>
    rw [hs] at hout
    cases ht : run body' n t with
    | none =>
      rw [ht] at hout
      cases hout
    | some v =>
      rw [ht] at hout
      cases hout with
      | some h => exact h

/-! ## Passes that may fault -/

def Out.map {τ : Type _} (f : σ → τ) : Out σ → Out τ
  | .next s => .next (f s)
  | .done s => .done (f s)

theorem Out.map_id (o : Out σ) : o.map id = o := by
  cases o <;> rfl

/-- A loop whose body does on the image of a state what another body does on the state. -/
theorem exec_map {τ : Type _} {f : σ → τ} {body : σ → Out σ} {body' : τ → Out τ}
    (hbody : ∀ s, body' (f s) = (body s).map f) (n : Nat) (s : σ) :
    exec body' n (f s) = f (exec body n s) := by
  refine (exec_rel (R := fun s t => t = f s) (fun s t h => ?_) rfl)
  subst h
  rw [hbody]
  cases body s with
  | next r => exact .next rfl
  | done r => exact .done rfl

/-- The loop with at most `n` passes, none of which may fault. -/
def runChecked (body : σ → Option (Out σ)) : Nat → σ → Option σ
  | 0, _ => none
  | n + 1, s =>
    match body s with
    | none => none
    | some (.done t) => some t
    | some (.next t) => runChecked body n t

/-- A body that does not fault from the states of an invariant, and does there what another body
does on part of the state, makes a loop that does not fault and ends like the other loop. -/
theorem runChecked_eq {τ : Type _} {body : σ → Out σ} {checked : τ → Option (Out τ)} {f : τ → σ}
    {I J : τ → Prop} (hbody : ∀ c, I c → ∃ o, checked c = some o ∧ o.map f = body (f c) ∧
      (∀ c', o = .next c' → I c') ∧ ∀ c', o = .done c' → J c') :
    ∀ {n : Nat} {c : τ} {t : σ}, I c → run body n (f c) = some t →
      ∃ c', runChecked checked n c = some c' ∧ f c' = t ∧ J c'
  | 0, _, _, _, hr => by cases hr
  | n + 1, c, t, hc, hr => by
    obtain ⟨o, ho, hout, hI, hJ⟩ := hbody c hc
    unfold run at hr
    unfold runChecked
    rw [ho]
    rw [← hout] at hr
    cases o with
    | next c' => exact runChecked_eq hbody (hI c' rfl) hr
    | done c' =>
      cases hr
      exact ⟨c', rfl, rfl, hJ c' rfl⟩

/-! ## Repeated steps -/

/-- A step that decreases a measure whenever it changes anything is without effect from some
repetition on, and from none before it. -/
theorem iterate_settles {f : σ → σ} (m : σ → Nat) (hf : ∀ s, f s ≠ s → m (f s) < m s) (s : σ) :
    ∃ n ≤ m s, ∀ k, f (f^[k] s) = f^[k] s ↔ n ≤ k := by
  induction hm : m s using Nat.strongRecOn generalizing s with
  | ind w ih =>
    by_cases hs : f s = s
    · refine ⟨0, Nat.zero_le w, fun k => iff_of_true ?_ (Nat.zero_le k)⟩
      rw [Function.iterate_fixed hs, hs]
    · have hlt := hf s hs
      obtain ⟨n, hn, hk⟩ := ih (m (f s)) (by omega) (f s) rfl
      refine ⟨n + 1, by omega, fun k => ?_⟩
      cases k with
      | zero => exact iff_of_false hs (by omega)
      | succ k =>
        rw [Function.iterate_succ_apply, hk k]
        omega

end Loop
