import Mathlib.Data.List.Basic

/-!
# Histories

A system takes a call if it can, replies, and goes on. `Run step s h s'` says that the calls of the
history `h` were made from `s` on, with the replies that `h` has beside them, and that they led to
`s'`. The last call is the last of the list:

* `replay`: a history that is computed from its calls;
* `Run.inv`: what the calls of a kind keep, a history of such calls keeps;
* `Run.tracks`: what a reader of the history knows of the state;
* `Run.always_iff`: what the clear calls keep and no other call does, holds all along exactly when
  all calls are clear;
* `Run.recorded_iff`: the same for what the state and the history so far have to do with each other;
* `Run.refines`: an abstract system that follows each call follows the history.
-/

namespace History

variable {σ C R A : Type _}

inductive Run (step : σ → C → Option (R × σ)) (s : σ) : List (C × R) → σ → Prop
  | nil : Run step s [] s
  | snoc {h : List (C × R)} {u u' : σ} {c : C} {r : R} : Run step s h u → step u c = some (r, u') →
      Run step s (h ++ [(c, r)]) u'

variable {step : σ → C → Option (R × σ)} {s s' s'' : σ} {h h' : List (C × R)}

theorem Run.single {c : C} {r : R} (hs : step s c = some (r, s')) : Run step s [(c, r)] s' :=
  .snoc .nil hs

theorem Run.append (hr : Run step s h s') (hr' : Run step s' h' s'') :
    Run step s (h ++ h') s'' := by
  induction hr' with
  | nil => rwa [List.append_nil]
  | snoc _ hs ih =>
    rw [← List.append_assoc]
    exact ih.snoc hs

theorem Run.cons {c : C} {r : R} (hs : step s c = some (r, s')) (hr : Run step s' h s'') :
    Run step s ((c, r) :: h) s'' := (Run.single hs).append hr

/-- Make the calls one after the other, and keep the replies. -/
def replay (step : σ → C → Option (R × σ)) : σ → List C → Option (List R × σ)
  | s, [] => some ([], s)
  | s, c :: rest =>
    match step s c with
    | none => none
    | some (r, t) => (replay step t rest).map fun x => (r :: x.1, x.2)

theorem Run.of_replay : ∀ {calls : List C} {s s' : σ} {replies : List R},
    replay step s calls = some (replies, s') → Run step s (calls.zip replies) s'
  | [], _, _, _, h => by
    cases h
    exact .nil
  | c :: rest, s, _, _, h => by
    unfold replay at h
    split at h
    · cases h
    · rename_i r t hs
      obtain ⟨x, hx, heq⟩ := Option.map_eq_some_iff.mp h
      cases heq
      exact .cons hs (Run.of_replay hx)

/-- A history has come through the states of its beginnings. -/
theorem Run.beginning (hr : Run step s h s') {h₁ h₂ : List (C × R)} (heq : h = h₁ ++ h₂) :
    ∃ u, Run step s h₁ u := by
  induction hr generalizing h₂ with
  | nil =>
    obtain ⟨rfl, -⟩ := List.append_eq_nil_iff.mp heq.symm
    exact ⟨s, .nil⟩
  | @snoc h u u' c r hrun hs ih =>
    rcases List.eq_nil_or_concat h₂ with rfl | ⟨h₃, x, rfl⟩
    · rw [List.append_nil] at heq
      subst heq
      exact ⟨u', hrun.snoc hs⟩
    · rw [List.concat_eq_append, ← List.append_assoc] at heq
      exact ih (List.append_inj' heq rfl).1

/-- **Observation**: a reader who knows `a` of the first state, and learns from each call and its
reply, knows what the history says of the last state. -/
theorem Run.tracks (knows : A → σ → Prop) (kind : C → Prop) (next : A → C × R → A) {a : A}
    (hr : Run step s h s') (h0 : knows a s) (hkind : ∀ x ∈ h, kind x.1)
    (hstep : ∀ b u c r u', knows b u → kind c → step u c = some (r, u') →
      knows (next b (c, r)) u') :
    knows (h.foldl next a) s' := by
  induction hr with
  | nil => exact h0
  | @snoc h u u' c r _ hs ih =>
    rw [List.foldl_append]
    refine hstep _ u c r u' (ih fun x hx => hkind x (List.mem_append_left _ hx)) ?_ hs
    exact hkind (c, r) (List.mem_append_right _ List.mem_cons_self)

/-- **Invariants**: what every call of a kind keeps, a history of calls of that kind keeps. -/
theorem Run.inv {I : σ → Prop} (kind : C → Prop) (hr : Run step s h s') (h0 : I s)
    (hkind : ∀ x ∈ h, kind x.1)
    (hstep : ∀ u c r u', I u → kind c → step u c = some (r, u') → I u') : I s' :=
  hr.tracks (fun (_ : Unit) => I) kind (fun _ _ => ()) (a := ()) h0 hkind fun _ => hstep

/-- The state holds in every state that the history has come through. -/
def Always (step : σ → C → Option (R × σ)) (s : σ) (h : List (C × R)) (I : σ → Prop) : Prop :=
  ∀ h₁ h₂ u, h = h₁ ++ h₂ → Run step s h₁ u → I u

/-- Every call was clear when it was made. -/
def AllClear (step : σ → C → Option (R × σ)) (s : σ) (h : List (C × R)) (clear : σ → C → Prop) :
    Prop :=
  ∀ h₁ c r h₂ u, h = h₁ ++ (c, r) :: h₂ → Run step s h₁ u → clear u c

theorem Run.unique (hr : Run step s h s') (hr' : Run step s h s'') : s'' = s' := by
  induction hr generalizing s'' with
  | nil =>
    generalize hh : ([] : List (C × R)) = h at hr'
    cases hr' with
    | nil => rfl
    | snoc _ _ => simp at hh
  | @snoc h u u' c r _ hs ih =>
    generalize hh : h ++ [(c, r)] = h' at hr'
    cases hr' with
    | nil => simp at hh
    | @snoc h' v v' c' r' hr' hs' =>
      obtain ⟨rfl, hlast⟩ := List.append_inj' hh rfl
      cases hlast
      cases ih hr'
      cases hs.symm.trans hs'
      rfl

/-- What the clear calls keep up with holds all along a history of clear calls. -/
theorem Run.recorded {K : List (C × R) → σ → Prop} (kind : C → Prop) (clear : σ → C → Prop)
    (h0 : K [] s) (hkind : ∀ x ∈ h, kind x.1)
    (hstep : ∀ h u c r u', K h u → kind c → clear u c → step u c = some (r, u') →
      K (h ++ [(c, r)]) u')
    (hclear : AllClear step s h clear) :
    ∀ h₁ h₂ u, h = h₁ ++ h₂ → Run step s h₁ u → K h₁ u := by
  intro h₁ h₂ u heq hu
  induction hu generalizing h₂ with
  | nil => exact h0
  | @snoc h₁ v v' c r hv hs ih =>
    rw [List.append_assoc] at heq
    have hc : kind c := hkind (c, r) (by simp [heq])
    exact hstep h₁ v c r v' (ih _ heq) hc (hclear h₁ c r h₂ v heq hv) hs

/-- **Exact records**: when a call keeps up with `K` if and only if it is clear, `K` holds all along
a history if and only if all its calls are clear. -/
theorem Run.recorded_iff {K : List (C × R) → σ → Prop} (kind : C → Prop) {clear : σ → C → Prop}
    (hr : Run step s h s') (h0 : K [] s) (hkind : ∀ x ∈ h, kind x.1)
    (hstep : ∀ h u c r u', K h u → kind c → step u c = some (r, u') →
      (K (h ++ [(c, r)]) u' ↔ clear u c)) :
    (∀ h₁ h₂ u, h = h₁ ++ h₂ → Run step s h₁ u → K h₁ u) ↔ AllClear step s h clear := by
  constructor
  · intro hall h₁ c r h₂ u heq hu
    obtain ⟨u', hs⟩ : ∃ u', step u c = some (r, u') := by
      have hsplit : h = (h₁ ++ [(c, r)]) ++ h₂ := by rw [heq, List.append_assoc]; rfl
      obtain ⟨v, hv⟩ := hr.beginning hsplit
      generalize hh : h₁ ++ [(c, r)] = h' at hv
      cases hv with
      | nil => simp at hh
      | @snoc h' w w' c' r' hw hs =>
        obtain ⟨rfl, hlast⟩ := List.append_inj' hh rfl
        cases hlast
        cases hu.unique hw
        exact ⟨_, hs⟩
    have hc : kind c := hkind (c, r) (by simp [heq])
    exact (hstep h₁ u c r u' (hall h₁ _ u heq hu) hc hs).mp
      (hall (h₁ ++ [(c, r)]) h₂ u' (by rw [heq, List.append_assoc]; rfl) (hu.snoc hs))
  · exact Run.recorded kind clear h0 hkind fun h u c r u' hu hc hclear hs =>
      (hstep h u c r u' hu hc hs).mpr hclear

/-- What the clear calls keep holds all along a history of clear calls. -/
theorem Run.always {I : σ → Prop} (clear : σ → C → Prop) (h0 : I s)
    (hstep : ∀ u c r u', I u → clear u c → step u c = some (r, u') → I u')
    (hclear : AllClear step s h clear) : Always step s h I :=
  Run.recorded (K := fun _ => I) (fun _ => True) clear h0 (fun _ _ => trivial)
    (fun _ u c r u' hu _ => hstep u c r u' hu) hclear

/-- **Exact invariants**: when a call keeps `I` if and only if it is clear, `I` holds all along a
history if and only if all its calls are clear. -/
theorem Run.always_iff {I : σ → Prop} {clear : σ → C → Prop} (hr : Run step s h s') (h0 : I s)
    (hstep : ∀ u c r u', I u → step u c = some (r, u') → (I u' ↔ clear u c)) :
    Always step s h I ↔ AllClear step s h clear :=
  hr.recorded_iff (K := fun _ => I) (fun _ => True) h0 (fun _ _ => trivial)
    fun _ u c r u' hu _ => hstep u c r u' hu

/-! ## Refinement -/

/-- The history as an abstract system takes it, call by call. -/
inductive Follows (takes : C → R → A → A → Prop) (a : A) : List (C × R) → A → Prop
  | nil : Follows takes a [] a
  | snoc {h : List (C × R)} {b b' : A} {c : C} {r : R} : Follows takes a h b → takes c r b b' →
      Follows takes a (h ++ [(c, r)]) b'

/-- **Refinement**: when every call takes agreeing states to agreeing states, the abstract system
takes every history of the concrete one. -/
theorem Run.refines (takes : C → R → A → A → Prop) (agrees : σ → A → Prop) {a : A}
    (hr : Run step s h s') (h0 : agrees s a)
    (hstep : ∀ u b c r u', agrees u b → step u c = some (r, u') →
      ∃ b', takes c r b b' ∧ agrees u' b') :
    ∃ a', Follows takes a h a' ∧ agrees s' a' := by
  induction hr with
  | nil => exact ⟨a, .nil, h0⟩
  | @snoc h u u' c r _ hs ih =>
    obtain ⟨b, hb, hagrees⟩ := ih
    obtain ⟨b', htakes, hagrees'⟩ := hstep u b c r u' hagrees hs
    exact ⟨b', hb.snoc htakes, hagrees'⟩

end History
