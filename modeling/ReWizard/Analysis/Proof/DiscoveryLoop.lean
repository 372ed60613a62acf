import ReWizard.Analysis.Proof.Exploration

/-!
# The two loops over functions

`StaticPathExplorer` and `LinearSweepFallback` have a copy each of one loop. A pass takes an address
from the queue and analyses a function there, unless the address was visited, lies in a known
function or fails the test that only the first copy has. `DiscoveryLoop` says what the two bodies
have in common, so that everything about functions is proved once.
-/

namespace ReWizard

/-- A pass that starts in `s` takes up the address `pc`. `filter` is the test of its own that a
loop makes. -/
structure TakesUp (filter : Nat → Prop) (s : ExploreState) (pc : Nat) (rest : List Nat) : Prop where
  queue : s.functionWork = pc :: rest
  unvisited : pc ∉ s.context.visited
  unknown : s.context.module.getFunctionForAddress pc = none
  filtered : filter pc

/-- `body` is a loop over functions with the given test and marking rule. -/
structure DiscoveryLoop (t : Target) (filter : Nat → Prop) (mark : AnalyzeState → Bool)
    (body : ExploreState → Loop.Out ExploreState) : Prop where
  empty : ∀ s, s.functionWork = [] → body s = .done s
  drop : ∀ s pc rest, s.functionWork = pc :: rest → ¬ TakesUp filter s pc rest →
    body s = .next { s with functionWork := rest }
  takes : ∀ s pc rest, TakesUp filter s pc rest →
    body s = .next (discoverFunction t mark pc { s with functionWork := rest })

section

variable (t : Target)

theorem exploreStep_loop (bypassHeur : Bool) :
    DiscoveryLoop t (fun pc => t.loader.isExecutableAddress pc = true) (marksForHybrid bypassHeur)
      (exploreStep t bypassHeur) where
  empty := fun s hq => by
    unfold exploreStep
    rw [hq]
  drop := fun s pc rest hq hn => by
    unfold exploreStep
    rw [hq]
    dsimp only
    split
    · rfl
    · rename_i hv
      split
      · rfl
      · rename_i hk
        split
        · rfl
        · rename_i hx
          exact absurd ⟨hq, hv, by simpa using hk, by simpa using hx⟩ hn
  takes := fun s pc rest h => by
    unfold exploreStep
    rw [h.queue]
    dsimp only
    rw [if_neg h.unvisited, h.unknown, Option.isSome_none, if_neg Bool.false_ne_true,
      if_neg (not_not_intro h.filtered)]

theorem drainStep_loop :
    DiscoveryLoop t (fun _ => True) (fun _ => false) (drainStep t) where
  empty := fun s hq => by
    unfold drainStep
    rw [hq]
  drop := fun s pc rest hq hn => by
    unfold drainStep
    rw [hq]
    dsimp only
    split
    · rfl
    · rename_i hv
      split
      · rfl
      · rename_i hk
        exact absurd ⟨hq, hv, by simpa using hk, trivial⟩ hn
  takes := fun s pc rest h => by
    unfold drainStep
    rw [h.queue]
    dsimp only
    rw [if_neg h.unvisited, h.unknown, Option.isSome_none, if_neg Bool.false_ne_true]

end

namespace DiscoveryLoop

variable {t : Target} {filter : Nat → Prop} {mark : AnalyzeState → Bool}
  {body : ExploreState → Loop.Out ExploreState} {s s' r : ExploreState}

/-- A pass that is followed by another takes an address from the queue. -/
theorem next (h : DiscoveryLoop t filter mark body) (hn : body s = .next s') :
    ∃ pc rest, s.functionWork = pc :: rest ∧
      ((¬ TakesUp filter s pc rest ∧ s' = { s with functionWork := rest }) ∨
        (TakesUp filter s pc rest ∧
          s' = discoverFunction t mark pc { s with functionWork := rest })) := by
  cases hq : s.functionWork with
  | nil =>
    rw [h.empty s hq] at hn
    cases hn
  | cons pc rest =>
    refine ⟨pc, rest, rfl, ?_⟩
    by_cases ht : TakesUp filter s pc rest
    · rw [h.takes s pc rest ht] at hn
      cases hn
      exact .inr ⟨ht, rfl⟩
    · rw [h.drop s pc rest hq ht] at hn
      cases hn
      exact .inl ⟨ht, rfl⟩

/-- The loop is left with an empty queue. -/
theorem done (h : DiscoveryLoop t filter mark body) (hd : body s = .done s') :
    s' = s ∧ s.functionWork = [] := by
  cases hq : s.functionWork with
  | nil =>
    rw [h.empty s hq] at hd
    cases hd
    exact ⟨rfl, rfl⟩
  | cons pc rest =>
    by_cases ht : TakesUp filter s pc rest
    · rw [h.takes s pc rest ht] at hd
      cases hd
    · rw [h.drop s pc rest hq ht] at hd
      cases hd

theorem exits_queue (h : DiscoveryLoop t filter mark body) (he : Loop.Exits body s r) :
    r.functionWork = [] := by
  obtain ⟨q, -, hd⟩ := he.reached
  obtain ⟨heq, hempty⟩ := h.done hd
  rw [heq, hempty]

/-- Without work the loop is left as it was entered. -/
theorem exits_nil (h : DiscoveryLoop t filter mark body) (he : Loop.Exits body s r)
    (hq : s.functionWork = []) : r = s := by
  have hdone := h.empty s hq
  cases he with
  | done hd =>
    rw [hdone] at hd
    cases hd
    rfl
  | next hn _ =>
    rw [hdone] at hn
    cases hn

/-- What every discovery keeps holds in every context that the loop reaches. -/
theorem inv (h : DiscoveryLoop t filter mark body) {I : AnalysisContext → Prop} (h0 : I s.context)
    (hI : ∀ u pc rest, Loop.Reaches body s u → TakesUp filter u pc rest → I u.context →
      I (discoverFunction t mark pc { u with functionWork := rest }).context)
    (hr : Loop.Reaches body s r) : I r.context := by
  refine hr.inv (I := fun u => I u.context) h0 fun u u' hu hIu hn => ?_
  obtain ⟨pc, rest, -, ⟨-, rfl⟩ | ⟨ht, rfl⟩⟩ := h.next hn
  · exact hIu
  · exact hI u pc rest hu ht hIu

end DiscoveryLoop

end ReWizard
