import ReWizard.Analysis.Proof.Completeness
import ReWizard.Analysis.Proof.FunctionReach

/-!
# Calls of the pass and the functions they add

`Run` and `ReAnalyzeFrom` explore from a queue of their own, sweep what that leaves and explore
again from what the sweep finds. The passes of the two loops that take up an address are
`RebuilderCall.Descends` and `RebuilderCall.Drains`:

* `RebuilderCall.inv`: what every discovery keeps, a call keeps;
* `RebuilderCall.functions`: a call appends one function for each of these passes, and nothing else
  happens to the list.
-/

namespace ReWizard

/-! ## One discovery -/

/-- The function that a discovery adds. -/
def discovered (t : Target) (mark : AnalyzeState → Bool) (pc : Nat) (s : ExploreState) : Function :=
  let r := analyzeFunction t s.context (newFunction pc) pc s.functionWork
  if mark r then { r.function with markedForHybridAnalysis := true } else r.function

section

variable (t : Target) (mark : AnalyzeState → Bool) (pc : Nat) (s : ExploreState)

theorem discoverFunction_module :
    (discoverFunction t mark pc s).context.module =
      (analyzeFunction t s.context (newFunction pc) pc s.functionWork).module.addFunction
        (discovered t mark pc s) := rfl

theorem discoverFunction_visited :
    (discoverFunction t mark pc s).context.visited =
      (analyzeFunction t s.context (newFunction pc) pc s.functionWork).visited := rfl

theorem analyzeFunction_functions (ctx : AnalysisContext) (f : Function) (queue : List Nat) :
    (analyzeFunction t ctx f pc queue).module.functions = ctx.module.functions :=
  (analyzeBlocks_progress (t := t) ctx f pc queue).1.functions

theorem analyzeFunction_functionByStart (ctx : AnalysisContext) (f : Function) (queue : List Nat) :
    (analyzeFunction t ctx f pc queue).module.functionByStart = ctx.module.functionByStart :=
  (analyzeBlocks_progress (t := t) ctx f pc queue).1.functionByStart

theorem discoverFunction_functions :
    (discoverFunction t mark pc s).context.module.functions =
      s.context.module.functions ++ [discovered t mark pc s] := by
  rw [discoverFunction_module]
  unfold Module.addFunction
  rw [analyzeFunction_functions]

/-- What the marking does not change. -/
theorem discovered_eq : ∃ b : Bool, discovered t mark pc s =
    { (analyzeFunction t s.context (newFunction pc) pc s.functionWork).function with
      markedForHybridAnalysis := b } := by
  unfold discovered
  dsimp only
  split
  · exact ⟨true, rfl⟩
  · exact ⟨_, rfl⟩

theorem discovered_start : (discovered t mark pc s).startAddress = pc := by
  obtain ⟨b, heq⟩ := discovered_eq t mark pc s
  rw [heq]
  exact (analyzeBlocks_progress (t := t) s.context (newFunction pc) pc s.functionWork).1.start

theorem discovered_callSites : (discovered t mark pc s).callSites =
    (analyzeFunction t s.context (newFunction pc) pc s.functionWork).function.callSites := by
  obtain ⟨b, heq⟩ := discovered_eq t mark pc s
  rw [heq]

theorem discovered_blocks (hpc : pc ∉ s.context.visited) :
    (discovered t mark pc s).basicBlocks ≠ [] ↔ t.Decodes pc := by
  obtain ⟨b, heq⟩ := discovered_eq t mark pc s
  rw [heq]
  exact analyzeFunction_blocks t s.context pc pc s.functionWork hpc

end

namespace DiscoveryLoop

variable {t : Target} {filter : Nat → Prop} {mark : AnalyzeState → Bool}
  {body : ExploreState → Loop.Out ExploreState} {s r : ExploreState}

theorem functions_extend (h : DiscoveryLoop t filter mark body) (hr : Loop.Reaches body s r) :
    s.context.module.functions <+: r.context.module.functions := by
  refine h.inv (I := fun ctx => s.context.module.functions <+: ctx.module.functions)
    List.prefix_rfl (fun u pc rest _ _ hu => ?_) hr
  rw [discoverFunction_functions]
  exact hu.trans (List.prefix_append _ _)

/-- The loop reaches the state in which it is left. -/
theorem reached (h : DiscoveryLoop t filter mark body) (he : Loop.Exits body s r) :
    Loop.Reaches body s r := by
  obtain ⟨q, hq, hd⟩ := he.reached
  rw [(h.done hd).1]
  exact hq

/-- A loop appends one function for each pass that takes up an address. -/
theorem functions (h : DiscoveryLoop t filter mark body) (he : Loop.Exits body s r) :
    ∃ new, r.context.module.functions = s.context.module.functions ++ new ∧
      ∀ f, f ∈ new ↔ ∃ u pc rest, Loop.Reaches body s u ∧ TakesUp filter u pc rest ∧
        f = discovered t mark pc { u with functionWork := rest } := by
  have hsound : ∃ new, r.context.module.functions = s.context.module.functions ++ new ∧
      ∀ f ∈ new, ∃ u pc rest, Loop.Reaches body s u ∧ TakesUp filter u pc rest ∧
        f = discovered t mark pc { u with functionWork := rest } := by
    refine h.inv (I := fun ctx => ∃ new, ctx.module.functions = s.context.module.functions ++ new ∧
      ∀ f ∈ new, ∃ u pc rest, Loop.Reaches body s u ∧ TakesUp filter u pc rest ∧
        f = discovered t mark pc { u with functionWork := rest }) ⟨[], by simp⟩ ?_ (h.reached he)
    rintro u pc rest hu ht ⟨new, hnew, hall⟩
    refine ⟨new ++ [discovered t mark pc { u with functionWork := rest }], ?_, fun f hf => ?_⟩
    · rw [discoverFunction_functions, hnew, List.append_assoc]
    · rcases List.mem_append.mp hf with hf | hf
      · exact hall f hf
      · exact ⟨u, pc, rest, hu, ht, List.mem_singleton.mp hf⟩
  obtain ⟨new, hnew, hall⟩ := hsound
  refine ⟨new, hnew, fun f => ⟨hall f, ?_⟩⟩
  rintro ⟨u, pc, rest, hu, ht, rfl⟩
  -- the function is appended in the next pass and stays in the list from there on
  obtain ⟨before, hbefore⟩ := h.functions_extend hu
  have hafter := h.functions_extend (h.reached ((Loop.Reaches.refl.tail (h.takes u pc rest ht)).exits
    (hu.exits he)))
  rw [discoverFunction_functions, hnew] at hafter
  dsimp only at hafter
  rw [← hbefore, List.append_assoc, List.prefix_append_right_inj] at hafter
  exact hafter.subset (List.mem_append_right _ List.mem_cons_self)

end DiscoveryLoop

/-! ## Calls -/

/-- What the loop of `StaticPathExplorer` leaves. -/
def descended (t : Target) (bypassHeur : Bool) (s : ExploreState) : ExploreState :=
  Loop.exec (exploreStep t bypassHeur) (exploreFuel t s) s

/-- The state in which the drain loop of `LinearSweepFallback` begins. -/
def swept (t : Target) (s : ExploreState) : ExploreState :=
  { s with
    functionWork := t.loader.executableSections.foldl (sweepRange t s.context) s.functionWork }

/-- What the drain loop leaves. -/
theorem linearSweepFallback_exits (t : Target) (s : ExploreState) :
    Loop.Exits (drainStep t) (swept t s) (linearSweepFallback t s) :=
  (drainStep_loop t).exits (swept t s)

theorem descended_exits (t : Target) (bypassHeur : Bool) (s : ExploreState) :
    Loop.Exits (exploreStep t bypassHeur) s (descended t bypassHeur s) :=
  (exploreStep_loop t bypassHeur).exits s

/-- A call of the pass: `Run` or `ReAnalyzeFrom`. -/
inductive RebuilderCall
  | run
  | reAnalyzeFrom (address : Nat)

namespace RebuilderCall

def apply (t : Target) (call : RebuilderCall) (ctx : AnalysisContext) : AnalysisContext :=
  match call with
  | .run => rebuildControlFlow t ctx
  | .reAnalyzeFrom address => ReWizard.reAnalyzeFrom t ctx address

/-- The queue that a call begins with. -/
def queue (t : Target) (ctx : AnalysisContext) (fromAddress : Nat) : List Nat :=
  if ctx.module.functions = [] then (collectEntryPoints t ctx).toList
  else if fromAddress ≠ 0 then [fromAddress]
  else []

/-- The state in which the first loop begins. A call for the null address does nothing. -/
def start (t : Target) (call : RebuilderCall) (ctx : AnalysisContext) : Option ExploreState :=
  match call with
  | .run => some ⟨ctx, queue t ctx 0⟩
  | .reAnalyzeFrom address => if address = 0 then none else some ⟨ctx, queue t ctx address⟩

/-- When there are functions, a run begins without work: only its sweep can find some. -/
theorem run_start_of_functions (t : Target) {ctx : AnalysisContext}
    (hf : ctx.module.functions ≠ []) : run.start t ctx = some ⟨ctx, []⟩ := by
  have hqueue : queue t ctx 0 = [] := by
    unfold queue
    rw [if_neg hf, if_neg (not_not_intro rfl)]
  rw [← hqueue]
  rfl

theorem start_context {t : Target} {call : RebuilderCall} {ctx : AnalysisContext}
    {s : ExploreState} (h : call.start t ctx = some s) : s.context = ctx := by
  cases call with
  | run =>
    cases h
    rfl
  | reAnalyzeFrom a =>
    simp only [start] at h
    split at h
    · cases h
    · cases h
      rfl

/-- The two phases of a call. -/
theorem apply_eq (t : Target) (call : RebuilderCall) (ctx : AnalysisContext) :
    call.apply t ctx = match call.start t ctx with
      | none => ctx
      | some s => (linearSweepFallback t (descended t false s)).context := by
  have hexplore : ∀ a, staticPathExplorer t ctx false a false =
      (linearSweepFallback t (descended t false ⟨ctx, queue t ctx a⟩)).context := by
    intro a
    unfold staticPathExplorer queue
    simp only [Bool.false_eq_true, if_false, false_or]
    rfl
  cases call with
  | run => exact hexplore 0
  | reAnalyzeFrom a =>
    simp only [apply, start, ReWizard.reAnalyzeFrom]
    by_cases ha : a = 0
    · rw [if_pos ha, if_pos ha]
    · rw [if_neg ha, if_neg ha]
      exact hexplore a

/-- A pass of the call in the loop of `StaticPathExplorer` takes up `pc` in the state `s`. -/
inductive Descends (t : Target) (call : RebuilderCall) (ctx : AnalysisContext) (s : ExploreState)
    (pc : Nat) (rest : List Nat) : Prop
  | mk {s₀ : ExploreState} : call.start t ctx = some s₀ → Loop.Reaches (exploreStep t false) s₀ s →
      TakesUp (fun a => t.loader.isExecutableAddress a = true) s pc rest →
      Descends t call ctx s pc rest

/-- A pass of the call in the drain loop of `LinearSweepFallback` takes up `pc` in the state `s`. -/
inductive Drains (t : Target) (call : RebuilderCall) (ctx : AnalysisContext) (s : ExploreState)
    (pc : Nat) (rest : List Nat) : Prop
  | mk {s₀ : ExploreState} : call.start t ctx = some s₀ →
      Loop.Reaches (drainStep t) (swept t (descended t false s₀)) s →
      TakesUp (fun _ => True) s pc rest → Drains t call ctx s pc rest

section

variable {t : Target} {call : RebuilderCall} {ctx : AnalysisContext}

/-- What every discovery keeps, a call keeps. -/
theorem inv {I : AnalysisContext → Prop} (h0 : I ctx)
    (hdescent : ∀ s pc rest, Descends t call ctx s pc rest → I s.context →
      I (discoverFunction t (marksForHybrid false) pc { s with functionWork := rest }).context)
    (hdrain : ∀ s pc rest, Drains t call ctx s pc rest → I s.context →
      I (discoverFunction t (fun _ => false) pc { s with functionWork := rest }).context) :
    I (call.apply t ctx) := by
  rw [apply_eq]
  cases hs : call.start t ctx with
  | none => exact h0
  | some s₀ =>
    have hI₀ : I s₀.context := start_context hs ▸ h0
    have hI₁ : I (descended t false s₀).context :=
      (exploreStep_loop t false).inv hI₀ (fun u pc rest hu ht => hdescent u pc rest ⟨hs, hu, ht⟩)
        ((exploreStep_loop t false).reached (descended_exits t false s₀))
    exact (drainStep_loop t).inv (s := swept t (descended t false s₀)) hI₁
      (fun u pc rest hu ht => hdrain u pc rest ⟨hs, hu, ht⟩)
      ((drainStep_loop t).reached (linearSweepFallback_exits t _))

/-- **The functions that a call adds.** -/
theorem functions (t : Target) (call : RebuilderCall) (ctx : AnalysisContext) :
    ∃ new, (call.apply t ctx).module.functions = ctx.module.functions ++ new ∧
      ∀ f, f ∈ new ↔
        (∃ s pc rest, Descends t call ctx s pc rest ∧
          f = discovered t (marksForHybrid false) pc { s with functionWork := rest }) ∨
        ∃ s pc rest, Drains t call ctx s pc rest ∧
          f = discovered t (fun _ => false) pc { s with functionWork := rest } := by
  rw [apply_eq]
  cases hs : call.start t ctx with
  | none =>
    refine ⟨[], by simp, fun f => ⟨fun hf => (by cases hf), ?_⟩⟩
    rintro (⟨s, pc, rest, ⟨h, -, -⟩, -⟩ | ⟨s, pc, rest, ⟨h, -, -⟩, -⟩)
    · rw [hs] at h
      cases h
    · rw [hs] at h
      cases h
  | some s₀ =>
    obtain ⟨new₁, h₁, hall₁⟩ := (exploreStep_loop t false).functions (descended_exits t false s₀)
    obtain ⟨new₂, h₂, hall₂⟩ :=
      (drainStep_loop t).functions (linearSweepFallback_exits t (descended t false s₀))
    have hswept : (swept t (descended t false s₀)).context = (descended t false s₀).context := rfl
    refine ⟨new₁ ++ new₂, ?_, fun f => ?_⟩
    · dsimp only
      rw [h₂, hswept, h₁, start_context hs, List.append_assoc]
    · rw [List.mem_append, hall₁, hall₂]
      constructor
      · rintro (⟨s, pc, rest, hr, ht, hf⟩ | ⟨s, pc, rest, hr, ht, hf⟩)
        · exact .inl ⟨s, pc, rest, ⟨hs, hr, ht⟩, hf⟩
        · exact .inr ⟨s, pc, rest, ⟨hs, hr, ht⟩, hf⟩
      · rintro (⟨s, pc, rest, ⟨h, hr, ht⟩, hf⟩ | ⟨s, pc, rest, ⟨h, hr, ht⟩, hf⟩)
        · rw [hs] at h
          cases h
          exact .inl ⟨s, pc, rest, hr, ht, hf⟩
        · rw [hs] at h
          cases h
          exact .inr ⟨s, pc, rest, hr, ht, hf⟩

/-! ### Either loop -/

/-- A pass of either loop takes up `pc` in the state `s`. -/
def TakesUp (t : Target) (call : RebuilderCall) (ctx : AnalysisContext) (s : ExploreState)
    (pc : Nat) (rest : List Nat) : Prop :=
  call.Descends t ctx s pc rest ∨ call.Drains t ctx s pc rest

theorem TakesUp.unvisited {s : ExploreState} {pc : Nat} {rest : List Nat}
    (h : call.TakesUp t ctx s pc rest) : pc ∉ s.context.visited := by
  rcases h with ⟨-, -, h⟩ | ⟨-, -, h⟩
  · exact h.unvisited
  · exact h.unvisited

theorem takesUp_inv {I : AnalysisContext → Prop} (h0 : I ctx)
    (h : ∀ mark s pc rest, call.TakesUp t ctx s pc rest → I s.context →
      I (discoverFunction t mark pc { s with functionWork := rest }).context) :
    I (call.apply t ctx) :=
  call.inv h0 (fun s pc rest hd => h _ s pc rest (.inl hd))
    (fun s pc rest hd => h _ s pc rest (.inr hd))

/-- What every discovery adds to, the rest of a call adds to. -/
theorem takesUp_after {R : AnalysisContext → AnalysisContext → Prop} (hrefl : ∀ c, R c c)
    (htrans : ∀ {c c' c''}, R c c' → R c' c'' → R c c'')
    (hstep : ∀ mark pc (s : ExploreState), R s.context (discoverFunction t mark pc s).context)
    {s : ExploreState} {pc : Nat} {rest : List Nat} (h : call.TakesUp t ctx s pc rest) :
    ∃ mark, R (discoverFunction t mark pc { s with functionWork := rest }).context
      (call.apply t ctx) := by
  have hloop : ∀ {filter : Nat → Prop} {mark : AnalyzeState → Bool}
      {body : ExploreState → Loop.Out ExploreState}, DiscoveryLoop t filter mark body →
      ∀ {u r : ExploreState}, Loop.Reaches body u r → R u.context r.context := by
    intro filter mark body hl u r hr
    exact hl.inv (I := R u.context) (hrefl _)
      (fun v pc rest _ _ hv => htrans hv (hstep mark pc { v with functionWork := rest })) hr
  rw [apply_eq]
  rcases h with ⟨hs, hr, ht⟩ | ⟨hs, hr, ht⟩
  · rename_i s₀
    have hl := exploreStep_loop t false
    rw [hs]
    refine ⟨_, htrans (hloop hl (hl.reached ((Loop.Reaches.refl.tail (hl.takes s pc rest ht)).exits
      (hr.exits (descended_exits t false s₀))))) ?_⟩
    exact hloop (drainStep_loop t) (u := swept t (descended t false s₀))
      ((drainStep_loop t).reached (linearSweepFallback_exits t _))
  · rename_i s₀
    have hl := drainStep_loop t
    rw [hs]
    exact ⟨_, hloop hl (hl.reached ((Loop.Reaches.refl.tail (hl.takes s pc rest ht)).exits
      (hr.exits (linearSweepFallback_exits t _))))⟩

theorem takesUp_functions (t : Target) (call : RebuilderCall) (ctx : AnalysisContext) :
    ∃ new, (call.apply t ctx).module.functions = ctx.module.functions ++ new ∧
      (∀ f ∈ new, ∃ mark s pc rest, call.TakesUp t ctx s pc rest ∧
        f = discovered t mark pc { s with functionWork := rest }) ∧
      ∀ s pc rest, call.TakesUp t ctx s pc rest →
        ∃ mark, discovered t mark pc { s with functionWork := rest } ∈ new := by
  obtain ⟨new, hnew, hall⟩ := functions t call ctx
  refine ⟨new, hnew, fun f hf => ?_, fun s pc rest ht => ?_⟩
  · rcases (hall f).mp hf with ⟨s, pc, rest, hd, rfl⟩ | ⟨s, pc, rest, hd, rfl⟩
    · exact ⟨_, s, pc, rest, .inl hd, rfl⟩
    · exact ⟨_, s, pc, rest, .inr hd, rfl⟩
  · rcases ht with hd | hd
    · exact ⟨_, (hall _).mpr (.inl ⟨s, pc, rest, hd, rfl⟩)⟩
    · exact ⟨_, (hall _).mpr (.inr ⟨s, pc, rest, hd, rfl⟩)⟩

end

end RebuilderCall

end ReWizard
