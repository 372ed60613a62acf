import ReWizard.Analysis.Fragment
import ReWizard.Analysis.Proof.DiscoveryLoop

/-!
# What recursive descent reaches

`StaticPathExplorer` passes over an address that is inside the range of a known function. An
address that such a function never decoded is lost with it, so not everything that control can
reach is visited (`callIntoGap_not_visited`). What is lost is exactly what lies behind such an
address:

* `discoverFunction_explored`: exploring one function;
* `rebuildControlFlow_reaches`: every instruction on a path from an entry point is visited, unless
  the path arrives at an unvisited address inside a known function.
-/

namespace ReWizard

section

variable {t : Target}

/-! ## Enqueueing call targets -/

theorem enqueue_fold (ctx : AnalysisContext) : ∀ (l : List AddrPair) (queue : List Nat),
    let step := fun (queue : List Nat) (cs : AddrPair) =>
      if (ofLex cs).2 ≠ 0 ∧ (ofLex cs).2 ∉ ctx.visited ∧ t.loader.isWithinMapping (ofLex cs).2 ∧
        (ctx.module.getFunctionForAddress (ofLex cs).2).isNone then queue ++ [(ofLex cs).2]
      else queue
    queue <+: l.foldl step queue ∧ (l.foldl step queue).length ≤ queue.length + l.length ∧
      ∀ c u, addrPair c u ∈ l → u ≠ 0 → u ∉ ctx.visited → t.loader.isWithinMapping u = true →
        (ctx.module.getFunctionForAddress u).isNone = true → u ∈ l.foldl step queue
  | [], queue => ⟨List.prefix_rfl, Nat.le_refl _, fun _ _ h => absurd h List.not_mem_nil⟩
  | cs :: rest, queue => by
    intro step
    obtain ⟨h1, h2, h3⟩ := enqueue_fold ctx rest (step queue cs)
    have hpre : queue <+: step queue cs := by
      show queue <+: if _ then _ else _
      split
      · exact List.prefix_append _ _
      · exact List.prefix_rfl
    have hlen : (step queue cs).length ≤ queue.length + 1 := by
      show (if _ then _ else _ : List Nat).length ≤ _
      split
      · rw [List.length_append, List.length_singleton]
      · exact Nat.le_succ _
    refine ⟨hpre.trans h1, ?_, fun c u hmem h0 hv hm hk => ?_⟩
    · rw [List.foldl_cons, List.length_cons]
      exact h2.trans (by omega)
    · rw [List.foldl_cons]
      rcases List.mem_cons.mp hmem with rfl | hmem
      · refine h1.subset ?_
        show u ∈ if _ then _ else _
        rw [if_pos ⟨h0, hv, hm, hk⟩]
        exact List.mem_append_right _ List.mem_cons_self
      · exact h3 c u hmem h0 hv hm hk

/-! ## Exploring one function -/

/-- What the exploration has to find: everything that control can flow or be transferred to from
an instruction visited since `old`, and the entries. -/
structure ExploreInv (t : Target) (old : Finset Nat) (entries : Nat → Prop) (s : ExploreState) :
    Prop where
  flow : ∀ v ∈ s.context.visited, v ∉ old → ∀ u, Flow t v u → t.InCode u →
    u ∈ s.context.visited ∨ t.disassemble u = none
  transfer : ∀ v ∈ s.context.visited, v ∉ old → ∀ u, Transfer t v u → t.InCode u →
    u ∈ s.context.visited ∨ s.context.module.InKnown u ∨ u ∈ s.functionWork ∨
      t.disassemble u = none
  entries : ∀ e, entries e → t.InCode e → e ∈ s.context.visited ∨
    s.context.module.InKnown e ∨ e ∈ s.functionWork ∨ t.disassemble e = none

theorem exploreFuel_bound (s : ExploreState) :
    s.functionWork.length + 2 * unvisited t s.context.visited < exploreFuel t s := by
  have := unvisited_le t s.context.visited
  unfold exploreFuel
  omega

/-- The analysed function of a discovery, before it is added. -/
theorem analyzeFunction_facts (ctx : AnalysisContext) (f : Function) (pc : Nat)
    (queue : List Nat) (hcs : f.callSites = OrdSet.empty) :
    let r := analyzeFunction t ctx f pc queue
    r.context.module.functions = ctx.module.functions ∧
      r.context.module.functionByStart = ctx.module.functionByStart ∧
      ctx.visited ⊆ r.context.visited ∧ queue <+: r.functionWork ∧
      r.functionWork.length + r.function.callSites.toList.length +
          2 * unvisited t r.context.visited ≤ queue.length + 2 * unvisited t ctx.visited ∧
      Explored t ctx.visited pc r (fun _ => False) ∧ r.work = [] := by
  intro r
  obtain ⟨hp, hw⟩ := analyzeBlocks_progress (t := t) ctx f pc queue
  have he := analyzeBlocks_explored (t := t) ctx f pc queue
  have hq := hp.queue_le
  have h0 : (analyzeInit ctx f pc queue).function.callSites.toList = [] := by
    show f.callSites.toList = []
    rw [hcs]
    rfl
  rw [h0] at hq
  refine ⟨hp.functions, hp.functionByStart, hp.visited, hp.functionWork, hq, ?_, hw⟩
  exact he.congr rfl rfl rfl fun u _ hu =>
    hu.elim (fun hu => .inr (.inl hu)) fun hu => .inr (.inr (.inl hu))

/-- The measure of the loops over functions. -/
def exploreMeasure (t : Target) (s : ExploreState) : Nat :=
  s.functionWork.length + 2 * unvisited t s.context.visited

/-- `u` needs no further thought: it is visited, known, enqueued or not an instruction. -/
def ExploreState.Settled (t : Target) (s : ExploreState) (u : Nat) : Prop :=
  u ∈ s.context.visited ∨ s.context.module.InKnown u ∨ u ∈ s.functionWork ∨ t.disassemble u = none

/-- What discovering a function at `pc` does, where `r` is the state in which its analysis ends. -/
structure Discovery (t : Target) (pc : Nat) (queue : List Nat) (s s' : ExploreState)
    (r : AnalyzeState) : Prop where
  explored : Explored t s.context.visited pc r fun _ => False
  work : r.work = []
  visited : s'.context.visited = r.visited
  visited_mono : s.context.visited ⊆ s'.context.visited
  known : ∀ u, s.context.module.InKnown u ∨ r.module.InKnown u → s'.context.module.InKnown u
  rest : queue ⊆ s'.functionWork
  functionWork : r.functionWork ⊆ s'.functionWork
  callSites : ∀ c u, addrPair c u ∈ r.function.callSites → t.InCode u → s'.Settled t u
  measure : exploreMeasure t s' ≤ queue.length + 2 * unvisited t s.context.visited

theorem discoverFunction_discovery (mark : AnalyzeState → Bool) (pc : Nat) (rest : List Nat)
    (s : ExploreState) : ∃ r, Discovery t pc rest s
      (discoverFunction t mark pc { s with functionWork := rest }) r := by
  have hfacts := analyzeFunction_facts (t := t) s.context (newFunction pc) pc rest rfl
  dsimp only at hfacts
  unfold discoverFunction
  dsimp only
  generalize analyzeFunction t s.context (newFunction pc) pc rest = r at hfacts ⊢
  obtain ⟨hf, -, hv, hpre, hle, he, hw⟩ := hfacts
  -- the added function has the call sites of the analysed one
  generalize hg : (if mark r = true then { r.function with markedForHybridAnalysis := true }
    else r.function) = g
  have hgc : g.callSites = r.function.callSites := by
    rw [← hg]
    split <;> rfl
  obtain ⟨hq1, hq2, hq3⟩ := enqueue_fold (t := t) r.context g.callSites.toList r.functionWork
  have hknown : ∀ u, r.module.InKnown u → (r.context.module.addFunction g).InKnown u :=
    fun u ⟨f, hmem, hrange⟩ => ⟨f, List.mem_append_left _ hmem, hrange⟩
  refine ⟨r, he, hw, rfl, hv, fun u hu => ?_, fun u hu => hq1.subset (hpre.subset hu), hq1.subset,
    fun c u hc hu => ?_, ?_⟩
  · rcases hu with ⟨f, hmem, hrange⟩ | hu
    · exact hknown u ⟨f, hf ▸ hmem, hrange⟩
    · exact hknown u hu
  · by_cases hvis : u ∈ r.context.visited
    · exact .inl hvis
    cases hk : (r.context.module.getFunctionForAddress u).isSome with
    | true => exact .inr (.inl (hknown u (Module.inKnown_of_isSome hk)))
    | false =>
      have hnone : (r.context.module.getFunctionForAddress u).isNone = true := by
        rw [← Option.not_isSome, hk]
        rfl
      rw [← hgc] at hc
      exact .inr (.inr (.inl (hq3 c u hc hu.mapped.pos hvis hu.1 hnone)))
  · show (enqueueCallTargets t r.context g r.functionWork).length +
      2 * unvisited t r.context.visited ≤ _
    have hq : (enqueueCallTargets t r.context g r.functionWork).length ≤
        r.functionWork.length + g.callSites.toList.length := hq2
    rw [hgc] at hq
    omega

namespace Discovery

variable {old : Finset Nat} {entries : Nat → Prop} {pc : Nat} {rest : List Nat}
  {s s' : ExploreState} {r : AnalyzeState}

/-- An address that was settled still is. -/
theorem settled (hd : Discovery t pc rest s s' r) (hq : s.functionWork = pc :: rest) {u : Nat}
    (hu : t.InCode u) (h : s.Settled t u) : s'.Settled t u := by
  rcases h with h | h | h | h
  · exact .inl (hd.visited_mono h)
  · exact .inr (.inl (hd.known u (.inl h)))
  · rw [hq] at h
    rcases List.mem_cons.mp h with rfl | h
    · rcases hd.explored.start hu.mapped with hst | hst | hst | hst
      · exact .inl (hd.visited ▸ hst)
      · rw [hd.work] at hst
        cases hst
      · exact hst.elim
      · exact .inr (.inr (.inr hst))
    · exact .inr (.inr (.inl (hd.rest h)))
  · exact .inr (.inr (.inr h))

theorem flow (hd : Discovery t pc rest s s' r) (h : ExploreInv t old entries s) {v u : Nat}
    (hv : v ∈ s'.context.visited) (hold : v ∉ old) (hfl : Flow t v u) (hu : t.InCode u) :
    u ∈ s'.context.visited ∨ t.disassemble u = none := by
  by_cases hvs : v ∈ s.context.visited
  · exact (h.flow v hvs hold u hfl hu).imp (fun hu' => hd.visited_mono hu') id
  · rcases hd.explored.flow v (hd.visited ▸ hv) hvs u hfl hu with hc | hc | hc | hc
    · exact .inl (hd.visited ▸ hc)
    · rw [hd.work] at hc
      cases hc
    · exact hc.elim
    · exact .inr hc

theorem transfer (hd : Discovery t pc rest s s' r) (hq : s.functionWork = pc :: rest)
    (h : ExploreInv t old entries s) {v u : Nat} (hv : v ∈ s'.context.visited) (hold : v ∉ old)
    (htr : Transfer t v u) (hu : t.InCode u) : s'.Settled t u := by
  by_cases hvs : v ∈ s.context.visited
  · exact hd.settled hq hu (h.transfer v hvs hold u htr hu)
  · rcases hd.explored.transfer v (hd.visited ▸ hv) hvs u htr hu with hc | hc | hc | ⟨c, hc⟩
    · exact .inl (hd.visited ▸ hc)
    · exact .inr (.inl (hd.known u (.inr hc)))
    · exact .inr (.inr (.inl (hd.functionWork hc)))
    · exact hd.callSites c u hc hu

end Discovery

/-- A discovery keeps what the exploration has found. -/
theorem discoverFunction_explored {old : Finset Nat} {entries : Nat → Prop} {s : ExploreState}
    {pc : Nat} {rest : List Nat} (mark : AnalyzeState → Bool) (h : ExploreInv t old entries s)
    (hq : s.functionWork = pc :: rest) :
    ExploreInv t old entries (discoverFunction t mark pc { s with functionWork := rest }) := by
  obtain ⟨r, hd⟩ := discoverFunction_discovery (t := t) mark pc rest s
  exact ⟨fun v hv hold u hfl hu => hd.flow h hv hold hfl hu,
    fun v hv hold u htr hu => hd.transfer hq h hv hold htr hu,
    fun e hent hu => hd.settled hq hu (h.entries e hent hu)⟩

/-! ## The loops over functions -/

/-- An address taken from the queue that is settled already, or not in the code. -/
theorem ExploreInv.drop {old : Finset Nat} {entries : Nat → Prop} {s : ExploreState} {pc : Nat}
    {rest : List Nat} (h : ExploreInv t old entries s) (hq : s.functionWork = pc :: rest)
    (hpc : t.InCode pc → pc ∈ s.context.visited ∨ s.context.module.InKnown pc) :
    ExploreInv t old entries { s with functionWork := rest } := by
  have hkeep : ∀ u, t.InCode u → s.Settled t u →
      ({ s with functionWork := rest } : ExploreState).Settled t u := by
    intro u hu hcase
    rcases hcase with hcase | hcase | hcase | hcase
    · exact .inl hcase
    · exact .inr (.inl hcase)
    · rw [hq] at hcase
      rcases List.mem_cons.mp hcase with rfl | hcase
      · exact (hpc hu).elim .inl fun hk => .inr (.inl hk)
      · exact .inr (.inr (.inl hcase))
    · exact .inr (.inr (.inr hcase))
  exact ⟨h.flow, fun v hv hold u htr hu => hkeep u hu (h.transfer v hv hold u htr hu),
    fun e hent hu => hkeep e hu (h.entries e hent hu)⟩

theorem exploreMeasure_drop {s : ExploreState} {pc : Nat} {rest : List Nat}
    (hq : s.functionWork = pc :: rest) :
    exploreMeasure t { s with functionWork := rest } < exploreMeasure t s := by
  show rest.length + _ < s.functionWork.length + _
  rw [hq, List.length_cons]
  exact Nat.add_lt_add_right (Nat.lt_succ_self _) _

/-- A pass of a loop over functions whose test lets the addresses of the code through. -/
theorem DiscoveryLoop.explored {filter : Nat → Prop} {mark : AnalyzeState → Bool}
    {body : ExploreState → Loop.Out ExploreState} (hl : DiscoveryLoop t filter mark body)
    (hfilter : ∀ a, t.InCode a → filter a) {old : Finset Nat} {entries : Nat → Prop}
    {s s' : ExploreState} (h : ExploreInv t old entries s) (hn : body s = .next s') :
    ExploreInv t old entries s' := by
  obtain ⟨pc, rest, hq, ⟨hnot, rfl⟩ | ⟨-, rfl⟩⟩ := hl.next hn
  · refine h.drop hq fun hc => ?_
    by_contra hcon
    obtain ⟨hv, hk⟩ := not_or.mp hcon
    refine hnot ⟨hq, hv, ?_, hfilter pc hc⟩
    by_contra hsome
    exact hk (Module.inKnown_of_isSome (Option.isSome_iff_ne_none.mpr hsome))
  · exact discoverFunction_explored mark h hq

/-- Every pass of a loop over functions decreases the measure. -/
theorem DiscoveryLoop.measure {filter : Nat → Prop} {mark : AnalyzeState → Bool}
    {body : ExploreState → Loop.Out ExploreState} (hl : DiscoveryLoop t filter mark body)
    {s s' : ExploreState} (hn : body s = .next s') : exploreMeasure t s' < exploreMeasure t s := by
  obtain ⟨pc, rest, hq, ⟨-, rfl⟩ | ⟨-, rfl⟩⟩ := hl.next hn
  · exact exploreMeasure_drop hq
  · obtain ⟨r, hd⟩ := discoverFunction_discovery (t := t) mark pc rest s
    refine Nat.lt_of_le_of_lt hd.measure ?_
    unfold exploreMeasure
    rw [hq, List.length_cons]
    omega

/-- A loop over functions finishes within its bound, from whatever state it begins in. -/
theorem DiscoveryLoop.run {filter : Nat → Prop} {mark : AnalyzeState → Bool}
    {body : ExploreState → Loop.Out ExploreState} (hl : DiscoveryLoop t filter mark body)
    (s : ExploreState) : Loop.run body (exploreFuel t s) s =
      some (Loop.exec body (exploreFuel t s) s) :=
  Loop.run_eq_exec (I := fun _ => True) (exploreMeasure t)
    (fun _ _ _ hn => ⟨trivial, hl.measure hn⟩) trivial (exploreFuel_bound s)

theorem DiscoveryLoop.exits {filter : Nat → Prop} {mark : AnalyzeState → Bool}
    {body : ExploreState → Loop.Out ExploreState} (hl : DiscoveryLoop t filter mark body)
    (s : ExploreState) : Loop.Exits body s (Loop.exec body (exploreFuel t s) s) :=
  Loop.exits_of_run (hl.run s)

/-- A loop over functions finishes with an empty queue, and the invariant holds there. -/
theorem explore_loop {filter : Nat → Prop} {mark : AnalyzeState → Bool}
    {body : ExploreState → Loop.Out ExploreState} (hl : DiscoveryLoop t filter mark body)
    (hfilter : ∀ a, t.InCode a → filter a) {old : Finset Nat} {entries : Nat → Prop}
    {s : ExploreState} (h : ExploreInv t old entries s) :
    ExploreInv t old entries (Loop.exec body (exploreFuel t s) s) ∧
      (Loop.exec body (exploreFuel t s) s).functionWork = [] := by
  obtain ⟨r, hr, hd⟩ := (hl.exits s).inv h fun u u' hu hn => hl.explored hfilter hu hn
  obtain ⟨heq, hq⟩ := hl.done hd
  rw [heq]
  exact ⟨hr, hq⟩

/-- The queue does not matter once everything is settled without it. -/
theorem ExploreInv.requeue {old : Finset Nat} {entries : Nat → Prop} {s : ExploreState}
    (h : ExploreInv t old entries s) (hq : s.functionWork = []) (queue : List Nat) :
    ExploreInv t old entries { s with functionWork := queue } := by
  have hkeep : ∀ u, (u ∈ s.context.visited ∨ s.context.module.InKnown u ∨ u ∈ s.functionWork ∨
      t.disassemble u = none) → u ∈ s.context.visited ∨ s.context.module.InKnown u ∨ u ∈ queue ∨
      t.disassemble u = none := by
    intro u hcase
    rcases hcase with hcase | hcase | hcase | hcase
    · exact .inl hcase
    · exact .inr (.inl hcase)
    · rw [hq] at hcase
      cases hcase
    · exact .inr (.inr (.inr hcase))
  exact ⟨h.flow, fun v hv hold u htr hu => hkeep u (h.transfer v hv hold u htr hu),
    fun e hent hu => hkeep e (h.entries e hent hu)⟩

/-- The whole exploration, from any context and any queue that holds the entries. -/
theorem explore_explored (ctx : AnalysisContext) (bypassHeur : Bool) (queue : List Nat) :
    let s : ExploreState := ⟨ctx, queue⟩
    let r := linearSweepFallback t (Loop.exec (exploreStep t bypassHeur) (exploreFuel t s) s)
    ExploreInv t ctx.visited (· ∈ queue) r ∧ r.functionWork = [] := by
  intro s r
  have h0 : ExploreInv t ctx.visited (· ∈ queue) s :=
    ⟨fun v hv hold => absurd hv hold, fun v hv hold => absurd hv hold,
      fun e he _ => .inr (.inr (.inl he))⟩
  have h1 : ExploreInv t ctx.visited (· ∈ queue)
      (Loop.exec (exploreStep t bypassHeur) (exploreFuel t s) s) ∧ _ :=
    explore_loop (exploreStep_loop t bypassHeur) (fun _ hc => hc.2) h0
  exact explore_loop (drainStep_loop t) (fun _ _ => trivial) (h1.1.requeue h1.2 _)

/-! ## Paths from the entry points -/

/-- A path through executable, mapped addresses from an entry point. The list holds the addresses
at which the path arrived as an entry point, a call target or a jump target, the last one first. -/
inductive CodePath (t : Target) (entries : Nat → Prop) : Nat → List Nat → Prop
  | entry {e : Nat} : entries e → t.InCode e → CodePath t entries e [e]
  | flow {v u : Nat} {l : List Nat} : CodePath t entries v l → Flow t v u → t.InCode u →
      CodePath t entries u l
  | transfer {v u : Nat} {l : List Nat} : CodePath t entries v l → Transfer t v u → t.InCode u →
      CodePath t entries u (u :: l)

/-- Flows and transfers leave instructions. -/
theorem Flow.decodes {v u : Nat} (h : Flow t v u) : t.disassemble v ≠ none := by
  cases h with
  | fallThrough hd _ _ => rw [hd]; exact Option.some_ne_none _
  | condTarget hd _ _ => rw [hd]; exact Option.some_ne_none _

theorem Transfer.decodes {v u : Nat} (h : Transfer t v u) : t.disassemble v ≠ none := by
  obtain ⟨hd, -, -⟩ := h
  rw [hd]
  exact Option.some_ne_none _

theorem codePath_visited {entries : Nat → Prop} {s : ExploreState}
    (h : ExploreInv t ∅ entries s) (hq : s.functionWork = []) {x : Nat} {l : List Nat}
    (hp : CodePath t entries x l) (hx : t.disassemble x ≠ none) :
    x ∈ s.context.visited ∨
      ∃ u ∈ l, u ∉ s.context.visited ∧ s.context.module.InKnown u := by
  have hold : ∀ v, v ∉ (∅ : Finset Nat) := Finset.notMem_empty
  induction hp with
  | @entry e he hc =>
    rcases h.entries e he hc with h' | h' | h' | h'
    · exact .inl h'
    · by_cases hv : e ∈ s.context.visited
      · exact .inl hv
      · exact .inr ⟨e, List.mem_cons_self, hv, h'⟩
    · rw [hq] at h'
      cases h'
    · exact absurd h' hx
  | @flow v u l _ hf hc ih =>
    rcases ih hf.decodes with hv | hlost
    · rcases h.flow v hv (hold v) u hf hc with h' | h'
      · exact .inl h'
      · exact absurd h' hx
    · exact .inr hlost
  | @transfer v u l _ hf hc ih =>
    rcases ih hf.decodes with hv | ⟨w, hw, hlost⟩
    · rcases h.transfer v hv (hold v) u hf hc with h' | h' | h' | h'
      · exact .inl h'
      · by_cases hu : u ∈ s.context.visited
        · exact .inl hu
        · exact .inr ⟨u, List.mem_cons_self, hu, h'⟩
      · rw [hq] at h'
        cases h'
      · exact absurd h' hx
    · exact .inr ⟨w, List.mem_cons_of_mem _ hw, hlost⟩

/-- The context before the first run, which has symbols only. -/
def freshContext (symbolTable : SymbolTable) : AnalysisContext :=
  { module := { symbolTable := symbolTable } }

/-- The entry points of the first run. -/
def FirstEntry (t : Target) (symbolTable : SymbolTable) (e : Nat) : Prop :=
  e ∈ (collectEntryPoints t (freshContext symbolTable)).toList

/-- **What recursive descent reaches**: an instruction on a path from the collected entry points
is visited, or the path arrived at an unvisited address inside the range of a known function. -/
theorem rebuildControlFlow_reaches (t : Target) (symbolTable : SymbolTable) {x : Nat}
    {l : List Nat}
    (hp : CodePath t (FirstEntry t symbolTable) x l)
    (hx : t.disassemble x ≠ none) :
    x ∈ (rebuildControlFlow t (freshContext symbolTable)).visited ∨
      ∃ u ∈ l, u ∉ (rebuildControlFlow t (freshContext symbolTable)).visited ∧
        (rebuildControlFlow t (freshContext symbolTable)).module.InKnown u := by
  obtain ⟨h, hq⟩ := explore_explored (t := t) (freshContext symbolTable) false
    (collectEntryPoints t (freshContext symbolTable)).toList
  exact codePath_visited h hq hp hx

end

/-! ## A call into a gap -/

/-- `nop; jmp +1; ret; call -6; ret`: the call goes to the `ret` that the jump steps over. -/
def gapTarget : Target :=
  sampleTarget [0x90, 0xEB, 0x01, 0xC3, 0xE8, 0xFA, 0xFF, 0xFF, 0xFF, 0xC3]

theorem gap_path : CodePath gapTarget (FirstEntry gapTarget {}) 0x1003 [0x1003, 0x1004, 0x1000] := by
  have h0 : CodePath gapTarget (FirstEntry gapTarget {}) 0x1000 [0x1000] :=
    .entry (by unfold FirstEntry; decide +kernel) (by decide +kernel)
  have hnop : gapTarget.disassemble 0x1000 = some { instruction := nopInsn, address := 0x1000 } := by
    decide
  have hjmp : gapTarget.disassemble 0x1001 =
      some { instruction := jmpInsn 1, address := 0x1001 } := by decide
  have hcall : gapTarget.disassemble 0x1004 =
      some { instruction := callInsn 0xFA 0xFF 0xFF 0xFF, address := 0x1004 } := by decide
  have h1 : CodePath gapTarget (FirstEntry gapTarget {}) 0x1001 [0x1000] :=
    .flow h0 (.fallThrough hnop (by decide) (by decide)) (by decide +kernel)
  have h2 : CodePath gapTarget (FirstEntry gapTarget {}) 0x1004 [0x1004, 0x1000] :=
    .transfer h1 (.mk hjmp (.inr rfl) (by decide +kernel)) (by decide +kernel)
  exact .transfer h2 (.mk hcall (.inl rfl) (by decide +kernel)) (by decide +kernel)

/-- The called `ret` is not visited: it lies in the range of the function that calls it. -/
theorem callIntoGap_not_visited : ∃ (x : Nat) (l : List Nat),
    CodePath gapTarget (FirstEntry gapTarget {}) x l ∧ gapTarget.disassemble x ≠ none ∧
      x ∉ (rebuildControlFlow gapTarget (freshContext {})).visited :=
  ⟨0x1003, _, gap_path, by decide +kernel, by decide +kernel⟩

theorem rebuildControlFlow_reaches_gap :
    0x1003 ∈ (rebuildControlFlow gapTarget (freshContext {})).visited ∨
      ∃ u ∈ [0x1003, 0x1004, 0x1000],
        u ∉ (rebuildControlFlow gapTarget (freshContext {})).visited ∧
          (rebuildControlFlow gapTarget (freshContext {})).module.InKnown u :=
  rebuildControlFlow_reaches gapTarget {} gap_path (by decide +kernel)

end ReWizard
