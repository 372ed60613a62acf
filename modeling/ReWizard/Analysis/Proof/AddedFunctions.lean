import ReWizard.Analysis.Fragment
import ReWizard.Analysis.Proof.RebuilderCalls

/-!
# Which functions calls add

The drain loop of `LinearSweepFallback` is a copy of the loop of `StaticPathExplorer` without its
test for executable addresses and without its marking, and neither loop asks whether there is an
instruction at the address that it takes up. What the added functions lack is exactly what the
loops did not ask of the addresses that they took up:

* `run_functions_iff`: distinct starts and at least one block;
* `added_executable_iff`: a start in an executable range;
* `marked_iff`: the mark for hybrid analysis on functions with indirect calls or jumps.
-/

namespace ReWizard

/-! ## Starts and blocks -/

/-- No two functions have the same start, and each has a block. -/
structure Module.UniqueNonEmpty (m : Module) : Prop where
  unique : (m.functions.map (·.startAddress)).Nodup
  nonEmpty : ∀ f ∈ m.functions, f.basicBlocks ≠ []

instance (m : Module) : Decidable m.UniqueNonEmpty :=
  decidable_of_iff ((m.functions.map (·.startAddress)).Nodup ∧ ∀ f ∈ m.functions, f.basicBlocks ≠ [])
    ⟨fun h => ⟨h.1, h.2⟩, fun h => ⟨h.unique, h.nonEmpty⟩⟩

section

variable {t : Target}

/-- A start that is visited is not taken up again. -/
theorem discover_unique {mark : AnalyzeState → Bool} {s : ExploreState} {pc : Nat}
    (hpc : pc ∉ s.context.visited) (hdec : t.Decodes pc)
    (h : (s.context.module.functions.map (·.startAddress)).Nodup ∧
      ∀ f ∈ s.context.module.functions, f.startAddress ∈ s.context.visited) :
    ((discoverFunction t mark pc s).context.module.functions.map (·.startAddress)).Nodup ∧
      ∀ f ∈ (discoverFunction t mark pc s).context.module.functions,
        f.startAddress ∈ (discoverFunction t mark pc s).context.visited := by
  have hvis : ∀ a, a ∈ (discoverFunction t mark pc s).context.visited ↔
      a ∈ s.context.visited ∨ Taken t s.context pc a :=
    analyzeFunction_visited t s.context (newFunction pc) pc s.functionWork
  rw [discoverFunction_functions, List.map_append, List.nodup_append]
  refine ⟨⟨h.1, by simp, fun a ha b hb hab => ?_⟩, fun f hf => (hvis _).mpr ?_⟩
  · obtain ⟨f, hf, rfl⟩ := List.mem_map.mp ha
    rw [List.map_singleton, List.mem_singleton, discovered_start] at hb
    exact hpc (hb ▸ hab ▸ h.2 f hf)
  · rcases List.mem_append.mp hf with hf | hf
    · exact .inl (h.2 f hf)
    · rw [List.mem_singleton.mp hf, discovered_start]
      exact .inr (.start hpc hdec)

end

/-- **Functions are unique and non-empty** after a first `Run` exactly when every address that is
taken up holds an instruction. -/
theorem run_functions_iff (t : Target) (symbolTable : SymbolTable) :
    (rebuildControlFlow t (freshContext symbolTable)).module.UniqueNonEmpty ↔
      ∀ s pc rest, RebuilderCall.run.TakesUp t (freshContext symbolTable) s pc rest →
        t.Decodes pc := by
  obtain ⟨new, hnew, hsound, htaken⟩ :=
    RebuilderCall.takesUp_functions t .run (freshContext symbolTable)
  have hfun : (rebuildControlFlow t (freshContext symbolTable)).module.functions = new := hnew
  constructor
  · rintro ⟨-, hne⟩ s pc rest ht
    obtain ⟨mark, hmem⟩ := htaken s pc rest ht
    exact (discovered_blocks t mark pc { s with functionWork := rest } ht.unvisited).mp
      (hne _ (hfun ▸ hmem))
  · intro h
    let I (ctx : AnalysisContext) : Prop := (ctx.module.functions.map (·.startAddress)).Nodup ∧
      ∀ f ∈ ctx.module.functions, f.startAddress ∈ ctx.visited
    have h0 : I (freshContext symbolTable) := ⟨List.nodup_nil, fun f hf => by cases hf⟩
    have hI : I (RebuilderCall.run.apply t (freshContext symbolTable)) :=
      RebuilderCall.takesUp_inv h0 fun mark s pc rest ht hs =>
        discover_unique (s := { s with functionWork := rest }) ht.unvisited (h s pc rest ht) hs
    refine ⟨hI.1, fun f hf => ?_⟩
    obtain ⟨mark, s, pc, rest, ht, rfl⟩ := hsound f (hfun ▸ hf)
    exact (discovered_blocks t mark pc { s with functionWork := rest } ht.unvisited).mpr
      (h s pc rest ht)

/-- `call +1; ret`, and a byte that is not an instruction as the call's target: it becomes two
functions without blocks. -/
theorem run_functions_twice :
    ¬ (rebuildControlFlow (sampleTarget [0xE8, 0x01, 0x00, 0x00, 0x00, 0xC3, 0x06])
      (freshContext {})).module.UniqueNonEmpty := by
  decide +kernel

/-! ## Executable starts -/

section

variable {t : Target}

/-- A call-site target that is enqueued. -/
structure FreshTarget (t : Target) (ctx : AnalysisContext) (u : Nat) : Prop where
  resolved : u ≠ 0
  unvisited : u ∉ ctx.visited
  mapped : t.loader.isWithinMapping u = true
  unknown : ctx.module.getFunctionForAddress u = none

/-- Apart from what was enqueued before, the queue gets targets of the function's call sites. -/
theorem mem_enqueueCallTargets {ctx : AnalysisContext} {f : Function} {queue : List Nat} {u : Nat}
    (h : u ∈ enqueueCallTargets t ctx f queue) :
    u ∈ queue ∨ (FreshTarget t ctx u ∧ ∃ c, addrPair c u ∈ f.callSites) := by
  have hgen : ∀ (l : List AddrPair) (q : List Nat), u ∈ l.foldl (fun queue cs =>
      let dest := (ofLex cs).2
      if dest ≠ 0 ∧ dest ∉ ctx.visited ∧ t.loader.isWithinMapping dest ∧
          (ctx.module.getFunctionForAddress dest).isNone then queue ++ [dest]
      else queue) q → u ∈ q ∨ (FreshTarget t ctx u ∧ ∃ c, addrPair c u ∈ l) := by
    intro l
    induction l with
    | nil => exact fun q hq => .inl hq
    | cons cs rest ih =>
      intro q hq
      rw [List.foldl_cons] at hq
      rcases ih _ hq with hu | ⟨h0, c, hc⟩
      · dsimp only at hu
        split at hu
        · rename_i hdest
          rcases List.mem_append.mp hu with hu | hu
          · exact .inl hu
          · rw [List.mem_singleton.mp hu]
            obtain ⟨h0, hv, hm, hk⟩ := hdest
            exact .inr ⟨⟨h0, hv, hm, Option.isNone_iff_eq_none.mp hk⟩, (ofLex cs).1,
              List.mem_cons_self⟩
        · exact .inl hu
      · exact .inr ⟨h0, c, List.mem_cons_of_mem _ hc⟩
  exact hgen _ _ h

theorem discoverFunction_queue {mark : AnalyzeState → Bool} {pc : Nat} {s : ExploreState} {u : Nat}
    (h : u ∈ (discoverFunction t mark pc s).functionWork) : u ∈ s.functionWork ∨ t.InCode u ∨
      ∃ c, addrPair c u ∈ (discovered t mark pc s).callSites := by
  rcases mem_enqueueCallTargets h with h | h
  · exact (analyzeFunction_queue t s.context (newFunction pc) pc s.functionWork u h).imp id .inl
  · exact .inr (.inr h.2)

/-- There is a prologue at the address, which is executable. -/
def Target.Prologue (t : Target) (a : Nat) : Prop :=
  t.loader.isExecutableAddress a = true ∧
    ∃ i, t.disassemble a = some i ∧ isPrologue i.instruction = true

/-- A prologue that the sweep enqueues. -/
structure Target.Candidate (t : Target) (ctx : AnalysisContext) (a : Nat) : Prop where
  prologue : t.Prologue a
  unvisited : a ∉ ctx.visited
  unknown : ctx.module.getFunctionForAddress a = none

/-- What a pass of the sweep does to the queue. -/
theorem sweepStep_queue {ctx : AnalysisContext} {stop : Nat} {s s' : SweepState}
    (hn : sweepStep t ctx stop s = .next s') :
    (t.Candidate ctx s.addr ∧ s'.functionWork = s.functionWork ++ [s.addr]) ∨
      (¬ t.Candidate ctx s.addr ∧ s'.functionWork = s.functionWork) := by
  unfold sweepStep at hn
  split at hn
  · cases hn
  · split at hn
    · rename_i hv
      cases hn
      exact .inr ⟨fun h => h.unvisited hv, rfl⟩
    · rename_i hv
      split at hn
      · rename_i hd
        cases hn
        refine .inr ⟨fun h => ?_, rfl⟩
        obtain ⟨-, i, hi, -⟩ := h.prologue
        rw [hd] at hi
        cases hi
      · rename_i insn hd
        cases hn
        dsimp only
        split
        · rename_i hfound
          exact .inl ⟨⟨⟨hfound.2.2, insn, hd, hfound.1⟩, hv,
            Option.isNone_iff_eq_none.mp hfound.2.1⟩, rfl⟩
        · rename_i hno
          refine .inr ⟨fun h => hno ?_, rfl⟩
          obtain ⟨hexec, i, hi, hpro⟩ := h.prologue
          cases hd.symm.trans hi
          exact ⟨hpro, Option.isNone_iff_eq_none.mpr h.unknown, hexec⟩

/-- The sweep of a range ends where it began its last pass. -/
theorem sweepStep_done {ctx : AnalysisContext} {stop : Nat} {s s' : SweepState}
    (hd : sweepStep t ctx stop s = .done s') : s' = s ∧ stop ≤ s.addr := by
  unfold sweepStep at hd
  split at hd
  · rename_i hstop
    cases hd
    exact ⟨rfl, hstop⟩
  · split at hd
    · cases hd
    · split at hd <;> cases hd

theorem sweepRange_candidate {ctx : AnalysisContext} {queue : List Nat} {range : Nat × Nat} {a : Nat}
    (h : a ∈ sweepRange t ctx queue range) : a ∈ queue ∨ t.Candidate ctx a := by
  refine Loop.exec_inv (I := fun s : SweepState => ∀ a ∈ s.functionWork,
    a ∈ queue ∨ t.Candidate ctx a) (fun _ ha => .inl ha) (fun s s' hs hn a ha => ?_)
    (fun s s' hs hd => by rwa [(sweepStep_done hd).1]) a h
  rcases sweepStep_queue hn with ⟨hc, heq⟩ | ⟨-, heq⟩
  · rw [heq] at ha
    rcases List.mem_append.mp ha with ha | ha
    · exact hs a ha
    · rw [List.mem_singleton.mp ha]
      exact .inr hc
  · exact hs a (heq ▸ ha)

theorem swept_candidate {s : ExploreState} {a : Nat} (h : a ∈ (swept t s).functionWork) :
    a ∈ s.functionWork ∨ t.Candidate s.context a := by
  have hranges : ∀ (ranges : List (Nat × Nat)) (queue : List Nat),
      a ∈ ranges.foldl (sweepRange t s.context) queue → a ∈ queue ∨ t.Candidate s.context a := by
    intro ranges
    induction ranges with
    | nil => exact fun queue h => .inl h
    | cons range rest ih =>
      intro queue h
      rcases ih _ h with h | h
      · exact sweepRange_candidate h
      · exact .inr h
  exact hranges _ _ h

theorem swept_prologue {s : ExploreState} {a : Nat} (h : a ∈ (swept t s).functionWork) :
    a ∈ s.functionWork ∨ t.Prologue a :=
  (swept_candidate h).imp id fun h => h.prologue

theorem swept_queue {s : ExploreState} (hq : s.functionWork = []) {u : Nat}
    (h : u ∈ (swept t s).functionWork) : t.loader.isExecutableAddress u = true := by
  rcases swept_prologue h with h | h
  · rw [hq] at h
    cases h
  · exact h.1

/-- Only call-site targets get into the drain loop's queue without being executable. -/
theorem drain_queue {s r : ExploreState} (hq : s.functionWork = [])
    (hr : Loop.Reaches (drainStep t) (swept t s) r) {u : Nat} (hu : u ∈ r.functionWork) :
    t.loader.isExecutableAddress u = true ∨
      ∃ f ∈ r.context.module.functions.drop s.context.module.functions.length,
        ∃ c, addrPair c u ∈ f.callSites := by
  let added (r : ExploreState) : List Function :=
    r.context.module.functions.drop s.context.module.functions.length
  refine hr.inv (I := fun r => s.context.module.functions <+: r.context.module.functions ∧
    ∀ u ∈ r.functionWork, t.loader.isExecutableAddress u = true ∨
      ∃ f ∈ added r, ∃ c, addrPair c u ∈ f.callSites)
    ⟨List.prefix_rfl, fun u hu => .inl (swept_queue hq hu)⟩ ?_ |>.2 u hu
  rintro r r' - ⟨hpre, hI⟩ hn
  obtain ⟨pc, rest, hwork, ⟨-, rfl⟩ | ⟨-, rfl⟩⟩ := (drainStep_loop t).next hn
  · exact ⟨hpre, fun u hu => hI u (by rw [hwork]; exact List.mem_cons_of_mem _ hu)⟩
  · have hadded : added (discoverFunction t (fun _ => false) pc { r with functionWork := rest }) =
        added r ++ [discovered t (fun _ => false) pc { r with functionWork := rest }] := by
      show List.drop _ _ = _
      rw [discoverFunction_functions, List.drop_append_of_le_length hpre.length_le]
    refine ⟨?_, fun u hu => ?_⟩
    · rw [discoverFunction_functions]
      exact hpre.trans (List.prefix_append _ _)
    · rw [hadded]
      rcases discoverFunction_queue hu with hu | hu | hu
      · rcases hI u (by rw [hwork]; exact List.mem_cons_of_mem _ hu) with hu | ⟨f, hf, hc⟩
        · exact .inl hu
        · exact .inr ⟨f, List.mem_append_left _ hf, hc⟩
      · exact .inl hu.2
      · exact .inr ⟨_, List.mem_append_right _ List.mem_cons_self, hu⟩

theorem RebuilderCall.Drains.target {call : RebuilderCall} {ctx : AnalysisContext}
    {s : ExploreState} {pc : Nat} {rest : List Nat} (h : call.Drains t ctx s pc rest) :
    t.loader.isExecutableAddress pc = true ∨
      ∃ f ∈ s.context.module.functions.drop ctx.module.functions.length,
        ∃ c, addrPair c pc ∈ f.callSites := by
  obtain ⟨hs, hr, ht⟩ := h
  rename_i s₀
  have hempty := (exploreStep_loop t false).exits_queue (descended_exits t false s₀)
  have hpre := (exploreStep_loop t false).functions_extend
    ((exploreStep_loop t false).reached (descended_exits t false s₀))
  rw [RebuilderCall.start_context hs] at hpre
  refine (drain_queue hempty hr (by rw [ht.queue]; exact List.mem_cons_self)).imp id ?_
  rintro ⟨f, hf, hc⟩
  exact ⟨f, (List.drop_sublist_drop_left _ hpre.length_le).subset hf, hc⟩

end

/-- **Functions start in executable ranges** exactly when the drain loop takes up no call-site
target outside of them. -/
theorem added_executable_iff (t : Target) (call : RebuilderCall) (ctx : AnalysisContext) :
    (∀ f ∈ (call.apply t ctx).module.functions.drop ctx.module.functions.length,
      t.loader.isExecutableAddress f.startAddress = true) ↔
    ∀ s pc rest, call.Drains t ctx s pc rest →
      (∃ f ∈ s.context.module.functions.drop ctx.module.functions.length,
        ∃ c, addrPair c pc ∈ f.callSites) → t.loader.isExecutableAddress pc = true := by
  obtain ⟨new, hnew, hall⟩ := call.functions t ctx
  rw [hnew, List.drop_left]
  constructor
  · intro h s pc rest hd _
    have hf := h _ ((hall _).mpr (.inr ⟨s, pc, rest, hd, rfl⟩))
    rwa [discovered_start] at hf
  · intro h f hf
    rcases (hall f).mp hf with ⟨s, pc, rest, ⟨-, -, ht⟩, rfl⟩ | ⟨s, pc, rest, hd, rfl⟩
    · rw [discovered_start]
      exact ht.filtered
    · rw [discovered_start]
      exact hd.target.elim id (h s pc rest hd)

/-- `ret; push rbp; call [rip + 1]; ret` and the slot that the call reads, which becomes a function:
the sweep finds the `push`, and the slot is a call-site target of the function there. -/
theorem slot_is_function :
    let t := slotTarget [0xC3, 0x55, 0xFF, 0x15, 0x01, 0x00, 0x00, 0x00, 0xC3]
    ¬ ∀ f ∈ (RebuilderCall.run.apply t (freshContext {})).module.functions.drop
      (freshContext {}).module.functions.length,
      t.loader.isExecutableAddress f.startAddress = true := by
  decide +kernel

/-! ## Marks for hybrid analysis -/

section

variable {t : Target}

/-- A discovered function has an indirect call or jump when the code it takes has one. -/
theorem discovered_unresolved {mark : AnalyzeState → Bool} {pc : Nat} {s : ExploreState} :
    (discovered t mark pc s).Unresolved ↔ ∃ a, Taken t s.context pc a ∧ t.UnresolvedAt a := by
  have hg := analyzeFunction_grows t s.context (newFunction pc) pc s.functionWork
  have hfun : (discovered t mark pc s).Unresolved ↔
      (analyzeFunction t s.context (newFunction pc) pc s.functionWork).function.Unresolved := by
    obtain ⟨b, heq⟩ := discovered_eq t mark pc s
    rw [heq]
    rfl
  have hnew : ¬ (newFunction pc).Unresolved := by
    unfold Function.Unresolved newFunction Function.setStart Function.create
    simp
  have htaken : ∀ a, Taken t s.context pc a ↔
      Newly (analyzeInit s.context (newFunction pc) pc s.functionWork)
        (analyzeFunction t s.context (newFunction pc) pc s.functionWork) a := by
    intro a
    unfold Newly
    rw [analyzeFunction_visited]
    constructor
    · intro ha
      exact ⟨.inr ha, ha.unvisited⟩
    · exact fun ha => ha.1.resolve_left ha.2
  rw [hfun, hg.unresolved]
  simp only [htaken]
  exact or_iff_right hnew

/-- The loop of `StaticPathExplorer` marks what has an indirect call or jump. -/
theorem discovered_marked {pc : Nat} {s : ExploreState}
    (h : (discovered t (marksForHybrid false) pc s).Unresolved) :
    (discovered t (marksForHybrid false) pc s).markedForHybridAnalysis = true := by
  have hg := analyzeFunction_grows t s.context (newFunction pc) pc s.functionWork
  obtain ⟨a, ha, -⟩ := discovered_unresolved.mp h
  have hcount : (analyzeFunction t s.context (newFunction pc) pc s.functionWork).localInsnCount ≠
      0 := by
    refine Nat.ne_of_gt (hg.counted a ⟨?_, ha.unvisited⟩)
    exact (analyzeFunction_visited t s.context (newFunction pc) pc s.functionWork a).mpr (.inr ha)
  have hflags : (analyzeFunction t s.context (newFunction pc) pc
      s.functionWork).function.Unresolved := by
    obtain ⟨b, heq⟩ := discovered_eq t (marksForHybrid false) pc s
    rw [heq] at h
    exact h
  have hmark : marksForHybrid false
      (analyzeFunction t s.context (newFunction pc) pc s.functionWork) = true := by
    unfold marksForHybrid
    rw [decide_eq_true hcount, Bool.false_or, Bool.true_and, Bool.or_eq_true]
    exact hflags
  unfold discovered
  dsimp only
  rw [if_pos hmark]

/-- The drain loop marks nothing. -/
theorem discovered_unmarked {pc : Nat} {s : ExploreState} :
    (discovered t (fun _ => false) pc s).markedForHybridAnalysis = false := by
  unfold discovered
  dsimp only
  rw [if_neg Bool.false_ne_true,
    (analyzeFunction_grows t s.context (newFunction pc) pc s.functionWork).marked]
  rfl

end

/-- **Functions with indirect calls or jumps are marked** exactly when those known before the call
are, and the drain loop takes up no code with an indirect call or jump. -/
theorem marked_iff (t : Target) (call : RebuilderCall) (ctx : AnalysisContext) :
    (∀ f ∈ (call.apply t ctx).module.functions,
      f.Unresolved → f.markedForHybridAnalysis = true) ↔
    (∀ f ∈ ctx.module.functions, f.Unresolved → f.markedForHybridAnalysis = true) ∧
      ∀ s pc rest, call.Drains t ctx s pc rest →
        ∀ a, Taken t s.context pc a → ¬ t.UnresolvedAt a := by
  obtain ⟨new, hnew, hall⟩ := call.functions t ctx
  rw [hnew]
  constructor
  · intro h
    refine ⟨fun f hf => h f (List.mem_append_left _ hf), fun s pc rest hd a ha hu => ?_⟩
    have hmark := h _ (List.mem_append_right _ ((hall _).mpr (.inr ⟨s, pc, rest, hd, rfl⟩)))
      (discovered_unresolved.mpr ⟨a, ha, hu⟩)
    rw [discovered_unmarked] at hmark
    cases hmark
  · rintro ⟨hold, hdrain⟩ f hf hu
    rcases List.mem_append.mp hf with hf | hf
    · exact hold f hf hu
    · rcases (hall f).mp hf with ⟨s, pc, rest, -, rfl⟩ | ⟨s, pc, rest, hd, rfl⟩
      · exact discovered_marked hu
      · obtain ⟨a, ha, hua⟩ := discovered_unresolved.mp hu
        exact absurd hua (hdrain s pc rest hd a ha)

/-- `ret; push rbp; call rax; ret`: the sweep finds the function with the call, and the loop that
takes it up does not mark it. -/
theorem sweptCall_unmarked :
    ¬ ∀ f ∈ (RebuilderCall.run.apply (sampleTarget [0xC3, 0x55, 0xFF, 0xD0, 0xC3])
      (freshContext {})).module.functions, f.Unresolved → f.markedForHybridAnalysis = true := by
  decide +kernel

end ReWizard
