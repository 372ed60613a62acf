import ReWizard.Analysis.Proof.Verdicts

/-!
# Resolved call sites stay resolved

The target 0 of a call site stands for one that is not resolved yet. `AddCallSite` takes the
placeholder away when a target comes, but it would also add a placeholder beside a target. That it
never does rests on the visited set: the rebuilder decodes an address once, so a function under
analysis has one call site for each source (`OneTarget`), and the two passes that come back to an
instruction add resolved targets only.

`callSites_monotone`: over any run of the three passes, whatever the image and the traces are.
-/

namespace ReWizard

/-- No instruction of the function has both the placeholder and a resolved target. -/
def Function.Unambiguous (f : Function) : Prop :=
  ∀ c t, t ≠ 0 → addrPair c 0 ∈ f.callSites → addrPair c t ∉ f.callSites

/-- What is resolved in the one function is resolved in the other. -/
def Function.KeepsResolved (f g : Function) : Prop :=
  ∀ c t, t ≠ 0 → addrPair c t ∈ f.callSites → addrPair c t ∈ g.callSites

theorem Function.KeepsResolved.refl (f : Function) : f.KeepsResolved f := fun _ _ _ h => h

theorem Function.KeepsResolved.trans {f g h : Function} (hfg : f.KeepsResolved g)
    (hgh : g.KeepsResolved h) : f.KeepsResolved h :=
  fun c t ht hc => hgh c t ht (hfg c t ht hc)

/-! ## Adding resolved call sites -/

section

variable {f g : Function} {l : List (Nat × Nat)}

theorem Function.addCallSite_keeps (f : Function) (c t : Nat) : f.KeepsResolved (f.addCallSite c t) :=
  fun _ _ hu hc => Function.mem_addCallSite.mpr (.inr ⟨hc, fun h => hu h.2⟩)

theorem Function.addCallSites_keeps : ∀ (l : List (Nat × Nat)) (f : Function),
    f.KeepsResolved (f.addCallSites l)
  | [], f => .refl f
  | c :: rest, f => (f.addCallSite_keeps c.1 c.2).trans (Function.addCallSites_keeps rest _)

theorem Function.Unambiguous.addCallSites (h : f.Unambiguous) (hl : ∀ x ∈ l, x.2 ≠ 0) :
    (f.addCallSites l).Unambiguous := by
  intro c t ht hzero hc
  rcases (mem_addCallSites hl).mp hzero with hzero | ⟨hzero, hfree⟩
  · exact hl _ hzero rfl
  · rcases (mem_addCallSites hl).mp hc with hc | ⟨hc, -⟩
    · exact hfree ⟨rfl, t, hc⟩
    · exact h c t ht hzero hc

/-- Only the call sites matter. -/
theorem Function.Unambiguous.congr (h : f.Unambiguous) (heq : g.callSites = f.callSites) :
    g.Unambiguous := by
  unfold Unambiguous
  rw [heq]
  exact h

theorem Function.KeepsResolved.congr {f' g' : Function} (h : f.KeepsResolved g)
    (hf : f'.callSites = f.callSites) (hg : g'.callSites = g.callSites) : f'.KeepsResolved g' := by
  unfold KeepsResolved
  rw [hf, hg]
  exact h

theorem Function.addCallSites_congr : ∀ (l : List (Nat × Nat)) {f g : Function},
    g.callSites = f.callSites → (g.addCallSites l).callSites = (f.addCallSites l).callSites
  | [], _, _, h => h
  | c :: rest, f, g, h => Function.addCallSites_congr rest (f := f.addCallSite c.1 c.2)
      (g := g.addCallSite c.1 c.2) (by unfold Function.addCallSite; rw [h])

end

/-! ## A function under analysis -/

section

variable {t : Target} (insn : ExtendedInstruction) (inserted : Bool) (bb : BasicBlock)
  (s : AnalyzeState)

/-- Nothing happens to the call sites, or one of the instruction at `pc` is added. -/
def AddsSiteAtPc (s s' : AnalyzeState) : Prop :=
  s'.function.callSites = s.function.callSites ∨
    ∃ target, s'.function.callSites = (s.function.addCallSite s.pc target).callSites

theorem handleCall_site : AddsSiteAtPc s (handleCall t insn inserted bb s) := by
  have hout := handleCall_out t insn inserted bb s
  generalize handleCall t insn inserted bb s = s' at hout ⊢
  cases hout <;> exact .inr ⟨_, rfl⟩

theorem handleBranch_site : AddsSiteAtPc s (handleBranch t insn inserted bb s) := by
  have hout := branchTarget_out t insn inserted bb s
  unfold handleBranch
  generalize branchTarget t insn inserted bb s = r at hout ⊢
  have htarget : AddsSiteAtPc s r.1 := by
    cases hout with
    | known => exact .inr ⟨_, rfl⟩
    | indirect => exact .inr ⟨_, rfl⟩
    | _ => exact .inl rfl
  dsimp only
  split <;> exact htarget

theorem handleTrampoline_site (hpc : insn.address = s.pc) :
    AddsSiteAtPc s (handleTrampoline t insn inserted bb s) := by
  unfold handleTrampoline trampolineTarget AddsSiteAtPc
  rw [← hpc]
  cases (insn.instruction.op 0).value with
  | immediate imm => exact .inr ⟨_, rfl⟩
  | _ => exact .inl rfl

end

section

variable {t : Target} {s s' : AnalyzeState}

/-- A pass of the decode loop adds a call site only at an address that was not visited. -/
theorem decodeStep_site (hn : decodeStep t s = .next s' ∨ decodeStep t s = .done s') :
    s'.function.callSites = s.function.callSites ∨ (s.pc ∉ s.visited ∧ AddsSiteAtPc s s') := by
  rcases decodeStep_result hn with ⟨rfl, -⟩ | ⟨-, bb, last, -, rfl⟩ | ⟨hv, hm, insn, hd, -⟩
  · exact .inl rfl
  · exact .inl rfl
  · refine .inr ⟨hv, ?_⟩
    rw [decodeStep_eq_decodeInsn hv hm hd] at hn
    obtain ⟨haddr, -⟩ := Target.disassemble_eq_some hd
    obtain ⟨inserted, -, hout | hout⟩ := decodeInsn_result hn
    · cases hout with
      | call => exact handleCall_site insn inserted s.currentBlock (s.recorded insn)
      | condBr => exact handleBranch_site insn inserted s.currentBlock (s.recorded insn)
      | other => exact .inl rfl
    · cases hout with
      | trampoline =>
        exact handleTrampoline_site insn inserted s.currentBlock (s.enter insn) haddr
      | uncondBr => exact handleBranch_site insn inserted s.currentBlock (s.recorded insn)
      | ret => exact .inl rfl

/-- The function under analysis has at most one call site for each source, and that was visited. -/
structure OneTarget (s : AnalyzeState) : Prop where
  sources : ∀ c t, addrPair c t ∈ s.function.callSites → c ∈ s.visited
  one : ∀ c t u, addrPair c t ∈ s.function.callSites → addrPair c u ∈ s.function.callSites → t = u

theorem OneTarget.congr (h : OneTarget s) (hv : s'.visited = s.visited)
    (hc : s'.function.callSites = s.function.callSites) : OneTarget s' := by
  refine ⟨?_, ?_⟩
  · rw [hv, hc]
    exact h.sources
  · rw [hc]
    exact h.one

theorem OneTarget.step (h : OneTarget s)
    (hn : decodeStep t s = .next s' ∨ decodeStep t s = .done s') : OneTarget s' := by
  have hg := decodeStep_grows hn
  refine ⟨fun c u hc => ?_, ?_⟩
  · rcases hg.callSites _ hc with hc | hc
    · exact hg.visited (h.sources c u hc)
    · exact hc.1
  · rcases decodeStep_site hn with hsame | ⟨hpc, hsame | ⟨target, hadd⟩⟩
    · rw [hsame]
      exact h.one
    · rw [hsame]
      exact h.one
    · rw [hadd]
      -- no call site at `pc` was there before
      have hfresh : ∀ u, addrPair s.pc u ∉ s.function.callSites := fun u hu => hpc (h.sources _ u hu)
      intro c u v hu hv
      rcases Function.mem_addCallSite.mp hu with ⟨rfl, rfl⟩ | ⟨hu', -⟩
      · rcases Function.mem_addCallSite.mp hv with ⟨-, rfl⟩ | ⟨hv', -⟩
        · rfl
        · exact absurd hv' (hfresh v)
      · rcases Function.mem_addCallSite.mp hv with ⟨rfl, rfl⟩ | ⟨hv', -⟩
        · exact absurd hu' (hfresh u)
        · exact h.one c u v hu' hv'

theorem OneTarget.unambiguous (h : OneTarget s) : s.function.Unambiguous :=
  fun c t ht hzero hc => ht (h.one c t 0 hc hzero)

theorem OneTarget.addBasicBlock (h : OneTarget s) : OneTarget s.addBasicBlock := by
  unfold AnalyzeState.addBasicBlock
  split
  · exact h
  · exact h.congr rfl rfl

/-- In every pass of the analysis of a new function, and after it. -/
theorem analysis_oneTarget (t : Target) (ctx : AnalysisContext) (pc : Nat) (queue : List Nat) :
    OneTarget (analyzeBlocks t ctx (newFunction pc) pc queue) ∧
      ∀ s, DecodePass t (analyzeInit ctx (newFunction pc) pc queue) s → OneTarget s := by
  have hinit : OneTarget (analyzeInit ctx (newFunction pc) pc queue) :=
    ⟨fun c u hc => absurd hc (OrdSet.not_mem_empty _), fun c u v hu => absurd hu
      (OrdSet.not_mem_empty _)⟩
  obtain ⟨hwork, hpass⟩ := analysis_inv (t := t) (I := OneTarget) rfl hinit
    (fun s rest pc h _ => h.congr rfl rfl) (fun s s' _ h hn => h.step (.inl hn))
    (fun s s' _ h hn => (h.step (.inr hn)).addBasicBlock)
  exact ⟨(hwork _ (analyzeBlocks_reached t ctx (newFunction pc) pc queue)).1, hpass⟩

theorem decodeStep_keeps (hn : decodeStep t s = .next s' ∨ decodeStep t s = .done s') :
    s.function.KeepsResolved s'.function := by
  rcases decodeStep_site hn with hsame | ⟨-, hsame | ⟨target, hadd⟩⟩
  · exact (Function.KeepsResolved.refl _).congr rfl hsame
  · exact (Function.KeepsResolved.refl _).congr rfl hsame
  · exact (s.function.addCallSite_keeps s.pc target).congr rfl hadd

theorem addBasicBlock_keeps (s : AnalyzeState) :
    s.function.KeepsResolved s.addBasicBlock.function := by
  unfold AnalyzeState.addBasicBlock
  split
  · exact .refl _
  · exact (Function.KeepsResolved.refl _).congr rfl rfl

/-- What is resolved in a pass of the analysis is resolved in the result. -/
theorem DecodePass.keepsResolved {ctx : AnalysisContext} {f : Function} {start : Nat}
    {queue : List Nat} (hp : DecodePass t (analyzeInit ctx f start queue) s) :
    s.function.KeepsResolved (analyzeBlocks t ctx f start queue).function := by
  obtain ⟨s', hn⟩ := (decodeStep t s).next_or_done
  exact (decodeStep_keeps hn).trans (hp.after
    (R := fun s s' => s.function.KeepsResolved s'.function) (fun s => .refl s.function)
    (fun h h' => h.trans h') (fun s _ => .refl s.function) (fun s _ => .refl s.function)
    decodeStep_keeps addBasicBlock_keeps hn)

theorem discovered_unambiguous (t : Target) (mark : AnalyzeState → Bool) (pc : Nat)
    (s : ExploreState) : (discovered t mark pc s).Unambiguous :=
  (analysis_oneTarget t s.context pc s.functionWork).1.unambiguous.congr
    (discovered_callSites t mark pc s)

end

/-! ## Hybrid analysis -/

theorem processOpaquePredicates_callSites (f : Function) (trace : List TraceRecord) :
    (f.processOpaquePredicates trace).callSites = f.callSites := by
  unfold Function.processOpaquePredicates
  split <;> rfl

theorem getIndirectInstructions_callSites (m : Module) (f : Function) :
    (getIndirectInstructions m f).2.callSites = f.callSites := by
  unfold getIndirectInstructions
  dsimp only
  split <;> rfl

/-- The call sites of a marked function after hybrid analysis. -/
theorem resolved_callSites {f : Function} (hmark : f.markedForHybridAnalysis = true) (m : Module)
    (trace : List TraceRecord) :
    (f.resolved m trace).callSites = (f.addCallSites (f.traceSites m trace)).callSites := by
  unfold Function.resolved
  rw [resolveFunction_sites hmark]
  exact (processOpaquePredicates_callSites _ trace).trans
    (Function.addCallSites_congr _ (getIndirectInstructions_callSites m f))

theorem resolved_start (m : Module) (trace : List TraceRecord) (f : Function) :
    (f.resolved m trace).startAddress = f.startAddress := by
  unfold Function.resolved
  rcases resolveFunction_eq m trace f with ⟨-, h⟩ | ⟨-, sites, h⟩
  · rw [h]
  · rw [h]
    unfold Function.processOpaquePredicates getIndirectInstructions
    dsimp only
    split <;> split <;> rfl

/-! ## Runs -/

/-- One of the passes that add call sites, with its arguments. -/
inductive CallSitePass
  | rebuild (call : RebuilderCall)
  | dataFlow
  | hybridAnalysis (trace : Option (List TraceRecord))

def CallSitePass.apply (t : Target) : CallSitePass → AnalysisContext → AnalysisContext
  | .rebuild call, ctx => call.apply t ctx
  | .dataFlow, ctx => dataFlowAnalysis ctx
  | .hybridAnalysis trace, ctx => ReWizard.hybridAnalysis t trace ctx

/-- The contexts that a run of passes comes to, the first one included. -/
def callSiteStates (t : Target) (ctx : AnalysisContext) (passes : List CallSitePass) :
    List AnalysisContext := passes.scanl (fun ctx p => p.apply t ctx) ctx

/-- No function has a placeholder beside a resolved target. -/
def AnalysisContext.Unambiguous (ctx : AnalysisContext) : Prop :=
  ∀ f ∈ ctx.module.functions, f.Unambiguous

/-- Every function stays where it is in the list, with what is resolved. -/
def AnalysisContext.KeepsResolved (ctx ctx' : AnalysisContext) : Prop :=
  ∀ (k : Nat) (f : Function), ctx.module.functions[k]? = some f →
    ∃ g : Function, ctx'.module.functions[k]? = some g ∧
      g.startAddress = f.startAddress ∧ f.KeepsResolved g

/-- `g` is the function while a pass makes `h` of `f`. -/
structure Between (f g h : Function) : Prop where
  unambiguous : g.Unambiguous
  before : f.KeepsResolved g
  after : g.KeepsResolved h

/-- In every context of the run, and at every moment within a pass, no function has a placeholder
beside a resolved target, and what was resolved before is resolved. -/
structure CallSitesMonotone (t : Target) (ctx : AnalysisContext) (passes : List CallSitePass) :
    Prop where
  unambiguous : ∀ s ∈ callSiteStates t ctx passes, s.Unambiguous
  kept : (callSiteStates t ctx passes).Pairwise AnalysisContext.KeepsResolved
  /-- While a function is analysed, whatever was analysed before. -/
  analysis : ∀ (mark : AnalyzeState → Bool) (pc : Nat) (u : ExploreState) (s : AnalyzeState),
    DecodePass t (analyzeInit u.context (newFunction pc) pc u.functionWork) s →
      Between (newFunction pc) s.function (discovered t mark pc u)
  /-- While the data flow adds its call sites to a function. -/
  dataFlow : ∀ s ∈ callSiteStates t ctx passes, ∀ f ∈ s.module.functions,
    ∀ l, l <+: f.dataFlowSites s.module →
      Between f (f.addCallSites l) (f.addCallSites (f.dataFlowSites s.module))
  /-- While hybrid analysis adds the call sites of a trace to a function. -/
  hybrid : ∀ s ∈ callSiteStates t ctx passes, ∀ f ∈ s.module.functions,
    f.markedForHybridAnalysis = true → ∀ trace l, l <+: f.traceSites s.module trace →
      Between f (f.addCallSites l) (f.resolved s.module trace)

theorem AnalysisContext.KeepsResolved.refl (ctx : AnalysisContext) : ctx.KeepsResolved ctx :=
  fun _ f hf => ⟨f, hf, rfl, .refl f⟩

theorem AnalysisContext.KeepsResolved.trans {a b c : AnalysisContext} (hab : a.KeepsResolved b)
    (hbc : b.KeepsResolved c) : a.KeepsResolved c := by
  intro k f hf
  obtain ⟨g, hg, hstart, hkeep⟩ := hab k f hf
  obtain ⟨h, hh, hstart', hkeep'⟩ := hbc k g hg
  exact ⟨h, hh, hstart'.trans hstart, hkeep.trans hkeep'⟩

/-- The functions of a pass: those from before, each with what is resolved, and new ones. -/
theorem keepsResolved_of_map {ctx ctx' : AnalysisContext} {φ : Function → Function}
    {new : List Function} (h : ctx'.module.functions = ctx.module.functions.map φ ++ new)
    (hφ : ∀ f ∈ ctx.module.functions,
      (φ f).startAddress = f.startAddress ∧ f.KeepsResolved (φ f)) : ctx.KeepsResolved ctx' := by
  intro k f hf
  obtain ⟨hk, -⟩ := List.getElem?_eq_some_iff.mp hf
  refine ⟨φ f, ?_, hφ f (List.mem_of_getElem? hf)⟩
  rw [h, List.getElem?_append_left (by rwa [List.length_map]), List.getElem?_map, hf]
  rfl

/-- What a trace does to a function. -/
theorem Function.Unambiguous.resolved {f : Function} (h : f.Unambiguous) (m : Module)
    (trace : List TraceRecord) :
    (f.resolved m trace).Unambiguous ∧ f.KeepsResolved (f.resolved m trace) := by
  cases hmark : f.markedForHybridAnalysis with
  | false =>
    have hsame : f.resolved m trace = f := by
      unfold Function.resolved
      rw [resolveFunction_unmarked hmark]
    rw [hsame]
    exact ⟨h, .refl f⟩
  | true =>
    have hsites := resolved_callSites hmark m trace
    exact ⟨(h.addCallSites traceSites_ne_zero).congr hsites,
      (Function.addCallSites_keeps _ f).congr rfl hsites⟩

/-- One pass. -/
theorem CallSitePass.step (t : Target) (p : CallSitePass) {ctx : AnalysisContext}
    (h : ctx.Unambiguous) : (p.apply t ctx).Unambiguous ∧ ctx.KeepsResolved (p.apply t ctx) := by
  cases p with
  | rebuild call =>
    obtain ⟨new, hnew, hall, -⟩ := RebuilderCall.takesUp_functions t call ctx
    have hfns : (CallSitePass.apply t (.rebuild call) ctx).module.functions =
        ctx.module.functions.map id ++ new := by
      rw [List.map_id]
      exact hnew
    refine ⟨fun f hf => ?_, keepsResolved_of_map hfns fun f _ => ⟨rfl, .refl f⟩⟩
    rw [hfns, List.map_id] at hf
    rcases List.mem_append.mp hf with hf | hf
    · exact h f hf
    · obtain ⟨mark, s, pc, rest, -, rfl⟩ := hall f hf
      exact discovered_unambiguous t mark pc _
  | dataFlow =>
    have hfns := dataFlowAnalysis_functions ctx
    have hnone : (dataFlowAnalysis ctx).module.functions =
        ctx.module.functions.map (fun f => f.addCallSites (f.dataFlowSites ctx.module)) ++ [] := by
      rw [List.append_nil]
      exact hfns
    refine ⟨fun f hf => ?_, keepsResolved_of_map hnone
      fun f _ => ⟨by rw [Function.addCallSites_sites], Function.addCallSites_keeps _ f⟩⟩
    have hf' : f ∈ (dataFlowAnalysis ctx).module.functions := hf
    rw [hfns] at hf'
    obtain ⟨g, hg, rfl⟩ := List.mem_map.mp hf'
    exact (h g hg).addCallSites dataFlowSites_ne_zero
  | hybridAnalysis trace =>
    cases trace with
    | none => exact ⟨h, .refl ctx⟩
    | some trace =>
      obtain ⟨new, hnew, hall⟩ := hybridAnalysis_functions t trace ctx
      refine ⟨fun f hf => ?_, keepsResolved_of_map hnew fun f hf =>
        ⟨resolved_start ctx.module trace f, ((h f hf).resolved ctx.module trace).2⟩⟩
      have hf' : f ∈ (ReWizard.hybridAnalysis t (some trace) ctx).module.functions := hf
      rw [hnew] at hf'
      rcases List.mem_append.mp hf' with hf' | hf'
      · obtain ⟨g, hg, rfl⟩ := List.mem_map.mp hf'
        exact ((h g hg).resolved ctx.module trace).1
      · obtain ⟨mark, pc, s, rfl⟩ := hall f hf'
        exact discovered_unambiguous t mark pc s

theorem callSiteStates_unambiguous (t : Target) : ∀ (passes : List CallSitePass)
    {ctx : AnalysisContext}, ctx.Unambiguous → ∀ s ∈ callSiteStates t ctx passes, s.Unambiguous
  | [], ctx, h, s, hs => by
    rw [callSiteStates, List.scanl_nil] at hs
    rwa [List.mem_singleton.mp hs]
  | p :: rest, ctx, h, s, hs => by
    rw [callSiteStates, List.scanl_cons] at hs
    rcases List.mem_cons.mp hs with rfl | hs
    · exact h
    · exact callSiteStates_unambiguous t rest (p.step t h).1 s hs

theorem callSiteStates_kept (t : Target) : ∀ (passes : List CallSitePass) {ctx : AnalysisContext},
    ctx.Unambiguous → (∀ s ∈ callSiteStates t ctx passes, ctx.KeepsResolved s) ∧
      (callSiteStates t ctx passes).Pairwise AnalysisContext.KeepsResolved
  | [], ctx, h => by
    rw [callSiteStates, List.scanl_nil]
    exact ⟨fun s hs => by rw [List.mem_singleton.mp hs]; exact .refl ctx, List.pairwise_singleton _ _⟩
  | p :: rest, ctx, h => by
    obtain ⟨hnext, hkeep⟩ := p.step t h
    obtain ⟨hall, hpairs⟩ := callSiteStates_kept t rest hnext
    have hlater : ∀ s ∈ callSiteStates t (p.apply t ctx) rest, ctx.KeepsResolved s :=
      fun s hs => hkeep.trans (hall s hs)
    rw [callSiteStates, List.scanl_cons]
    refine ⟨fun s hs => ?_, List.pairwise_cons.mpr ⟨hlater, hpairs⟩⟩
    rcases List.mem_cons.mp hs with rfl | hs
    · exact .refl s
    · exact hlater s hs

/-- A function while it gets a list of resolved call sites. -/
theorem Function.Unambiguous.between {f : Function} (h : f.Unambiguous) {l sites : List (Nat × Nat)}
    (hsites : ∀ x ∈ sites, x.2 ≠ 0) (hl : l <+: sites) :
    Between f (f.addCallSites l) (f.addCallSites sites) := by
  obtain ⟨rest, rfl⟩ := hl
  refine ⟨h.addCallSites fun x hx => hsites x (List.mem_append_left rest hx),
    Function.addCallSites_keeps l f, ?_⟩
  rw [Function.addCallSites_append]
  exact Function.addCallSites_keeps rest _

/-- **Call-site resolution is monotone**: over every run of the rebuilder, the data flow and the
hybrid analysis from an empty context. -/
theorem callSites_monotone (t : Target) (symbolTable : SymbolTable) (passes : List CallSitePass) :
    CallSitesMonotone t (freshContext symbolTable) passes := by
  have hfresh : (freshContext symbolTable).Unambiguous := fun f hf => by cases hf
  have hall := callSiteStates_unambiguous t passes hfresh
  refine ⟨hall, (callSiteStates_kept t passes hfresh).2, ?_, ?_, ?_⟩
  · intro mark pc u s hs
    refine ⟨((analysis_oneTarget t u.context pc u.functionWork).2 s hs).unambiguous, ?_, ?_⟩
    · exact fun c d _ hc => absurd hc (OrdSet.not_mem_empty _)
    · exact hs.keepsResolved.congr rfl (discovered_callSites t mark pc u)
  · exact fun s hs f hf l hl => (hall s hs f hf).between dataFlowSites_ne_zero hl
  · intro s hs f hf hmark trace l hl
    have hbetween := (hall s hs f hf).between traceSites_ne_zero hl
    exact { hbetween with
      after := hbetween.after.congr rfl (resolved_callSites hmark s.module trace) }

end ReWizard
