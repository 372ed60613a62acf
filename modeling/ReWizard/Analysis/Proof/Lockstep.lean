import ReWizard.Analysis.Proof.Alike
import ReWizard.Analysis.StaticControlFlowRebuilder

/-!
# Exploration in lockstep

The exploration of functions asks a context which addresses are visited, which function an address
is in, whether an address has a record, which functions there are and which symbols. Contexts that
give the same answers and keep doing so (`Lockable`) are explored in lockstep: the same blocks are
decoded in the same order (`staticPathExplorer_lock`).

* `similar_lockable`, `staticPathExplorer_similar`: contexts that differ in what data flow writes.
-/

namespace ReWizard

/-- `R` relates contexts that exploration does not tell apart. Whether an address has a record only
decides whether a record is marked, so the answers to that need only be related by `S`. -/
structure Lockable (R : AnalysisContext → AnalysisContext → Prop) (S : Bool → Bool → Prop) :
    Prop where
  visited : ∀ {ctx ctx' : AnalysisContext}, R ctx ctx' → ctx'.visited = ctx.visited
  lookup : ∀ {ctx ctx' : AnalysisContext}, R ctx ctx' → ∀ a,
    (ctx'.module.getFunctionForAddress a).isSome = (ctx.module.getFunctionForAddress a).isSome
  contains : ∀ {ctx ctx' : AnalysisContext}, R ctx ctx' → ∀ a,
    S (!ctx.module.instructions.contains a) (!ctx'.module.instructions.contains a)
  functions : ∀ {ctx ctx' : AnalysisContext}, R ctx ctx' →
    (ctx'.module.functions = [] ↔ ctx.module.functions = [])
  symbols : ∀ {ctx ctx' : AnalysisContext}, R ctx ctx' →
    ctx'.module.symbolTable = ctx.module.symbolTable
  addXref : ∀ {ctx ctx' : AnalysisContext}, R ctx ctx' → ∀ src dst kind,
    R { ctx with module := ctx.module.addXref src dst kind }
      { ctx' with module := ctx'.module.addXref src dst kind }
  markIndirect : ∀ {ctx ctx' : AnalysisContext}, R ctx ctx' → ∀ insn {b b' : Bool}, S b b' →
    R { ctx with module := ReWizard.markIndirect insn b ctx.module }
      { ctx' with module := ReWizard.markIndirect insn b' ctx'.module }
  enter : ∀ {ctx ctx' : AnalysisContext}, R ctx ctx' → ∀ insn : ExtendedInstruction,
    R { module := ctx.module.addInstruction insn, visited := insert insn.address ctx.visited }
      { module := ctx'.module.addInstruction insn, visited := insert insn.address ctx'.visited }
  addFunction : ∀ {ctx ctx' : AnalysisContext}, R ctx ctx' → ∀ f,
    R { ctx with module := ctx.module.addFunction f }
      { ctx' with module := ctx'.module.addFunction f }

variable {R : AnalysisContext → AnalysisContext → Prop} {S : Bool → Bool → Prop}

/-- The same state but for a related context. -/
def AnalyzeState.Lock (R : AnalysisContext → AnalysisContext → Prop) (s s' : AnalyzeState) : Prop :=
  ∃ ctx, R s.context ctx ∧ s' = { s with context := ctx }

/-! ## Decoding a function -/

namespace AnalyzeState.Lock

variable {t : Target} {s s' : AnalyzeState}

theorem visited (hR : Lockable R S) (h : s.Lock R s') : s'.visited = s.visited := by
  obtain ⟨ctx, hctx, rfl⟩ := h
  exact hR.visited hctx

theorem pc (h : s.Lock R s') : s'.pc = s.pc := by
  obtain ⟨ctx, -, rfl⟩ := h
  rfl

theorem getFunctionForAddress (hR : Lockable R S) (h : s.Lock R s') (a : Nat) :
    (s'.module.getFunctionForAddress a).isSome = (s.module.getFunctionForAddress a).isSome := by
  obtain ⟨ctx, hctx, rfl⟩ := h
  exact hR.lookup hctx a

theorem contains (hR : Lockable R S) (h : s.Lock R s') (a : Nat) :
    S (!s.module.instructions.contains a) (!s'.module.instructions.contains a) := by
  obtain ⟨ctx, hctx, rfl⟩ := h
  exact hR.contains hctx a

theorem addCallSite (hR : Lockable R S) (h : s.Lock R s') (target : Nat) (kind : String) :
    (s.addCallSite target kind).Lock R (s'.addCallSite target kind) := by
  obtain ⟨ctx, hctx, rfl⟩ := h
  exact ⟨_, hR.addXref hctx s.pc target kind, rfl⟩

theorem addXref (hR : Lockable R S) (h : s.Lock R s') (src dst : Nat) (kind : String) :
    (s.mapModule fun m => m.addXref src dst kind).Lock R
      (s'.mapModule fun m => m.addXref src dst kind) := by
  obtain ⟨ctx, hctx, rfl⟩ := h
  exact ⟨_, hR.addXref hctx src dst kind, rfl⟩

theorem markIndirect (hR : Lockable R S) (h : s.Lock R s') (insn : ExtendedInstruction)
    {b b' : Bool} (hb : S b b') :
    (s.mapModule (ReWizard.markIndirect insn b)).Lock R
      (s'.mapModule (ReWizard.markIndirect insn b')) := by
  obtain ⟨ctx, hctx, rfl⟩ := h
  exact ⟨_, hR.markIndirect hctx insn hb, rfl⟩

theorem enter (hR : Lockable R S) (h : s.Lock R s') (insn : ExtendedInstruction) :
    (s.enter insn).Lock R (s'.enter insn) := by
  obtain ⟨ctx, hctx, rfl⟩ := h
  exact ⟨_, hR.enter hctx insn, rfl⟩

/-- What does not look at the context keeps the lock. -/
theorem map (h : s.Lock R s') {g : AnalyzeState → AnalyzeState}
    (hg : ∀ s ctx, g { s with context := ctx } = { g s with context := ctx })
    (hctx : ∀ s, (g s).context = s.context) : (g s).Lock R (g s') := by
  obtain ⟨ctx, hsim, rfl⟩ := h
  exact ⟨ctx, (hctx s).symm ▸ hsim, hg s ctx⟩

theorem handleCall (hR : Lockable R S) (h : s.Lock R s') (insn : ExtendedInstruction)
    {b b' : Bool} (hb : S b b') (bb : BasicBlock) :
    (ReWizard.handleCall t insn b bb s).Lock R (ReWizard.handleCall t insn b' bb s') := by
  have hindirect : ∀ {s s' : AnalyzeState}, s.Lock R s' → AnalyzeState.Lock R
      { s with
        bb := some { bb with containsIndirectCalls := true }
        function := { s.function with containsIndirectCalls := true } }
      { s' with
        bb := some { bb with containsIndirectCalls := true }
        function := { s'.function with containsIndirectCalls := true } } :=
    fun h => h.map (g := fun s =>
      { s with
        bb := some { bb with containsIndirectCalls := true }
        function := { s.function with containsIndirectCalls := true } })
      (fun _ _ => rfl) fun _ => rfl
  have hbb : ∀ {s s' : AnalyzeState}, s.Lock R s' →
      AnalyzeState.Lock R { s with bb := some bb } { s' with bb := some bb } :=
    fun h => h.map (g := fun s => { s with bb := some bb }) (fun _ _ => rfl) fun _ => rfl
  have hrest := hindirect ((h.addCallSite hR insn.indirectValue "call").markIndirect hR insn hb)
  unfold ReWizard.handleCall
  cases (insn.instruction.op 0).value with
  | immediate imm =>
    have hcall := hbb (h.addCallSite hR (insn.relTarget imm) "call")
    dsimp only
    rw [hcall.visited hR]
    split
    · exact hcall.map (g := fun s =>
        { s with functionWork := s.functionWork ++ [insn.relTarget imm] })
        (fun _ _ => rfl) fun _ => rfl
    · exact hcall
  | memory mem =>
    dsimp only
    split
    · exact hbb (h.addCallSite hR _ "call")
    · split
      · exact hbb (h.addCallSite hR _ "call")
      · exact hrest
  | _ => exact hrest

theorem indirectJumps (h : s.Lock R s') : AnalyzeState.Lock R
    { s with function := { s.function with containsIndirectJumps := true } }
    { s' with function := { s'.function with containsIndirectJumps := true } } :=
  h.map (g := fun s => { s with function := { s.function with containsIndirectJumps := true } })
    (fun _ _ => rfl) fun _ => rfl

theorem branchTarget (hR : Lockable R S) (h : s.Lock R s') (insn : ExtendedInstruction)
    {b b' : Bool} (hb : S b b') (bb : BasicBlock) :
    (ReWizard.branchTarget t insn b bb s).1.Lock R (ReWizard.branchTarget t insn b' bb s').1 ∧
      (ReWizard.branchTarget t insn b' bb s').2 = (ReWizard.branchTarget t insn b bb s).2 := by
  have hrest :=
    ((h.addCallSite hR insn.indirectValue "jump").markIndirect hR insn hb).indirectJumps
  unfold ReWizard.branchTarget
  cases (insn.instruction.op 0).value with
  | immediate imm =>
    dsimp only
    split
    · refine ⟨?_, rfl⟩
      have hxref := h.addXref hR s.pc (insn.relTarget imm) "jump"
      rw [h.pc, h.visited hR, h.getFunctionForAddress hR]
      split
      · split
        · exact h.addCallSite hR _ "jump"
        · split
          · exact hxref.map (g := fun s =>
              { s with
                work := s.work ++ [insn.relTarget imm]
                functionWork := s.functionWork ++ [insn.relTarget imm] })
              (fun _ _ => rfl) fun _ => rfl
          · exact h
      · exact hxref.map (g := fun r =>
          { r with work := if insn.relTarget imm ∉ s.visited then r.work ++ [insn.relTarget imm]
              else r.work })
          (fun _ _ => rfl) fun _ => rfl
    · exact ⟨h, rfl⟩
  | register _ => exact ⟨hrest, rfl⟩
  | memory _ => exact ⟨hrest, rfl⟩
  | _ => exact ⟨h, rfl⟩

theorem closeBlock (h : s.Lock R s') (bb : BasicBlock) (stop last : Nat) :
    (s.closeBlock bb stop last).addBasicBlock.Lock R (s'.closeBlock bb stop last).addBasicBlock :=
  h.map (g := fun s => (s.closeBlock bb stop last).addBasicBlock) (fun _ _ => rfl) fun _ => rfl

theorem handleBranch (hR : Lockable R S) (h : s.Lock R s') (insn : ExtendedInstruction)
    {b b' : Bool} (hb : S b b') (bb : BasicBlock) :
    (ReWizard.handleBranch t insn b bb s).Lock R (ReWizard.handleBranch t insn b' bb s') := by
  obtain ⟨hlock, hbb⟩ := h.branchTarget (t := t) hR insn hb bb
  unfold ReWizard.handleBranch
  dsimp only
  rw [hbb, hlock.pc]
  split
  · have hxref := hlock.addXref hR (ReWizard.branchTarget t insn b bb s).1.pc insn.next "jump"
    rw [hxref.pc]
    exact hxref.closeBlock _ _ _
  · rw [hlock.pc]
    exact hlock.closeBlock _ _ _

theorem handleTrampoline (hR : Lockable R S) (h : s.Lock R s') (insn : ExtendedInstruction)
    {b b' : Bool} (hb : S b b') (bb : BasicBlock) :
    (ReWizard.handleTrampoline t insn b bb s).Lock R
      (ReWizard.handleTrampoline t insn b' bb s') := by
  have htarget : (ReWizard.trampolineTarget insn b bb s).1.Lock R
        (ReWizard.trampolineTarget insn b' bb s').1 ∧
      (ReWizard.trampolineTarget insn b' bb s').2 = (ReWizard.trampolineTarget insn b bb s).2 := by
    unfold ReWizard.trampolineTarget
    cases (insn.instruction.op 0).value with
    | immediate imm =>
      exact ⟨h.map (g := fun s => s.mapFunction fun f =>
        f.addCallSite insn.address (insn.relTarget imm)) (fun _ _ => rfl) fun _ => rfl, rfl⟩
    | register _ => exact ⟨(h.markIndirect hR insn hb).indirectJumps, rfl⟩
    | memory _ => exact ⟨(h.markIndirect hR insn hb).indirectJumps, rfl⟩
    | _ => exact ⟨h, rfl⟩
  unfold ReWizard.handleTrampoline
  generalize ReWizard.trampolineTarget insn b bb s = r at htarget ⊢
  generalize ReWizard.trampolineTarget insn b' bb s' = r' at htarget ⊢
  obtain ⟨s₁, bb₁, target⟩ := r
  obtain ⟨s₁', bb₁', target'⟩ := r'
  obtain ⟨hlock, hrest⟩ := htarget
  cases hrest
  exact (hlock.closeBlock bb₁ insn.next insn.address).map (g := fun s => s.mapFunction _)
    (fun _ _ => rfl) fun _ => rfl

theorem decodeInsn (hR : Lockable R S) (h : s.Lock R s') (insn : ExtendedInstruction) :
    Loop.Out.Rel (AnalyzeState.Lock R) (ReWizard.decodeInsn t insn s)
      (ReWizard.decodeInsn t insn s') := by
  have hsame : s'.localInsnCount = s.localInsnCount ∧ s'.currentBlock = s.currentBlock := by
    obtain ⟨ctx, -, rfl⟩ := h
    exact ⟨rfl, rfl⟩
  have hcount : ∀ {s s' : AnalyzeState}, s.Lock R s' → s.countInsn.Lock R s'.countInsn :=
    fun h => h.map (g := AnalyzeState.countInsn) (fun _ _ => rfl) fun _ => rfl
  have hstack : ∀ {s s' : AnalyzeState}, s.Lock R s' →
      (s.countStack insn.instruction).Lock R (s'.countStack insn.instruction) :=
    fun h => h.map (g := fun s => s.countStack insn.instruction) (fun _ _ => rfl) fun _ => rfl
  have hadvance : ∀ {s s' : AnalyzeState}, s.Lock R s' →
      (s.advance insn).Lock R (s'.advance insn) :=
    fun h => h.map (g := fun s => s.advance insn) (fun _ _ => rfl) fun _ => rfl
  have hentered := hstack (hcount (h.enter hR insn))
  have hb := h.contains hR insn.address
  unfold ReWizard.decodeInsn
  dsimp only
  rw [hsame.1, hsame.2]
  split
  · exact .done (hcount ((h.enter hR insn).handleTrampoline hR insn hb _))
  · cases insn.instruction.category with
    | call => exact .next (hadvance (hentered.handleCall hR insn hb _))
    | condBr => exact .next (hadvance (hentered.handleBranch hR insn hb _))
    | uncondBr => exact .done (hentered.handleBranch hR insn hb _)
    | ret => exact .done (hentered.closeBlock _ _ _)
    | other =>
      exact .next (hadvance (hentered.map (g := fun r => { r with bb := some s.currentBlock })
        (fun _ _ => rfl) fun _ => rfl))

theorem decodeStep (hR : Lockable R S) (h : s.Lock R s') :
    Loop.Out.Rel (AnalyzeState.Lock R) (ReWizard.decodeStep t s) (ReWizard.decodeStep t s') := by
  unfold ReWizard.decodeStep
  rw [h.visited hR, h.pc]
  split
  · exact .done h
  · split
    · exact .done h
    · split
      · have hbb : s'.bb = s.bb ∧ s'.lastInsn = s.lastInsn := by
          obtain ⟨ctx, -, rfl⟩ := h
          exact ⟨rfl, rfl⟩
        rw [hbb.1, hbb.2]
        split
        · exact .done h
        · rename_i bb _
          exact .done (h.map (g := fun r =>
            r.closeBlock bb s.pc ((s.lastInsn.map (·.address)).getD 0)) (fun _ _ => rfl) fun _ => rfl)
      · exact h.decodeInsn hR _

theorem decodeFrom (hR : Lockable R S) (h : s.Lock R s') (pc : Nat) :
    (ReWizard.decodeFrom t pc s).Lock R (ReWizard.decodeFrom t pc s') := by
  unfold ReWizard.decodeFrom
  have hstart := h.map (g := fun s => { s with pc := pc, bb := none }) (fun _ _ => rfl) fun _ => rfl
  have hloop := Loop.exec_rel (n := t.loader.mappedSize + 1)
    (fun _ _ h => AnalyzeState.Lock.decodeStep (t := t) hR h) hstart
  exact hloop.map (g := AnalyzeState.addBasicBlock)
    (fun s ctx => by unfold AnalyzeState.addBasicBlock; cases hbb : s.bb <;> simp [hbb])
    fun s => by unfold AnalyzeState.addBasicBlock; cases s.bb <;> rfl

theorem workStep (hR : Lockable R S) (h : s.Lock R s') :
    Loop.Out.Rel (AnalyzeState.Lock R) (ReWizard.workStep t s) (ReWizard.workStep t s') := by
  have hwork : s'.work = s.work := by
    obtain ⟨ctx, -, rfl⟩ := h
    rfl
  unfold ReWizard.workStep
  rw [hwork]
  split
  · exact .done h
  · rename_i pc rest _
    have hrest := h.map (g := fun s => { s with work := rest }) (fun _ _ => rfl) fun _ => rfl
    dsimp only
    rw [hrest.visited hR]
    split
    · exact .next hrest
    · exact .next (hrest.decodeFrom hR pc)

end AnalyzeState.Lock

theorem analyzeFunction_lock {t : Target} {ctx ctx' : AnalysisContext} (hR : Lockable R S)
    (h : R ctx ctx') (f : Function) (start : Nat) (queue : List Nat) :
    (analyzeFunction t ctx f start queue).Lock R (analyzeFunction t ctx' f start queue) := by
  have hinit : (analyzeInit ctx f start queue).Lock R (analyzeInit ctx' f start queue) :=
    ⟨ctx', h, rfl⟩
  have hloop := Loop.exec_rel (n := t.loader.mappedSize + 2)
    (fun _ _ h => AnalyzeState.Lock.workStep (t := t) hR h) hinit
  exact hloop.map (g := fun s => s.mapFunction Function.normalizeBasicBlocks) (fun _ _ => rfl)
    fun _ => rfl

/-! ## Exploring functions -/

/-- Related contexts and the same queue. -/
structure ExploreState.Lock (R : AnalysisContext → AnalysisContext → Prop) (s s' : ExploreState) :
    Prop where
  context : R s.context s'.context
  queue : s'.functionWork = s.functionWork

theorem Lockable.isNone (hR : Lockable R S) {ctx ctx' : AnalysisContext} (h : R ctx ctx')
    (a : Nat) : (ctx'.module.getFunctionForAddress a).isNone =
      (ctx.module.getFunctionForAddress a).isNone := by
  rw [← Option.not_isSome, ← Option.not_isSome, hR.lookup h]

theorem enqueueCallTargets_lock {t : Target} {ctx ctx' : AnalysisContext} (hR : Lockable R S)
    (h : R ctx ctx') (f : Function) (queue : List Nat) :
    enqueueCallTargets t ctx' f queue = enqueueCallTargets t ctx f queue := by
  unfold enqueueCallTargets
  dsimp only
  simp only [hR.isNone h, hR.visited h]

namespace ExploreState.Lock

variable {t : Target} {s s' : ExploreState}

theorem discoverFunction (hR : Lockable R S) (h : s.Lock R s') (mark : AnalyzeState → Bool)
    (hmark : ∀ s s', s.Lock R s' → mark s' = mark s) (pc : Nat) :
    (ReWizard.discoverFunction t mark pc s).Lock R (ReWizard.discoverFunction t mark pc s') := by
  have hlock := analyzeFunction_lock (t := t) hR h.context (newFunction pc) pc s.functionWork
  unfold ReWizard.discoverFunction
  rw [h.queue]
  generalize ReWizard.analyzeFunction t s.context (newFunction pc) pc s.functionWork = r at hlock ⊢
  generalize ReWizard.analyzeFunction t s'.context (newFunction pc) pc s.functionWork = r'
    at hlock ⊢
  dsimp only
  rw [hmark r r' hlock]
  obtain ⟨ctx, hctx, rfl⟩ := hlock
  exact ⟨hR.addFunction hctx _, enqueueCallTargets_lock hR hctx _ _⟩

/-- Taking the front of the queue. -/
theorem take (h : s.Lock R s') (rest : List Nat) :
    ExploreState.Lock R { s with functionWork := rest } { s' with functionWork := rest } :=
  ⟨h.context, rfl⟩

theorem exploreStep (hR : Lockable R S) (h : s.Lock R s') (bypassHeur : Bool) :
    Loop.Out.Rel (ExploreState.Lock R) (ReWizard.exploreStep t bypassHeur s)
      (ReWizard.exploreStep t bypassHeur s') := by
  unfold ReWizard.exploreStep
  rw [h.queue]
  split
  · exact .done h
  · rename_i pc rest _
    dsimp only
    rw [hR.visited h.context, hR.lookup h.context]
    split
    · exact .next (h.take rest)
    · split
      · exact .next (h.take rest)
      · split
        · exact .next (h.take rest)
        · refine .next ((h.take rest).discoverFunction hR _ (fun s s' h => ?_) pc)
          obtain ⟨ctx, -, rfl⟩ := h
          rfl

theorem drainStep (hR : Lockable R S) (h : s.Lock R s') :
    Loop.Out.Rel (ExploreState.Lock R) (ReWizard.drainStep t s) (ReWizard.drainStep t s') := by
  unfold ReWizard.drainStep
  rw [h.queue]
  split
  · exact .done h
  · rename_i pc rest _
    dsimp only
    rw [hR.visited h.context, hR.lookup h.context]
    split
    · exact .next (h.take rest)
    · split
      · exact .next (h.take rest)
      · exact .next ((h.take rest).discoverFunction hR _ (fun _ _ _ => rfl) pc)

theorem linearSweepFallback (hR : Lockable R S) (h : s.Lock R s') :
    (ReWizard.linearSweepFallback t s).Lock R (ReWizard.linearSweepFallback t s') := by
  have hsweep : sweepRange t s'.context = sweepRange t s.context := by
    funext queue range
    have hstep : sweepStep t s'.context range.2 = sweepStep t s.context range.2 := by
      funext r
      unfold sweepStep
      rw [hR.visited h.context, hR.isNone h.context]
    unfold sweepRange
    rw [hstep]
  unfold ReWizard.linearSweepFallback
  dsimp only
  rw [h.queue, hsweep]
  refine Loop.exec_rel (fun _ _ h => ExploreState.Lock.drainStep hR h) ⟨h.context, rfl⟩

/-- The whole exploration, from the same queue. -/
theorem explore (hR : Lockable R S) (h : s.Lock R s') (bypassHeur : Bool) :
    (ReWizard.linearSweepFallback t
      (Loop.exec (ReWizard.exploreStep t bypassHeur) (exploreFuel t s) s)).Lock R
    (ReWizard.linearSweepFallback t
      (Loop.exec (ReWizard.exploreStep t bypassHeur) (exploreFuel t s') s')) := by
  have hfuel : exploreFuel t s' = exploreFuel t s := by
    unfold exploreFuel
    rw [h.queue]
  rw [hfuel]
  exact (Loop.exec_rel (fun _ _ h => ExploreState.Lock.exploreStep hR h bypassHeur)
    h).linearSweepFallback hR

end ExploreState.Lock

/-- Exploration from related contexts ends in related contexts. -/
theorem staticPathExplorer_lock {t : Target} {ctx ctx' : AnalysisContext} (hR : Lockable R S)
    (h : R ctx ctx') (fromAddress : Nat) (bypassHeur : Bool) :
    R (staticPathExplorer t ctx false fromAddress bypassHeur)
      (staticPathExplorer t ctx' false fromAddress bypassHeur) := by
  have hentries : collectEntryPoints t ctx' = collectEntryPoints t ctx := by
    unfold collectEntryPoints
    rw [hR.symbols h]
  unfold staticPathExplorer
  dsimp only
  simp only [Bool.false_eq_true, if_false, false_or, hR.functions h, hentries]
  generalize hq : (if ctx.module.functions = [] then (collectEntryPoints t ctx).toList
    else if fromAddress ≠ 0 then [fromAddress] else []) = queue
  have hstart : ExploreState.Lock R ⟨ctx, queue⟩ ⟨ctx', queue⟩ := ⟨h, rfl⟩
  exact (hstart.explore hR bypassHeur).context

/-! ## What data flow writes -/

theorem similar_lockable : Lockable AnalysisContext.Similar Eq where
  visited := fun h => h.visited
  lookup := fun h => h.module.getFunctionForAddress
  contains := fun h a => by rw [h.module.contains]
  functions := fun h => by
    rw [← List.length_eq_zero_iff, ← List.length_eq_zero_iff, h.module.functions.length_eq]
  symbols := fun h => h.module.symbols
  addXref := fun h src dst kind => ⟨h.module.addXref src dst kind, h.visited⟩
  markIndirect := fun h insn b b' hb => by
    subst hb
    refine ⟨?_, h.visited⟩
    unfold markIndirect
    split
    · refine ⟨fun a => ?_, h.module.functions, h.module.index, h.module.symbols, h.module.xrefs⟩
      show Option.map _ (OrdMap.get? _ _) = Option.map _ (OrdMap.get? _ _)
      rw [OrdMap.get?_insert, OrdMap.get?_insert]
      split
      · rfl
      · exact h.module.alike a
    · exact h.module
  enter := fun h insn => ⟨h.module.addInstruction insn, by rw [h.visited]⟩
  addFunction := fun h f => ⟨h.module.addFunction f, h.visited⟩

/-- **Lockstep**: exploration from similar contexts ends in similar contexts. -/
theorem staticPathExplorer_similar {t : Target} {ctx ctx' : AnalysisContext}
    (h : ctx.Similar ctx') (fromAddress : Nat) (bypassHeur : Bool) :
    (staticPathExplorer t ctx false fromAddress bypassHeur).Similar
      (staticPathExplorer t ctx' false fromAddress bypassHeur) :=
  staticPathExplorer_lock similar_lockable h fromAddress bypassHeur

end ReWizard
