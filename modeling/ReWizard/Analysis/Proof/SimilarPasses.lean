import ReWizard.Analysis.Pipeline
import ReWizard.Analysis.Proof.IndirectTargets
import ReWizard.Analysis.Proof.Lockstep
import ReWizard.Lib.Reorder

/-!
# What data flow writes and the other passes

`DataFlowAnalysisPass` only writes call sites and resolved values, so it leaves a similar context
(`dataFlowAnalysis_similar`), and no pass reads them: on similar contexts every pass leaves similar
ones (`passRun_similar`). The passes that only change the blocks and the opaque predicates of the
functions commute with it (`dataFlowAnalysis_map`).
-/

namespace ReWizard

/-! ## Changes of functions that do not read call sites -/

/-- The change neither reads nor writes the call sites. -/
def SitesBlind (φ : Function → Function) : Prop :=
  ∀ f sites, φ { f with callSites := sites } = { φ f with callSites := sites }

theorem SitesBlind.callSites {φ : Function → Function} (h : SitesBlind φ) (f : Function) :
    (φ f).callSites = f.callSites := by
  have hsites := congrArg Function.callSites (h f f.callSites)
  exact hsites

theorem SitesBlind.sameButSites {φ : Function → Function} (h : SitesBlind φ) {f f' : Function}
    (hsame : f.SameButSites f') : (φ f).SameButSites (φ f') := by
  unfold Function.SameButSites at hsame ⊢
  rw [hsame, h]

theorem SitesBlind.addCallSite {φ : Function → Function} (h : SitesBlind φ) (f : Function)
    (c t : Nat) : φ (f.addCallSite c t) = (φ f).addCallSite c t := by
  unfold Function.addCallSite
  rw [h, h.callSites]

theorem removeOpaquePredicates_blind : SitesBlind Function.removeOpaquePredicates := by
  intro f sites
  unfold Function.removeOpaquePredicates
  dsimp only
  split <;> rfl

theorem processOpaquePredicates_blind (trace : List TraceRecord) :
    SitesBlind fun f => f.processOpaquePredicates trace := by
  intro f sites
  unfold Function.processOpaquePredicates
  dsimp only
  split <;> rfl

theorem intervalInsn_bare (s : IntervalState) (i : ExtendedInstruction) :
    intervalInsn s i.bare = intervalInsn s i := rfl

/-- The records enter without their resolved values. -/
theorem intervalFunction_alike {m m' : Module} (h : m.Alike m') :
    intervalFunction m' = intervalFunction m := by
  have hblock : intervalBlock m' = intervalBlock m := by
    funext s b
    exact (h.foldl intervalInsn_bare b _).symm
  funext f
  unfold intervalFunction
  rw [hblock]

theorem intervalFunction_blind (m : Module) : SitesBlind (intervalFunction m) := by
  intro f sites
  let R (s s' : IntervalState) : Prop :=
    s'.domain = s.domain ∧ s'.prevInsn = s.prevInsn ∧
      s'.function = { s.function with callSites := sites }
  have hinsn : ∀ i s s', R s s' → R (intervalInsn s i) (intervalInsn s' i) := by
    rintro i s s' ⟨hd, hp, hf⟩
    unfold intervalInsn
    dsimp only
    rw [hd, hp, hf]
    refine ⟨rfl, rfl, ?_⟩
    dsimp only
    split <;> (split <;> rfl)
  have hall := List.foldl_rel (r := R) (l := f.basicBlocks) (f := intervalBlock m)
    (g := intervalBlock m) (a := ⟨IntervalDomain.empty, none, f⟩)
    (b := ⟨IntervalDomain.empty, none, { f with callSites := sites }⟩) ⟨rfl, rfl, rfl⟩
    fun b _ s s' hs => List.foldl_rel ⟨hs.1, rfl, hs.2.2⟩ fun i _ s s' hs => hinsn i s s' hs
  exact hall.2.2

/-- The change applied to every function of the module. -/
def AnalysisContext.mapFunctions (φ : Function → Function) (ctx : AnalysisContext) :
    AnalysisContext :=
  { ctx with module := { ctx.module with functions := ctx.module.functions.map φ } }

theorem AnalysisContext.Similar.mapFunctions {ctx ctx' : AnalysisContext} (h : ctx.Similar ctx')
    {φ : Function → Function} (hφ : SitesBlind φ) :
    (ctx.mapFunctions φ).Similar (ctx'.mapFunctions φ) := by
  refine ⟨⟨h.module.alike, ?_, h.module.index, h.module.symbols, h.module.xrefs⟩, h.visited⟩
  exact List.forall₂_map_left_iff.mpr
    (List.forall₂_map_right_iff.mpr (h.module.functions.imp fun _ _ => hφ.sameButSites))

/-! ## What data flow changes -/

/-- What every resolved instruction keeps true of the module and the function holds in the end. -/
theorem dataFlowFunction_inv {P : Module → Function → Prop} {m : Module} {f : Function}
    (h : P m f) (hresolve : ∀ m f i t, P m f → P (m.setIndirectValue i t) (f.addCallSite i.address t)) :
    P (dataFlowFunction m f).module (dataFlowFunction m f).function := by
  refine List.foldlRecOn (motive := fun s : DataFlowState => P s.module s.function)
    f.basicBlocks dataFlowBlock h fun s hs b _ => ?_
  refine List.foldlRecOn (motive := fun s : DataFlowState => P s.module s.function)
    (s.module.blockInsns b) dataFlowInsn hs fun s hs i _ => ?_
  rcases dataFlowInsn_cases s i with ⟨hm, hf⟩ | ⟨t, -, hm, hf⟩
  · rw [hm, hf]
    exact hs
  · rw [hm, hf]
    exact hresolve _ _ i t hs

theorem dataFlowFunction_sameButSites (m : Module) (f : Function) :
    f.SameButSites (dataFlowFunction m f).function := by
  refine dataFlowFunction_inv (P := fun _ f' => f.SameButSites f') (.refl f) fun _ f' i t h => ?_
  exact h.trans rfl

/-- Nothing in the module changes but records. -/
theorem dataFlowFunction_module (m : Module) (f : Function) :
    (dataFlowFunction m f).module.functionByStart = m.functionByStart ∧
      (dataFlowFunction m f).module.symbolTable = m.symbolTable ∧
      (dataFlowFunction m f).module.xrefManager = m.xrefManager :=
  dataFlowFunction_inv (P := fun m' _ => m'.functionByStart = m.functionByStart ∧
    m'.symbolTable = m.symbolTable ∧ m'.xrefManager = m.xrefManager) ⟨rfl, rfl, rfl⟩
    fun _ _ _ _ h => h

/-- Data flow leaves a similar context. -/
theorem dataFlowAnalysis_similar (ctx : AnalysisContext) :
    ctx.Similar (dataFlowAnalysis ctx) := by
  let I (done : List Function) (r : Module × List Function) : Prop :=
    ctx.module.Alike r.1 ∧ List.Forall₂ Function.SameButSites done r.2 ∧
      r.1.functionByStart = ctx.module.functionByStart ∧
      r.1.symbolTable = ctx.module.symbolTable ∧ r.1.xrefManager = ctx.module.xrefManager
  have hall : I ctx.module.functions (ctx.module.functions.foldl (fun r f =>
      let s := dataFlowFunction r.1 f
      (s.module, r.2 ++ [s.function])) (ctx.module, [])) := by
    refine BlockPath.foldl_split (I := I) ⟨.refl _, .nil, rfl, rfl, rfl⟩ ?_
    rintro done f rest ⟨m, processed⟩ - ⟨halike, hsame, hindex, hsymbols, hxrefs⟩
    obtain ⟨hindex', hsymbols', hxrefs'⟩ := dataFlowFunction_module m f
    exact ⟨halike.trans (dataFlowFunction_alike m f).symm,
      List.rel_append hsame (.cons (dataFlowFunction_sameButSites m f) .nil),
      hindex'.trans hindex, hsymbols'.trans hsymbols, hxrefs'.trans hxrefs⟩
  obtain ⟨halike, hsame, hindex, hsymbols, hxrefs⟩ := hall
  exact ⟨⟨halike, hsame, hindex, hsymbols, hxrefs⟩, rfl⟩

def BasicBlock.range (b : BasicBlock) : Nat × Nat := (b.startAddress, b.endAddress)

/-- The change keeps where the blocks are. -/
def KeepsRanges (φ : Function → Function) : Prop :=
  ∀ f, (φ f).basicBlocks.map BasicBlock.range = f.basicBlocks.map BasicBlock.range

/-- Data flow on a changed function, in a module with other functions. -/
theorem dataFlowFunction_map {φ : Function → Function} (hφ : SitesBlind φ) (hr : KeepsRanges φ)
    (m : Module) (fs : List Function) (f : Function) :
    dataFlowFunction { m with functions := fs } (φ f) =
      { module := { (dataFlowFunction m f).module with functions := fs }
        regs := (dataFlowFunction m f).regs
        function := φ (dataFlowFunction m f).function } := by
  let R (s s' : DataFlowState) : Prop :=
    s' = ⟨{ s.module with functions := fs }, s.regs, φ s.function⟩
  have hinsn : ∀ i s s', R s s' → R (dataFlowInsn s i) (dataFlowInsn s' i) := by
    rintro i s s' rfl
    have hresolve : R (tryResolveIndirect i s)
        (tryResolveIndirect i ⟨{ s.module with functions := fs }, s.regs, φ s.function⟩) := by
      unfold tryResolveIndirect
      dsimp only
      cases s.regs.target? i.instruction with
      | none => rfl
      | some t =>
        show DataFlowState.mk _ _ _ = DataFlowState.mk _ _ _
        rw [hφ.addCallSite]
        rfl
    have happly : ∀ {s s' : DataFlowState}, R s s' →
        R { s with regs := s.regs.applyInstruction i }
          { s' with regs := s'.regs.applyInstruction i } := by
      rintro s s' rfl
      rfl
    unfold dataFlowInsn tryResolveIndirectCall tryResolveIndirectJump
    cases i.instruction.category with
    | call | uncondBr | condBr => exact happly hresolve
    | _ => rfl
  -- a block is its range
  let rangeStep (s : DataFlowState) (range : Nat × Nat) : DataFlowState :=
    (s.module.insnsFrom range.2 (range.2 - range.1) range.1).foldl dataFlowInsn s
  have hblocks : ∀ (blocks : List BasicBlock) (s : DataFlowState),
      blocks.foldl dataFlowBlock s = (blocks.map BasicBlock.range).foldl rangeStep s := by
    intro blocks s
    rw [List.foldl_map]
    rfl
  have hall : R (dataFlowFunction m f) (dataFlowFunction { m with functions := fs } (φ f)) := by
    unfold dataFlowFunction
    rw [hblocks, hblocks, hr f]
    refine List.foldl_rel rfl fun range _ s s' hs => ?_
    have hmodule : s'.module.Alike s.module := by
      rw [hs]
      exact fun _ => rfl
    show R (List.foldl _ _ _) (List.foldl _ _ _)
    have hsame := hmodule.foldl dataFlowInsn_bare
      ({ BasicBlock.create range.1 with endAddress := range.2 }) s'
    unfold Module.blockInsns at hsame
    dsimp only [BasicBlock.create] at hsame
    rw [hsame]
    exact List.foldl_rel hs fun i _ s s' hs => hinsn i s s' hs
  exact hall

/-- **Data flow commutes** with changes of the functions that keep where their blocks are. -/
theorem dataFlowAnalysis_map {φ : Function → Function} (hφ : SitesBlind φ) (hr : KeepsRanges φ)
    (ctx : AnalysisContext) :
    dataFlowAnalysis (ctx.mapFunctions φ) = (dataFlowAnalysis ctx).mapFunctions φ := by
  let fs := ctx.module.functions.map φ
  let R (r r' : Module × List Function) : Prop := r' = ({ r.1 with functions := fs }, r.2.map φ)
  have hall := List.foldl_rel (r := R) (l := ctx.module.functions)
    (f := fun r f => ((dataFlowFunction r.1 f).module, r.2 ++ [(dataFlowFunction r.1 f).function]))
    (g := fun r f => ((dataFlowFunction r.1 (φ f)).module,
      r.2 ++ [(dataFlowFunction r.1 (φ f)).function]))
    (a := (ctx.module, [])) (b := ({ ctx.module with functions := fs }, [])) rfl
    (fun f _ r r' hrel => by
      rw [show r' = ({ r.1 with functions := fs }, r.2.map φ) from hrel]
      show Prod.mk _ _ = Prod.mk _ _
      rw [dataFlowFunction_map hφ hr, List.map_append]
      rfl)
  unfold dataFlowAnalysis AnalysisContext.mapFunctions
  dsimp only
  rw [List.foldl_map, show List.foldl _ _ _ = _ from hall]

theorem intervalFunction_basicBlocks (m : Module) (f : Function) :
    (intervalFunction m f).basicBlocks = f.basicBlocks := by
  refine List.foldlRecOn (motive := fun s : IntervalState =>
    s.function.basicBlocks = f.basicBlocks) f.basicBlocks (intervalBlock m) rfl fun s hs b _ => ?_
  refine List.foldlRecOn (motive := fun s : IntervalState =>
    s.function.basicBlocks = f.basicBlocks) (m.blockInsns b) intervalInsn hs fun s hs i _ => ?_
  unfold intervalInsn
  dsimp only
  split <;> (split <;> exact hs)

theorem removeDeadEdge_ranges (s : RemovalState) (r : Nat × Bool) :
    (removeDeadEdge s r).blocks.map BasicBlock.range = s.blocks.map BasicBlock.range := by
  unfold removeDeadEdge
  split
  · rfl
  · split
    · rfl
    · rename_i bb hbb
      obtain ⟨hk, hget⟩ := List.getElem?_eq_some_iff.mp hbb
      split
      · show (s.blocks.set _ (bb.removeSuccessor _)).map BasicBlock.range = _
        rw [List.map_set, show ∀ a, (bb.removeSuccessor a).range = bb.range from fun _ => rfl,
          ← List.map_set, ← hget, List.set_getElem_self]
      · rfl

theorem removeOpaquePredicates_ranges : KeepsRanges Function.removeOpaquePredicates := by
  intro f
  unfold Function.removeOpaquePredicates
  split
  · exact List.foldlRecOn (motive := fun s : RemovalState =>
      s.blocks.map BasicBlock.range = f.basicBlocks.map BasicBlock.range) _ _ rfl
      fun s hs r _ => (removeDeadEdge_ranges s r).trans hs
  · rfl

theorem abstractInterpretation_dataFlow (ctx : AnalysisContext) :
    abstractInterpretation (dataFlowAnalysis ctx) = dataFlowAnalysis (abstractInterpretation ctx) := by
  have halike := (dataFlowAnalysis_similar ctx).module.alike
  calc abstractInterpretation (dataFlowAnalysis ctx)
      = (dataFlowAnalysis ctx).mapFunctions (intervalFunction (dataFlowAnalysis ctx).module) := rfl
    _ = (dataFlowAnalysis ctx).mapFunctions (intervalFunction ctx.module) := by
        rw [intervalFunction_alike halike]
    _ = dataFlowAnalysis (ctx.mapFunctions (intervalFunction ctx.module)) :=
        (dataFlowAnalysis_map (intervalFunction_blind _)
          (fun f => by rw [intervalFunction_basicBlocks]) ctx).symm

theorem opaquePredicate_dataFlow (ctx : AnalysisContext) :
    opaquePredicate (dataFlowAnalysis ctx) = dataFlowAnalysis (opaquePredicate ctx) :=
  (dataFlowAnalysis_map removeOpaquePredicates_blind removeOpaquePredicates_ranges ctx).symm

/-! ## The passes on similar contexts -/

theorem importAnalysis_similar {t : Target} {ctx ctx' : AnalysisContext} (h : ctx.Similar ctx') :
    (importAnalysis t ctx).Similar (importAnalysis t ctx') := by
  unfold importAnalysis
  split
  · exact h
  · exact ⟨⟨h.module.alike, h.module.functions, h.module.index, rfl, h.module.xrefs⟩, h.visited⟩

theorem abstractInterpretation_similar {ctx ctx' : AnalysisContext} (h : ctx.Similar ctx') :
    (abstractInterpretation ctx).Similar (abstractInterpretation ctx') := by
  have hmap := h.mapFunctions (intervalFunction_blind ctx.module)
  show (ctx.mapFunctions _).Similar (ctx'.mapFunctions _)
  rw [intervalFunction_alike h.module.alike]
  exact hmap

theorem opaquePredicate_similar {ctx ctx' : AnalysisContext} (h : ctx.Similar ctx') :
    (opaquePredicate ctx).Similar (opaquePredicate ctx') :=
  h.mapFunctions removeOpaquePredicates_blind

/-- The walk over the blocks finds the same instructions, up to resolved values. -/
theorem getIndirectInstructions_similar {m m' : Module} (hm : m.Alike m') {f f' : Function}
    (hf : f.SameButSites f') :
    (getIndirectInstructions m f).1.map (·.bare) = (getIndirectInstructions m' f').1.map (·.bare) ∧
      (getIndirectInstructions m f).2.SameButSites (getIndirectInstructions m' f').2 := by
  let R (w w' : IndirectWalk) : Prop :=
    ∃ l, w.instructions.map (·.bare) = l.map (·.bare) ∧ w' = { w with instructions := l }
  have hqueue : ∀ succ w w', R w w' → R (queueSuccessor w succ) (queueSuccessor w' succ) := by
    rintro succ w _ ⟨l, hl, rfl⟩
    unfold queueSuccessor
    dsimp only
    split
    · exact ⟨l, hl, rfl⟩
    · split
      · exact ⟨l, hl, rfl⟩
      · split
        · exact ⟨l, hl, rfl⟩
        · exact ⟨l, hl, rfl⟩
  have hfilter : ∀ l : List ExtendedInstruction,
      (l.filter (·.isIndirect)).map (·.bare) = (l.map (·.bare)).filter (·.isIndirect) := by
    intro l
    rw [List.filter_map]
    rfl
  have hstep : ∀ w w', R w w' → Loop.Out.Rel R (indirectStep m w) (indirectStep m' w') := by
    rintro w _ ⟨l, hl, rfl⟩
    unfold indirectStep
    dsimp only
    split
    · exact .done ⟨l, hl, rfl⟩
    · split
      · exact .next ⟨l, hl, rfl⟩
      · rename_i b _
        split
        · exact .next ⟨l, hl, rfl⟩
        · refine .next (List.foldl_rel ?_ fun succ _ w w' hw => hqueue succ w w' hw)
          refine ⟨l ++ (m'.blockInsns b).filter (·.isIndirect), ?_, rfl⟩
          rw [List.map_append, List.map_append, hl, hfilter, hfilter, hm.blockInsns]
  unfold Function.SameButSites at hf
  have hblocks : f'.basicBlocks = f.basicBlocks ∧ f'.startAddress = f.startAddress := by
    rw [hf]
    exact ⟨rfl, rfl⟩
  unfold getIndirectInstructions
  rw [hblocks.1, hblocks.2]
  dsimp only
  split
  · exact ⟨rfl, hf⟩
  · obtain ⟨l, hl, hw⟩ := Loop.exec_rel hstep (n := indirectFuel
      (getBasicBlockForAddress f.basicBlocks f.startAddress).blocks)
      (show R ⟨_, [], [], _⟩ ⟨_, [], [], _⟩ from ⟨[], rfl, rfl⟩)
    rw [hw]
    refine ⟨hl, ?_⟩
    unfold Function.SameButSites
    rw [hf]

theorem resolveFunction_similar {m m' : Module} (hm : m.Alike m') {f f' : Function}
    (hf : f.SameButSites f') (trace : List TraceRecord) (targets : OrdSet Nat) :
    (resolveFunction m trace f targets).function.SameButSites
        (resolveFunction m' trace f' targets).function ∧
      (resolveFunction m' trace f' targets).resolvedTargets =
        (resolveFunction m trace f targets).resolvedTargets := by
  let R (s s' : ResolveState) : Prop :=
    s.function.SameButSites s'.function ∧ s'.resolvedTargets = s.resolvedTargets
  let step (s : ResolveState) (insn : ExtendedInstruction) : ResolveState :=
    (getRecordsForPC trace insn.address).foldl (resolveRecord insn) s
  have hrecord : ∀ insn r s s', R s s' → R (resolveRecord insn s r) (resolveRecord insn s' r) := by
    rintro insn r s s' ⟨hf, ht⟩
    unfold resolveRecord
    dsimp only
    split
    · refine ⟨?_, by rw [ht]⟩
      unfold Function.SameButSites at hf ⊢
      dsimp only
      rw [hf]
      rfl
    · exact ⟨hf, ht⟩
  have hstep : ∀ (l l' : List ExtendedInstruction) s s', l.map (·.bare) = l'.map (·.bare) →
      R s s' → R (l.foldl step s) (l'.foldl step s') := by
    intro l l' s s' hl hs
    have hbare : ∀ (l : List ExtendedInstruction) s,
        l.foldl step s = (l.map (·.bare)).foldl step s := fun l s => by
      rw [List.foldl_map]
      rfl
    rw [hbare l, hbare l', ← hl]
    exact List.foldl_rel hs fun insn _ s s' hs =>
      List.foldl_rel hs fun r _ s s' hs => hrecord insn r s s' hs
  have hmarked : f'.markedForHybridAnalysis = f.markedForHybridAnalysis := by
    unfold Function.SameButSites at hf
    rw [hf]
  obtain ⟨hinsns, hfound⟩ := getIndirectInstructions_similar hm hf
  unfold resolveFunction
  rw [hmarked]
  split
  · obtain ⟨hsame, ht⟩ := hstep _ _ ⟨_, targets⟩ ⟨_, targets⟩ hinsns ⟨hfound, rfl⟩
    refine ⟨?_, ht⟩
    have hverified : SitesBlind fun f =>
        { f.processOpaquePredicates trace with hybridVerified := true } := fun f sites => by
      show Function.mk .. = Function.mk ..
      rw [show ({ f with callSites := sites } : Function).processOpaquePredicates trace =
        { f.processOpaquePredicates trace with callSites := sites } from
        processOpaquePredicates_blind trace f sites]
    exact hverified.sameButSites hsame
  · exact ⟨hf, rfl⟩

theorem hybridAnalysis_similar {t : Target} {trace : Option (List TraceRecord)}
    {ctx ctx' : AnalysisContext} (h : ctx.Similar ctx') :
    (hybridAnalysis t trace ctx).Similar (hybridAnalysis t trace ctx') := by
  cases trace with
  | none => exact h
  | some trace =>
    let R (r r' : List Function × OrdSet Nat) : Prop :=
      List.Forall₂ Function.SameButSites r.1 r'.1 ∧ r'.2 = r.2
    have hresolve : R (resolveFunctions ctx.module trace) (resolveFunctions ctx'.module trace) := by
      refine List.rel_foldl (P := R) (R := Function.SameButSites) ?_ ⟨.nil, rfl⟩ h.module.functions
      rintro ⟨done, targets⟩ ⟨done', targets'⟩ ⟨hdone, ht⟩ f f' hf
      cases ht
      obtain ⟨hsame, ht⟩ := resolveFunction_similar h.module.alike hf trace targets
      exact ⟨List.rel_append hdone (.cons hsame .nil), ht⟩
    have htarget : ∀ target ctx ctx', AnalysisContext.Similar ctx ctx' →
        (analyzeTarget t ctx target).Similar (analyzeTarget t ctx' target) := by
      intro target ctx ctx' h
      have hnone : (ctx'.module.getFunctionForAddress target).isNone =
          (ctx.module.getFunctionForAddress target).isNone := by
        rw [← Option.not_isSome, ← Option.not_isSome, h.module.getFunctionForAddress]
      unfold analyzeTarget reAnalyzeFrom
      rw [h.visited, hnone]
      split
      · split
        · exact h
        · exact staticPathExplorer_similar h target false
      · exact h
    unfold hybridAnalysis
    dsimp only
    rw [hresolve.2]
    exact Reorder.foldl_congr htarget _
      ⟨⟨h.module.alike, hresolve.1, h.module.index, h.module.symbols, h.module.xrefs⟩, h.visited⟩

/-- **What data flow writes no pass reads**: on similar contexts every pass leaves similar ones. -/
theorem passRun_similar {t : Target} {trace : Option (List TraceRecord)} (name : String)
    (ctx ctx' : AnalysisContext) (h : ctx.Similar ctx') :
    (passRun t trace name ctx).Similar (passRun t trace name ctx') := by
  unfold passRun
  split
  · exact importAnalysis_similar h
  · exact staticPathExplorer_similar h 0 false
  · exact abstractInterpretation_similar h
  · have hequiv := AnalysisContext.similar_equivalence
    exact hequiv.trans (hequiv.symm (dataFlowAnalysis_similar ctx))
      (hequiv.trans h (dataFlowAnalysis_similar ctx'))
  · exact opaquePredicate_similar h
  · exact hybridAnalysis_similar h
  · exact h

end ReWizard
