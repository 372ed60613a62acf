import ReWizard.Analysis.Proof.RebuilderCalls

/-!
# The collections that calls share

The functions, records and cross-references of the module and the visited set outlive a call:

* `reAnalyzeFrom_extends`: a call only adds to them;
* `InStep`: they agree on what was decoded, and no address is the source of call sites of two
  functions; `RebuilderCall.inStep`: calls keep that.
-/

namespace ReWizard

/-! ## Calls only add -/

/-- `m'` has the functions, records and cross-references of `m`, unchanged and in their order. -/
structure Module.Extends (m m' : Module) : Prop where
  functions : m.functions <+: m'.functions
  instructions : ∀ a i, m.getInstruction a = some i → m'.getInstruction a = some i
  byFrom : m.xrefManager.byFrom <+: m'.xrefManager.byFrom
  byTo : m.xrefManager.byTo <+: m'.xrefManager.byTo
  xrefs : m.xrefManager.all <+: m'.xrefManager.all

/-- A context in which nothing was lost or changed, with perhaps more in it. -/
structure AnalysisContext.Extends (ctx ctx' : AnalysisContext) : Prop where
  module : ctx.module.Extends ctx'.module
  visited : ctx.visited ⊆ ctx'.visited

theorem AnalysisContext.Extends.refl (ctx : AnalysisContext) : ctx.Extends ctx :=
  ⟨⟨List.prefix_rfl, fun _ _ h => h, List.prefix_rfl, List.prefix_rfl, List.prefix_rfl⟩,
    Finset.Subset.refl _⟩

theorem AnalysisContext.Extends.trans {ctx ctx' ctx'' : AnalysisContext} (h : ctx.Extends ctx')
    (h' : ctx'.Extends ctx'') : ctx.Extends ctx'' where
  module :=
    { functions := h.module.functions.trans h'.module.functions
      instructions := fun a i hi => h'.module.instructions a i (h.module.instructions a i hi)
      byFrom := h.module.byFrom.trans h'.module.byFrom
      byTo := h.module.byTo.trans h'.module.byTo
      xrefs := h.module.xrefs.trans h'.module.xrefs }
  visited := h.visited.trans h'.visited

theorem discoverFunction_extends (t : Target) (mark : AnalyzeState → Bool) (pc : Nat)
    (s : ExploreState) : s.context.Extends (discoverFunction t mark pc s).context := by
  have hg := analyzeFunction_grows t s.context (newFunction pc) pc s.functionWork
  refine ⟨⟨?_, hg.records, hg.xrefs.byFrom, hg.xrefs.byTo, hg.xrefs.all⟩, hg.visited⟩
  rw [discoverFunction_functions]
  exact List.prefix_append _ _

theorem RebuilderCall.extends (t : Target) (call : RebuilderCall) (ctx : AnalysisContext) :
    ctx.Extends (call.apply t ctx) :=
  RebuilderCall.inv (I := ctx.Extends) (.refl ctx)
    (fun s pc rest _ h => h.trans (discoverFunction_extends t _ pc { s with functionWork := rest }))
    (fun s pc rest _ h => h.trans (discoverFunction_extends t _ pc { s with functionWork := rest }))

/-- **Incremental re-analysis is additive.** -/
theorem reAnalyzeFrom_extends (t : Target) (ctx : AnalysisContext) (address : Nat) :
    ctx.Extends (reAnalyzeFrom t ctx address) :=
  RebuilderCall.extends t (.reAnalyzeFrom address) ctx

/-! ## The collections in step -/

/-- Exactly the visited addresses have records, what refers from an address was decoded there, and
the call sites of different functions have different sources. -/
structure InStep (ctx : AnalysisContext) : Prop where
  keys : ∀ a, a ∈ ctx.visited ↔ a ∈ ctx.module.instructions.keys
  xrefs : ∀ x ∈ ctx.module.xrefManager.all, x.src ∈ ctx.visited
  callSites : ∀ f ∈ ctx.module.functions, ∀ c ∈ f.callSites, (ofLex c).1 ∈ ctx.visited
  sources : ctx.module.functions.Pairwise fun f g =>
    ∀ c ∈ f.callSites, ∀ d ∈ g.callSites, (ofLex c).1 ≠ (ofLex d).1

theorem OrdMap.mem_keys_iff_contains {α β : Type _} [LinearOrder α] {m : OrdMap α β} {k : α} :
    k ∈ m.keys ↔ m.contains k = true := OrdMap.mem_keys_iff

namespace InStep

theorem fresh (symbolTable : SymbolTable) : InStep (freshContext symbolTable) where
  keys := fun a => by simp [freshContext, OrdMap.keys, OrdMap.empty]
  xrefs := fun x hx => by cases hx
  callSites := fun f hf => by cases hf
  sources := .nil

/-- The function that is analysed has call sites at newly visited addresses only. -/
theorem discover (t : Target) (mark : AnalyzeState → Bool) (pc : Nat) (s : ExploreState)
    (h : InStep s.context) : InStep (discoverFunction t mark pc s).context := by
  have hg := analyzeFunction_grows t s.context (newFunction pc) pc s.functionWork
  have hsites : ∀ c ∈ (discovered t mark pc s).callSites,
      Newly (analyzeInit s.context (newFunction pc) pc s.functionWork)
        (analyzeFunction t s.context (newFunction pc) pc s.functionWork) (ofLex c).1 := by
    intro c hc
    rw [discovered_callSites] at hc
    exact (hg.callSites c hc).resolve_left (OrdSet.not_mem_empty c)
  refine ⟨fun a => ?_, fun x hx => ?_, fun f hf c hc => ?_, ?_⟩
  · rw [OrdMap.mem_keys_iff_contains, discoverFunction_visited]
    refine Iff.trans ?_ (hg.keys a).symm
    rw [← OrdMap.mem_keys_iff_contains]
    constructor
    · intro ha
      by_cases hold : a ∈ s.context.visited
      · exact .inl ((h.keys a).mp hold)
      · exact .inr ⟨ha, hold⟩
    · rintro (ha | ha)
      · exact hg.visited ((h.keys a).mpr ha)
      · exact ha.1
  · rcases hg.xrefs.src x hx with hx | hx
    · exact hg.visited (h.xrefs x hx)
    · exact hx.1
  · rw [discoverFunction_functions] at hf
    rcases List.mem_append.mp hf with hf | hf
    · exact hg.visited (h.callSites f hf c hc)
    · rw [List.mem_singleton.mp hf] at hc
      exact (hsites c hc).1
  · rw [discoverFunction_functions, List.pairwise_append]
    refine ⟨h.sources, List.pairwise_singleton _ _, fun f hf g hg' c hc d hd heq => ?_⟩
    rw [List.mem_singleton.mp hg'] at hd
    exact (hsites d hd).2 (heq ▸ h.callSites f hf c hc)

end InStep

/-- A call keeps the collections in step. -/
theorem RebuilderCall.inStep (t : Target) (call : RebuilderCall) {ctx : AnalysisContext}
    (h : InStep ctx) : InStep (call.apply t ctx) :=
  RebuilderCall.inv (I := InStep) h
    (fun s pc rest _ h => InStep.discover t _ pc { s with functionWork := rest } h)
    (fun s pc rest _ h => InStep.discover t _ pc { s with functionWork := rest } h)

end ReWizard
