import ReWizard.Analysis.Fragment
import ReWizard.Analysis.Proof.SimilarPasses

/-!
# The order of the passes

Every order of the registered passes in which a pass comes after its dependencies ends with the
same functions, blocks and successors, and with the same call sites when `DataFlowAnalysisPass` is
on the same side of `HybridAnalysisPass` (`pipeline_confluent`): these two are not ordered, and the
functions that the second finds are looked at by the first only if it comes later.

`TopologicalSort` only ever has one pass to take from the hash map, so it returns one order
(`topologicalSort_registered`).
-/

namespace ReWizard

/-- An order of all passes in which every pass comes after its dependencies. -/
structure Topological {σ : Type _} (m : PassMap σ) (l : List String) : Prop where
  perm : l.Perm m.keys
  ordered : ∀ {p d}, m.DependsOn p d → [d, p].Sublist l

theorem Topological.nodup {σ : Type _} {m : PassMap σ} {l : List String} (h : Topological m l) :
    l.Nodup := h.perm.nodup_iff.mpr m.keys_nodup

variable {t : Target} {trace : Option (List TraceRecord)}

/-! ## The registered passes -/

theorem registered_keys (t : Target) (trace : Option (List TraceRecord)) :
    (registeredPasses t trace).keys = passDependencies.map (·.1) := by
  show List.map _ (List.map _ _) = _
  rw [List.map_map]
  rfl

theorem registered_get? {name : String} {deps : List String}
    (h : (name, deps) ∈ passDependencies) :
    (registeredPasses t trace).get? name = some (analysisPass deps (passRun t trace name)) :=
  OrdMap.get?_of_mem_toList (List.mem_map.mpr ⟨(name, deps), h, rfl⟩)

theorem registered_dependsOn {p d : String} :
    (registeredPasses t trace).DependsOn p d ↔
      ∃ deps, (p, deps) ∈ passDependencies ∧ d ∈ deps ∧ d ∈ passDependencies.map (·.1) := by
  constructor
  · rintro ⟨pass, hget, hd, hk⟩
    obtain ⟨⟨name, deps⟩, hmem, heq⟩ := List.mem_map.mp (OrdMap.mem_toList_of_get? hget)
    cases heq
    exact ⟨deps, hmem, hd, registered_keys t trace ▸ hk⟩
  · rintro ⟨deps, hmem, hd, hk⟩
    exact ⟨_, registered_get? hmem, hd, registered_keys t trace ▸ hk⟩

/-- The driver runs the passes one after another. -/
theorem runPasses_registered : ∀ {l : List String} {r : RunResult AnalysisContext},
    (∀ name ∈ l, name ∈ passDependencies.map (·.1)) →
    (runPasses (registeredPasses t trace) l r).ctx =
      l.foldl (fun ctx name => passRun t trace name ctx) r.ctx
  | [], _, _ => rfl
  | name :: rest, r, h => by
    obtain ⟨⟨_, deps⟩, hmem, rfl⟩ := List.mem_map.mp (h name List.mem_cons_self)
    unfold runPasses
    rw [registered_get? hmem]
    exact runPasses_registered fun n hn => h n (List.mem_cons_of_mem _ hn)

/-! ## `TopologicalSort` -/

theorem buildGraph_eq {σ : Type _} (m : PassMap σ) :
    buildGraph m = (m.toList.map fun e => (e.1, e.2.dependencies)).foldl
      (fun g e => e.2.foldl (addDependency m e.1) g) ⟨fun _ => [], fun _ => 0⟩ := by
  rw [List.foldl_map]
  rfl

/-- The graph only depends on the declared dependencies. -/
theorem buildGraph_congr {σ τ : Type _} {m : PassMap σ} {m' : PassMap τ}
    (h : m.toList.map (fun e => (e.1, e.2.dependencies)) =
      m'.toList.map fun e => (e.1, e.2.dependencies)) : buildGraph m = buildGraph m' := by
  have hkeys : m.keys = m'.keys := by
    have hfst := congrArg (List.map Prod.fst) h
    rwa [List.map_map, List.map_map] at hfst
  have hcontains : ∀ k, m.contains k = m'.contains k := fun k => by
    have hmem : k ∈ m.keys ↔ k ∈ m'.keys := by rw [hkeys]
    rw [OrdMap.mem_keys_iff, OrdMap.mem_keys_iff] at hmem
    exact Bool.eq_iff_iff.mpr hmem
  have hadd : addDependency m = addDependency m' := by
    funext name g dep
    unfold addDependency
    rw [hcontains]
  rw [buildGraph_eq, buildGraph_eq, h, hadd]

/-- The dependencies of the registered passes. -/
def declaredPasses : PassMap Unit where
  toList := passDependencies.map fun p =>
    (p.1, ⟨p.2, fun _ => (true, ()), fun _ => (true, ()), fun _ => (true, ())⟩)
  sorted := List.pairwise_map.mpr passDependencies_sorted

/-- The order that `TopologicalSort` returns. -/
def passOrder : List String :=
  ["ImportAnalysisPass", "StaticControlFlowRebuilder", "AbstractInterpretationPass",
    "DataFlowAnalysisPass", "IRLiftingPass", "OpaquePredicatePass", "ConstantFoldingPass",
    "HybridAnalysisPass"]

/-- Only one pass is ready at the start, so the iteration order of the hash map does not matter. -/
theorem topologicalSort_registered (order : HashOrder (registeredPasses t trace)) :
    topologicalSort (registeredPasses t trace) order = passOrder := by
  have hgraph : buildGraph (registeredPasses t trace) = buildGraph declaredPasses :=
    buildGraph_congr rfl
  have hready : order.1.filter (fun name => decide ((buildGraph declaredPasses).inDegree name = 0)) =
      ["ImportAnalysisPass"] := by
    refine List.perm_singleton.mp ((order.2.filter _).trans (.of_eq ?_))
    rw [registered_keys]
    decide +kernel
  unfold topologicalSort sortInit
  dsimp only
  rw [hgraph, hready, registered_keys]
  decide +kernel

/-! ## Two orders -/

/-- The passes that are ordered with one another. -/
def passChain : List String :=
  ["ImportAnalysisPass", "StaticControlFlowRebuilder", "AbstractInterpretationPass",
    "OpaquePredicatePass", "HybridAnalysisPass"]

/-- The other passes are data flow and those that leave the context alone. -/
theorem passRun_quiet (t : Target) (trace : Option (List TraceRecord)) {name : String}
    (hmem : name ∈ passDependencies.map (·.1)) (h : name ∉ passChain) :
    name = "DataFlowAnalysisPass" ∨ passRun t trace name = id := by
  have hnames : ∀ name ∈ passDependencies.map (·.1), name ∉ passChain →
      name = "DataFlowAnalysisPass" ∨ name = "IRLiftingPass" ∨ name = "ConstantFoldingPass" := by
    decide +kernel
  rcases hnames name hmem h with rfl | rfl | rfl
  · exact .inl rfl
  · exact .inr rfl
  · exact .inr rfl

namespace Topological

variable {l l' : List String}

theorem mem (h : Topological (registeredPasses t trace) l) {name : String} (hn : name ∈ l) :
    name ∈ passDependencies.map (·.1) := by
  rw [← registered_keys t trace]
  exact h.perm.mem_iff.mp hn

theorem before (h : Topological (registeredPasses t trace) l) (p d : String)
    (hdep : ∃ e ∈ passDependencies, e.1 = p ∧ d ∈ e.2 ∧ d ∈ passDependencies.map (·.1)) :
    [d, p].Sublist l := by
  obtain ⟨⟨_, deps⟩, hmem, rfl, hd, hk⟩ := hdep
  exact h.ordered (registered_dependsOn.mpr ⟨deps, hmem, hd, hk⟩)

theorem chain (h : Topological (registeredPasses t trace) l) : passChain.Sublist l := by
  have hnd := h.nodup
  refine Reorder.cons_sublist hnd (h.before _ _ (by decide +kernel)) ?_
  refine Reorder.cons_sublist hnd (h.before _ _ (by decide +kernel)) ?_
  refine Reorder.cons_sublist hnd (h.before _ _ (by decide +kernel)) ?_
  exact h.before _ _ (by decide +kernel)

theorem chain_dataFlow (h : Topological (registeredPasses t trace) l) :
    ["ImportAnalysisPass", "StaticControlFlowRebuilder", "DataFlowAnalysisPass"].Sublist l :=
  Reorder.cons_sublist h.nodup (h.before _ _ (by decide +kernel)) (h.before _ _ (by decide +kernel))

/-- Two passes of the chain are in the same order. -/
theorem not_chain (h : Topological (registeredPasses t trace) l)
    (h' : Topological (registeredPasses t trace) l') {a b : String} (hab : [a, b].Sublist l)
    (hba : [b, a].Sublist l') (ha : a ∈ passChain) (hb : b ∈ passChain) : False := by
  have hcases : ∀ a ∈ passChain, ∀ b ∈ passChain,
      a = b ∨ [a, b].Sublist passChain ∨ [b, a].Sublist passChain := by
    decide +kernel
  rcases hcases a ha b hb with rfl | hc | hc
  · exact Reorder.not_before h.nodup hab hab
  · exact Reorder.not_before h'.nodup (hc.trans h'.chain) hba
  · exact Reorder.not_before h.nodup hab (hc.trans h.chain)

/-- Passes that come in either order commute up to similarity. -/
theorem similar (h : Topological (registeredPasses t trace) l)
    (h' : Topological (registeredPasses t trace) l') (ctx : AnalysisContext) :
    (l.foldl (fun ctx name => passRun t trace name ctx) ctx).Similar
      (l'.foldl (fun ctx name => passRun t trace name ctx) ctx) := by
  have hequiv := AnalysisContext.similar_equivalence
  refine Reorder.foldl_reorder hequiv passRun_similar (h.perm.trans h'.perm.symm) h.nodup ?_ ctx
  intro a b hab hba ctx
  have hquiet : ∀ {a}, a ∈ l → a ∉ passChain → ∀ ctx : AnalysisContext,
      ctx.Similar (passRun t trace a ctx) := by
    intro a hal ha ctx
    rcases passRun_quiet t trace (h.mem hal) ha with rfl | hid
    · exact dataFlowAnalysis_similar ctx
    · rw [hid]
      exact hequiv.refl ctx
  by_cases ha : a ∈ passChain
  · by_cases hb : b ∈ passChain
    · exact (not_chain h h' hab hba ha hb).elim
    · have hb := hquiet (hab.subset (by simp)) hb
      exact hequiv.trans (hequiv.symm (hb _)) (passRun_similar a _ _ (hb ctx))
  · have ha := hquiet (hab.subset (by simp)) ha
    exact hequiv.trans (hequiv.symm (passRun_similar b _ _ (ha ctx))) (ha _)

/-- Data flow commutes with a pass of the chain that it comes before in one order and after in the
other, unless that is hybrid analysis. -/
theorem dataFlow_commutes (h : Topological (registeredPasses t trace) l)
    (h' : Topological (registeredPasses t trace) l')
    (hside : ["DataFlowAnalysisPass", "HybridAnalysisPass"].Sublist l →
      ["DataFlowAnalysisPass", "HybridAnalysisPass"].Sublist l') {b : String}
    (hab : ["DataFlowAnalysisPass", b].Sublist l) (hba : [b, "DataFlowAnalysisPass"].Sublist l')
    (hb : b ∈ passChain) (ctx : AnalysisContext) :
    passRun t trace b (dataFlowAnalysis ctx) = dataFlowAnalysis (passRun t trace b ctx) := by
  have hcases : ∀ b ∈ passChain,
      [b, "DataFlowAnalysisPass"].Sublist
        ["ImportAnalysisPass", "StaticControlFlowRebuilder", "DataFlowAnalysisPass"] ∨
      b = "AbstractInterpretationPass" ∨ b = "OpaquePredicatePass" ∨ b = "HybridAnalysisPass" := by
    decide +kernel
  rcases hcases b hb with hc | rfl | rfl | rfl
  · exact (Reorder.not_before h.nodup hab (hc.trans h.chain_dataFlow)).elim
  · exact abstractInterpretation_dataFlow ctx
  · exact opaquePredicate_dataFlow ctx
  · exact (Reorder.not_before h'.nodup (hside hab) hba).elim

theorem eq_of_sameSide (h : Topological (registeredPasses t trace) l)
    (h' : Topological (registeredPasses t trace) l')
    (hside : ["DataFlowAnalysisPass", "HybridAnalysisPass"].Sublist l ↔
      ["DataFlowAnalysisPass", "HybridAnalysisPass"].Sublist l') (ctx : AnalysisContext) :
    l.foldl (fun ctx name => passRun t trace name ctx) ctx =
      l'.foldl (fun ctx name => passRun t trace name ctx) ctx := by
  refine Reorder.foldl_reorder eq_equivalence (fun a s s' hs => by rw [hs])
    (h.perm.trans h'.perm.symm) h.nodup ?_ ctx
  intro a b hab hba ctx
  have hal : a ∈ l := hab.subset (by simp)
  have hbl : b ∈ l := hab.subset (by simp)
  by_cases ha : a ∈ passChain
  · by_cases hb : b ∈ passChain
    · exact (not_chain h h' hab hba ha hb).elim
    · rcases passRun_quiet t trace (h.mem hbl) hb with rfl | hid
      · exact (dataFlow_commutes h' h hside.mpr hba hab ha ctx).symm
      · rw [hid]
        rfl
  · rcases passRun_quiet t trace (h.mem hal) ha with rfl | hid
    · by_cases hb : b ∈ passChain
      · exact dataFlow_commutes h h' hside.mp hab hba hb ctx
      · rcases passRun_quiet t trace (h.mem hbl) hb with rfl | hid
        · rfl
        · rw [hid]
          rfl
    · rw [hid]
      rfl

end Topological

/-- **The order of the passes**: `RunAll` runs them in one order, whatever the order of the hash
map. Any two orders that the dependencies allow end with the same functions, but for their call
sites, and with the same context when data flow and hybrid analysis come in the same order. -/
theorem pipeline_confluent (t : Target) (trace : Option (List TraceRecord)) (ctx : AnalysisContext) :
    (∀ order order' : HashOrder (registeredPasses t trace),
      runAll (registeredPasses t trace) order ctx = runAll (registeredPasses t trace) order' ctx) ∧
    ∀ l l', Topological (registeredPasses t trace) l → Topological (registeredPasses t trace) l' →
      let r := (runPasses (registeredPasses t trace) l ⟨false, ctx, []⟩).ctx
      let r' := (runPasses (registeredPasses t trace) l' ⟨false, ctx, []⟩).ctx
      List.Forall₂ Function.SameButSites r.module.functions r'.module.functions ∧
        ((["DataFlowAnalysisPass", "HybridAnalysisPass"].Sublist l ↔
          ["DataFlowAnalysisPass", "HybridAnalysisPass"].Sublist l') → r = r') := by
  constructor
  · intro order order'
    unfold runAll
    rw [topologicalSort_registered, topologicalSort_registered]
  · intro l l' h h'
    dsimp only
    rw [runPasses_registered fun _ => h.mem, runPasses_registered fun _ => h'.mem]
    exact ⟨(h.similar h' ctx).module.functions, fun hside => h.eq_of_sameSide h' hside ctx⟩

/-! ## Data flow before and after hybrid analysis -/

/-- A list is checked against the declared dependencies. -/
theorem topological_of_check {l : List String} (hperm : l.Perm (passDependencies.map (·.1)))
    (hcheck : ∀ e ∈ passDependencies, ∀ d ∈ e.2, [d, e.1].Sublist l) :
    Topological (registeredPasses t trace) l where
  perm := registered_keys t trace ▸ hperm
  ordered hdep := by
    obtain ⟨deps, hmem, hd, -⟩ := registered_dependsOn.mp hdep
    exact hcheck _ hmem _ hd

/-- `call rax; ret`, and then `mov rbx, 0x2000; call rbx; ret`, which only the trace shows to be
called. -/
def tracedImage : List UInt8 :=
  [0xFF, 0xD0, 0xC3, 0x48, 0xC7, 0xC3, 0x00, 0x20, 0x00, 0x00, 0xFF, 0xD3, 0xC3]

def tracedCall : List TraceRecord :=
  [{ pc := 0x1000, registers := fun reg => if reg = .gpr64 .rax then some 0x1003 else none }]

/-- `passOrder` with data flow at the end. -/
def lateOrder : List String := passOrder.erase "DataFlowAnalysisPass" ++ ["DataFlowAnalysisPass"]

/-- The call sites of every function after the passes in the given order. -/
def tracedCallSites (l : List String) : List (List (Nat × Nat)) :=
  (runPasses (registeredPasses (sampleTarget tracedImage) (some tracedCall)) l
    ⟨false, {}, []⟩).ctx.module.functions.map fun f => f.callSites.toList.map ofLex

/-- Both orders are allowed by the dependencies, and only one resolves the call in the function that
hybrid analysis finds. -/
theorem tracedCall_not_confluent :
    Topological (registeredPasses (sampleTarget tracedImage) (some tracedCall)) passOrder ∧
      Topological (registeredPasses (sampleTarget tracedImage) (some tracedCall)) lateOrder ∧
      tracedCallSites passOrder = [[(0x1000, 0x1003)], [(0x100a, 0)]] ∧
      tracedCallSites lateOrder = [[(0x1000, 0x1003)], [(0x100a, 0x2000)]] :=
  ⟨topological_of_check (by decide +kernel) (by decide +kernel),
    topological_of_check (by decide +kernel) (by decide +kernel), by decide +kernel,
    by decide +kernel⟩

end ReWizard
