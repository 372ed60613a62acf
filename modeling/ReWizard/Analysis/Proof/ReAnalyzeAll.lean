import ReWizard.Analysis.Fragment
import ReWizard.Analysis.Proof.Lockstep
import ReWizard.Analysis.Proof.RebuilderCalls

/-!
# Analysing everything again

`StaticPathExplorer` with `reAnalyzeAll` destroys the functions and forgets the visited set, but it
keeps the map from start addresses, whose pointers dangle from then on. An entry goes away only
when a function is found at its start, and that start is looked up before:

* `sameFunctions_lockable`: records and cross-references, which are kept too, make no difference;
* `reAnalyzeAll_agrees_iff`: re-analysis is like a first analysis exactly when the map was empty.
-/

namespace ReWizard

/-- Contexts with the same visited addresses, functions and symbols. -/
structure AnalysisContext.SameFunctions (ctx ctx' : AnalysisContext) : Prop where
  visited : ctx'.visited = ctx.visited
  functions : ctx'.module.functions = ctx.module.functions
  functionByStart : ctx'.module.functionByStart = ctx.module.functionByStart
  symbolTable : ctx'.module.symbolTable = ctx.module.symbolTable

theorem AnalysisContext.SameFunctions.getFunctionForAddress {ctx ctx' : AnalysisContext}
    (h : ctx.SameFunctions ctx') (a : Nat) :
    ctx'.module.getFunctionForAddress a = ctx.module.getFunctionForAddress a :=
  Module.getFunctionForAddress_congr h.functions h.functionByStart a

theorem sameFunctions_lockable :
    Lockable AnalysisContext.SameFunctions fun _ _ => True where
  visited := fun h => h.visited
  lookup := fun h a => by rw [h.getFunctionForAddress]
  contains := fun _ _ => trivial
  functions := fun h => by rw [h.functions]
  symbols := fun h => h.symbolTable
  addXref := fun h _ _ _ => ⟨h.visited, h.functions, h.functionByStart, h.symbolTable⟩
  markIndirect := fun h insn b b' _ => by
    refine ⟨h.visited, ?_, ?_, ?_⟩
    · simpa using h.functions
    · simpa using h.functionByStart
    · simpa using h.symbolTable
  enter := fun h insn => by
    refine ⟨by rw [h.visited], ?_, ?_, ?_⟩
    · simpa only [addInstruction_functions] using h.functions
    · simpa only [addInstruction_functionByStart] using h.functionByStart
    · simpa only [addInstruction_symbolTable] using h.symbolTable
  addFunction := fun h f => by
    refine ⟨h.visited, ?_, ?_, h.symbolTable⟩
    · exact congrArg (· ++ [f]) h.functions
    · unfold Module.addFunction
      rw [h.functions, h.functionByStart]

/-! ## Pointers to destroyed functions -/

/-- The map holds no pointer to a destroyed function. -/
def Module.IndexSound (m : Module) : Prop := ∀ e ∈ m.functionByStart.toList, e.2 ≠ none

theorem Module.IndexSound.not_dangles {m : Module} (h : m.IndexSound) (a : Nat) :
    ¬ m.Dangles a := by
  unfold Dangles
  intro hd
  obtain ⟨e, he, hnone⟩ := Option.map_eq_some_iff.mp hd
  exact h e (OrdMap.floor?_mem he) hnone

/-- The start of a destroyed function dangles. -/
theorem Module.dangles_of_get? {m : Module} {a : Nat} (h : m.functionByStart.get? a = some none) :
    m.Dangles a := by
  unfold Dangles
  rw [OrdMap.floor?_of_get? h]
  rfl

theorem discoverFunction_functionByStart (t : Target) (mark : AnalyzeState → Bool) (pc : Nat)
    (s : ExploreState) : (discoverFunction t mark pc s).context.module.functionByStart =
      s.context.module.functionByStart.insert pc (some s.context.module.functions.length) := by
  rw [discoverFunction_module]
  unfold Module.addFunction
  dsimp only
  rw [discovered_start, analyzeFunction_functionByStart, analyzeFunction_functions]

/-- In the loop, no address that is looked up before an analysis has a pointer to a destroyed
function. -/
def LookupsDefined (body : ExploreState → Loop.Out ExploreState) (s : ExploreState) : Prop :=
  ∀ r, Loop.Reaches body s r → ∀ pc rest, r.functionWork = pc :: rest → pc ∉ r.context.visited →
    ¬ r.context.module.Dangles pc

namespace DiscoveryLoop

variable {t : Target} {filter : Nat → Prop} {mark : AnalyzeState → Bool}
  {body : ExploreState → Loop.Out ExploreState} {s r : ExploreState}

theorem indexSound (h : DiscoveryLoop t filter mark body) (hs : s.context.module.IndexSound)
    (hr : Loop.Reaches body s r) : r.context.module.IndexSound := by
  refine h.inv (I := fun ctx => ctx.module.IndexSound) hs (fun u pc rest _ _ hu => ?_) hr
  unfold Module.IndexSound
  rw [discoverFunction_functionByStart]
  intro e he
  rcases OrdMap.mem_toList_insert.mp he with rfl | he
  · exact Option.some_ne_none _
  · exact hu e he.1

/-- A pointer to a destroyed function stays, unless its start is looked up. -/
theorem stale (h : DiscoveryLoop t filter mark body) (hdef : LookupsDefined body s) {a : Nat}
    (hs : s.context.module.functionByStart.get? a = some none) (hr : Loop.Reaches body s r) :
    r.context.module.functionByStart.get? a = some none := by
  refine h.inv (I := fun ctx => ctx.module.functionByStart.get? a = some none) hs
    (fun u pc rest hu ht hI => ?_) hr
  rw [discoverFunction_functionByStart]
  by_cases hpc : a = pc
  · subst hpc
    exact absurd (Module.dangles_of_get? hI) (hdef u hu a rest ht.queue ht.unvisited)
  · rw [OrdMap.get?_insert_of_ne hpc]
    exact hI

end DiscoveryLoop

/-! ## Re-analysis -/

/-- The state in which re-analysis begins. -/
def reAnalyzeStart (t : Target) (ctx : AnalysisContext) : ExploreState :=
  let ctx := { ctx with module := ctx.module.clearFunctions, visited := ∅ }
  ⟨ctx, (collectEntryPoints t ctx).toList⟩

theorem reAnalyzeAll_eq (t : Target) (ctx : AnalysisContext) (fromAddress : Nat)
    (bypassHeur : Bool) : staticPathExplorer t ctx true fromAddress bypassHeur =
      (linearSweepFallback t (descended t bypassHeur (reAnalyzeStart t ctx))).context := by
  unfold staticPathExplorer reAnalyzeStart
  simp only [if_true, true_or]
  rfl

/-- Re-analysis of `ctx` does what a first analysis with the same symbols does: it never asks a
destroyed function for its range, and ends with the same visited addresses and functions and with
lookups that are defined and the same. -/
structure ReAnalysisAgrees (t : Target) (ctx : AnalysisContext) (fromAddress : Nat)
    (bypassHeur : Bool) : Prop where
  explored : LookupsDefined (exploreStep t bypassHeur) (reAnalyzeStart t ctx)
  drained : LookupsDefined (drainStep t)
    (swept t (descended t bypassHeur (reAnalyzeStart t ctx)))
  visited : (staticPathExplorer t ctx true fromAddress bypassHeur).visited =
    (staticPathExplorer t (freshContext ctx.module.symbolTable) false 0 bypassHeur).visited
  functions : (staticPathExplorer t ctx true fromAddress bypassHeur).module.functions =
    (staticPathExplorer t (freshContext ctx.module.symbolTable) false 0 bypassHeur).module.functions
  defined : ∀ a, ¬ (staticPathExplorer t ctx true fromAddress bypassHeur).module.Dangles a
  lookups : ∀ a, (staticPathExplorer t ctx true fromAddress bypassHeur).module.getFunctionForAddress
      a = (staticPathExplorer t (freshContext ctx.module.symbolTable) false 0
        bypassHeur).module.getFunctionForAddress a

/-- Where no function was ever added, re-analysis and a first analysis go in lockstep. -/
theorem reAnalyzeAll_lock (t : Target) (ctx : AnalysisContext) (fromAddress : Nat)
    (bypassHeur : Bool) (hnil : ctx.module.functionByStart.toList = []) :
    AnalysisContext.SameFunctions (staticPathExplorer t ctx true fromAddress bypassHeur)
      (staticPathExplorer t (freshContext ctx.module.symbolTable) false 0 bypassHeur) := by
  have hindex : (OrdMap.empty : OrdMap Nat (Option Nat)) =
      ctx.module.functionByStart.mapValues fun _ => none := by
    unfold OrdMap.mapValues OrdMap.empty
    simp [hnil]
  have hstart : ExploreState.Lock AnalysisContext.SameFunctions (reAnalyzeStart t ctx)
      ⟨freshContext ctx.module.symbolTable,
        (collectEntryPoints t (freshContext ctx.module.symbolTable)).toList⟩ :=
    ⟨⟨rfl, rfl, hindex, rfl⟩, rfl⟩
  rw [reAnalyzeAll_eq]
  exact (hstart.explore sameFunctions_lockable bypassHeur).context

/-- **Re-analysis from scratch equals a fresh analysis** exactly when no function was ever added. -/
theorem reAnalyzeAll_agrees_iff (t : Target) (ctx : AnalysisContext) (fromAddress : Nat)
    (bypassHeur : Bool) : ReAnalysisAgrees t ctx fromAddress bypassHeur ↔
      ctx.module.functionByStart.toList = [] := by
  have hreach₁ := (exploreStep_loop t bypassHeur).reached
    (descended_exits t bypassHeur (reAnalyzeStart t ctx))
  have hreach₂ := (drainStep_loop t).reached
    (linearSweepFallback_exits t (descended t bypassHeur (reAnalyzeStart t ctx)))
  constructor
  · intro h
    by_contra hne
    obtain ⟨⟨a, k⟩, he⟩ := List.exists_mem_of_ne_nil _ hne
    -- the pointer for `a` is still there at the end
    have h₀ : (reAnalyzeStart t ctx).context.module.functionByStart.get? a = some none :=
      OrdMap.get?_of_mem_toList (List.mem_map_of_mem (f := fun e => (e.1, none)) he)
    have h₁ := (exploreStep_loop t bypassHeur).stale h.explored h₀ hreach₁
    have h₂ := (drainStep_loop t).stale h.drained h₁ hreach₂
    rw [← reAnalyzeAll_eq t ctx fromAddress] at h₂
    exact h.defined a (Module.dangles_of_get? h₂)
  · intro hnil
    have hsound : (reAnalyzeStart t ctx).context.module.IndexSound := by
      intro e he
      have hmap : e ∈ ctx.module.functionByStart.toList.map fun e => (e.1, (none : Option Nat)) := he
      rw [hnil] at hmap
      cases hmap
    have hlock := reAnalyzeAll_lock t ctx fromAddress bypassHeur hnil
    have hexplored := (exploreStep_loop t bypassHeur).indexSound hsound hreach₁
    have hswept : (swept t (descended t bypassHeur
        (reAnalyzeStart t ctx))).context.module.IndexSound := hexplored
    have hend : (staticPathExplorer t ctx true fromAddress bypassHeur).module.IndexSound := by
      rw [reAnalyzeAll_eq]
      exact (drainStep_loop t).indexSound hswept hreach₂
    refine ⟨fun r hr pc _ _ _ => ?_, fun r hr pc _ _ _ => ?_, hlock.visited.symm,
      hlock.functions.symm, hend.not_dangles, fun a => (hlock.getFunctionForAddress a).symm⟩
    · exact ((exploreStep_loop t bypassHeur).indexSound hsound hr).not_dangles pc
    · exact ((drainStep_loop t).indexSound hswept hr).not_dangles pc

/-- `ret`: the entry point is looked up while its old function is gone. -/
theorem reAnalyzeAll_dangles :
    let t := sampleTarget [0xC3]
    ¬ ReAnalysisAgrees t (rebuildControlFlow t (freshContext {})) 0 false :=
  fun h => h.explored _ .refl 0x1000 [] (by decide +kernel) (by decide +kernel) (by decide +kernel)

end ReWizard
