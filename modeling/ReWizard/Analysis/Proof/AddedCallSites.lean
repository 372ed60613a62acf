import ReWizard.Analysis.HybridAnalysis
import ReWizard.Analysis.Proof.IndirectTargets

/-!
# The call sites that a pass adds

`DataFlowAnalysisPass` and `HybridAnalysisPass` add call sites to a function one after another, and
change nothing else of what they read while they do. So what they do to the call sites is a list:

* `dataFlowAnalysis_functions`: the list of the data flow, `Function.dataFlowSites`;
* `resolveFunction_sites`: the list of the trace, `Function.traceSites`, which is where the targets
  come from too;
* `mem_addCallSites`: what is there after a list of resolved call sites.
-/

namespace ReWizard

/-- Call sites that are added one after another. -/
def Function.addCallSites (f : Function) (l : List (Nat × Nat)) : Function :=
  l.foldl (fun f c => f.addCallSite c.1 c.2) f

section

variable {f : Function} {l : List (Nat × Nat)} {c t a b : Nat}

theorem Function.addCallSites_append (f : Function) (l l' : List (Nat × Nat)) :
    f.addCallSites (l ++ l') = (f.addCallSites l).addCallSites l' := List.foldl_append

theorem Function.addCallSites_sites : ∀ (l : List (Nat × Nat)) (f : Function),
    f.addCallSites l = { f with callSites := (f.addCallSites l).callSites }
  | [], _ => rfl
  | c :: rest, f => Function.addCallSites_sites rest (f.addCallSite c.1 c.2)

/-- A list of resolved call sites is there afterwards, and has displaced the placeholders. -/
theorem mem_addCallSites : ∀ {l : List (Nat × Nat)} {f : Function}, (∀ x ∈ l, x.2 ≠ 0) →
    (addrPair c t ∈ (f.addCallSites l).callSites ↔
      (c, t) ∈ l ∨ (addrPair c t ∈ f.callSites ∧ ¬ (t = 0 ∧ ∃ u, (c, u) ∈ l)))
  | [], f, _ => by simp [Function.addCallSites]
  | (a, b) :: rest, f, hl => by
    have ih := mem_addCallSites (f := f.addCallSite a b) fun x hx =>
      hl x (List.mem_cons_of_mem _ hx)
    have hb : b ≠ 0 := hl (a, b) List.mem_cons_self
    show addrPair c t ∈ ((f.addCallSite a b).addCallSites rest).callSites ↔ _
    rw [ih, Function.mem_addCallSite]
    simp only [List.mem_cons, Prod.mk.injEq]
    constructor
    · rintro (h | ⟨⟨rfl, rfl⟩ | ⟨hold, hnot⟩, hrest⟩)
      · exact .inl (.inr h)
      · exact .inl (.inl ⟨rfl, rfl⟩)
      · refine .inr ⟨hold, fun ⟨h0, u, hu⟩ => ?_⟩
        rcases hu with ⟨rfl, -⟩ | hu
        · exact hnot ⟨rfl, h0⟩
        · exact hrest ⟨h0, u, hu⟩
    · rintro ((⟨rfl, rfl⟩ | h) | ⟨hold, hnot⟩)
      · exact .inr ⟨.inl ⟨rfl, rfl⟩, fun ⟨h0, _⟩ => hb h0⟩
      · exact .inl h
      · refine .inr ⟨.inr ⟨hold, fun ⟨hc, h0⟩ => hnot ⟨h0, b, .inl ⟨hc, rfl⟩⟩⟩, ?_⟩
        exact fun ⟨h0, u, hu⟩ => hnot ⟨h0, u, .inr hu⟩

end

/-! ## Data flow -/

/-- The call site that the data flow adds for an instruction. -/
def RegisterFile.sites (regs : RegisterFile) (i : ExtendedInstruction) : List (Nat × Nat) :=
  match i.instruction.category with
  | .call | .uncondBr | .condBr => (regs.target? i.instruction).toList.map fun t => (i.address, t)
  | _ => []

/-- The call sites that the data flow adds for instructions. -/
def RegisterFile.insnSites (regs : RegisterFile) : List ExtendedInstruction → List (Nat × Nat)
  | [] => []
  | i :: rest => regs.sites i ++ (regs.applyInstruction i).insnSites rest

/-- The call sites that the data flow adds to a function, in their order. -/
def Function.dataFlowSites (m : Module) (f : Function) : List (Nat × Nat) :=
  RegisterFile.empty.insnSites (f.code m).flatten

theorem dataFlowInsn_function (s : DataFlowState) (i : ExtendedInstruction) :
    (dataFlowInsn s i).function = s.function.addCallSites (s.regs.sites i) := by
  have htry : (tryResolveIndirect i s).function = s.function.addCallSites
      ((s.regs.target? i.instruction).toList.map fun t => (i.address, t)) := by
    unfold tryResolveIndirect
    cases s.regs.target? i.instruction <;> rfl
  unfold dataFlowInsn RegisterFile.sites tryResolveIndirectCall tryResolveIndirectJump
  dsimp only
  cases i.instruction.category with
  | call => exact htry
  | condBr => exact htry
  | uncondBr => exact htry
  | ret => rfl
  | other => rfl

theorem dataFlowInsns_function : ∀ (l : List ExtendedInstruction) (s : DataFlowState),
    (l.foldl dataFlowInsn s).function = s.function.addCallSites (s.regs.insnSites l)
  | [], _ => rfl
  | i :: rest, s => by
    rw [List.foldl_cons, dataFlowInsns_function rest, dataFlowInsn_function, dataFlowInsn_regs,
      ← Function.addCallSites_append]
    rfl

/-- The pass reads what it has not changed, so it could read all of it before. -/
theorem dataFlowFunction_flatten (m : Module) (f : Function) :
    dataFlowFunction m f = (f.code m).flatten.foldl dataFlowInsn ⟨m, RegisterFile.empty, f⟩ := by
  have hkeep : ∀ (l : List ExtendedInstruction) (s : DataFlowState), s.module.Alike m →
      (∀ i ∈ l, m.getInstruction i.address = some i) → (l.foldl dataFlowInsn s).module.Alike m := by
    intro l s hs hl
    refine List.foldlRecOn (motive := fun s : DataFlowState => s.module.Alike m) _ _ hs
      fun s hs i hi => ?_
    rcases dataFlowInsn_cases s i with ⟨hm, -⟩ | ⟨t, -, hm, -⟩
    · rwa [hm]
    · rw [hm]
      exact hs.setIndirectValue (hl i hi) t
  have hblocks := BlockPath.foldl_split (l := f.basicBlocks) (f := dataFlowBlock)
    (b := ⟨m, RegisterFile.empty, f⟩)
    (I := fun done s => s.module.Alike m ∧
      s = (done.map m.blockInsns).flatten.foldl dataFlowInsn ⟨m, RegisterFile.empty, f⟩)
    ⟨.refl m, rfl⟩ fun done b rest s _ hs => by
      obtain ⟨halike, heq⟩ := hs
      have hblock : dataFlowBlock s b = (m.blockInsns b).foldl dataFlowInsn s :=
        halike.foldl dataFlowInsn_bare b s
      rw [hblock]
      refine ⟨hkeep _ s halike fun i hi => Module.mem_blockInsns hi, ?_⟩
      rw [List.map_append, List.flatten_append, List.foldl_append, ← heq, List.map_singleton,
        List.flatten_singleton]
  exact hblocks.2

/-- The data flow adds its list of call sites. -/
theorem dataFlowFunction_eq (m : Module) (f : Function) :
    (dataFlowFunction m f).function = f.addCallSites (f.dataFlowSites m) := by
  rw [dataFlowFunction_flatten]
  exact dataFlowInsns_function _ _

theorem insnSites_bare : ∀ (l : List ExtendedInstruction) (regs : RegisterFile),
    regs.insnSites (l.map (·.bare)) = regs.insnSites l
  | [], _ => rfl
  | i :: rest, regs => congrArg (regs.sites i ++ ·) (insnSites_bare rest (regs.applyInstruction i))

/-- The list does not depend on the values that the pass writes. -/
theorem Module.Alike.dataFlowSites {m m' : Module} (h : m.Alike m') (f : Function) :
    f.dataFlowSites m = f.dataFlowSites m' := by
  have hcode : (f.code m).flatten.map (·.bare) = (f.code m').flatten.map (·.bare) := by
    unfold Function.code
    rw [List.map_flatten, List.map_flatten, List.map_map, List.map_map]
    exact congrArg List.flatten (List.map_congr_left fun b _ => h.blockInsns b)
  unfold Function.dataFlowSites
  rw [← insnSites_bare, hcode, insnSites_bare]

/-- What the data flow does to the functions. -/
theorem dataFlowAnalysis_functions (ctx : AnalysisContext) :
    (dataFlowAnalysis ctx).module.functions =
      ctx.module.functions.map fun f => f.addCallSites (f.dataFlowSites ctx.module) := by
  have hall := BlockPath.foldl_split (l := ctx.module.functions)
    (f := fun (r : Module × List Function) f =>
      ((dataFlowFunction r.1 f).module, r.2 ++ [(dataFlowFunction r.1 f).function]))
    (b := (ctx.module, []))
    (I := fun done r => r.1.Alike ctx.module ∧
      r.2 = done.map fun f => f.addCallSites (f.dataFlowSites ctx.module))
    ⟨.refl _, rfl⟩ fun done f rest r _ hr => by
      obtain ⟨halike, heq⟩ := hr
      refine ⟨(dataFlowFunction_alike r.1 f).trans halike, ?_⟩
      rw [heq, List.map_append, dataFlowFunction_eq, halike.dataFlowSites]
      rfl
  exact hall.2

/-- Every target is known. -/
theorem dataFlowSites_ne_zero {m : Module} {f : Function} : ∀ x ∈ f.dataFlowSites m, x.2 ≠ 0 := by
  have hsites : ∀ (regs : RegisterFile) (i : ExtendedInstruction), ∀ x ∈ regs.sites i, x.2 ≠ 0 := by
    intro regs i x hx
    have htarget : ∃ t, regs.target? i.instruction = some t ∧ (i.address, t) = x := by
      unfold RegisterFile.sites at hx
      split at hx
      all_goals first
        | cases hx
        | simpa using hx
    obtain ⟨t, ht, rfl⟩ := htarget
    unfold RegisterFile.target? at ht
    split at ht
    · split at ht
      · cases ht
      · split at ht
        · rename_i hknown
          cases ht
          exact hknown.2
        · cases ht
    · cases ht
  have hgen : ∀ (l : List ExtendedInstruction) (regs : RegisterFile),
      ∀ x ∈ regs.insnSites l, x.2 ≠ 0 := by
    intro l
    induction l with
    | nil => exact fun regs x hx => absurd hx List.not_mem_nil
    | cons i rest ih =>
      intro regs x hx
      rcases List.mem_append.mp hx with hx | hx
      · exact hsites regs i x hx
      · exact ih _ x hx
  exact hgen _ _

/-! ## Traces -/

/-- The call sites that the trace has for an indirect instruction. -/
def ExtendedInstruction.traceSites (trace : List TraceRecord) (i : ExtendedInstruction) :
    List (Nat × Nat) :=
  ((getRecordsForPC trace i.address).map fun r => (i.address, resolveIndirectTarget i r)).filter
    fun x => decide (x.2 ≠ 0)

/-- The call sites that hybrid analysis adds to a marked function, in their order. -/
def Function.traceSites (m : Module) (trace : List TraceRecord) (f : Function) :
    List (Nat × Nat) :=
  (getIndirectInstructions m f).1.flatMap (·.traceSites trace)

theorem traceSites_ne_zero {m : Module} {trace : List TraceRecord} {f : Function} :
    ∀ x ∈ f.traceSites m trace, x.2 ≠ 0 := by
  intro x hx
  obtain ⟨i, -, hx⟩ := List.mem_flatMap.mp hx
  exact of_decide_eq_true (List.mem_filter.mp hx).2

/-- A state to which call sites, and their targets, were added. -/
def ResolveState.addSites (s : ResolveState) (l : List (Nat × Nat)) : ResolveState :=
  ⟨s.function.addCallSites l, (l.map Prod.snd).foldl OrdSet.insert s.resolvedTargets⟩

theorem ResolveState.addSites_append (s : ResolveState) (l l' : List (Nat × Nat)) :
    s.addSites (l ++ l') = (s.addSites l).addSites l' := by
  unfold addSites
  rw [Function.addCallSites_append, List.map_append, List.foldl_append]

theorem resolveRecords_eq (i : ExtendedInstruction) : ∀ (l : List TraceRecord) (s : ResolveState),
    l.foldl (resolveRecord i) s = s.addSites
      ((l.map fun r => (i.address, resolveIndirectTarget i r)).filter fun x => decide (x.2 ≠ 0))
  | [], _ => rfl
  | r :: rest, s => by
    rw [List.foldl_cons, resolveRecords_eq i rest, List.map_cons, List.filter_cons]
    unfold resolveRecord
    dsimp only
    by_cases h : resolveIndirectTarget i r ≠ 0
    · rw [if_pos h, if_pos (decide_eq_true h)]
      rfl
    · rw [if_neg h, if_neg (mt of_decide_eq_true h)]

theorem resolveInsns_eq (trace : List TraceRecord) : ∀ (l : List ExtendedInstruction)
    (s : ResolveState), l.foldl (fun s insn =>
      (getRecordsForPC trace insn.address).foldl (resolveRecord insn) s) s =
        s.addSites (l.flatMap (·.traceSites trace))
  | [], _ => rfl
  | i :: rest, s => by
    rw [List.foldl_cons, resolveInsns_eq trace rest, List.flatMap_cons, ResolveState.addSites_append,
      resolveRecords_eq]
    rfl

/-- Hybrid analysis adds the call sites of the trace, and withdraws what it disproves. -/
theorem resolveFunction_sites {f : Function} (hmark : f.markedForHybridAnalysis = true) (m : Module)
    (trace : List TraceRecord) (targets : OrdSet Nat) :
    resolveFunction m trace f targets =
      ⟨{ (((getIndirectInstructions m f).2.addCallSites
            (f.traceSites m trace)).processOpaquePredicates trace) with hybridVerified := true },
        ((f.traceSites m trace).map Prod.snd).foldl OrdSet.insert targets⟩ := by
  unfold resolveFunction
  rw [if_pos hmark]
  dsimp only
  rw [resolveInsns_eq]
  rfl

theorem resolveFunction_unmarked {f : Function} (hmark : f.markedForHybridAnalysis = false)
    (m : Module) (trace : List TraceRecord) (targets : OrdSet Nat) :
    resolveFunction m trace f targets = ⟨f, targets⟩ := by
  unfold resolveFunction
  rw [hmark]
  rfl

end ReWizard
