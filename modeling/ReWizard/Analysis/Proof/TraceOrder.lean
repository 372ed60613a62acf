import ReWizard.Analysis.Proof.CallSites

/-!
# The order of a trace

Hybrid analysis goes through the records of a trace in their order, but what it does with them is a
matter of which there are: it adds every call site that some record has (`mem_traceSites`), withdraws
every opaque predicate with more than one record and goes on from the set of the targets.

`hybridAnalysis_traceOrder`: so the order does not matter, and a longer trace resolves and withdraws
at least as much.
-/

namespace ReWizard

variable {m : Module} {trace trace' : List TraceRecord} {f : Function}

/-! ## What the records say -/

/-- A call site of the trace is what a record of the instruction tells. -/
theorem mem_traceSites {c u : Nat} : (c, u) ∈ f.traceSites m trace ↔
    u ≠ 0 ∧ ∃ i ∈ (getIndirectInstructions m f).1, i.address = c ∧
      ∃ r ∈ trace, r.pc = c ∧ resolveIndirectTarget i r = u := by
  unfold Function.traceSites ExtendedInstruction.traceSites getRecordsForPC
  simp only [List.mem_flatMap, List.mem_filter, List.mem_map, Prod.mk.injEq, decide_eq_true_eq]
  constructor
  · rintro ⟨i, hi, ⟨r, ⟨hr, hpc⟩, rfl, rfl⟩, hu⟩
    exact ⟨hu, i, hi, rfl, r, hr, hpc, rfl⟩
  · rintro ⟨hu, i, hi, rfl, r, hr, hpc, rfl⟩
    exact ⟨i, hi, ⟨r, ⟨hr, hpc⟩, rfl, rfl⟩, hu⟩

/-- The longer trace has the call sites of the shorter one. -/
theorem traceSites_subset (h : trace ⊆ trace') : f.traceSites m trace ⊆ f.traceSites m trace' := by
  rintro ⟨c, u⟩ hc
  obtain ⟨hu, i, hi, haddr, r, hr, hpc⟩ := mem_traceSites.mp hc
  exact mem_traceSites.mpr ⟨hu, i, hi, haddr, r, h hr, hpc⟩

theorem getRecordsForPC_length_le (h : trace.Subperm trace') (a : Nat) :
    (getRecordsForPC trace a).length ≤ (getRecordsForPC trace' a).length :=
  (h.filter fun r : TraceRecord => decide (r.pc = a)).length_le

/-- Resolved call sites may be added in any order, and any number of times. -/
theorem Function.addCallSites_of_mem {l l' : List (Nat × Nat)} (hl : ∀ x ∈ l, x.2 ≠ 0)
    (h : ∀ x, x ∈ l ↔ x ∈ l') : f.addCallSites l = f.addCallSites l' := by
  have hl' : ∀ x ∈ l', x.2 ≠ 0 := fun x hx => hl x ((h x).mpr hx)
  have hsites : (f.addCallSites l).callSites = (f.addCallSites l').callSites := by
    refine OrdSet.ext fun x => ?_
    show addrPair (ofLex x).1 (ofLex x).2 ∈ _ ↔ addrPair (ofLex x).1 (ofLex x).2 ∈ _
    rw [mem_addCallSites hl, mem_addCallSites hl']
    simp only [h]
  rw [Function.addCallSites_sites, hsites, ← Function.addCallSites_sites]

/-! ## The functions -/

/-- The state after the records of a trace depends on which there are. -/
theorem resolveFunction_perm (h : trace.Perm trace') (targets : OrdSet Nat) :
    resolveFunction m trace f targets = resolveFunction m trace' f targets := by
  cases hmark : f.markedForHybridAnalysis with
  | false => rw [resolveFunction_unmarked hmark, resolveFunction_unmarked hmark]
  | true =>
    have hmem : ∀ x, x ∈ f.traceSites m trace ↔ x ∈ f.traceSites m trace' := fun x =>
      ⟨fun hx => traceSites_subset h.subset hx, fun hx => traceSites_subset h.symm.subset hx⟩
    have hcount : ∀ a, (getRecordsForPC trace a).length = (getRecordsForPC trace' a).length :=
      fun a => (h.filter fun r : TraceRecord => decide (r.pc = a)).length_eq
    have hopaque : ∀ g : Function,
        g.processOpaquePredicates trace = g.processOpaquePredicates trace' := fun g => by
      unfold Function.processOpaquePredicates
      simp only [hcount]
    have htargets : ((f.traceSites m trace).map Prod.snd).foldl OrdSet.insert targets =
        ((f.traceSites m trace').map Prod.snd).foldl OrdSet.insert targets := by
      refine OrdSet.ext fun a => ?_
      rw [mem_foldl_insert, mem_foldl_insert]
      simp only [List.mem_map, hmem]
    rw [resolveFunction_sites hmark, resolveFunction_sites hmark, hopaque, htargets,
      Function.addCallSites_of_mem traceSites_ne_zero hmem]

/-- A marked function gets more call sites from a longer trace. -/
theorem resolved_keeps (h : trace.Subperm trace') :
    (f.resolved m trace).KeepsResolved (f.resolved m trace') := by
  cases hmark : f.markedForHybridAnalysis with
  | false =>
    unfold Function.resolved
    rw [resolveFunction_unmarked hmark, resolveFunction_unmarked hmark]
    exact .refl f
  | true =>
    intro c u hu hc
    rw [resolved_callSites hmark, mem_addCallSites traceSites_ne_zero] at hc ⊢
    rcases hc with hc | ⟨hc, -⟩
    · exact .inl (traceSites_subset h.subset hc)
    · exact .inr ⟨hc, fun h0 => hu h0.1⟩

theorem mem_disproven {r : VerdictRecords} {a : Nat} : a ∈ r.disproven trace ↔
    r.hasOpaquePredicates = true ∧ a ∈ r.opaquePredicateAddresses ∧
      1 < (getRecordsForPC trace a).length := by
  unfold VerdictRecords.disproven
  by_cases h : r.hasOpaquePredicates = true
  · rw [if_pos h, List.mem_filter, decide_eq_true_eq, ← OrdSet.mem_def]
    exact ⟨fun ha => ⟨h, ha⟩, And.right⟩
  · rw [if_neg h]
    exact ⟨fun ha => absurd ha List.not_mem_nil, fun ha => absurd ha.1 h⟩

/-- What a trace withdraws, a longer one withdraws. -/
theorem resolved_withdrawn (h : trace.Subperm trace') {a : Nat} (ha : a ∈ f.opaquePredicateAddresses)
    (hgone : a ∉ (f.resolved m trace).opaquePredicateAddresses) :
    a ∉ (f.resolved m trace').opaquePredicateAddresses := by
  have hrecords : ∀ tr, (f.resolved m tr).opaquePredicateAddresses =
      (if f.markedForHybridAnalysis = true then f.records.withdraw tr
        else f.records).opaquePredicateAddresses := fun tr =>
    congrArg VerdictRecords.opaquePredicateAddresses (resolved_records m tr f)
  rw [hrecords] at hgone ⊢
  split at hgone
  · have hmem : ∀ tr, a ∈ (f.records.withdraw tr).opaquePredicateAddresses ↔
        a ∈ f.opaquePredicateAddresses ∧ a ∉ f.records.disproven tr := fun tr => mem_foldl_erase
    rw [if_pos (by assumption), hmem]
    rw [hmem] at hgone
    rintro ⟨-, hkept⟩
    refine hgone ⟨ha, fun hdis => hkept ?_⟩
    obtain ⟨hhas, hin, hcount⟩ := mem_disproven.mp hdis
    exact mem_disproven.mpr ⟨hhas, hin, hcount.trans_le (getRecordsForPC_length_le h a)⟩
  · exact absurd ha hgone

/-! ## Runs of the pass -/

/-- The functions before the run: the second trace resolves and withdraws at least as much as the
first. -/
def ResolvesMore (ctx ctx₁ ctx₂ : AnalysisContext) : Prop :=
  ∀ (k : Nat) (f : Function), ctx.module.functions[k]? = some f → ∃ g g' : Function,
    ctx₁.module.functions[k]? = some g ∧ ctx₂.module.functions[k]? = some g' ∧
      g.KeepsResolved g' ∧ ∀ a ∈ f.opaquePredicateAddresses, a ∉ g.opaquePredicateAddresses →
        a ∉ g'.opaquePredicateAddresses

/-- **The order of a trace does not matter, and further records only add**: for every context and
image, and wherever the further records are. -/
theorem hybridAnalysis_traceOrder (t : Target) (ctx : AnalysisContext) :
    (∀ trace trace' : List TraceRecord, trace.Perm trace' →
      hybridAnalysis t (some trace) ctx = hybridAnalysis t (some trace') ctx) ∧
    ∀ trace trace' : List TraceRecord, trace.Subperm trace' → ResolvesMore ctx
      (hybridAnalysis t (some trace) ctx) (hybridAnalysis t (some trace') ctx) := by
  refine ⟨fun trace trace' h => ?_, fun trace trace' h k f hf => ?_⟩
  · have hfns : resolveFunctions ctx.module trace = resolveFunctions ctx.module trace' := by
      unfold resolveFunctions
      simp only [resolveFunction_perm h]
    unfold hybridAnalysis
    dsimp only
    rw [hfns]
  · have hget : ∀ tr, (hybridAnalysis t (some tr) ctx).module.functions[k]? =
        some (f.resolved ctx.module tr) := by
      intro tr
      obtain ⟨new, hnew, -⟩ := hybridAnalysis_functions t tr ctx
      obtain ⟨hk, -⟩ := List.getElem?_eq_some_iff.mp hf
      rw [hnew, List.getElem?_append_left (by rwa [List.length_map]), List.getElem?_map, hf]
      rfl
    exact ⟨_, _, hget trace, hget trace', resolved_keeps h,
      fun a ha hgone => resolved_withdrawn h ha hgone⟩

end ReWizard
