import ReWizard.Analysis.Proof.TraceOrder

/-!
# What a trace must show

A verdict on a branch is disproved by a trace in which the branch goes both ways, and a function is
verified by a trace that comes to it. `HybridAnalysisPass` looks at neither: it counts the records
of the branch, and marks every function that it goes through.

* `verdictsBacked_iff`: when the trace nevertheless backs what the pass does.
-/

namespace ReWizard

/-! ## Evidence -/

/-- Somewhere in the trace a record of `a` is followed by a record of `b`. -/
def TraceSteps (trace : List TraceRecord) (a b : Nat) : Prop :=
  ∃ r r' : TraceRecord, [r, r'] <:+: trace ∧ r.pc = a ∧ r'.pc = b

/-- The trace has the branch at `a` both with its target and with its fall-through. -/
def ShowsBothOutcomes (m : Module) (trace : List TraceRecord) (a : Nat) : Prop :=
  ∃ i imm, m.getInstruction a = some i ∧ (i.instruction.op 0).value = .immediate imm ∧
    TraceSteps trace a (i.relTarget imm) ∧ TraceSteps trace a i.next

/-- The trace comes to an instruction of the function. -/
def Function.Traced (m : Module) (trace : List TraceRecord) (f : Function) : Prop :=
  ∃ r ∈ trace, ∃ b ∈ f.basicBlocks, ∃ i ∈ m.blockInsns b, i.address = r.pc

/-- What the pass says of the functions is backed by the trace: every branch that it withdraws goes
both ways, and every function that it verifies is traced. -/
structure VerdictsBacked (m : Module) (trace : List TraceRecord) (before after : List Function) :
    Prop where
  withdrawn : ∀ (n : Nat) (f f' : Function), before[n]? = some f → after[n]? = some f' →
    ∀ a ∈ f.opaquePredicateAddresses, a ∉ f'.opaquePredicateAddresses →
      ShowsBothOutcomes m trace a
  verified : ∀ (n : Nat) (f' : Function), after[n]? = some f' → f'.hybridVerified = true →
    ∃ f, before[n]? = some f ∧ (f.hybridVerified = true ∨ f.Traced m trace)

/-! ## What the pass does to a function -/

theorem resolved_withdrawn_iff {m : Module} {trace : List TraceRecord} {f : Function} {a : Nat}
    (ha : a ∈ f.opaquePredicateAddresses) :
    a ∉ (f.resolved m trace).opaquePredicateAddresses ↔ f.markedForHybridAnalysis = true ∧
      f.hasOpaquePredicates = true ∧ 1 < (getRecordsForPC trace a).length := by
  have haddresses : (f.resolved m trace).opaquePredicateAddresses =
      (if f.markedForHybridAnalysis = true then f.records.withdraw trace
        else f.records).opaquePredicateAddresses :=
    congrArg VerdictRecords.opaquePredicateAddresses (resolved_records m trace f)
  rw [haddresses]
  by_cases hmark : f.markedForHybridAnalysis = true
  · have hwithdraw : a ∈ (f.records.withdraw trace).opaquePredicateAddresses ↔
        a ∈ f.opaquePredicateAddresses ∧ a ∉ f.records.disproven trace := mem_foldl_erase
    rw [if_pos hmark, hwithdraw, mem_disproven]
    constructor
    · intro hgone
      obtain ⟨hhas, -, hcount⟩ := by_contra fun hkept => hgone ⟨ha, hkept⟩
      exact ⟨hmark, hhas, hcount⟩
    · rintro ⟨-, hhas, hcount⟩ ⟨-, hkept⟩
      exact hkept ⟨hhas, ha, hcount⟩
  · rw [if_neg hmark]
    exact ⟨fun hgone => absurd ha hgone, fun h => absurd h.1 hmark⟩

theorem resolved_verified (m : Module) (trace : List TraceRecord) (f : Function) :
    (f.resolved m trace).hybridVerified = true ↔
      f.hybridVerified = true ∨ f.markedForHybridAnalysis = true := by
  unfold Function.resolved
  rcases resolveFunction_eq m trace f with ⟨hmark, h⟩ | ⟨hmark, sites, h⟩
  · rw [h, hmark]
    simp
  · rw [h, hmark]
    simp

/-- The trace shows a marked function all that the pass will say of it. -/
structure Function.ShownBy (m : Module) (trace : List TraceRecord) (f : Function) : Prop where
  outcomes : f.hasOpaquePredicates = true → ∀ a ∈ f.opaquePredicateAddresses,
    1 < (getRecordsForPC trace a).length → ShowsBothOutcomes m trace a
  traced : f.hybridVerified = false → f.Traced m trace

/-- **Hybrid verdicts are backed by the trace** if and only if, in every marked function, each
opaque branch with more than one record goes both ways in it, and it comes to each marked function
that is not verified yet. -/
theorem verdictsBacked_iff (t : Target) (trace : List TraceRecord) (ctx : AnalysisContext) :
    VerdictsBacked ctx.module trace ctx.module.functions
        (hybridAnalysis t (some trace) ctx).module.functions ↔
      ∀ f ∈ ctx.module.functions, f.markedForHybridAnalysis = true →
        f.ShownBy ctx.module trace := by
  obtain ⟨new, hnew, hall⟩ := hybridAnalysis_functions t trace ctx
  have hafter : ∀ {n : Nat} {f : Function}, ctx.module.functions[n]? = some f →
      (hybridAnalysis t (some trace) ctx).module.functions[n]? =
        some (f.resolved ctx.module trace) := by
    intro n f hf
    have hlt := (List.getElem?_eq_some_iff.mp hf).1
    rw [hnew, List.getElem?_append_left (by rwa [List.length_map]), List.getElem?_map, hf]
    rfl
  constructor
  · intro h f hf hmark
    obtain ⟨n, hn⟩ := List.getElem?_of_mem hf
    refine ⟨fun hhas a ha hcount => ?_, fun hnot => ?_⟩
    · exact h.withdrawn n f _ hn (hafter hn) a ha
        ((resolved_withdrawn_iff ha).mpr ⟨hmark, hhas, hcount⟩)
    · obtain ⟨g, hg, hverified | htraced⟩ := h.verified n _ (hafter hn)
        ((resolved_verified ctx.module trace f).mpr (.inr hmark))
      · cases hn.symm.trans hg
        rw [hnot] at hverified
        cases hverified
      · cases hn.symm.trans hg
        exact htraced
  · intro h
    refine ⟨fun n f f' hf hf' a ha hgone => ?_, fun n f' hf' hverified => ?_⟩
    · cases (hafter hf).symm.trans hf'
      obtain ⟨hmark, hhas, hcount⟩ := (resolved_withdrawn_iff ha).mp hgone
      exact (h f (List.mem_of_getElem? hf) hmark).outcomes hhas a ha hcount
    · cases hf : ctx.module.functions[n]? with
      | some f =>
        cases (hafter hf).symm.trans hf'
        refine ⟨f, rfl, ?_⟩
        rcases (resolved_verified ctx.module trace f).mp hverified with hver | hmark
        · exact .inl hver
        · cases hver : f.hybridVerified with
          | true => exact .inl rfl
          | false => exact .inr ((h f (List.mem_of_getElem? hf) hmark).traced hver)
      | none =>
        -- a function that the pass found is not verified
        have hle : ctx.module.functions.length ≤ n := List.getElem?_eq_none_iff.mp hf
        rw [hnew, List.getElem?_append_right (by rwa [List.length_map])] at hf'
        obtain ⟨mark, pc, s, rfl⟩ := hall f' (List.mem_of_getElem? hf')
        have hfresh : (discovered t mark pc s).hybridVerified = false :=
          congrArg Prod.snd (discovered_findings t mark pc s)
        rw [hfresh] at hverified
        cases hverified

/-! ## A branch that goes one way -/

/-- A trace of `testedJump` that takes the branch twice. -/
def branchTakenTwice : List TraceRecord :=
  [0x1000, 0x1007, 0x100a, 0x100e, 0x1000, 0x1007, 0x100a, 0x100e].map fun pc =>
    ⟨pc, fun _ => none, []⟩

/-- The verdict that the branch of `testedJump` is always taken is withdrawn, though it is. -/
theorem branchTakenTwice_not_backed :
    let ctx := abstractInterpretation (rebuildControlFlow testedJump (freshContext {}))
    ¬ VerdictsBacked ctx.module branchTakenTwice ctx.module.functions
      (hybridAnalysis testedJump (some branchTakenTwice) ctx).module.functions := by
  intro ctx h
  have hlost : ∃ f ∈ ctx.module.functions[0]?,
      ∃ f' ∈ (hybridAnalysis testedJump (some branchTakenTwice) ctx).module.functions[0]?,
      0x100a ∈ f.opaquePredicateAddresses ∧ 0x100a ∉ f'.opaquePredicateAddresses ∧
      ∃ i ∈ ctx.module.getInstruction 0x100a, i.next = 0x100c := by
    decide +kernel
  obtain ⟨f, hf, f', hf', ha, hgone, i, hi, hnext⟩ := hlost
  obtain ⟨j, imm, hj, -, -, r, r', hstep, -, hpc⟩ := h.withdrawn 0 f f' (Option.mem_def.mp hf)
    (Option.mem_def.mp hf') 0x100a ha hgone
  cases (Option.mem_def.mp hi).symm.trans hj
  rw [hnext] at hpc
  have hmem : r' ∈ branchTakenTwice := hstep.subset (by simp)
  have hnone : ∀ r ∈ branchTakenTwice, r.pc ≠ 0x100c := by decide
  exact hnone r' hmem hpc

end ReWizard
