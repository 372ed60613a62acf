import ReWizard.Analysis.Pipeline
import ReWizard.Analysis.Proof.AddedCallSites
import ReWizard.Analysis.Proof.OpaquePredicates
import ReWizard.Analysis.Proof.RebuilderCalls

/-!
# The records of a verdict

A verdict on a branch is kept three times: as a flag of the function, in its set of addresses and in
its map of results. `AbstractInterpretationPass` writes all three, `OpaquePredicatePass` acts on the
map, and `HybridAnalysisPass` withdraws a verdict from the set only.

* `intervalFunction_eq`: the interval analysis records the verdicts of the code, in their order;
* `resolveFunctions_eq`: what hybrid analysis does to each function;
* `verdictRuns_iff`: over any sequence of the three passes, the records agree as long as no verdict
  is withdrawn.
-/

namespace ReWizard

open BlockPath

/-! ## The verdicts of the interval analysis -/

/-- The verdict on an instruction, with its address. -/
def insnVerdict (d : IntervalDomain) (prev : Option Instruction) (i : ExtendedInstruction) :
    List (Nat × Bool) :=
  let pred :=
    if i.instruction.category = .condBr then evaluateBranch i.instruction prev d else .unknown
  if pred = .unknown then [] else [(i.address, decide (pred = .alwaysTrue))]

/-- The verdicts on the instructions of a block, from one of them on. -/
def blockVerdicts (d : IntervalDomain) (prev : Option Instruction) :
    List ExtendedInstruction → List (Nat × Bool)
  | [] => []
  | i :: rest =>
    insnVerdict d prev i ++ blockVerdicts (intervalStep d i) (some i.instruction) rest

/-- The verdicts on the code of a function, from one block on. -/
def codeVerdicts (d : IntervalDomain) : List (List ExtendedInstruction) → List (Nat × Bool)
  | [] => []
  | b :: rest => blockVerdicts d none b ++ codeVerdicts (b.foldl intervalStep d) rest

/-- The branches of the function that the interval analysis decides, with its verdicts. -/
def Function.verdicts (m : Module) (f : Function) : List (Nat × Bool) :=
  codeVerdicts IntervalDomain.empty (f.code m)

/-- The interval analysis decides the branch at the address. -/
def Function.Decides (m : Module) (f : Function) (a : Nat) : Prop :=
  a ∈ (f.verdicts m).map Prod.fst

instance (m : Module) (f : Function) (a : Nat) : Decidable (f.Decides m a) :=
  inferInstanceAs (Decidable (_ ∈ _))

def Function.record (f : Function) (v : Nat × Bool) : Function := f.recordOpaquePredicate v.1 v.2

theorem intervalInsn_function (s : IntervalState) (i : ExtendedInstruction) :
    (intervalInsn s i).function =
      (insnVerdict s.domain s.prevInsn i).foldl Function.record s.function := by
  unfold intervalInsn insnVerdict
  dsimp only
  by_cases h : (if i.instruction.category = .condBr then
      evaluateBranch i.instruction s.prevInsn s.domain else .unknown) = PredicateResult.unknown
  · rw [if_pos h, if_pos h]
    rfl
  · rw [if_neg h, if_neg h]
    rfl

theorem intervalInsns_eq : ∀ (l : List ExtendedInstruction) (s : IntervalState),
    (l.foldl intervalInsn s).domain = l.foldl intervalStep s.domain ∧
      (l.foldl intervalInsn s).function =
        (blockVerdicts s.domain s.prevInsn l).foldl Function.record s.function
  | [], _ => ⟨rfl, rfl⟩
  | i :: rest, s => by
    obtain ⟨hd, hf⟩ := intervalInsns_eq rest (intervalInsn s i)
    refine ⟨hd, ?_⟩
    rw [List.foldl_cons, hf, intervalInsn_function, ← List.foldl_append]
    rfl

theorem intervalBlocks_eq (m : Module) : ∀ (blocks : List BasicBlock) (s : IntervalState),
    (blocks.foldl (intervalBlock m) s).function =
      (codeVerdicts s.domain (blocks.map m.blockInsns)).foldl Function.record s.function
  | [], _ => rfl
  | b :: rest, s => by
    obtain ⟨hd, hf⟩ := intervalInsns_eq (m.blockInsns b) { s with prevInsn := none }
    rw [List.foldl_cons, intervalBlocks_eq m rest, List.map_cons, codeVerdicts, List.foldl_append,
      ← hf, ← hd]
    rfl

/-- The interval analysis of a function records the verdicts one after another. -/
theorem intervalFunction_eq (m : Module) (f : Function) :
    intervalFunction m f = (f.verdicts m).foldl Function.record f :=
  intervalBlocks_eq m f.basicBlocks ⟨IntervalDomain.empty, none, f⟩

/-! ## Records of verdicts -/

/-- The three records of a function's verdicts. -/
structure VerdictRecords where
  hasOpaquePredicates : Bool
  opaquePredicateAddresses : OrdSet Nat
  opaquePredicateResults : OrdMap Nat Bool

def Function.records (f : Function) : VerdictRecords :=
  ⟨f.hasOpaquePredicates, f.opaquePredicateAddresses, f.opaquePredicateResults⟩

/-- The key set of the results is the set of addresses, and the flag tells whether it is empty. -/
structure VerdictRecords.Agree (r : VerdictRecords) : Prop where
  keys : ∀ a, a ∈ r.opaquePredicateResults.keys ↔ a ∈ r.opaquePredicateAddresses
  flag : r.hasOpaquePredicates = true ↔ ∃ a, a ∈ r.opaquePredicateAddresses

/-- No pass has recorded a verdict. -/
def VerdictRecords.none : VerdictRecords := ⟨false, OrdSet.empty, OrdMap.empty⟩

theorem VerdictRecords.none_agree : VerdictRecords.none.Agree where
  keys := fun a => by simp [VerdictRecords.none, OrdMap.keys, OrdMap.empty]
  flag := by simp [VerdictRecords.none]

theorem Function.record_agree {f : Function} (h : f.records.Agree) (v : Nat × Bool) :
    (f.record v).records.Agree where
  keys := fun a => by
    have hkeys : a ∈ (f.opaquePredicateResults.insert v.1 v.2).keys ↔
        a = v.1 ∨ a ∈ f.opaquePredicateResults.keys := OrdMap.mem_keys_insert
    have hold : a ∈ f.opaquePredicateResults.keys ↔ a ∈ f.opaquePredicateAddresses := h.keys a
    show a ∈ (f.opaquePredicateResults.insert v.1 v.2).keys ↔
      a ∈ f.opaquePredicateAddresses.insert v.1
    rw [hkeys, hold, OrdSet.mem_insert]
  flag := ⟨fun _ => ⟨v.1, OrdSet.mem_insert.mpr (.inl rfl)⟩, fun _ => rfl⟩

/-- What the recording of verdicts does not change. -/
theorem foldl_record_rest : ∀ (l : List (Nat × Bool)) (f : Function),
    ∃ r : VerdictRecords, l.foldl Function.record f =
      { f with
        hasOpaquePredicates := r.hasOpaquePredicates
        opaquePredicateAddresses := r.opaquePredicateAddresses
        opaquePredicateResults := r.opaquePredicateResults }
  | [], f => ⟨f.records, rfl⟩
  | v :: rest, f => by
    obtain ⟨r, hr⟩ := foldl_record_rest rest (f.record v)
    exact ⟨r, hr⟩

theorem intervalFunction_agree (m : Module) {f : Function} (h : f.records.Agree) :
    (intervalFunction m f).records.Agree := by
  rw [intervalFunction_eq]
  exact List.foldlRecOn (motive := fun f : Function => f.records.Agree) _ _ h
    fun f hf v _ => Function.record_agree hf v

/-! ## What hybrid analysis does to a function -/

/-- The addresses whose verdicts the trace disproves. -/
def VerdictRecords.disproven (r : VerdictRecords) (trace : List TraceRecord) : List Nat :=
  if r.hasOpaquePredicates then
    r.opaquePredicateAddresses.toList.filter fun a => decide (1 < (getRecordsForPC trace a).length)
  else []

/-- The disproven addresses are erased, and the results stay. -/
def VerdictRecords.withdraw (r : VerdictRecords) (trace : List TraceRecord) : VerdictRecords :=
  let addresses := (r.disproven trace).foldl OrdSet.erase r.opaquePredicateAddresses
  { r with
    opaquePredicateAddresses := addresses
    hasOpaquePredicates := r.hasOpaquePredicates && decide (addresses.toList ≠ []) }

theorem mem_foldl_erase {l : List Nat} {a : Nat} : ∀ {s : OrdSet Nat},
    a ∈ l.foldl OrdSet.erase s ↔ a ∈ s ∧ a ∉ l := by
  induction l with
  | nil => simp
  | cons b rest ih =>
    intro s
    rw [List.foldl_cons, ih, OrdSet.mem_erase, List.mem_cons, not_or, and_assoc]

theorem processOpaquePredicates_records (f : Function) (trace : List TraceRecord) :
    (f.processOpaquePredicates trace).records = f.records.withdraw trace := by
  unfold Function.processOpaquePredicates VerdictRecords.withdraw VerdictRecords.disproven
  by_cases h : f.hasOpaquePredicates = true
  · have h' : f.records.hasOpaquePredicates = true := h
    rw [if_pos h, if_pos h', h']
    unfold Function.records
    dsimp only
    split
    · rename_i hempty
      simp [hempty]
    · rename_i hne
      simp [hne, h]
  · have h' : ¬ f.records.hasOpaquePredicates = true := h
    rw [if_neg h, if_neg h']
    simp [Function.records, h]

/-- The function as hybrid analysis leaves it. -/
def Function.resolved (m : Module) (trace : List TraceRecord) (f : Function) : Function :=
  (resolveFunction m trace f OrdSet.empty).function

/-- A function that is not marked is left alone. A marked one may have its blocks split by the walk
over them, gets call sites, and loses the verdicts that the trace disproves. -/
theorem resolveFunction_eq (m : Module) (trace : List TraceRecord) (f : Function) :
    (f.markedForHybridAnalysis = false ∧
      ∀ targets, (resolveFunction m trace f targets).function = f) ∨
    (f.markedForHybridAnalysis = true ∧ ∃ sites, ∀ targets,
      (resolveFunction m trace f targets).function =
        { ({ (getIndirectInstructions m f).2 with callSites := sites } :
            Function).processOpaquePredicates trace with hybridVerified := true }) := by
  cases hmark : f.markedForHybridAnalysis with
  | false =>
    exact .inl ⟨rfl, fun targets => by rw [resolveFunction_unmarked hmark]⟩
  | true =>
    refine .inr ⟨rfl, ((getIndirectInstructions m f).2.addCallSites
      (f.traceSites m trace)).callSites, fun targets => ?_⟩
    rw [resolveFunction_sites hmark, Function.addCallSites_sites]

theorem resolved_of_targets (m : Module) (trace : List TraceRecord) (f : Function)
    (targets : OrdSet Nat) : (resolveFunction m trace f targets).function = f.resolved m trace := by
  unfold Function.resolved
  rcases resolveFunction_eq m trace f with ⟨-, h⟩ | ⟨-, sites, h⟩
  · rw [h, h]
  · rw [h, h]

theorem resolveFunctions_eq (m : Module) (trace : List TraceRecord) :
    (resolveFunctions m trace).1 = m.functions.map (Function.resolved m trace) := by
  have hall := foldl_split (l := m.functions)
    (f := fun (r : List Function × OrdSet Nat) f =>
      (r.1 ++ [(resolveFunction m trace f r.2).function],
        (resolveFunction m trace f r.2).resolvedTargets)) (b := ([], OrdSet.empty))
    (I := fun done r => r.1 = done.map (Function.resolved m trace)) rfl
    fun done f rest r _ hr => by
      rw [List.map_append, ← hr, List.map_singleton, resolved_of_targets]
  exact hall

theorem getIndirectInstructions_records (m : Module) (f : Function) :
    (getIndirectInstructions m f).2.records = f.records := by
  unfold getIndirectInstructions
  dsimp only
  split <;> rfl

theorem resolved_records (m : Module) (trace : List TraceRecord) (f : Function) :
    (f.resolved m trace).records =
      if f.markedForHybridAnalysis = true then f.records.withdraw trace else f.records := by
  unfold Function.resolved
  rcases resolveFunction_eq m trace f with ⟨hmark, h⟩ | ⟨hmark, sites, h⟩
  · rw [h, hmark]
    rfl
  · have hrecords : ({ (getIndirectInstructions m f).2 with callSites := sites } :
        Function).records = f.records := getIndirectInstructions_records m f
    rw [h, if_pos hmark, ← hrecords, ← processOpaquePredicates_records]
    rfl

/-! ## Functions that the rebuilder makes -/

/-- What the other passes leave on a function, and the rebuilder does not touch: the records of
verdicts, and whether a trace verified it. -/
def Function.findings (f : Function) : VerdictRecords × Bool := (f.records, f.hybridVerified)

section

variable {t : Target} (insn : ExtendedInstruction) (inserted : Bool) (bb : BasicBlock)
  (s : AnalyzeState)

theorem handleCall_findings :
    (handleCall t insn inserted bb s).function.findings = s.function.findings := by
  have hout := handleCall_out t insn inserted bb s
  generalize handleCall t insn inserted bb s = s' at hout ⊢
  cases hout <;> rfl

theorem handleBranch_findings :
    (handleBranch t insn inserted bb s).function.findings = s.function.findings := by
  have hout := branchTarget_out t insn inserted bb s
  unfold handleBranch
  generalize branchTarget t insn inserted bb s = r at hout ⊢
  have htarget : r.1.function.findings = s.function.findings := by
    cases hout <;> rfl
  dsimp only
  split <;> exact htarget

theorem handleTrampoline_findings :
    (handleTrampoline t insn inserted bb s).function.findings = s.function.findings := by
  unfold handleTrampoline trampolineTarget
  cases (insn.instruction.op 0).value <;> rfl

end

/-- No pass of the decode loop touches the findings. -/
theorem decodeStep_findings {t : Target} {s s' : AnalyzeState}
    (hn : decodeStep t s = .next s' ∨ decodeStep t s = .done s') :
    s'.function.findings = s.function.findings := by
  rcases decodeStep_result hn with ⟨rfl, -⟩ | ⟨-, bb, last, -, rfl⟩ | ⟨hv, hm, insn, hd, -⟩
  · rfl
  · rfl
  · rw [decodeStep_eq_decodeInsn hv hm hd] at hn
    obtain ⟨inserted, -, hout | hout⟩ := decodeInsn_result hn
    · cases hout with
      | call => exact handleCall_findings insn inserted _ (s.recorded insn)
      | condBr => exact handleBranch_findings insn inserted _ (s.recorded insn)
      | other => rfl
    · cases hout with
      | trampoline => exact handleTrampoline_findings insn inserted _ (s.enter insn)
      | uncondBr => exact handleBranch_findings insn inserted _ (s.recorded insn)
      | ret => rfl

theorem addBasicBlock_findings (s : AnalyzeState) :
    s.addBasicBlock.function.findings = s.function.findings := by
  unfold AnalyzeState.addBasicBlock
  split <;> rfl

theorem analyzeFunction_findings (t : Target) (ctx : AnalysisContext) (f : Function) (start : Nat)
    (queue : List Nat) : (analyzeFunction t ctx f start queue).function.findings = f.findings := by
  have hfrom : ∀ pc s, (decodeFrom t pc s).function.findings = s.function.findings := by
    intro pc s
    refine (addBasicBlock_findings _).trans ?_
    exact Loop.exec_inv (I := fun r : AnalyzeState => r.function.findings = s.function.findings) rfl
      (fun r r' hr hn => (decodeStep_findings (.inl hn)).trans hr)
      fun r r' hr hn => (decodeStep_findings (.inr hn)).trans hr
  refine Loop.exec_inv (I := fun r : AnalyzeState => r.function.findings = f.findings) rfl
    (fun r r' hr hn => ?_) fun r r' hr hn => ?_
  · obtain ⟨pc, rest, -, ⟨-, rfl⟩ | ⟨-, rfl⟩⟩ := workStep_next hn
    · exact hr
    · exact (hfrom pc _).trans hr
  · rw [(workStep_done hn).1]
    exact hr

/-- A discovered function has no verdicts, and no trace has verified it. -/
theorem discovered_findings (t : Target) (mark : AnalyzeState → Bool) (pc : Nat)
    (s : ExploreState) : (discovered t mark pc s).findings = (.none, false) := by
  obtain ⟨b, heq⟩ := discovered_eq t mark pc s
  rw [heq]
  exact analyzeFunction_findings t s.context (newFunction pc) pc s.functionWork

theorem discovered_records (t : Target) (mark : AnalyzeState → Bool) (pc : Nat)
    (s : ExploreState) : (discovered t mark pc s).records = .none :=
  congrArg Prod.fst (discovered_findings t mark pc s)

/-- Going on from the targets adds discovered functions. -/
theorem analyzeTargets_functions (t : Target) : ∀ (targets : List Nat) (ctx : AnalysisContext),
    ∃ new, (targets.foldl (analyzeTarget t) ctx).module.functions = ctx.module.functions ++ new ∧
      ∀ f ∈ new, ∃ mark pc s, f = discovered t mark pc s
  | [], ctx => ⟨[], (List.append_nil _).symm, fun f hf => by cases hf⟩
  | target :: rest, ctx => by
    obtain ⟨new, hnew, hall⟩ := analyzeTargets_functions t rest (analyzeTarget t ctx target)
    rw [List.foldl_cons, hnew]
    unfold analyzeTarget
    split
    · obtain ⟨new', hnew', hall', -⟩ :=
        RebuilderCall.takesUp_functions t (.reAnalyzeFrom target) ctx
      have hcall : (reAnalyzeFrom t ctx target).module.functions = ctx.module.functions ++ new' :=
        hnew'
      refine ⟨new' ++ new, by rw [hcall, List.append_assoc], fun f hf => ?_⟩
      rcases List.mem_append.mp hf with hf | hf
      · obtain ⟨mark, s, pc, rest', -, rfl⟩ := hall' f hf
        exact ⟨mark, pc, _, rfl⟩
      · exact hall f hf
    · exact ⟨new, rfl, hall⟩

/-- **The functions after hybrid analysis.** -/
theorem hybridAnalysis_functions (t : Target) (trace : List TraceRecord) (ctx : AnalysisContext) :
    ∃ new, (hybridAnalysis t (some trace) ctx).module.functions =
        ctx.module.functions.map (Function.resolved ctx.module trace) ++ new ∧
      ∀ f ∈ new, ∃ mark pc s, f = discovered t mark pc s := by
  obtain ⟨new, hnew, hall⟩ := analyzeTargets_functions t (resolveFunctions ctx.module trace).2.toList
    { ctx with module := { ctx.module with functions := (resolveFunctions ctx.module trace).1 } }
  refine ⟨new, ?_, hall⟩
  rw [← resolveFunctions_eq]
  exact hnew

/-! ## Runs of the three passes -/

/-- One of the passes that handle verdicts, with the trace that hybrid analysis has, if it has one. -/
inductive VerdictPass
  | abstractInterpretation
  | opaquePredicate
  | hybridAnalysis (trace : Option (List TraceRecord))

def VerdictPass.apply (t : Target) : VerdictPass → AnalysisContext → AnalysisContext
  | .abstractInterpretation, ctx => ReWizard.abstractInterpretation ctx
  | .opaquePredicate, ctx => ReWizard.opaquePredicate ctx
  | .hybridAnalysis trace, ctx => ReWizard.hybridAnalysis t trace ctx

/-- Some function that is marked for hybrid analysis has a recorded verdict on a branch that the
trace of the pass has more than once. -/
def VerdictPass.Withdraws : VerdictPass → AnalysisContext → Prop
  | .hybridAnalysis (some trace), ctx =>
    ∃ f ∈ ctx.module.functions, f.markedForHybridAnalysis = true ∧
      ∃ a ∈ f.opaquePredicateAddresses, 1 < (getRecordsForPC trace a).length
  | _, _ => False

/-- For every function the three records agree. -/
def VerdictsAgree (ctx : AnalysisContext) : Prop := ∀ f ∈ ctx.module.functions, f.records.Agree

theorem VerdictRecords.mem_withdraw {r : VerdictRecords} (h : r.Agree) (trace : List TraceRecord)
    (a : Nat) : a ∈ (r.withdraw trace).opaquePredicateAddresses ↔
      a ∈ r.opaquePredicateAddresses ∧ ¬ 1 < (getRecordsForPC trace a).length := by
  have hmem : a ∈ r.disproven trace ↔
      a ∈ r.opaquePredicateAddresses ∧ 1 < (getRecordsForPC trace a).length := by
    unfold VerdictRecords.disproven
    by_cases hf : r.hasOpaquePredicates = true
    · rw [if_pos hf, List.mem_filter, decide_eq_true_eq, OrdSet.mem_def]
    · rw [if_neg hf]
      constructor
      · exact fun ha => absurd ha List.not_mem_nil
      · exact fun ha => absurd (h.flag.mpr ⟨a, ha.1⟩) hf
  have hleft : a ∈ (r.withdraw trace).opaquePredicateAddresses ↔
      a ∈ r.opaquePredicateAddresses ∧ a ∉ r.disproven trace := mem_foldl_erase
  rw [hleft, hmem]
  exact ⟨fun ha => ⟨ha.1, fun hc => ha.2 ⟨ha.1, hc⟩⟩, fun ha => ⟨ha.1, fun hc => ha.2 hc.2⟩⟩

theorem VerdictRecords.withdraw_agree {r : VerdictRecords} (h : r.Agree)
    (trace : List TraceRecord) : (r.withdraw trace).Agree ↔
      ∀ a ∈ r.opaquePredicateAddresses, ¬ 1 < (getRecordsForPC trace a).length := by
  constructor
  · intro hagree a ha hcount
    have hkey : a ∈ (r.withdraw trace).opaquePredicateResults.keys := (h.keys a).mpr ha
    exact ((mem_withdraw h trace a).mp ((hagree.keys a).mp hkey)).2 hcount
  · intro hkept
    have hsame : ∀ a, a ∈ (r.withdraw trace).opaquePredicateAddresses ↔
        a ∈ r.opaquePredicateAddresses := by
      intro a
      rw [mem_withdraw h trace]
      exact ⟨And.left, fun ha => ⟨ha, hkept a ha⟩⟩
    refine ⟨fun a => (h.keys a).trans (hsame a).symm, ?_⟩
    have hflag : (r.withdraw trace).hasOpaquePredicates = true ↔ r.hasOpaquePredicates = true ∧
        (r.withdraw trace).opaquePredicateAddresses.toList ≠ [] := by
      show (_ && decide _) = true ↔ _
      rw [Bool.and_eq_true, decide_eq_true_eq]
      rfl
    rw [hflag, h.flag]
    constructor
    · rintro ⟨⟨a, ha⟩, -⟩
      exact ⟨a, (hsame a).mpr ha⟩
    · rintro ⟨a, ha⟩
      exact ⟨⟨a, (hsame a).mp ha⟩, fun hnil => by
        rw [OrdSet.mem_def, hnil] at ha
        cases ha⟩

/-- One pass from a state in which the records agree. -/
theorem VerdictPass.apply_agree (t : Target) (p : VerdictPass) {ctx : AnalysisContext}
    (h : VerdictsAgree ctx) : VerdictsAgree (p.apply t ctx) ↔ ¬ p.Withdraws ctx := by
  cases p with
  | abstractInterpretation =>
    refine ⟨fun _ hw => hw, fun _ f hf => ?_⟩
    obtain ⟨g, hg, rfl⟩ := List.mem_map.mp hf
    exact intervalFunction_agree ctx.module (h g hg)
  | opaquePredicate =>
    refine ⟨fun _ hw => hw, fun _ f hf => ?_⟩
    obtain ⟨g, hg, rfl⟩ := List.mem_map.mp hf
    have hrecords : g.removeOpaquePredicates.records = g.records := by
      unfold Function.removeOpaquePredicates
      split <;> rfl
    rw [hrecords]
    exact h g hg
  | hybridAnalysis trace =>
    cases trace with
    | none => exact ⟨fun _ hw => hw, fun _ => h⟩
    | some trace =>
      obtain ⟨new, hnew, hall⟩ := hybridAnalysis_functions t trace ctx
      constructor
      · rintro hagree ⟨f, hf, hmark, a, ha, hcount⟩
        have hf' : (f.resolved ctx.module trace).records.Agree :=
          hagree _ (hnew ▸ List.mem_append_left _ (List.mem_map_of_mem hf))
        rw [resolved_records, if_pos hmark, VerdictRecords.withdraw_agree (h f hf)] at hf'
        exact hf' a ha hcount
      · intro hkept f hf
        have hf' : f ∈ ctx.module.functions.map (Function.resolved ctx.module trace) ++ new :=
          hnew ▸ hf
        rcases List.mem_append.mp hf' with hf' | hf'
        · obtain ⟨g, hg, rfl⟩ := List.mem_map.mp hf'
          rw [resolved_records]
          split
          · rename_i hmark
            rw [VerdictRecords.withdraw_agree (h g hg)]
            exact fun a ha hcount => hkept ⟨g, hg, hmark, a, ha, hcount⟩
          · exact h g hg
        · obtain ⟨mark, pc, s, rfl⟩ := hall f hf'
          rw [discovered_records]
          exact VerdictRecords.none_agree

/-- The states that a run of passes comes to, the first one included. -/
def verdictStates (t : Target) (ctx : AnalysisContext) : List VerdictPass → List AnalysisContext
  | [] => [ctx]
  | p :: rest => ctx :: verdictStates t (p.apply t ctx) rest

/-- The records agree in every state of the run. -/
def VerdictRunAgrees (t : Target) (ctx : AnalysisContext) (passes : List VerdictPass) : Prop :=
  ∀ s ∈ verdictStates t ctx passes, VerdictsAgree s

/-- No pass of the run withdraws a verdict. -/
def KeepsVerdicts (t : Target) (ctx : AnalysisContext) : List VerdictPass → Prop
  | [] => True
  | p :: rest => ¬ p.Withdraws ctx ∧ KeepsVerdicts t (p.apply t ctx) rest

theorem verdictStates_agree (t : Target) : ∀ (passes : List VerdictPass) {ctx : AnalysisContext},
    VerdictsAgree ctx →
      ((∀ s ∈ verdictStates t ctx passes, VerdictsAgree s) ↔ KeepsVerdicts t ctx passes)
  | [], ctx, h => ⟨fun _ => trivial, fun _ s hs => List.mem_singleton.mp hs ▸ h⟩
  | p :: rest, ctx, h => by
    have hstep := p.apply_agree t h
    unfold verdictStates KeepsVerdicts
    rw [List.forall_mem_cons, ← hstep]
    constructor
    · rintro ⟨-, hall⟩
      have hnext : VerdictsAgree (p.apply t ctx) := by
        cases rest with
        | nil => exact hall _ List.mem_cons_self
        | cons q rest => exact hall _ List.mem_cons_self
      exact ⟨hnext, (verdictStates_agree t rest hnext).mp hall⟩
    · rintro ⟨hnext, hall⟩
      exact ⟨h, (verdictStates_agree t rest hnext).mpr hall⟩

/-- **The records of verdicts agree as long as none is withdrawn**: over every run of the three
passes on functions without verdicts, they agree in every state if and only if no hybrid analysis
withdraws one. -/
theorem verdictRuns_iff (t : Target) (ctx : AnalysisContext) (passes : List VerdictPass)
    (h : ∀ f ∈ ctx.module.functions, f.records = .none) :
    VerdictRunAgrees t ctx passes ↔ KeepsVerdicts t ctx passes :=
  verdictStates_agree t passes fun f hf => h f hf ▸ VerdictRecords.none_agree

/-! ## A branch that is taken both ways -/

/-- `mov rbx, 0; test rbx, rbx; jz` over `call rbx`, to a `ret`. -/
def testedJump : Target :=
  testTarget [0x48, 0xC7, 0xC3, 0, 0, 0, 0, 0x48, 0x85, 0xDB, 0x74, 0x02, 0xFF, 0xD3, 0xC3]

/-- A trace with the branch of `testedJump` twice. -/
def branchTwice : List TraceRecord :=
  [⟨0x100a, fun _ => none, []⟩, ⟨0x100a, fun _ => none, []⟩]

/-- The functions that `Run` finds have no verdict. -/
theorem rebuildControlFlow_records (t : Target) (symbolTable : SymbolTable) :
    ∀ f ∈ (rebuildControlFlow t (freshContext symbolTable)).module.functions,
      f.records = .none := by
  intro f hf
  obtain ⟨new, hnew, hall, -⟩ :=
    RebuilderCall.takesUp_functions t .run (freshContext symbolTable)
  have hrun : (rebuildControlFlow t (freshContext symbolTable)).module.functions =
      (freshContext symbolTable).module.functions ++ new := hnew
  rw [hrun] at hf
  rcases List.mem_append.mp hf with hf | hf
  · cases hf
  · obtain ⟨mark, s, pc, rest, -, rfl⟩ := hall f hf
    exact discovered_records t mark pc _

/-- With the branch once in the trace, nothing is withdrawn. -/
theorem testedJump_verdicts_agree :
    VerdictRunAgrees testedJump (rebuildControlFlow testedJump (freshContext {}))
      [.abstractInterpretation, .hybridAnalysis (some (branchTwice.take 1)), .opaquePredicate] := by
  refine (verdictRuns_iff testedJump _ _ (rebuildControlFlow_records testedJump {})).mpr
    ⟨fun h => h, ?_, fun h => h, trivial⟩
  rintro ⟨f, -, -, a, -, hcount⟩
  have hle := List.length_filter_le (fun r : TraceRecord => decide (r.pc = a))
    (branchTwice.take 1)
  exact absurd (lt_of_lt_of_le hcount hle) (by decide)

/-- `testedJump` after the rebuilder, the interval analysis and the hybrid analysis. -/
def testedHybrid : AnalysisContext :=
  VerdictPass.apply testedJump (.hybridAnalysis (some branchTwice))
    (VerdictPass.apply testedJump .abstractInterpretation
      (rebuildControlFlow testedJump (freshContext {})))

/-- With the branch twice, its result outlives its address. -/
theorem testedJump_verdicts_differ :
    ¬ VerdictRunAgrees testedJump (rebuildControlFlow testedJump (freshContext {}))
      [.abstractInterpretation, .hybridAnalysis (some branchTwice)] := by
  intro h
  simp only [VerdictRunAgrees, verdictStates, List.forall_mem_cons] at h
  obtain ⟨-, -, hlast, -⟩ := h
  have hagree : VerdictsAgree testedHybrid := hlast
  have hlost : ∃ f ∈ testedHybrid.module.functions,
      0x100a ∈ f.opaquePredicateResults.keys ∧ 0x100a ∉ f.opaquePredicateAddresses := by
    decide +kernel
  obtain ⟨f, hf, hkey, hgone⟩ := hlost
  exact hgone (((hagree f hf).keys 0x100a).mp hkey)

end ReWizard
