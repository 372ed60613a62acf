import ReWizard.Hybrid.Proof.EmulatorSession
import ReWizard.Analysis.Fragment
import ReWizard.Analysis.Proof.CallSites

/-!
# Traces of Bochs

What the trace producers are given in a session, and what hybrid analysis makes of it:

* `Observed.recordsOf`: a producer is given the states of the CPU before each instruction, while it
  is the producer of the process and tracing is active, whichever executor runs the CPU;
* `bochsTrace_resolves_iff`: with these records hybrid analysis adds a call site exactly for an
  indirect call or jump through a 64-bit register that the CPU came to with the target in that
  register. A record has no memory accesses and no instruction pointer among its registers, so
  nothing is found for a target in memory.
-/

namespace ReWizard

open History BochsExecutor

variable {M P ι : Type} {B : Bochs M}

/-! ## What the CPU goes through -/

/-- The states before each instruction of an execution that is let through. -/
def startedStates (B : Bochs M) (start maxInstructions : Nat) (s : Emulator M P) :
    List (BochsCore M) :=
  let core := if start ≠ 0 then s.core.setReg .rip start else s.core
  if maxInstructions = 0 then [] else (B.cpuLoop maxInstructions core).1

/-- The states that the CPU goes through in a call that replies so. -/
def cpuStates (B : Bochs M) (s : Emulator M P) :
    ProcessCall ι P × ExecutorReply → List (BochsCore M)
  | (.on _ (.execute start maxInstructions), .ok true) => startedStates B start maxInstructions s
  | (.on _ (.bootFromDisk maxInstructions), .ok true) => startedStates B 0 maxInstructions s
  | _ => []

/-- The producer is given a record of every instruction. -/
def TraceBridge.GivesTo (b : TraceBridge P) (p : P) : Prop :=
  b.traceActive = true ∧ b.traceProducer = some p

variable [DecidableEq P]

instance (b : TraceBridge P) (p : P) : Decidable (b.GivesTo p) :=
  inferInstanceAs (Decidable (_ ∧ _))

namespace TraceBridge

/-- One record. -/
theorem beforeExecution_recordsOf (p : P) (core : BochsCore M) (b : TraceBridge P) :
    (b.beforeExecution core).recordsOf p =
        b.recordsOf p ++ (if b.GivesTo p then [core.traceRecord] else []) ∧
      (b.beforeExecution core).traceProducer = b.traceProducer ∧
      (b.beforeExecution core).traceActive = b.traceActive := by
  obtain ⟨producer, active, records⟩ := b
  cases active with
  | false => simp [beforeExecution, GivesTo]
  | true =>
    cases producer with
    | none => simp [beforeExecution, GivesTo]
    | some q => by_cases hq : q = p <;> simp [beforeExecution, GivesTo, recordsOf, hq]

theorem beforeExecution_foldl (p : P) : ∀ (cores : List (BochsCore M)) (b : TraceBridge P),
    (cores.foldl beforeExecution b).recordsOf p =
      b.recordsOf p ++ (if b.GivesTo p then cores.map BochsCore.traceRecord else [])
  | [], b => by simp
  | core :: rest, b => by
    obtain ⟨hrecord, hproducer, hactive⟩ := beforeExecution_recordsOf p core b
    have hgives : (b.beforeExecution core).GivesTo p ↔ b.GivesTo p := by
      unfold GivesTo
      rw [hproducer, hactive]
    rw [List.foldl_cons, beforeExecution_foldl p rest, hrecord]
    by_cases h : b.GivesTo p
    · simp [hgives, h]
    · simp [hgives, h]

end TraceBridge

/-! ## Sessions -/

theorem started_recordsOf (p : P) (start maxInstructions : Nat) (s : Emulator M P) :
    (started B start maxInstructions s).bridge.recordsOf p = s.bridge.recordsOf p ++
      (if s.bridge.GivesTo p then
        (startedStates B start maxInstructions s).map BochsCore.traceRecord else []) := by
  unfold started startedStates
  by_cases hmax : maxInstructions = 0
  · by_cases hstart : start = 0 <;> simp [hmax, hstart]
  · by_cases hstart : start = 0
    · simp only [hmax, hstart, ne_eq, not_true, if_false]
      exact TraceBridge.beforeExecution_foldl p _ s.bridge
    · simp only [hmax, hstart, ne_eq, not_false_eq_true, if_true, if_false]
      exact TraceBridge.beforeExecution_foldl p _ s.bridge

/-- A call adds the records of the states that the CPU goes through in it. -/
theorem apply_recordsOf (p : P) (e : ι) (c : ExecutorCall P) (x : Executor P) (s : Emulator M P) :
    (c.apply B x s).2.2.bridge.recordsOf p = s.bridge.recordsOf p ++
      (if s.bridge.GivesTo p then
        (cpuStates B s (.on e c, (c.apply B x s).1)).map BochsCore.traceRecord else []) := by
  cases c with
  | execute start maxInstructions =>
    show (execute B start maxInstructions x s).2.bridge.recordsOf p = _ ++ (if _ then
      (cpuStates B s (_, .ok (execute B start maxInstructions x s).1)).map _ else [])
    rw [execute_eq]
    split
    · exact started_recordsOf p start maxInstructions s
    · simp [cpuStates]
  | bootFromDisk maxInstructions =>
    show (bootFromDisk B maxInstructions x s).2.bridge.recordsOf p = _ ++ (if _ then
      (cpuStates B s (_, .ok (bootFromDisk B maxInstructions x s).1)).map _ else [])
    rw [bootFromDisk_eq]
    split
    · exact started_recordsOf p 0 maxInstructions s
    · simp [cpuStates]
  | initializeExecutor configures =>
    have hout := initializeExecutor_out (B := B) x s configures
    show (initializeExecutor B configures x s).2.2.bridge.recordsOf p = _
    generalize initializeExecutor B configures x s = ρ at hout ⊢
    cases hout <;> simp [cpuStates]
  | setRegister reg value =>
    show (setRegister reg value s).2.bridge.recordsOf p = _
    unfold setRegister
    cases zydisToBochsReg reg with
    | none => simp [cpuStates]
    | some r => cases s.coreInitialized <;> simp [cpuStates]
  | loadBinary data baseAddress =>
    show s.bridge.recordsOf p = _
    simp [cpuStates]
  | setTraceProducer producer =>
    show s.bridge.recordsOf p = _
    simp [cpuStates]
  | shutdown => simp [ExecutorCall.apply, cpuStates]
  | getRegister reg => simp [ExecutorCall.apply, cpuStates]
  | snapshot name => simp [ExecutorCall.apply, cpuStates]
  | restore name => simp [ExecutorCall.apply, cpuStates]
  | setDiskImage path => simp [ExecutorCall.apply, cpuStates]

variable [DecidableEq ι]

theorem step_recordsOf (p : P) {s s' : EmulatorProcess M P ι} {c : ProcessCall ι P}
    {r : ExecutorReply} (hs : s.step B c = some (r, s')) :
    s'.emulator.bridge.recordsOf p = s.emulator.bridge.recordsOf p ++
      (if s.emulator.bridge.GivesTo p then
        (cpuStates B s.emulator (c, r)).map BochsCore.traceRecord else []) := by
  cases c with
  | create e =>
    simp only [EmulatorProcess.step] at hs
    split at hs
    · cases hs
      simp [cpuStates]
    · cases hs
  | destroy e =>
    obtain ⟨x, -, heq⟩ := Option.map_eq_some_iff.mp hs
    cases heq
    simp [cpuStates]
  | setTraceActive active =>
    cases hs
    show s.emulator.bridge.recordsOf p = _
    simp [cpuStates]
  | on e c =>
    obtain ⟨x, -, heq⟩ := Option.map_eq_some_iff.mp hs
    cases heq
    exact apply_recordsOf p e c x s.emulator

/-- A session, with the states of the CPU before each instruction that was executed while `p` was
the producer of the process and tracing was active. -/
inductive Observed (B : Bochs M) (p : P) (s : EmulatorProcess M P ι) :
    List (ProcessCall ι P × ExecutorReply) → EmulatorProcess M P ι → List (BochsCore M) → Prop
  | nil : Observed B p s [] s []
  | snoc {h : List (ProcessCall ι P × ExecutorReply)} {u u' : EmulatorProcess M P ι}
      {cores : List (BochsCore M)} {c : ProcessCall ι P} {r : ExecutorReply} :
      Observed B p s h u cores → u.step B c = some (r, u') →
      Observed B p s (h ++ [(c, r)]) u'
        (cores ++ if u.emulator.bridge.GivesTo p then cpuStates B u.emulator (c, r) else [])

/-- Every session can be observed. -/
theorem observed_of_run (p : P) {s s' : EmulatorProcess M P ι}
    {h : List (ProcessCall ι P × ExecutorReply)} (hr : Run (EmulatorProcess.step B) s h s') :
    ∃ cores, Observed B p s h s' cores := by
  induction hr with
  | nil => exact ⟨[], .nil⟩
  | snoc _ hs ih =>
    obtain ⟨cores, hc⟩ := ih
    exact ⟨_, hc.snoc hs⟩

/-- A producer is given exactly those states, in their order. -/
theorem Observed.recordsOf {p : P} {sim : Bool} {core : BochsCore M}
    {h : List (ProcessCall ι P × ExecutorReply)} {s : EmulatorProcess M P ι}
    {cores : List (BochsCore M)} (ho : Observed B p (.start sim core) h s cores) :
    s.emulator.bridge.recordsOf p = cores.map BochsCore.traceRecord := by
  induction ho with
  | nil => rfl
  | @snoc h u u' cores c r _ hs ih =>
    rw [step_recordsOf p hs, ih, List.map_append]
    split <;> rfl

/-! ## Hybrid analysis -/

/-- What the record of a state tells of an indirect instruction. -/
theorem resolveIndirectTarget_traceRecord (core : BochsCore M) (i : ExtendedInstruction) {t : Nat}
    (ht : t ≠ 0) : resolveIndirectTarget i core.traceRecord = t ↔
      (i.instruction.mnemonic = .call ∨ i.instruction.mnemonic = .jmp) ∧
        ∃ g, (i.instruction.op 0).value = .register (.gpr64 g) ∧ core.genReg (.gpr g) = t := by
  unfold resolveIndirectTarget
  by_cases hm : i.instruction.mnemonic = .call ∨ i.instruction.mnemonic = .jmp
  · rw [if_neg fun h => hm.elim h.1 h.2]
    cases hop : (i.instruction.op 0).value with
    | register reg =>
      cases reg with
      | gpr64 g => simp [BochsCore.traceRecord, hm]
      | _ => simp [BochsCore.traceRecord, Ne.symm ht]
    | memory mem => simp [BochsCore.traceRecord, Ne.symm ht]
    | _ => simp [Ne.symm ht]
  · rw [if_pos (not_or.mp hm)]
    exact ⟨fun h => absurd h.symm ht, fun h => absurd h.1 hm⟩

/-- The CPU came to the instruction, a call or jump through a 64-bit register, with the target in
it. -/
def CameTo (cores : List (BochsCore M)) (i : ExtendedInstruction) (t : Nat) : Prop :=
  (i.instruction.mnemonic = .call ∨ i.instruction.mnemonic = .jmp) ∧
    ∃ g, (i.instruction.op 0).value = .register (.gpr64 g) ∧
      ∃ core ∈ cores, core.genReg .rip = i.address ∧ core.genReg (.gpr g) = t

theorem mem_traceSites_iff (cores : List (BochsCore M)) (i : ExtendedInstruction) {c t : Nat}
    (ht : t ≠ 0) : (c, t) ∈ i.traceSites (cores.map BochsCore.traceRecord) ↔
      i.address = c ∧ CameTo cores i t := by
  unfold ExtendedInstruction.traceSites getRecordsForPC
  simp only [List.mem_filter, List.mem_map, Prod.mk.injEq, decide_eq_true_eq]
  constructor
  · rintro ⟨⟨r, ⟨⟨core, hcore, rfl⟩, hpc⟩, haddr, htarget⟩, -⟩
    obtain ⟨hm, g, hop, hvalue⟩ := (resolveIndirectTarget_traceRecord core i ht).mp htarget
    exact ⟨haddr, hm, g, hop, core, hcore, hpc, hvalue⟩
  · rintro ⟨haddr, hm, g, hop, core, hcore, hpc, hvalue⟩
    exact ⟨⟨_, ⟨⟨core, hcore, rfl⟩, hpc⟩, haddr,
      (resolveIndirectTarget_traceRecord core i ht).mpr ⟨hm, g, hop, hvalue⟩⟩, ht⟩

/-- **Traces of Bochs**: after any session, hybrid analysis of a marked function with the records of
a producer has the call site with a target if and only if it was there, or the CPU came to the
indirect instruction with that target in its register. -/
theorem bochsTrace_resolves_iff {p : P} {sim : Bool} {core : BochsCore M}
    {h : List (ProcessCall ι P × ExecutorReply)} {s : EmulatorProcess M P ι}
    {cores : List (BochsCore M)} (ho : Observed B p (.start sim core) h s cores) (m : Module)
    {f : Function} (hmark : f.markedForHybridAnalysis = true) {c t : Nat} (ht : t ≠ 0) :
    addrPair c t ∈ (f.resolved m (s.emulator.bridge.recordsOf p)).callSites ↔
      addrPair c t ∈ f.callSites ∨
        ∃ i ∈ (getIndirectInstructions m f).1, i.address = c ∧ CameTo cores i t := by
  rw [ho.recordsOf, resolved_callSites hmark, mem_addCallSites traceSites_ne_zero, or_comm]
  have hsites : (c, t) ∈ f.traceSites m (cores.map BochsCore.traceRecord) ↔
      ∃ i ∈ (getIndirectInstructions m f).1, i.address = c ∧ CameTo cores i t := by
    unfold Function.traceSites
    rw [List.mem_flatMap]
    exact exists_congr fun i => and_congr_right fun _ => mem_traceSites_iff cores i ht
  rw [hsites]
  simp [ht]

/-! ## A call through a register -/

/-- `call rax` at `0x10000`, in a function of its own. -/
def callRaxFunction : Function :=
  { (Function.create "e2e_indirect_caller").setStart 0x10000 with
    endAddress := 0x10002
    basicBlocks := [{ BasicBlock.create 0x10000 with endAddress := 0x10002 }]
    markedForHybridAnalysis := true }

def callRax : ExtendedInstruction :=
  { instruction := callRegInsn .rax, address := 0x10000, isIndirect := true }

def callRaxModule : Module := ({} : Module).addInstruction callRax

/-- One instruction is executed with the target in `rax`, while a producer is given the records. -/
def tracedRaxCall : List (ProcessCall Nat Unit × ExecutorReply) :=
  [(.create 0, .void), (.on 0 (.initializeExecutor true), .ok true),
    (.on 0 (.setRegister (.gpr64 .rax) 0x20000), .ok true),
    (.on 0 (.setTraceProducer (some ())), .void), (.setTraceActive true, .void),
    (.on 0 (.execute 0x10000 1), .ok true)]

theorem tracedRaxCall_resolved : ∃ s, Run (EmulatorProcess.step nopBochs) nopStart tracedRaxCall s ∧
    addrPair 0x10000 0x20000 ∈
      (callRaxFunction.resolved callRaxModule (s.emulator.bridge.recordsOf ())).callSites := by
  have hobs := Observed.nil (B := nopBochs) (p := ()) (s := nopStart)
    |>.snoc (c := .create 0) rfl
    |>.snoc (c := .on 0 (.initializeExecutor true)) rfl
    |>.snoc (c := .on 0 (.setRegister (.gpr64 .rax) 0x20000)) rfl
    |>.snoc (c := .on 0 (.setTraceProducer (some ()))) rfl
    |>.snoc (c := .setTraceActive true) rfl
    |>.snoc (c := .on 0 (.execute 0x10000 1)) rfl
  have hrun : Run (EmulatorProcess.step nopBochs) nopStart tracedRaxCall _ :=
    .cons rfl (.cons rfl (.cons rfl (.cons rfl (.cons rfl (.single rfl)))))
  refine ⟨_, hrun, (bochsTrace_resolves_iff hobs callRaxModule rfl (by decide)).mpr (.inr ?_)⟩
  refine ⟨callRax, by decide +kernel, rfl, .inl rfl, .rax, rfl, ?_⟩
  exact ⟨_, List.mem_cons_self, rfl, rfl⟩

end ReWizard
