import ReWizard.Analysis.Proof.AddedFunctions
import ReWizard.Analysis.Proof.XrefCoverage

/-!
# Where everything comes from

Nothing that the rebuilder visits or files is made up. An instruction is visited because control
leads to it from an entry point, from an address that the caller gave or from a prologue that the
sweep found; a cross-reference or a call site is there because the instruction at its source refers
to its target.

* `Sourced`: what a stretch of the analysis enqueues and files, and for which instruction;
* `Founded`: an exploration in which everything leads from a root, kept by every discovery;
* `calls_founded`, `calls_filed`: both for any sequence of calls from the fresh context.
-/

namespace ReWizard

/-! ## What an instruction refers to -/

/-- The slot that a call goes through when its operand shows the address. -/
def ExtendedInstruction.slotAddress (i : ExtendedInstruction) : Option Nat :=
  match (i.instruction.op 0).value with
  | .memory mem =>
    if mem.base = .rip then some (i.relTarget mem.disp)
    else if mem.base = .none ∧ mem.index = .none then some mem.disp.toNat
    else none
  | _ => none

/-- The instruction is a jump or a branch. -/
def ExtendedInstruction.IsBranch (i : ExtendedInstruction) : Prop :=
  i.instruction.category = .condBr ∨ i.instruction.category = .uncondBr

/-- The instruction has the call site with the target `d`: its target, the slot it calls through, or
0 when it does not show one. -/
inductive ExtendedInstruction.Site (i : ExtendedInstruction) : Nat → Prop
  | call {d : Nat} : i.instruction.category = .call → i.directTarget = some d → Site i d
  | slot {d : Nat} : i.instruction.category = .call → i.slotAddress = some d → Site i d
  | jump {d : Nat} : i.instruction.category = .uncondBr → i.directTarget = some d → Site i d
  | unresolved : i.Unresolved → Site i 0

/-- The instruction has the cross-reference to `d` of the given type. -/
inductive ExtendedInstruction.Files (t : Target) (i : ExtendedInstruction) : Nat → String → Prop
  | call {d : Nat} : i.instruction.category = .call →
      i.directTarget = some d ∨ i.slotAddress = some d → Files t i d "call"
  | indirectCall : i.instruction.category = .call → i.indirectCall = true → Files t i 0 "call"
  | jump {d : Nat} : i.IsBranch → i.directTarget = some d → t.InCode d → Files t i d "jump"
  | fallThrough : i.instruction.category = .condBr → Files t i i.next "jump"
  | indirectJump : i.IsBranch → i.indirectJump = true → Files t i 0 "jump"

/-- The address is the target of a call or jump at `v`, or the slot that a call at `v` goes
through, which is taken for a target. -/
inductive Refers (t : Target) (v : Nat) : Nat → Prop
  | transfer {a : Nat} : Transfer t v a → Refers t v a
  | slot {i : ExtendedInstruction} {a : Nat} : t.disassemble v = some i →
      i.instruction.category = .call → i.slotAddress = some a → Refers t v a

theorem ExtendedInstruction.Site.refers {t : Target} {c d : Nat} {i : ExtendedInstruction}
    (h : i.Site d) (hd : t.disassemble c = some i) (h0 : d ≠ 0) : Refers t c d := by
  cases h with
  | call hcat htarget => exact .transfer ⟨hd, .inl hcat, htarget⟩
  | slot hcat hslot => exact .slot hd hcat hslot
  | jump hcat htarget => exact .transfer ⟨hd, .inr hcat, htarget⟩
  | unresolved _ => exact absurd rfl h0

/-! ## Handling one instruction -/

/-- What handling the instruction at `pc` enqueues and files comes from that instruction. -/
structure FiledFor (t : Target) (insn : ExtendedInstruction) (s s' : AnalyzeState) : Prop where
  queue : ∀ a ∈ s'.functionWork, a ∈ s.functionWork ∨
    ((insn.instruction.category = .call ∨ insn.instruction.category = .uncondBr) ∧
      insn.directTarget = some a)
  sites : ∀ c d, addrPair c d ∈ s'.function.callSites →
    addrPair c d ∈ s.function.callSites ∨ (c = s.pc ∧ insn.Site d)
  xrefs : ∀ x ∈ s'.module.xrefManager.all,
    x ∈ s.module.xrefManager.all ∨ (x.src = s.pc ∧ insn.Files t x.dst x.type)

namespace FiledFor

variable {t : Target} {insn : ExtendedInstruction} {s s' s'' : AnalyzeState}

theorem refl (t : Target) (insn : ExtendedInstruction) (s : AnalyzeState) :
    FiledFor t insn s s :=
  ⟨fun _ h => .inl h, fun _ _ h => .inl h, fun _ h => .inl h⟩

/-- Only the queue, the call sites and the cross-references matter. -/
theorem congr (h : FiledFor t insn s s') (hq : s''.functionWork = s'.functionWork)
    (hc : s''.function.callSites = s'.function.callSites)
    (hx : s''.module.xrefManager = s'.module.xrefManager) : FiledFor t insn s s'' where
  queue := by rw [hq]; exact h.queue
  sites := by rw [hc]; exact h.sites
  xrefs := by rw [hx]; exact h.xrefs

theorem congr_left {r : AnalyzeState} (h : FiledFor t insn s s')
    (hq : s.functionWork = r.functionWork) (hc : s.function.callSites = r.function.callSites)
    (hx : s.module.xrefManager = r.module.xrefManager) (hpc : s.pc = r.pc) :
    FiledFor t insn r s' where
  queue := by rw [← hq]; exact h.queue
  sites := by rw [← hc, ← hpc]; exact h.sites
  xrefs := by rw [← hx, ← hpc]; exact h.xrefs

theorem xref (h : FiledFor t insn s s') (hpc : s'.pc = s.pc) {d : Nat} {type : String}
    (hfiles : insn.Files t d type) :
    FiledFor t insn s (s'.mapModule fun m => m.addXref s'.pc d type) where
  queue := h.queue
  sites := h.sites
  xrefs := fun x hx => by
    rcases XrefManager.mem_addXref.mp hx with rfl | hx
    · exact .inr ⟨hpc, hfiles⟩
    · exact h.xrefs x hx

theorem addCallSite (t : Target) (s : AnalyzeState) {d : Nat} {type : String} (hsite : insn.Site d)
    (hfiles : insn.Files t d type) : FiledFor t insn s (s.addCallSite d type) where
  queue := fun _ h => .inl h
  sites := fun c e h => by
    rcases Function.mem_addCallSite.mp h with ⟨rfl, rfl⟩ | ⟨h, -⟩
    · exact .inr ⟨rfl, hsite⟩
    · exact .inl h
  xrefs := ((refl t insn s).xref rfl hfiles).xrefs

theorem enqueue {a : Nat} (h : FiledFor t insn s s')
    (hcat : insn.instruction.category = .call ∨ insn.instruction.category = .uncondBr)
    (ha : insn.directTarget = some a) :
    FiledFor t insn s { s' with functionWork := s'.functionWork ++ [a] } where
  queue := fun b hb => by
    rcases List.mem_append.mp hb with hb | hb
    · exact h.queue b hb
    · rw [List.mem_singleton.mp hb]
      exact .inr ⟨hcat, ha⟩
  sites := h.sites
  xrefs := h.xrefs

end FiledFor

section

variable (t : Target) (insn : ExtendedInstruction) (inserted : Bool) (bb : BasicBlock)
  (s : AnalyzeState)

theorem handleCall_filedFor (hcat : insn.instruction.category = .call)
    (h0 : insn.indirectValue = 0) : FiledFor t insn s (handleCall t insn inserted bb s) := by
  have hindirect (hi : insn.indirectCall = true) :
      FiledFor t insn s (s.addCallSite insn.indirectValue "call") := by
    rw [h0]
    exact .addCallSite t s (.unresolved (.inl ⟨hcat, hi⟩)) (.indirectCall hcat hi)
  have hslot {d : Nat} (hd : insn.slotAddress = some d) :
      FiledFor t insn s (s.addCallSite d "call") :=
    .addCallSite t s (.slot hcat hd) (.call hcat (.inr hd))
  unfold handleCall
  cases hop : (insn.instruction.op 0).value with
  | immediate imm =>
    have ha : insn.directTarget = some (insn.relTarget imm) := by
      simp [ExtendedInstruction.directTarget, hop]
    have h := FiledFor.addCallSite t s (.call hcat ha) (.call hcat (.inl ha))
    dsimp only
    split
    · exact (h.enqueue (.inl hcat) ha).congr rfl rfl rfl
    · exact h.congr rfl rfl rfl
  | memory mem =>
    dsimp only
    split
    · rename_i hrip
      exact (hslot (by simp [ExtendedInstruction.slotAddress, hop, hrip])).congr rfl rfl rfl
    · rename_i hrip
      split
      · rename_i habs
        exact (hslot (by simp [ExtendedInstruction.slotAddress, hop, habs])).congr rfl rfl rfl
      · rename_i habs
        have hi : insn.indirectCall = true := by
          unfold ExtendedInstruction.indirectCall
          rw [hop]
          exact decide_eq_true ⟨hrip, habs⟩
        exact (hindirect hi).congr rfl rfl (markIndirect_xrefManager _ _ _)
  | register _ =>
    exact (hindirect (by simp [ExtendedInstruction.indirectCall, hop])).congr rfl rfl
      (markIndirect_xrefManager _ _ _)
  | pointer =>
    exact (hindirect (by simp [ExtendedInstruction.indirectCall, hop])).congr rfl rfl
      (markIndirect_xrefManager _ _ _)
  | unused =>
    exact (hindirect (by simp [ExtendedInstruction.indirectCall, hop])).congr rfl rfl
      (markIndirect_xrefManager _ _ _)

theorem branchTarget_filedFor (hcat : insn.IsBranch) (h0 : insn.indirectValue = 0) :
    FiledFor t insn s (branchTarget t insn inserted bb s).1 := by
  have hout := branchTarget_out t insn inserted bb s
  generalize branchTarget t insn inserted bb s = r at hout ⊢
  cases hout with
  | outside => exact .refl t insn s
  | known target htarget _ hcode hjump =>
    exact .addCallSite t s (.jump hjump htarget) (.jump hcat htarget hcode)
  | enqueued target htarget _ hcode hjump =>
    have h := (FiledFor.refl t insn s).xref rfl (.jump hcat htarget hcode)
    exact (h.enqueue (.inr hjump) htarget).congr rfl rfl rfl
  | visited => exact .refl t insn s
  | branch target htarget _ hcode =>
    exact ((FiledFor.refl t insn s).xref rfl (.jump hcat htarget hcode)).congr rfl rfl rfl
  | indirect _ hi =>
    have h : FiledFor t insn s (s.addCallSite insn.indirectValue "jump") := by
      rw [h0]
      exact .addCallSite t s (.unresolved (.inr ⟨hcat, hi⟩)) (.indirectJump hcat hi)
    exact h.congr rfl rfl (markIndirect_xrefManager _ _ _)

theorem handleBranch_filedFor (hcat : insn.IsBranch) (h0 : insn.indirectValue = 0) :
    FiledFor t insn s (handleBranch t insn inserted bb s) := by
  have h := branchTarget_filedFor t insn inserted bb s hcat h0
  obtain ⟨-, hpc, -⟩ := branchTarget_block t insn inserted bb s
  unfold handleBranch
  generalize branchTarget t insn inserted bb s = r at h hpc ⊢
  obtain ⟨s₁, b₁⟩ := r
  dsimp only at h hpc ⊢
  split
  · rename_i hcond
    exact (h.xref hpc (.fallThrough hcond)).congr rfl rfl rfl
  · exact h.congr rfl rfl rfl

theorem handleTrampoline_filedFor (hcat : insn.instruction.category = .uncondBr)
    (hpc : insn.address = s.pc) :
    FiledFor t insn s (handleTrampoline t insn inserted bb s) := by
  unfold handleTrampoline trampolineTarget
  cases hop : (insn.instruction.op 0).value with
  | immediate imm =>
    have ha : insn.directTarget = some (insn.relTarget imm) := by
      simp [ExtendedInstruction.directTarget, hop]
    refine { FiledFor.refl t insn s with sites := fun c d h => ?_ }
    rcases Function.mem_addCallSite.mp h with ⟨rfl, rfl⟩ | ⟨h, -⟩
    · exact .inr ⟨hpc, .jump hcat ha⟩
    · exact .inl h
  | memory _ => exact (FiledFor.refl t insn s).congr rfl rfl (markIndirect_xrefManager _ _ _)
  | register _ => exact (FiledFor.refl t insn s).congr rfl rfl (markIndirect_xrefManager _ _ _)
  | pointer => exact (FiledFor.refl t insn s).congr rfl rfl rfl
  | unused => exact (FiledFor.refl t insn s).congr rfl rfl rfl

end

/-! ## A stretch of the analysis -/

/-- From `s` to `s'` everything that is enqueued or filed comes from a newly visited instruction. -/
structure Sourced (t : Target) (s s' : AnalyzeState) : Prop where
  visited : s.visited ⊆ s'.visited
  queue : ∀ a ∈ s'.functionWork, a ∈ s.functionWork ∨ ∃ v, Newly s s' v ∧ Transfer t v a
  sites : ∀ c d, addrPair c d ∈ s'.function.callSites → addrPair c d ∈ s.function.callSites ∨
    (Newly s s' c ∧ ∃ i, t.disassemble c = some i ∧ i.Site d)
  xrefs : ∀ x ∈ s'.module.xrefManager.all, x ∈ s.module.xrefManager.all ∨
    (Newly s s' x.src ∧ ∃ i, t.disassemble x.src = some i ∧ i.Files t x.dst x.type)

namespace Sourced

variable {t : Target} {s s' s'' : AnalyzeState}

theorem refl (t : Target) (s : AnalyzeState) : Sourced t s s :=
  ⟨Finset.Subset.refl _, fun _ h => .inl h, fun _ _ h => .inl h, fun _ h => .inl h⟩

theorem trans (h : Sourced t s s') (h' : Sourced t s' s'') : Sourced t s s'' := by
  have hfirst : ∀ {a}, Newly s s' a → Newly s s'' a := fun ha => ⟨h'.visited ha.1, ha.2⟩
  have hlater : ∀ {a}, Newly s' s'' a → Newly s s'' a := fun ha =>
    ⟨ha.1, fun hs => ha.2 (h.visited hs)⟩
  refine ⟨h.visited.trans h'.visited, fun a ha => ?_, fun c d hc => ?_, fun x hx => ?_⟩
  · rcases h'.queue a ha with ha | ⟨v, hv, hf⟩
    · exact (h.queue a ha).imp_right fun ⟨v, hv, hf⟩ => ⟨v, hfirst hv, hf⟩
    · exact .inr ⟨v, hlater hv, hf⟩
  · rcases h'.sites c d hc with hc | ⟨hv, hi⟩
    · exact (h.sites c d hc).imp_right fun ⟨hv, hi⟩ => ⟨hfirst hv, hi⟩
    · exact .inr ⟨hlater hv, hi⟩
  · rcases h'.xrefs x hx with hx | ⟨hv, hi⟩
    · exact (h.xrefs x hx).imp_right fun ⟨hv, hi⟩ => ⟨hfirst hv, hi⟩
    · exact .inr ⟨hlater hv, hi⟩

/-- Neither the blocks nor the work list matter. -/
theorem congr (h : Sourced t s s') (hc : s''.context = s'.context)
    (hq : s''.functionWork = s'.functionWork)
    (hcs : s''.function.callSites = s'.function.callSites) : Sourced t s s'' := by
  have hv : s''.visited = s'.visited := congrArg AnalysisContext.visited hc
  have hm : s''.module = s'.module := congrArg AnalysisContext.module hc
  have hnew : Newly s s'' = Newly s s' := by
    unfold Newly
    rw [hv]
  refine ⟨hv ▸ h.visited, ?_, ?_, ?_⟩
  · rw [hq, hnew]
    exact h.queue
  · rw [hcs, hnew]
    exact h.sites
  · rw [hm, hnew]
    exact h.xrefs

theorem addBasicBlock (h : Sourced t s s') : Sourced t s s'.addBasicBlock := by
  unfold AnalyzeState.addBasicBlock
  cases s'.bb with
  | none => exact h
  | some b => exact h.congr rfl rfl rfl

/-- A pass that decodes `insn` visits `pc`, and what it adds is filed for `insn`. -/
theorem of_filedFor {insn : ExtendedInstruction} (h : FiledFor t insn s s')
    (hd : t.disassemble s.pc = some insn) (hpc : s.pc ∉ s.visited)
    (hv : s'.visited = insert s.pc s.visited) : Sourced t s s' := by
  have hnew : Newly s s' s.pc := ⟨by simp [hv], hpc⟩
  refine ⟨by simp [hv], fun a ha => ?_, fun c d hc => ?_, fun x hx => ?_⟩
  · exact (h.queue a ha).imp_right fun ⟨hcat, ht⟩ => ⟨s.pc, hnew, hd, hcat, ht⟩
  · rcases h.sites c d hc with hc | ⟨rfl, hi⟩
    · exact .inl hc
    · exact .inr ⟨hnew, insn, hd, hi⟩
  · rcases h.xrefs x hx with hx | ⟨hsrc, hi⟩
    · exact .inl hx
    · rw [hsrc]
      exact .inr ⟨hnew, insn, hd, hi⟩

end Sourced

section

variable {t : Target} {s s' : AnalyzeState}

/-- What is filed after the instruction was recorded is filed for it. -/
theorem FiledFor.of_recorded {insn : ExtendedInstruction} {s₂ : AnalyzeState}
    (h : FiledFor t insn (s.recorded insn) s₂) (hq : s'.functionWork = s₂.functionWork)
    (hc : s'.function.callSites = s₂.function.callSites)
    (hx : s'.module.xrefManager = s₂.module.xrefManager) : FiledFor t insn s s' :=
  (h.congr hq hc hx).congr_left rfl rfl (addInstruction_xrefManager s.module insn) rfl

theorem decodeInsn_filedFor {insn : ExtendedInstruction} (hd : t.disassemble s.pc = some insn)
    (hn : decodeInsn t insn s = .next s' ∨ decodeInsn t insn s = .done s') :
    FiledFor t insn s s' := by
  obtain ⟨haddr, -, h0, -⟩ := Target.disassemble_eq_some hd
  obtain ⟨inserted, -, hout | hout⟩ := decodeInsn_result hn
  · cases hout with
    | call hcat =>
      exact (handleCall_filedFor t insn inserted _ (s.recorded insn) hcat h0).of_recorded rfl rfl rfl
    | condBr hcat =>
      have h := handleBranch_filedFor t insn inserted s.currentBlock (s.recorded insn) (.inl hcat) h0
      exact h.of_recorded rfl rfl rfl
    | other => exact (FiledFor.refl t insn (s.recorded insn)).of_recorded rfl rfl rfl
  · cases hout with
    | trampoline _ hcat =>
      have h := handleTrampoline_filedFor t insn inserted s.currentBlock (s.enter insn) hcat haddr
      exact FiledFor.congr_left (r := s) (h.congr rfl rfl rfl) rfl rfl
        (addInstruction_xrefManager s.module insn) rfl
    | uncondBr hcat =>
      have h := handleBranch_filedFor t insn inserted s.currentBlock (s.recorded insn) (.inr hcat) h0
      exact h.of_recorded rfl rfl rfl
    | ret => exact (FiledFor.refl t insn (s.recorded insn)).of_recorded rfl rfl rfl

theorem decodeStep_sourced (hn : decodeStep t s = .next s' ∨ decodeStep t s = .done s') :
    Sourced t s s' := by
  rcases decodeStep_result hn with ⟨rfl, -⟩ | ⟨-, bb, last, -, rfl⟩ | ⟨hv, hm, insn, hd, hdec, -⟩
  · exact .refl t _
  · exact (Sourced.refl t s).congr rfl rfl rfl
  · rw [decodeStep_eq_decodeInsn hv hm hd] at hn
    obtain ⟨haddr, -⟩ := Target.disassemble_eq_some hd
    exact .of_filedFor (decodeInsn_filedFor hd hn) hd hv (haddr ▸ hdec.visited)

end

/-- **What a call of `AnalyzeFunction` enqueues and files** comes from the instructions that it
visits. -/
theorem analyzeFunction_sourced (t : Target) (ctx : AnalysisContext) (f : Function) (start : Nat)
    (queue : List Nat) :
    Sourced t (analyzeInit ctx f start queue) (analyzeFunction t ctx f start queue) := by
  have hinv := analysis_inv (t := t) (I := Sourced t (analyzeInit ctx f start queue)) rfl (.refl t _)
    (fun s rest pc h _ => h.congr rfl rfl rfl)
    (fun s s' _ h hn => h.trans (decodeStep_sourced (.inl hn)))
    (fun s s' _ h hn => (h.trans (decodeStep_sourced (.inr hn))).addBasicBlock)
  exact (hinv.1 _ (analyzeBlocks_reached t ctx f start queue)).1.congr rfl rfl rfl

/-! ## Roots -/

/-- Control leads to the address from a root, through visited instructions. -/
inductive Leads (t : Target) (root : Nat → Prop) (visited : Finset Nat) : Nat → Prop
  | root {a : Nat} : root a → Leads t root visited a
  | flow {v a : Nat} : Leads t root visited v → v ∈ visited → Flow t v a → Leads t root visited a
  | refers {v a : Nat} : Leads t root visited v → v ∈ visited → Refers t v a →
      Leads t root visited a

/-- The address is a root, or a visited instruction refers to it. -/
def Rooted (t : Target) (root : Nat → Prop) (visited : Finset Nat) (a : Nat) : Prop :=
  root a ∨ ∃ v ∈ visited, Refers t v a

theorem Leads.mono {t : Target} {root : Nat → Prop} {visited visited' : Finset Nat}
    (h : visited ⊆ visited') {a : Nat} (ha : Leads t root visited a) : Leads t root visited' a := by
  induction ha with
  | root hr => exact .root hr
  | flow _ hv hf ih => exact .flow ih (h hv) hf
  | refers _ hv hf ih => exact .refers ih (h hv) hf

theorem Rooted.mono {t : Target} {root : Nat → Prop} {visited visited' : Finset Nat}
    (h : visited ⊆ visited') {a : Nat} (ha : Rooted t root visited a) : Rooted t root visited' a :=
  ha.imp_right fun ⟨v, hv, hf⟩ => ⟨v, h hv, hf⟩

theorem Onward.flow_or_transfer {t : Target} {m : Module} {start v a : Nat}
    (h : Onward t m start v a) : Flow t v a ∨ Transfer t v a := by
  cases h with
  | fallThrough hd hjump hret => exact .inl (.fallThrough hd hjump hret)
  | condTarget hd hcat ha _ => exact .inl (.condTarget hd hcat ha)
  | jumpTarget hd _ hcat ha _ _ => exact .inr ⟨hd, .inr hcat, ha⟩

/-- Everything that is visited, starts a function or is still in the queue leads from a root. -/
structure Founded (t : Target) (root : Nat → Prop) (s : ExploreState) : Prop where
  visited : ∀ a ∈ s.context.visited, Leads t root s.context.visited a
  starts : ∀ f ∈ s.context.module.functions, Rooted t root s.context.visited f.startAddress
  queue : ∀ a ∈ s.functionWork, Rooted t root s.context.visited a

namespace Founded

variable {t : Target} {root : Nat → Prop} {s : ExploreState}

theorem leads (h : Founded t root s) {a : Nat} (ha : Rooted t root s.context.visited a) :
    Leads t root s.context.visited a := by
  rcases ha with hr | ⟨v, hv, hf⟩
  · exact .root hr
  · exact .refers (h.visited v hv) hv hf

theorem requeue (h : Founded t root s) {queue : List Nat}
    (hq : ∀ a ∈ queue, Rooted t root s.context.visited a) :
    Founded t root { s with functionWork := queue } := ⟨h.visited, h.starts, hq⟩

/-- What is taken into a function at an address that leads from a root does, too. -/
theorem taken (h : Founded t root s) {pc : Nat} {visited : Finset Nat}
    (hv : ∀ a, a ∈ visited ↔ a ∈ s.context.visited ∨ Taken t s.context pc a)
    (hpc : Rooted t root s.context.visited pc) {a : Nat} (ha : Taken t s.context pc a) :
    Leads t root visited a := by
  induction ha with
  | start => exact (h.leads hpc).mono fun b hb => (hv b).mpr (.inl hb)
  | @onward v u htaken honward _ _ ih =>
    have hvis : v ∈ visited := (hv v).mpr (.inr htaken)
    exact honward.flow_or_transfer.elim (.flow ih hvis) fun hf => .refers ih hvis (.transfer hf)

/-- **One discovery.** -/
theorem discoverFunction (h : Founded t root s) (mark : AnalyzeState → Bool) {pc : Nat}
    {rest : List Nat} (hq : s.functionWork = pc :: rest) :
    Founded t root (ReWizard.discoverFunction t mark pc { s with functionWork := rest }) := by
  have hpc : Rooted t root s.context.visited pc := h.queue pc (by simp [hq])
  have hsrc := analyzeFunction_sourced t s.context (newFunction pc) pc rest
  have hvis := analyzeFunction_visited t s.context (newFunction pc) pc rest
  have hsub : s.context.visited ⊆ (analyzeFunction t s.context (newFunction pc) pc rest).visited :=
    hsrc.visited
  refine ⟨fun a ha => ?_, fun f hf => ?_, fun a ha => ?_⟩
  · rcases (hvis a).mp ha with hold | htaken
    · exact (h.visited a hold).mono hsub
    · exact h.taken hvis hpc htaken
  · rw [discoverFunction_functions] at hf
    rcases List.mem_append.mp hf with hf | hf
    · exact (h.starts f hf).mono hsub
    · rw [List.mem_singleton.mp hf, discovered_start]
      exact hpc.mono hsub
  · have hcs : (discovered t mark pc { s with functionWork := rest }).callSites =
        (analyzeFunction t s.context (newFunction pc) pc rest).function.callSites :=
      discovered_callSites t mark pc { s with functionWork := rest }
    rcases mem_enqueueCallTargets ha with ha | ⟨hfresh, c, hc⟩
    · rcases hsrc.queue a ha with ha | ⟨v, hv, hf⟩
      · exact (h.queue a (hq ▸ List.mem_cons_of_mem pc ha)).mono hsub
      · exact .inr ⟨v, hv.1, .transfer hf⟩
    · have hc : addrPair c a ∈
          (discovered t mark pc { s with functionWork := rest }).callSites := hc
      rw [hcs] at hc
      rcases hsrc.sites c a hc with hc | ⟨hv, i, hd, hsite⟩
      · cases hc
      · exact .inr ⟨c, hv.1, hsite.refers hd hfresh.resolved⟩

/-- A pass of a loop over functions. -/
theorem pass {filter : Nat → Prop} {mark : AnalyzeState → Bool}
    {body : ExploreState → Loop.Out ExploreState} (hl : DiscoveryLoop t filter mark body)
    {s' : ExploreState} (h : Founded t root s) (hn : body s = .next s') : Founded t root s' := by
  obtain ⟨pc, rest, hq, ⟨-, rfl⟩ | ⟨-, rfl⟩⟩ := hl.next hn
  · exact h.requeue fun a ha => h.queue a (hq ▸ List.mem_cons_of_mem pc ha)
  · exact h.discoverFunction mark hq

/-- A loop over functions, which empties the queue. -/
theorem loop {filter : Nat → Prop} {mark : AnalyzeState → Bool}
    {body : ExploreState → Loop.Out ExploreState} (hl : DiscoveryLoop t filter mark body)
    (h : Founded t root s) : Founded t root (Loop.exec body (exploreFuel t s) s) := by
  obtain ⟨r, hr, hd⟩ := (hl.exits s).inv h fun u u' hu hn => hu.pass hl hn
  rw [(hl.done hd).1]
  exact hr

end Founded

/-! ## Calls -/

/-- Where the calls start from in a module with the given symbols: the entry points, the addresses
they are given, and the prologues that the sweep finds. -/
inductive CallRoot (t : Target) (symbolTable : SymbolTable) (calls : List RebuilderCall) :
    Nat → Prop
  | entry {a : Nat} : FirstEntry t symbolTable a → CallRoot t symbolTable calls a
  | given {a : Nat} : .reAnalyzeFrom a ∈ calls → CallRoot t symbolTable calls a
  | prologue {a : Nat} : t.Prologue a → CallRoot t symbolTable calls a

section

variable {t : Target} {symbolTable : SymbolTable} {calls : List RebuilderCall}

theorem start_root {call : RebuilderCall} {ctx : AnalysisContext} {s : ExploreState}
    (hcall : call ∈ calls) (hsym : ctx.module.symbolTable = symbolTable)
    (h : call.start t ctx = some s) : ∀ a ∈ s.functionWork, CallRoot t symbolTable calls a := by
  have hqueue : ∀ start, ∀ a ∈ RebuilderCall.queue t ctx start,
      FirstEntry t symbolTable a ∨ (a = start ∧ start ≠ 0) := by
    intro start a ha
    unfold RebuilderCall.queue at ha
    split at ha
    · left
      unfold FirstEntry collectEntryPoints freshContext
      rw [← hsym]
      exact ha
    · split at ha
      · rename_i h0
        exact .inr ⟨List.mem_singleton.mp ha, h0⟩
      · cases ha
  cases call with
  | run =>
    cases h
    intro a ha
    rcases hqueue 0 a ha with ha | ha
    · exact .entry ha
    · exact absurd rfl ha.2
  | reAnalyzeFrom start =>
    simp only [RebuilderCall.start] at h
    split at h
    · cases h
    · cases h
      intro a ha
      rcases hqueue start a ha with ha | ⟨rfl, -⟩
      · exact .entry ha
      · exact .given hcall

theorem apply_symbolTable (t : Target) (call : RebuilderCall) (ctx : AnalysisContext) :
    (call.apply t ctx).module.symbolTable = ctx.module.symbolTable :=
  RebuilderCall.takesUp_inv (I := fun c => c.module.symbolTable = ctx.module.symbolTable) rfl
    fun _ s pc rest _ hs =>
      ((analyzeBlocks_progress (t := t) s.context (newFunction pc) pc rest).1.symbolTable).trans hs

/-- **One call.** -/
theorem RebuilderCall.founded {call : RebuilderCall} {ctx : AnalysisContext} (hcall : call ∈ calls)
    (hsym : ctx.module.symbolTable = symbolTable)
    (h : Founded t (CallRoot t symbolTable calls) ⟨ctx, []⟩) :
    Founded t (CallRoot t symbolTable calls) ⟨call.apply t ctx, []⟩ := by
  rw [call.apply_eq]
  cases hs : call.start t ctx with
  | none => exact h
  | some s =>
    have h₀ : Founded t (CallRoot t symbolTable calls) s := by
      have hctx := RebuilderCall.start_context hs
      subst hctx
      exact h.requeue fun a ha => .inl (start_root hcall hsym hs a ha)
    have h₁ := h₀.loop (exploreStep_loop t false)
    have h₂ : Founded t (CallRoot t symbolTable calls) (swept t (descended t false s)) :=
      h₁.requeue fun a ha => (swept_prologue ha).elim (h₁.queue a) fun ha => .inl (.prologue ha)
    exact (h₂.loop (drainStep_loop t)).requeue fun a ha => by cases ha

end

/-- **Where the instructions and functions come from.** After any calls, every visited address and
the start of every function leads from a root through visited instructions. -/
theorem calls_founded (t : Target) (symbolTable : SymbolTable) (calls : List RebuilderCall) :
    let ctx := calls.foldl (fun ctx call => call.apply t ctx) (freshContext symbolTable)
    let root := CallRoot t symbolTable calls
    (∀ a ∈ ctx.visited, Leads t root ctx.visited a) ∧
      ∀ f ∈ ctx.module.functions, Rooted t root ctx.visited f.startAddress := by
  have hrun : ∀ (later : List RebuilderCall) (ctx : AnalysisContext), later ⊆ calls →
      ctx.module.symbolTable = symbolTable →
      Founded t (CallRoot t symbolTable calls) ⟨ctx, []⟩ →
      Founded t (CallRoot t symbolTable calls)
        ⟨later.foldl (fun ctx call => call.apply t ctx) ctx, []⟩ := by
    intro later
    induction later with
    | nil => exact fun ctx _ _ h => h
    | cons call later ih =>
      intro ctx hsub hsym h
      exact ih _ (fun c hc => hsub (List.mem_cons_of_mem call hc))
        ((apply_symbolTable t call ctx).trans hsym)
        (RebuilderCall.founded (hsub List.mem_cons_self) hsym h)
  have h := hrun calls (freshContext symbolTable) (List.Subset.refl _) rfl
    ⟨fun a ha => absurd ha (Finset.notMem_empty a), fun f hf => absurd hf List.not_mem_nil,
      fun a ha => absurd ha List.not_mem_nil⟩
  exact ⟨h.visited, h.starts⟩

/-! ## What is filed -/

/-- Every cross-reference and every call site has a visited instruction that refers to its target. -/
structure WellFiled (t : Target) (ctx : AnalysisContext) : Prop where
  xrefs : ∀ x ∈ ctx.module.xrefManager.all, x.src ∈ ctx.visited ∧
    ∃ i, t.disassemble x.src = some i ∧ i.Files t x.dst x.type
  sites : ∀ f ∈ ctx.module.functions, ∀ c d, addrPair c d ∈ f.callSites → c ∈ ctx.visited ∧
    ∃ i, t.disassemble c = some i ∧ i.Site d

theorem WellFiled.discoverFunction {t : Target} {s : ExploreState} (h : WellFiled t s.context)
    (mark : AnalyzeState → Bool) (pc : Nat) :
    WellFiled t (ReWizard.discoverFunction t mark pc s).context := by
  have hsrc := analyzeFunction_sourced t s.context (newFunction pc) pc s.functionWork
  refine ⟨fun x hx => ?_, fun f hf c d hc => ?_⟩
  · rcases hsrc.xrefs x hx with hx | ⟨hv, hi⟩
    · exact (h.xrefs x hx).imp_left fun hv => hsrc.visited hv
    · exact ⟨hv.1, hi⟩
  · rw [discoverFunction_functions] at hf
    rcases List.mem_append.mp hf with hf | hf
    · exact (h.sites f hf c d hc).imp_left fun hv => hsrc.visited hv
    · rw [List.mem_singleton.mp hf, discovered_callSites] at hc
      rcases hsrc.sites c d hc with hc | ⟨hv, hi⟩
      · cases hc
      · exact ⟨hv.1, hi⟩

/-- **No cross-reference and no call site is made up**, whatever calls there were. -/
theorem calls_filed (t : Target) (symbolTable : SymbolTable) (calls : List RebuilderCall) :
    WellFiled t
      (calls.foldl (fun ctx call => call.apply t ctx) (freshContext symbolTable)) := by
  have hrun : ∀ (later : List RebuilderCall) (ctx : AnalysisContext), WellFiled t ctx →
      WellFiled t (later.foldl (fun ctx call => call.apply t ctx) ctx) := by
    intro later
    induction later with
    | nil => exact fun ctx h => h
    | cons call later ih =>
      intro ctx h
      exact ih _ (RebuilderCall.takesUp_inv h fun mark s pc rest _ hs =>
        hs.discoverFunction (s := { s with functionWork := rest }) mark pc)
  exact hrun calls (freshContext symbolTable)
    ⟨fun x hx => absurd hx List.not_mem_nil, fun f hf => absurd hf List.not_mem_nil⟩

end ReWizard
