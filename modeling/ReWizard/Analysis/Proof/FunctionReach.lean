import ReWizard.Analysis.Proof.Filing

/-!
# What a call of `AnalyzeFunction` visits

A call visits the code that it reaches from the start: it falls through, follows direct conditional
branches, and follows a direct jump behind the first instruction unless a function is known there.
It stops at addresses visited before, outside the mapping or without an instruction.

* `Taken`: the addresses so reached;
* `TakenInv`: what is visited is reached, and what is reached and not visited is still to be done;
* `analyzeFunction_visited`: a call visits exactly the addresses `Taken` from its start;
* `analyzeFunction_queue`: what it enqueues lies in the code;
* `analyzeFunction_blocks`: it leaves a function without blocks when it visits nothing, that is,
  when there is no instruction at the start.
-/

namespace ReWizard

/-- There is an instruction at the address, and it is mapped. -/
def Target.Decodes (t : Target) (a : Nat) : Prop := t.Mapped a ∧ (t.disassemble a).isSome = true

instance (t : Target) (a : Nat) : Decidable (t.Mapped a) := inferInstanceAs (Decidable (_ ∧ _))

instance (t : Target) (a : Nat) : Decidable (t.Decodes a) := inferInstanceAs (Decidable (_ ∧ _))

/-- In a function at `start`, the analysis goes on from the instruction at `v` to `u`. -/
inductive Onward (t : Target) (m : Module) (start v : Nat) : Nat → Prop
  | fallThrough {i : ExtendedInstruction} : t.disassemble v = some i →
      i.instruction.category ≠ .uncondBr → i.instruction.category ≠ .ret →
      Onward t m start v i.next
  | condTarget {i : ExtendedInstruction} {u : Nat} : t.disassemble v = some i →
      i.instruction.category = .condBr → i.directTarget = some u → t.InCode u →
      Onward t m start v u
  | jumpTarget {i : ExtendedInstruction} {u : Nat} : t.disassemble v = some i → v ≠ start →
      i.instruction.category = .uncondBr → i.directTarget = some u → t.InCode u →
      m.getFunctionForAddress u = none → Onward t m start v u

/-- The instructions that the analysis of a function at `start` reaches before it meets what was
visited before. -/
inductive Taken (t : Target) (ctx : AnalysisContext) (start : Nat) : Nat → Prop
  | start : start ∉ ctx.visited → t.Decodes start → Taken t ctx start start
  | onward {v u : Nat} : Taken t ctx start v → Onward t ctx.module start v u → u ∉ ctx.visited →
      t.Decodes u → Taken t ctx start u

/-- The start, or an address that the analysis goes on to. -/
def Candidate (t : Target) (ctx : AnalysisContext) (start u : Nat) : Prop :=
  u = start ∨ ∃ v, Taken t ctx start v ∧ Onward t ctx.module start v u

theorem Taken.unvisited {t : Target} {ctx : AnalysisContext} {start a : Nat}
    (h : Taken t ctx start a) : a ∉ ctx.visited := by
  cases h with
  | start hv _ => exact hv
  | onward _ _ hv _ => exact hv

theorem Candidate.taken {t : Target} {ctx : AnalysisContext} {start u : Nat}
    (h : Candidate t ctx start u) (hv : u ∉ ctx.visited) (hd : t.Decodes u) :
    Taken t ctx start u := by
  rcases h with rfl | ⟨v, ht, ho⟩
  · exact .start hv hd
  · exact .onward ht ho hv hd

/-! ## The targets that handling adds to the work list -/

theorem Module.getFunctionForAddress_congr {m m' : Module} (hf : m'.functions = m.functions)
    (hs : m'.functionByStart = m.functionByStart) (a : Nat) :
    m'.getFunctionForAddress a = m.getFunctionForAddress a := by
  unfold Module.getFunctionForAddress
  rw [hs, hf]

section

variable (t : Target) (insn : ExtendedInstruction) (inserted : Bool) (bb : BasicBlock)
  (s : AnalyzeState)

theorem handleCall_work : (handleCall t insn inserted bb s).work = s.work := by
  have hout := handleCall_out t insn inserted bb s
  generalize handleCall t insn inserted bb s = s' at hout ⊢
  cases hout with
  | enqueued => rfl
  | recorded => rfl
  | indirect => rfl

/-- A branch adds its direct target: to be decoded next unless it was visited, or it is the target
of a jump to a known function. -/
theorem branchTarget_work :
    (∀ u ∈ (branchTarget t insn inserted bb s).1.work, u ∈ s.work ∨
      (insn.directTarget = some u ∧ t.InCode u ∧
        (insn.instruction.category = .uncondBr → s.module.getFunctionForAddress u = none))) ∧
    ∀ u, insn.directTarget = some u → t.InCode u →
      (insn.instruction.category = .uncondBr → s.module.getFunctionForAddress u = none) →
      u ∈ s.visited ∨ u ∈ (branchTarget t insn inserted bb s).1.work := by
  have hout := branchTarget_out t insn inserted bb s
  generalize branchTarget t insn inserted bb s = r at hout ⊢
  cases hout with
  | outside houtside => exact ⟨fun u hw => .inl hw, fun u hu hc => absurd hc (houtside u hu)⟩
  | known target htarget _ _ hcat hknown =>
    refine ⟨fun u hw => .inl hw, fun u hu _ hnone => ?_⟩
    cases htarget.symm.trans hu
    rw [hnone hcat] at hknown
    cases hknown
  | enqueued target htarget _ hcode _ hunknown =>
    refine ⟨fun u hw => (List.mem_append.mp hw).imp_right fun hw => ?_, fun u hu _ _ => ?_⟩
    · rw [List.mem_singleton.mp hw]
      exact ⟨htarget, hcode, fun _ => hunknown⟩
    · cases htarget.symm.trans hu
      exact .inr (List.mem_append_right _ List.mem_cons_self)
  | visited target htarget _ _ hvisited =>
    refine ⟨fun u hw => .inl hw, fun u hu _ _ => ?_⟩
    cases htarget.symm.trans hu
    exact .inl hvisited
  | branch target htarget _ hcode hcat =>
    by_cases hv : target ∈ s.visited
    · rw [if_neg (not_not_intro hv)]
      refine ⟨fun u hw => .inl hw, fun u hu _ _ => ?_⟩
      cases htarget.symm.trans hu
      exact .inl hv
    · rw [if_pos hv]
      refine ⟨fun u hw => (List.mem_append.mp hw).imp_right fun hw => ?_, fun u hu _ _ => ?_⟩
      · rw [List.mem_singleton.mp hw]
        exact ⟨htarget, hcode, fun h => absurd h hcat⟩
      · cases htarget.symm.trans hu
        exact .inr (List.mem_append_right _ List.mem_cons_self)
  | indirect htarget => exact ⟨fun u hw => .inl hw, fun u hu => by cases htarget.symm.trans hu⟩

theorem handleBranch_work :
    (handleBranch t insn inserted bb s).work = (branchTarget t insn inserted bb s).1.work := by
  obtain ⟨s', b, -, -, hw, -, -, -, -, heq⟩ := handleBranch_eq t insn inserted bb s
  rw [heq]
  exact hw

end

section

variable {t : Target} {insn : ExtendedInstruction} {s s' : AnalyzeState}

/-- The address is one that the instruction at `pc` adds to the work list unless it was visited. -/
structure Enqueues (t : Target) (insn : ExtendedInstruction) (s : AnalyzeState) (u : Nat) : Prop where
  target : insn.directTarget = some u
  inCode : t.InCode u
  branch : insn.instruction.category = .condBr ∨ (insn.instruction.category = .uncondBr ∧
    s.localInsnCount ≠ 0 ∧ s.module.getFunctionForAddress u = none)

/-- An instruction that adds nothing. -/
theorem enqueues_none (hw : s'.work = s.work)
    (hc : insn.instruction.category ≠ .condBr)
    (hu : insn.instruction.category = .uncondBr → s.localInsnCount = 0) :
    (∀ u ∈ s'.work, u ∈ s.work ∨ Enqueues t insn s u) ∧
      ∀ u, Enqueues t insn s u → u ∈ s'.visited ∨ u ∈ s'.work := by
  refine ⟨fun u h => .inl (hw ▸ h), fun u h => ?_⟩
  rcases h.branch with h | ⟨h, h0, -⟩
  · exact absurd h hc
  · exact absurd (hu h) h0

/-- A jump or branch adds its target as `branchTarget` does. -/
theorem handleBranch_enqueues (inserted : Bool)
    (hcat : insn.instruction.category = .condBr ∨
      (insn.instruction.category = .uncondBr ∧ s.localInsnCount ≠ 0)) :
    (∀ u ∈ (handleBranch t insn inserted s.currentBlock (s.recorded insn)).work,
      u ∈ s.work ∨ Enqueues t insn s u) ∧
    ∀ u, Enqueues t insn s u →
      u ∈ (handleBranch t insn inserted s.currentBlock (s.recorded insn)).visited ∨
        u ∈ (handleBranch t insn inserted s.currentBlock (s.recorded insn)).work := by
  have hlook : ∀ u, (s.recorded insn).module.getFunctionForAddress u =
      s.module.getFunctionForAddress u :=
    Module.getFunctionForAddress_congr (addInstruction_functions _ _)
      (addInstruction_functionByStart _ _)
  obtain ⟨hw1, hw2⟩ := branchTarget_work t insn inserted s.currentBlock (s.recorded insn)
  have hvis := (handleBranch_handled t insn inserted s.currentBlock (s.recorded insn)).visited
  rw [handleBranch_work, hvis]
  refine ⟨fun u hu => (hw1 u hu).imp id fun ⟨ht, hc, hk⟩ => ⟨ht, hc, hcat.imp id fun huc =>
    ⟨huc.1, huc.2, hlook u ▸ hk huc.1⟩⟩, fun u hu => hw2 u hu.target hu.inCode fun huc => ?_⟩
  rw [hlook]
  rcases hu.branch with hb | hb
  · rw [hb] at huc
    cases huc
  · exact hb.2.2

theorem decodeInsn_work (h : decodeInsn t insn s = .next s' ∨ decodeInsn t insn s = .done s') :
    (∀ u ∈ s'.work, u ∈ s.work ∨ Enqueues t insn s u) ∧
      ∀ u, Enqueues t insn s u → u ∈ s'.visited ∨ u ∈ s'.work := by
  obtain ⟨inserted, -, hout | hout⟩ := decodeInsn_result h
  · cases hout with
    | call hcat =>
      exact enqueues_none (handleCall_work t insn inserted _ _) (by simp [hcat]) (by simp [hcat])
    | condBr hcat => exact handleBranch_enqueues inserted (.inl hcat)
    | other hcat => exact enqueues_none rfl (by simp [hcat]) (by simp [hcat])
  · cases hout with
    | trampoline hfirst hcat =>
      exact enqueues_none (handleTrampoline_work t insn inserted _ _) (by simp [hcat])
        fun _ => hfirst
    | uncondBr hcat hlater => exact handleBranch_enqueues inserted (.inr ⟨hcat, hlater⟩)
    | ret hcat => exact enqueues_none rfl (by simp [hcat]) (by simp [hcat])

end

/-! ## The invariant of the loops -/

/-- What is visited since the call began is taken, and so is what it leads to, once it is visited;
`pending` is the address that is about to be decoded. The first instruction is the start. -/
structure TakenInv (t : Target) (ctx : AnalysisContext) (start : Nat) (s : AnalyzeState)
    (pending : Nat → Prop) : Prop where
  functions : s.module.functions = ctx.module.functions
  functionByStart : s.module.functionByStart = ctx.module.functionByStart
  old : ctx.visited ⊆ s.visited
  taken : ∀ a ∈ s.visited, a ∈ ctx.visited ∨ Taken t ctx start a
  candidate : ∀ u, u ∈ s.work ∨ pending u → Candidate t ctx start u
  first : s.localInsnCount = 0 → ∀ u, u ∈ s.work ∨ pending u → u = start
  counted : s.localInsnCount ≠ 0 → start ∈ s.visited
  found : ∀ u, (u = start ∨
      ∃ v, v ∈ s.visited ∧ v ∉ ctx.visited ∧ Onward t ctx.module start v u) →
    u ∈ s.visited ∨ u ∈ s.work ∨ pending u ∨ ¬ t.Decodes u

namespace TakenInv

variable {t : Target} {ctx : AnalysisContext} {start : Nat} {s s' : AnalyzeState}
  {P Q : Nat → Prop}

/-- Addresses that are pending may be dealt with in another way. -/
theorem congr (h : TakenInv t ctx start s P) (hc : s'.context = s.context)
    (hn : s'.localInsnCount = s.localInsnCount)
    (hsub : ∀ u, u ∈ s'.work ∨ Q u → u ∈ s.work ∨ P u)
    (hP : ∀ u, u ∈ s.work ∨ P u → u ∈ s'.visited ∨ u ∈ s'.work ∨ Q u ∨ ¬ t.Decodes u) :
    TakenInv t ctx start s' Q := by
  have hv : s'.visited = s.visited := congrArg AnalysisContext.visited hc
  have hm : s'.module = s.module := congrArg AnalysisContext.module hc
  refine
    { functions := hm ▸ h.functions, functionByStart := hm ▸ h.functionByStart
      old := hv ▸ h.old, taken := hv ▸ h.taken
      candidate := fun u hu => h.candidate u (hsub u hu)
      first := fun h0 u hu => h.first (hn ▸ h0) u (hsub u hu)
      counted := fun h0 => hv ▸ h.counted (hn ▸ h0), found := fun u hu => ?_ }
  rw [hv] at hu
  rcases h.found u hu with hu | hu | hu | hu
  · exact .inl (hv ▸ hu)
  · exact hP u (.inl hu)
  · exact hP u (.inr hu)
  · exact .inr (.inr (.inr hu))

/-- The first instruction is the start, and every later one is another. -/
theorem first_iff (h : TakenInv t ctx start s (· = s.pc)) (hpc : s.pc ∉ s.visited) :
    s.localInsnCount = 0 ↔ s.pc = start := by
  refine ⟨fun h0 => h.first h0 s.pc (.inr rfl), fun heq => ?_⟩
  by_contra h0
  exact hpc (heq ▸ h.counted h0)

/-- What the instruction leads to is put on the work list, or it is the address after it. -/
theorem onward_iff {insn : ExtendedInstruction} (h : TakenInv t ctx start s (· = s.pc))
    (hpc : s.pc ∉ s.visited) (hd : t.disassemble s.pc = some insn) (u : Nat) :
    Onward t ctx.module start s.pc u ↔
      Enqueues t insn s u ∨ (u = insn.next ∧ insn.instruction.category ≠ .uncondBr ∧
        insn.instruction.category ≠ .ret) := by
  have hlook := Module.getFunctionForAddress_congr h.functions h.functionByStart u
  have hfirst := not_congr (h.first_iff hpc)
  constructor
  · intro ho
    cases ho with
    | fallThrough hd' h1 h2 =>
      cases hd.symm.trans hd'
      exact .inr ⟨rfl, h1, h2⟩
    | condTarget hd' hc htarget hcode =>
      cases hd.symm.trans hd'
      exact .inl ⟨htarget, hcode, .inl hc⟩
    | jumpTarget hd' hne hc htarget hcode hk =>
      cases hd.symm.trans hd'
      exact .inl ⟨htarget, hcode, .inr ⟨hc, hfirst.mpr hne, hlook.trans hk⟩⟩
  · rintro (⟨htarget, hcode, hc | ⟨hu, h0, hk⟩⟩ | ⟨rfl, h1, h2⟩)
    · exact .condTarget hd hc htarget hcode
    · exact .jumpTarget hd (hfirst.mp h0) hu htarget hcode (hlook.symm.trans hk)
    · exact .fallThrough hd h1 h2

/-- One decoded instruction, which was pending. Only the address after it is pending next, and only
if control falls through to it. -/
theorem decoded {insn : ExtendedInstruction} (h : TakenInv t ctx start s (· = s.pc))
    (hpc : s.pc ∉ s.visited) (hm : t.Mapped s.pc) (hd : t.disassemble s.pc = some insn)
    (hdec : Decoded t insn s s')
    (hwork : (∀ u ∈ s'.work, u ∈ s.work ∨ Enqueues t insn s u) ∧
      ∀ u, Enqueues t insn s u → u ∈ s'.visited ∨ u ∈ s'.work)
    (hQ : ∀ u, Q u ↔ u = insn.next ∧ insn.instruction.category ≠ .uncondBr ∧
      insn.instruction.category ≠ .ret) : TakenInv t ctx start s' Q := by
  obtain ⟨haddr, -⟩ := Target.disassemble_eq_some hd
  have hvis : s'.visited = insert s.pc s.visited := haddr ▸ hdec.visited
  have hsub : s.visited ⊆ s'.visited := hvis ▸ Finset.subset_insert _ _
  have honward : ∀ u, Onward t ctx.module start s.pc u ↔ Enqueues t insn s u ∨ Q u :=
    fun u => (h.onward_iff hpc hd u).trans (or_congr_right (hQ u).symm)
  have htaken : Taken t ctx start s.pc :=
    (h.candidate s.pc (.inr rfl)).taken (fun hold => hpc (h.old hold)) ⟨hm, by rw [hd]; rfl⟩
  refine
    { functions := hdec.functions.trans h.functions
      functionByStart := hdec.functionByStart.trans h.functionByStart
      old := h.old.trans hsub, taken := fun a ha => ?_, candidate := fun u hu => ?_
      first := fun h0 => ?_, counted := fun _ => ?_, found := fun u hu => ?_ }
  · rw [hvis] at ha
    rcases Finset.mem_insert.mp ha with rfl | ha
    · exact .inr htaken
    · exact h.taken a ha
  · rcases hu with hu | hu
    · rcases hwork.1 u hu with hu | hu
      · exact h.candidate u (.inl hu)
      · exact .inr ⟨s.pc, htaken, (honward u).mpr (.inl hu)⟩
    · exact .inr ⟨s.pc, htaken, (honward u).mpr (.inr hu)⟩
  · rw [hdec.count] at h0
    cases h0
  · by_cases h0 : s.localInsnCount = 0
    · rw [← h.first h0 s.pc (.inr rfl), hvis]
      exact Finset.mem_insert_self _ _
    · exact hsub (h.counted h0)
  · -- what was found before, and what the instruction at `pc` leads to
    have hold : (u ∈ s.visited ∨ u ∈ s.work ∨ u = s.pc ∨ ¬ t.Decodes u) →
        u ∈ s'.visited ∨ u ∈ s'.work ∨ Q u ∨ ¬ t.Decodes u := by
      rintro (hu | hu | rfl | hu)
      · exact .inl (hsub hu)
      · exact .inr (.inl (hdec.work.subset hu))
      · exact .inl (hvis ▸ Finset.mem_insert_self _ _)
      · exact .inr (.inr (.inr hu))
    rcases hu with rfl | ⟨v, hv, hvold, ho⟩
    · exact hold (h.found u (.inl rfl))
    · rw [hvis] at hv
      rcases Finset.mem_insert.mp hv with rfl | hv
      · rcases (honward u).mp ho with ho | ho
        · exact (hwork.2 u ho).imp id .inl
        · exact .inr (.inr (.inl ho))
      · exact hold (h.found u (.inr ⟨v, hv, hvold, ho⟩))

/-- A pass of the inner loop that goes on. -/
theorem decodeStep_next (h : TakenInv t ctx start s (· = s.pc))
    (hn : decodeStep t s = .next s') : TakenInv t ctx start s' (· = s'.pc) := by
  obtain ⟨hpc, hm, insn, hd, hdec, hnext⟩ := ReWizard.decodeStep_next hn
  have hinsn := hn
  rw [decodeStep_eq_decodeInsn hpc hm hd] at hinsn
  refine h.decoded hpc hm hd hdec (decodeInsn_work (.inl hinsn)) fun u => ?_
  have he : DecodeEffect t insn s (decodeInsn t insn s) := decodeInsn_effect
  rw [hinsn] at he
  rw [hnext]
  refine ⟨fun hu => ⟨hu, ?_⟩, And.left⟩
  cases he with
  | straight hcat _ _ _ _ => rcases hcat with hcat | hcat <;> simp [hcat]
  | cond hcat _ _ _ => simp [hcat]

theorem decodeStep_done (h : TakenInv t ctx start s (· = s.pc))
    (hn : decodeStep t s = .done s') : TakenInv t ctx start s' fun _ => False := by
  rcases decodeStep_cases t s with ⟨h', hstop⟩ | ⟨-, -, hnone, bb, last, -, h'⟩ |
    ⟨hpc, hm, insn, hd, he⟩
  · rw [h'] at hn
    cases hn
    refine h.congr rfl rfl (fun u hu => .inl (hu.resolve_right id)) fun u hu => ?_
    rcases hu with hu | rfl
    · exact .inr (.inl hu)
    · rcases hstop with hv | hv | ⟨hv, -⟩
      · exact .inl hv
      · exact .inr (.inr (.inr fun hdec => hv hdec.1))
      · exact .inr (.inr (.inr fun hdec => by simp [Target.Decodes, hv] at hdec))
  · rw [h'] at hn
    cases hn
    refine h.congr rfl rfl (fun u hu => .inl (hu.resolve_right id)) fun u hu => ?_
    rcases hu with hu | rfl
    · exact .inr (.inl hu)
    · exact .inr (.inr (.inr fun hdec => by simp [Target.Decodes, hnone] at hdec))
  · have hwork := hn
    rw [decodeStep_eq_decodeInsn hpc hm hd] at hwork
    rw [hn] at he
    cases he with
    | jump hcat hdec _ =>
      refine h.decoded hpc hm hd hdec (decodeInsn_work (.inr hwork)) fun u => ?_
      simp [hcat]
    | ret hcat hdec _ =>
      refine h.decoded hpc hm hd hdec (decodeInsn_work (.inr hwork)) fun u => ?_
      simp [hcat]

theorem addBasicBlock (h : TakenInv t ctx start s P) :
    TakenInv t ctx start s.addBasicBlock P := by
  unfold AnalyzeState.addBasicBlock
  cases s.bb with
  | none => exact h
  | some b =>
    refine h.congr rfl rfl (fun u hu => hu) fun u hu => ?_
    exact hu.elim (fun hu => .inr (.inl hu)) fun hu => .inr (.inr (.inl hu))

/-- The first address of the work list is about to be decoded. -/
theorem take {pc : Nat} {rest : List Nat} (h : TakenInv t ctx start s fun _ => False)
    (hwork : s.work = pc :: rest) (hc : s'.context = s.context)
    (hn : s'.localInsnCount = s.localInsnCount) (hrest : s'.work = rest) :
    TakenInv t ctx start s' (· = pc) := by
  refine h.congr hc hn (fun u hu => .inl ?_) fun u hu => ?_
  · rw [hwork]
    rcases hu with hu | rfl
    · exact List.mem_cons_of_mem _ (hrest ▸ hu)
    · exact List.mem_cons_self
  · rw [hwork] at hu
    rcases List.mem_cons.mp (hu.resolve_right id) with rfl | hu
    · exact .inr (.inr (.inl rfl))
    · exact .inr (.inl (hrest ▸ hu))

theorem decodeFrom {pc : Nat} (h : TakenInv t ctx start s (· = pc)) :
    TakenInv t ctx start (ReWizard.decodeFrom t pc s) fun _ => False := by
  have h0 : TakenInv t ctx start { s with pc := pc, bb := none } (· = pc) :=
    h.congr rfl rfl (fun u hu => hu) fun u hu =>
      hu.elim (fun hu => .inr (.inl hu)) fun hu => .inr (.inr (.inl hu))
  obtain ⟨r, hr, hd⟩ := (decode_exits t { s with pc := pc, bb := none }).inv
    (I := fun r => TakenInv t ctx start r (· = r.pc)) h0 fun r r' hr hn => hr.decodeStep_next hn
  exact (hr.decodeStep_done hd).addBasicBlock

/-- A pass of the outer loop. -/
theorem workStep (h : TakenInv t ctx start s fun _ => False)
    (hn : ReWizard.workStep t s = .next s') : TakenInv t ctx start s' fun _ => False := by
  obtain ⟨pc, rest, hw, ⟨hv, rfl⟩ | ⟨-, rfl⟩⟩ := workStep_next hn
  · refine h.congr rfl rfl (fun u hu => .inl ?_) fun u hu => ?_
    · rw [hw]
      exact List.mem_cons_of_mem _ (hu.resolve_right id)
    · rw [hw] at hu
      rcases List.mem_cons.mp (hu.resolve_right id) with rfl | hu
      · exact .inl hv
      · exact .inr (.inl hu)
  · exact TakenInv.decodeFrom (h.take hw rfl rfl rfl)

/-- When a call begins, its start is to be done. -/
theorem init (t : Target) (ctx : AnalysisContext) (f : Function) (start : Nat) (queue : List Nat) :
    TakenInv t ctx start (analyzeInit ctx f start queue) fun _ => False where
  functions := rfl
  functionByStart := rfl
  old := Finset.Subset.refl _
  taken := fun a ha => .inl ha
  candidate := fun u hu => .inl (List.mem_singleton.mp (hu.resolve_right id))
  first := fun _ u hu => List.mem_singleton.mp (hu.resolve_right id)
  counted := fun h => absurd rfl h
  found := fun u hu => by
    rcases hu with rfl | ⟨v, hv, hold, -⟩
    · exact .inr (.inl List.mem_cons_self)
    · exact absurd hv hold

end TakenInv

/-- Before a pass of the inner loop, `pc` is pending. -/
theorem DecodePass.takenInv {t : Target} {ctx : AnalysisContext} {f : Function} {start : Nat}
    {queue : List Nat} {s : AnalyzeState} (hp : DecodePass t (analyzeInit ctx f start queue) s) :
    TakenInv t ctx start s (· = s.pc) := by
  obtain ⟨hw, hwork, -, hs⟩ := hp
  rename_i w pc rest
  have houter : TakenInv t ctx start w fun _ => False :=
    hw.inv (I := fun w => TakenInv t ctx start w fun _ => False) (.init t ctx f start queue)
      fun r r' _ hr hn => hr.workStep hn
  exact hs.inv (I := fun s => TakenInv t ctx start s (· = s.pc)) (houter.take hwork rfl rfl rfl)
    fun r r' _ hr hn => hr.decodeStep_next hn

/-- **What a call visits.** -/
theorem analyzeFunction_visited (t : Target) (ctx : AnalysisContext) (f : Function) (start : Nat)
    (queue : List Nat) (a : Nat) :
    a ∈ (analyzeFunction t ctx f start queue).visited ↔
      a ∈ ctx.visited ∨ Taken t ctx start a := by
  obtain ⟨r, hr, hd⟩ := (analyzeBlocks_exits t ctx f start queue).inv
    (I := fun r => TakenInv t ctx start r fun _ => False) (.init t ctx f start queue)
    fun r r' hr hn => hr.workStep hn
  obtain ⟨heq, hw⟩ := workStep_done hd
  have hvis : (analyzeBlocks t ctx f start queue).visited = r.visited :=
    congrArg AnalyzeState.visited heq
  show a ∈ (analyzeBlocks t ctx f start queue).visited ↔ _
  rw [hvis]
  -- what is found and decodes is visited, since nothing is left to do
  have hdone : ∀ u, t.Decodes u → (u = start ∨
      ∃ v, v ∈ r.visited ∧ v ∉ ctx.visited ∧ Onward t ctx.module start v u) → u ∈ r.visited := by
    intro u hdec hu
    rcases hr.found u hu with hu | hu | hu | hu
    · exact hu
    · rw [hw] at hu
      cases hu
    · exact hu.elim
    · exact absurd hdec hu
  have htaken : ∀ a, Taken t ctx start a → a ∈ r.visited ∧ a ∉ ctx.visited := by
    intro a ha
    induction ha with
    | start hv hdec => exact ⟨hdone start hdec (.inl rfl), hv⟩
    | onward _ ho hv hdec ih => exact ⟨hdone _ hdec (.inr ⟨_, ih.1, ih.2, ho⟩), hv⟩
  exact ⟨hr.taken a, fun ha => ha.elim (fun ha => hr.old ha) fun ha => (htaken a ha).1⟩

/-- The start is the first address that a call takes. -/
theorem Taken.start_decodes {t : Target} {ctx : AnalysisContext} {start a : Nat}
    (h : Taken t ctx start a) : t.Decodes start := by
  induction h with
  | start _ hdec => exact hdec
  | onward _ _ _ _ ih => exact ih

theorem Taken.start_unvisited {t : Target} {ctx : AnalysisContext} {start a : Nat}
    (h : Taken t ctx start a) : start ∉ ctx.visited := by
  induction h with
  | start hv _ => exact hv
  | onward _ _ _ _ ih => exact ih

/-! ## What a call enqueues -/

section

variable (t : Target) (insn : ExtendedInstruction) (inserted : Bool) (bb : BasicBlock)
  (s : AnalyzeState)

/-- A target in the code at the end of a queue. -/
theorem mem_queue_concat {t : Target} {q : List Nat} {target u : Nat} (hcode : t.InCode target)
    (hu : u ∈ q ++ [target]) : u ∈ q ∨ t.InCode u := by
  refine (List.mem_append.mp hu).imp_right fun hu => ?_
  rw [List.mem_singleton.mp hu]
  exact hcode

theorem handleCall_queue : ∀ u ∈ (handleCall t insn inserted bb s).functionWork,
    u ∈ s.functionWork ∨ t.InCode u := by
  have hout := handleCall_out t insn inserted bb s
  generalize handleCall t insn inserted bb s = s' at hout ⊢
  cases hout with
  | enqueued target _ _ hcode => exact fun u hu => mem_queue_concat hcode hu
  | recorded => exact fun u hu => .inl hu
  | indirect => exact fun u hu => .inl hu

theorem branchTarget_queue : ∀ u ∈ (branchTarget t insn inserted bb s).1.functionWork,
    u ∈ s.functionWork ∨ t.InCode u := by
  have hout := branchTarget_out t insn inserted bb s
  generalize branchTarget t insn inserted bb s = r at hout ⊢
  cases hout with
  | enqueued target _ _ hcode => exact fun u hu => mem_queue_concat hcode hu
  | outside => exact fun u hu => .inl hu
  | known => exact fun u hu => .inl hu
  | visited => exact fun u hu => .inl hu
  | branch => exact fun u hu => .inl hu
  | indirect => exact fun u hu => .inl hu

theorem handleTrampoline_queue :
    (handleTrampoline t insn inserted bb s).functionWork = s.functionWork := by
  unfold handleTrampoline trampolineTarget
  cases (insn.instruction.op 0).value <;> rfl

theorem handleBranch_queue : ∀ u ∈ (handleBranch t insn inserted bb s).functionWork,
    u ∈ s.functionWork ∨ t.InCode u := by
  obtain ⟨s', b, -, -, -, hq, -, -, -, heq⟩ := handleBranch_eq t insn inserted bb s
  rw [heq]
  show ∀ u ∈ s'.functionWork, _
  rw [hq]
  exact branchTarget_queue t insn inserted bb s

end

theorem decodeStep_queue {t : Target} {s s' : AnalyzeState}
    (h : decodeStep t s = .next s' ∨ decodeStep t s = .done s') :
    ∀ u ∈ s'.functionWork, u ∈ s.functionWork ∨ t.InCode u := by
  have hkeep : s'.functionWork = s.functionWork →
      ∀ u ∈ s'.functionWork, u ∈ s.functionWork ∨ t.InCode u := fun hq u hu => .inl (hq ▸ hu)
  rcases decodeStep_result h with ⟨rfl, -⟩ | ⟨-, bb, last, -, rfl⟩ | ⟨hv, hm, insn, hd, -⟩
  · exact hkeep rfl
  · exact hkeep rfl
  · rw [decodeStep_eq_decodeInsn hv hm hd] at h
    obtain ⟨inserted, -, hout | hout⟩ := decodeInsn_result h
    · cases hout with
      | call => exact handleCall_queue t insn inserted s.currentBlock (s.recorded insn)
      | condBr => exact handleBranch_queue t insn inserted s.currentBlock (s.recorded insn)
      | other => exact hkeep rfl
    · cases hout with
      | trampoline => exact hkeep (handleTrampoline_queue t insn inserted _ _)
      | uncondBr => exact handleBranch_queue t insn inserted s.currentBlock (s.recorded insn)
      | ret => exact hkeep rfl

theorem analyzeFunction_queue (t : Target) (ctx : AnalysisContext) (f : Function) (start : Nat)
    (queue : List Nat) :
    ∀ u ∈ (analyzeFunction t ctx f start queue).functionWork, u ∈ queue ∨ t.InCode u := by
  have hstep : ∀ s s', (∀ u ∈ s.functionWork, u ∈ queue ∨ t.InCode u) →
      (decodeStep t s = .next s' ∨ decodeStep t s = .done s') →
      ∀ u ∈ s'.functionWork, u ∈ queue ∨ t.InCode u := by
    intro s s' hs h u hu
    rcases decodeStep_queue h u hu with hu | hu
    · exact hs u hu
    · exact .inr hu
  have hinv := analysis_inv (t := t) (I := fun s => ∀ u ∈ s.functionWork, u ∈ queue ∨ t.InCode u)
    (rfl : (analyzeInit ctx f start queue).bb = none) (fun u hu => .inl hu)
    (fun s rest pc hs _ => hs) (fun s s' _ hs hn => hstep s s' hs (.inl hn))
    (fun s s' _ hs hn => by
      have := hstep s s' hs (.inr hn)
      unfold AnalyzeState.addBasicBlock
      split <;> exact this)
  exact (hinv.1 _ (analyzeBlocks_reached t ctx f start queue)).1

/-! ## Functions without blocks -/

/-- The function has a block, closed or open. -/
def AnalyzeState.HasBlock (s : AnalyzeState) : Prop := s.function.basicBlocks ≠ [] ∨ s.bb ≠ none

theorem Closes.hasBlock {bb : BasicBlock} {stop : Nat} {succs : List Nat} {s s' : AnalyzeState}
    (h : Closes bb stop succs s s') : s'.HasBlock := by
  obtain ⟨b, hb, -⟩ := h.block
  left
  rw [hb]
  simp

theorem DecodeEffect.hasBlock {t : Target} {insn : ExtendedInstruction} {s s' : AnalyzeState}
    {o : Loop.Out AnalyzeState} (h : DecodeEffect t insn s o) (ho : o = .next s' ∨ o = .done s') :
    s'.HasBlock ∧ s'.visited = insert insn.address s.visited := by
  obtain ⟨hdec, hblock⟩ := h.result ho
  refine ⟨?_, hdec.visited⟩
  rcases hblock with ⟨-, b, hb, -⟩ | ⟨succs, hc⟩
  · exact .inr (by simp [hb])
  · exact hc.hasBlock

/-- A pass of the inner loop: there is a block as soon as an instruction is visited. -/
theorem decodeStep_hasBlock {t : Target} {s₀ s s' : AnalyzeState} (hsub : s₀.visited ⊆ s.visited)
    (h : s.HasBlock ↔ ∃ a, Newly s₀ s a)
    (hn : decodeStep t s = .next s' ∨ decodeStep t s = .done s') :
    s'.HasBlock ↔ ∃ a, Newly s₀ s' a := by
  rcases decodeStep_cases t s with ⟨h', -⟩ | ⟨-, -, -, bb, last, hbb, h'⟩ | ⟨hpc, -, insn, hd, he⟩
  · rw [h'] at hn
    rcases hn with hn | hn
    · cases hn
    · cases hn
      exact h
  · rw [h'] at hn
    rcases hn with hn | hn
    · cases hn
    · cases hn
      have hs : s.HasBlock := .inr (by simp [hbb])
      exact ⟨fun _ => h.mp hs, fun _ => .inr (Option.some_ne_none _)⟩
  · obtain ⟨haddr, -⟩ := Target.disassemble_eq_some hd
    obtain ⟨hb, hvis⟩ := he.hasBlock hn
    refine ⟨fun _ => ⟨s.pc, ?_, fun ha => hpc (hsub ha)⟩, fun _ => hb⟩
    rw [hvis, haddr]
    exact Finset.mem_insert_self _ _

theorem addBasicBlock_hasBlock (s : AnalyzeState) : s.addBasicBlock.HasBlock ↔ s.HasBlock := by
  unfold AnalyzeState.addBasicBlock AnalyzeState.HasBlock Function.addBasicBlock
  split <;> simp_all

theorem normalizeBlocks_eq_nil (blocks : List BasicBlock) :
    normalizeBlocks blocks = [] ↔ blocks = [] := by
  constructor
  · intro h
    by_contra hne
    refine normalizeBlocks_inv (I := (· ≠ [])) ⟨?_, ?_⟩ hne h
    · intro bs k b a _ _ _
      simp [splitBlocks]
    · intro bs k start hbs
      simpa using hbs
  · rintro rfl
    rfl

/-- **When a function has no blocks.** -/
theorem analyzeFunction_blocks (t : Target) (ctx : AnalysisContext) (start pc : Nat)
    (queue : List Nat) (hpc : pc ∉ ctx.visited) :
    (analyzeFunction t ctx (newFunction start) pc queue).function.basicBlocks ≠ [] ↔
      t.Decodes pc := by
  let s₀ := analyzeInit ctx (newFunction start) pc queue
  have hgrows := analysis_grows t ctx (newFunction start) pc queue
  have hinv : (∀ w, Loop.Reaches (workStep t) s₀ w →
      (w.HasBlock ↔ ∃ a, Newly s₀ w a) ∧ w.bb = none) ∧ _ := analysis_inv
    (I := fun s => s.HasBlock ↔ ∃ a, Newly s₀ s a) rfl
    ⟨fun h => h.elim (fun h => absurd rfl h) fun h => absurd rfl h,
      fun ⟨_, h⟩ => absurd h.1 h.2⟩
    (fun s rest pc h hb => by
      rw [← hb]
      exact h)
    (fun s s' hp h hn => decodeStep_hasBlock (hgrows.2 s hp).visited h (.inl hn))
    (fun s s' hp h hn => by
      rw [addBasicBlock_hasBlock]
      unfold Newly
      rw [addBasicBlock_visited]
      exact decodeStep_hasBlock (hgrows.2 s hp).visited h (.inr hn))
  obtain ⟨hb, hnone⟩ := hinv.1 _ (analyzeBlocks_reached t ctx (newFunction start) pc queue)
  have hblocks : (analyzeFunction t ctx (newFunction start) pc queue).function.basicBlocks ≠ [] ↔
      (analyzeBlocks t ctx (newFunction start) pc queue).HasBlock := by
    unfold AnalyzeState.HasBlock
    rw [hnone]
    show normalizeBlocks (analyzeBlocks t ctx (newFunction start) pc queue).function.basicBlocks ≠
      [] ↔ _
    simp [normalizeBlocks_eq_nil]
  rw [hblocks, hb]
  constructor
  · rintro ⟨a, ha, hold⟩
    rcases (analyzeFunction_visited t ctx (newFunction start) pc queue a).mp ha with ha | ha
    · exact absurd ha hold
    · exact ha.start_decodes
  · intro hdec
    exact ⟨pc, (analyzeFunction_visited t ctx (newFunction start) pc queue pc).mpr
      (.inr (.start hpc hdec)), hpc⟩

end ReWizard
