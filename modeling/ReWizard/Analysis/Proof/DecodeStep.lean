import ReWizard.Analysis.StaticControlFlowRebuilder

/-!
# One pass of the decode loop

What the handlers of `AnalyzeFunction` do, each stated once:

* `handleCall_out`, `branchTarget_out`, `decodeInsn_out`: the ways each can go;
* `Handled`: what handling an instruction keeps and how far it extends the queues and call sites;
* `handleCall_target`, `handleBranch_target`, `handleTrampoline_target`: the queue or call site in
  which a direct target is found afterwards;
* `decodeInsn_effect`: the block and the queues after a decoded instruction.
-/

namespace ReWizard

/-- The address is mapped and executable. -/
def Target.InCode (t : Target) (a : Nat) : Prop :=
  t.loader.isWithinMapping a = true ∧ t.loader.isExecutableAddress a = true

instance (t : Target) (a : Nat) : Decidable (t.InCode a) := inferInstanceAs (Decidable (_ ∧ _))

/-- The target of a direct call or branch. -/
def ExtendedInstruction.directTarget (i : ExtendedInstruction) : Option Nat :=
  match (i.instruction.op 0).value with
  | .immediate imm => some (i.relTarget imm)
  | _ => none

/-- The operand of a call does not show the target. -/
def ExtendedInstruction.indirectCall (i : ExtendedInstruction) : Bool :=
  match (i.instruction.op 0).value with
  | .immediate _ => false
  | .memory mem => decide (mem.base ≠ .rip ∧ ¬ (mem.base = .none ∧ mem.index = .none))
  | _ => true

/-- The operand of a branch does not show the target. -/
def ExtendedInstruction.indirectJump (i : ExtendedInstruction) : Bool :=
  match (i.instruction.op 0).value with
  | .register _ => true
  | .memory _ => true
  | _ => false

/-- Some function of the module has the address in its range. -/
def Module.InKnown (m : Module) (a : Nat) : Prop :=
  ∃ f ∈ m.functions, f.startAddress ≤ a ∧ a < f.endAddress

theorem Module.inKnown_of_isSome {m : Module} {a : Nat}
    (h : (m.getFunctionForAddress a).isSome = true) : m.InKnown a := by
  unfold getFunctionForAddress at h
  split at h
  · cases h
  · cases h
  · rename_i k _
    cases hk : m.functions[k]? with
    | none => simp [hk] at h
    | some f =>
      simp only [hk] at h
      split at h
      · rename_i hr
        exact ⟨f, List.mem_of_getElem? hk, hr⟩
      · cases h

/-! ## What handling keeps -/

/-- `s'` is `s` after an instruction was handled: apart from the blocks, only the queues and the
call sites grow, and by how much. -/
structure Handled (s s' : AnalyzeState) : Prop where
  visited : s'.visited = s.visited
  functions : s'.module.functions = s.module.functions
  functionByStart : s'.module.functionByStart = s.module.functionByStart
  symbolTable : s'.module.symbolTable = s.module.symbolTable
  start : s'.function.startAddress = s.function.startAddress
  count : s'.localInsnCount = s.localInsnCount
  work : s.work <+: s'.work
  work_length : s'.work.length ≤ s.work.length + 1
  functionWork : s.functionWork <+: s'.functionWork
  queue_length : s'.functionWork.length + s'.function.callSites.toList.length ≤
    s.functionWork.length + s.function.callSites.toList.length + 2
  callSites : ∀ a b, b ≠ 0 → addrPair a b ∈ s.function.callSites →
    addrPair a b ∈ s'.function.callSites

theorem length_insertList_le {α : Type _} [LinearOrder α] (a : α) :
    ∀ l : List α, (OrdSet.insertList a l).length ≤ l.length + 1
  | [] => Nat.le_refl _
  | b :: l => by
    simp only [OrdSet.insertList]
    split
    · exact Nat.le_refl _
    · split
      · exact Nat.le_succ _
      · exact Nat.succ_le_succ (length_insertList_le a l)

theorem length_addCallSite (f : Function) (c d : Nat) :
    (f.addCallSite c d).callSites.toList.length ≤ f.callSites.toList.length + 1 := by
  refine le_trans (length_insertList_le _ _) (Nat.succ_le_succ ?_)
  exact List.length_filter_le _ _

@[simp] theorem markIndirect_functions (i : ExtendedInstruction) (b : Bool) (m : Module) :
    (markIndirect i b m).functions = m.functions := by
  unfold markIndirect
  split <;> rfl

@[simp] theorem markIndirect_functionByStart (i : ExtendedInstruction) (b : Bool) (m : Module) :
    (markIndirect i b m).functionByStart = m.functionByStart := by
  unfold markIndirect
  split <;> rfl

@[simp] theorem markIndirect_symbolTable (i : ExtendedInstruction) (b : Bool) (m : Module) :
    (markIndirect i b m).symbolTable = m.symbolTable := by
  unfold markIndirect
  split <;> rfl

namespace Handled

variable {s s' : AnalyzeState}

theorem refl (s : AnalyzeState) : Handled s s where
  visited := rfl
  functions := rfl
  functionByStart := rfl
  symbolTable := rfl
  start := rfl
  count := rfl
  work := List.prefix_rfl
  work_length := Nat.le_succ _
  functionWork := List.prefix_rfl
  queue_length := Nat.le_add_right _ _
  callSites := fun _ _ _ h => h

/-- Recording a call site. -/
theorem addCallSite (s : AnalyzeState) (target : Nat) (kind : String) :
    Handled s (s.addCallSite target kind) where
  visited := rfl
  functions := rfl
  functionByStart := rfl
  symbolTable := rfl
  start := rfl
  count := rfl
  work := List.prefix_rfl
  work_length := Nat.le_succ _
  functionWork := List.prefix_rfl
  queue_length := by
    have := length_addCallSite s.function s.pc target
    show s.functionWork.length + (s.function.addCallSite s.pc target).callSites.toList.length ≤ _
    omega
  callSites := fun a b hb h => Function.mem_addCallSite.mpr (.inr ⟨h, fun hab => hb hab.2⟩)

/-- A change of the state that none of the fields sees. -/
theorem congr_right {s'' : AnalyzeState} (h : Handled s s')
    (hv : s''.visited = s'.visited) (hf : s''.module.functions = s'.module.functions)
    (hb : s''.module.functionByStart = s'.module.functionByStart)
    (hy : s''.module.symbolTable = s'.module.symbolTable)
    (hs : s''.function.startAddress = s'.function.startAddress)
    (hn : s''.localInsnCount = s'.localInsnCount) (hw : s''.work = s'.work)
    (hq : s''.functionWork = s'.functionWork)
    (hc : s''.function.callSites = s'.function.callSites) : Handled s s'' where
  visited := hv.trans h.visited
  functions := hf.trans h.functions
  functionByStart := hb.trans h.functionByStart
  symbolTable := hy.trans h.symbolTable
  start := hs.trans h.start
  count := hn.trans h.count
  work := hw ▸ h.work
  work_length := hw ▸ h.work_length
  functionWork := hq ▸ h.functionWork
  queue_length := by rw [hq, hc]; exact h.queue_length
  callSites := fun a b hne hmem => hc ▸ h.callSites a b hne hmem

/-- Recording the call site of an indirect instruction. -/
theorem indirect (i : ExtendedInstruction) (inserted : Bool) (kind : String) (s : AnalyzeState) :
    Handled s ((s.addCallSite i.indirectValue kind).mapModule (markIndirect i inserted)) :=
  (addCallSite s i.indirectValue kind).congr_right rfl (markIndirect_functions _ _ _)
    (markIndirect_functionByStart _ _ _) (markIndirect_symbolTable _ _ _) rfl rfl rfl rfl rfl

end Handled

/-! ## Calls -/

section

variable (t : Target) (insn : ExtendedInstruction) (inserted : Bool) (bb : BasicBlock)
  (s : AnalyzeState)

/-- The block, start, end and successors of a block that handling left open. -/
structure SameBlock (b b' : BasicBlock) : Prop where
  start : b'.startAddress = b.startAddress
  stop : b'.endAddress = b.endAddress
  successors : b'.successors = b.successors

/-- What `handleCall` does, by what the operand of the call shows. -/
inductive CallOut : AnalyzeState → Prop
  | enqueued (target : Nat) (htarget : insn.directTarget = some target)
    (hdirect : insn.indirectCall = false) (hcode : t.InCode target) (hnew : target ∉ s.visited) :
    CallOut { s.addCallSite target "call" with
      bb := some bb
      functionWork := s.functionWork ++ [target] }
  | recorded (target : Nat) (hdirect : insn.indirectCall = false)
    (hseen : ∀ a, insn.directTarget = some a → t.InCode a → a ∈ s.visited) :
    CallOut { s.addCallSite target "call" with bb := some bb }
  | indirect (htarget : insn.directTarget = none) (hindirect : insn.indirectCall = true) :
    CallOut { (s.addCallSite insn.indirectValue "call").mapModule (markIndirect insn inserted) with
      bb := some { bb with containsIndirectCalls := true }
      function := { (s.addCallSite insn.indirectValue "call").function with
        containsIndirectCalls := true } }

theorem handleCall_out : CallOut t insn inserted bb s (handleCall t insn inserted bb s) := by
  unfold handleCall
  cases hop : (insn.instruction.op 0).value with
  | immediate imm =>
    have htarget : insn.directTarget = some (insn.relTarget imm) := by
      simp [ExtendedInstruction.directTarget, hop]
    have hdirect : insn.indirectCall = false := by simp [ExtendedInstruction.indirectCall, hop]
    dsimp only
    split
    · rename_i h
      exact .enqueued _ htarget hdirect ⟨h.1, h.2.2⟩ h.2.1
    · rename_i h
      refine .recorded _ hdirect fun a ha hc => ?_
      cases htarget.symm.trans ha
      by_contra hv
      exact h ⟨hc.1, hv, hc.2⟩
  | memory mem =>
    have htarget : insn.directTarget = none := by simp [ExtendedInstruction.directTarget, hop]
    dsimp only
    split
    · rename_i hrip
      exact .recorded _ (by simp [ExtendedInstruction.indirectCall, hop, hrip]) (by simp [htarget])
    · rename_i hrip
      split
      · rename_i habs
        exact .recorded _ (by simp [ExtendedInstruction.indirectCall, hop, habs])
          (by simp [htarget])
      · rename_i habs
        refine .indirect htarget ?_
        unfold ExtendedInstruction.indirectCall
        rw [hop]
        exact decide_eq_true ⟨hrip, habs⟩
  | register _ =>
    exact .indirect (by simp [ExtendedInstruction.directTarget, hop])
      (by simp [ExtendedInstruction.indirectCall, hop])
  | pointer =>
    exact .indirect (by simp [ExtendedInstruction.directTarget, hop])
      (by simp [ExtendedInstruction.indirectCall, hop])
  | unused =>
    exact .indirect (by simp [ExtendedInstruction.directTarget, hop])
      (by simp [ExtendedInstruction.indirectCall, hop])

theorem handleCall_handled : Handled s (handleCall t insn inserted bb s) := by
  have hout := handleCall_out t insn inserted bb s
  generalize handleCall t insn inserted bb s = s' at hout ⊢
  cases hout with
  | enqueued target =>
    have h := Handled.addCallSite s target "call"
    refine { h with functionWork := ?_, queue_length := ?_ }
    · exact List.prefix_append _ _
    · have := length_addCallSite s.function s.pc target
      show (s.functionWork ++ [target]).length +
        (s.function.addCallSite s.pc target).callSites.toList.length ≤ _
      rw [List.length_append, List.length_singleton]
      omega
  | recorded target =>
    exact (Handled.addCallSite s target "call").congr_right rfl rfl rfl rfl rfl rfl rfl rfl rfl
  | indirect =>
    exact (Handled.indirect insn inserted "call" s).congr_right rfl rfl rfl rfl rfl rfl rfl rfl rfl

theorem handleCall_block :
    (handleCall t insn inserted bb s).function.basicBlocks = s.function.basicBlocks ∧
      ∃ bb', (handleCall t insn inserted bb s).bb = some bb' ∧ SameBlock bb bb' := by
  have hout := handleCall_out t insn inserted bb s
  generalize handleCall t insn inserted bb s = s' at hout ⊢
  cases hout with
  | enqueued => exact ⟨rfl, bb, rfl, ⟨rfl, rfl, rfl⟩⟩
  | recorded => exact ⟨rfl, bb, rfl, ⟨rfl, rfl, rfl⟩⟩
  | indirect => exact ⟨rfl, _, rfl, ⟨rfl, rfl, rfl⟩⟩

/-- A direct call target in the code was visited before or is a function to explore. -/
theorem handleCall_target {a : Nat} (ha : insn.directTarget = some a) (hc : t.InCode a) :
    a ∈ s.visited ∨ a ∈ (handleCall t insn inserted bb s).functionWork := by
  have hout := handleCall_out t insn inserted bb s
  generalize handleCall t insn inserted bb s = s' at hout ⊢
  cases hout with
  | enqueued target htarget =>
    cases htarget.symm.trans ha
    exact .inr (List.mem_append_right _ List.mem_cons_self)
  | recorded target _ hseen => exact .inl (hseen a ha hc)
  | indirect htarget => cases htarget.symm.trans ha

/-! ## Branches -/

/-- The direct targets in the code: what a branch adds to the successors. -/
def targetSuccessors : List Nat :=
  match insn.directTarget with
  | none => []
  | some a => if t.InCode a then [a] else []

theorem targetSuccessors_of_inCode {a : Nat} (ha : insn.directTarget = some a) (hc : t.InCode a) :
    targetSuccessors t insn = [a] := by
  unfold targetSuccessors
  rw [ha]
  exact if_pos hc

theorem targetSuccessors_eq_nil (h : ∀ a, insn.directTarget = some a → ¬ t.InCode a) :
    targetSuccessors t insn = [] := by
  unfold targetSuccessors
  split
  · rfl
  · rename_i a ha
    exact if_neg (h a ha)

/-- What `branchTarget` does, by what the operand shows and what is known of the target. -/
inductive BranchOut : AnalyzeState × BasicBlock → Prop
  | outside (houtside : ∀ a, insn.directTarget = some a → ¬ t.InCode a)
    (hdirect : insn.indirectJump = false) : BranchOut (s, bb)
  | known (target : Nat) (htarget : insn.directTarget = some target)
    (hdirect : insn.indirectJump = false) (hcode : t.InCode target)
    (hcat : insn.instruction.category = .uncondBr)
    (hknown : (s.module.getFunctionForAddress target).isSome = true) :
    BranchOut (s.addCallSite target "jump", bb.addSuccessor target)
  | enqueued (target : Nat) (htarget : insn.directTarget = some target)
    (hdirect : insn.indirectJump = false) (hcode : t.InCode target)
    (hcat : insn.instruction.category = .uncondBr)
    (hunknown : s.module.getFunctionForAddress target = none) (hnew : target ∉ s.visited) :
    BranchOut
      ({ s.mapModule fun m => m.addXref s.pc target "jump" with
          work := s.work ++ [target]
          functionWork := s.functionWork ++ [target] }, bb.addSuccessor target)
  | visited (target : Nat) (htarget : insn.directTarget = some target)
    (hdirect : insn.indirectJump = false) (hcode : t.InCode target)
    (hvisited : target ∈ s.visited) : BranchOut (s, bb.addSuccessor target)
  | branch (target : Nat) (htarget : insn.directTarget = some target)
    (hdirect : insn.indirectJump = false) (hcode : t.InCode target)
    (hcat : insn.instruction.category ≠ .uncondBr) :
    BranchOut
      ({ s.mapModule fun m => m.addXref s.pc target "jump" with
          work := if target ∉ s.visited then s.work ++ [target] else s.work },
        bb.addSuccessor target)
  | indirect (htarget : insn.directTarget = none) (hindirect : insn.indirectJump = true) :
    BranchOut
      ({ (s.addCallSite insn.indirectValue "jump").mapModule (markIndirect insn inserted) with
          function := { (s.addCallSite insn.indirectValue "jump").function with
            containsIndirectJumps := true } }, { bb with containsIndirectJumps := true })

theorem branchTarget_out : BranchOut t insn inserted bb s (branchTarget t insn inserted bb s) := by
  unfold branchTarget
  cases hop : (insn.instruction.op 0).value with
  | immediate imm =>
    have htarget : insn.directTarget = some (insn.relTarget imm) := by
      simp [ExtendedInstruction.directTarget, hop]
    have hdirect : insn.indirectJump = false := by simp [ExtendedInstruction.indirectJump, hop]
    dsimp only
    split
    · rename_i hcode
      split
      · rename_i hcat
        split
        · rename_i hknown
          exact .known _ htarget hdirect hcode hcat hknown
        · rename_i hknown
          have hunknown := Option.not_isSome_iff_eq_none.mp hknown
          split
          · rename_i hnew
            exact .enqueued _ htarget hdirect hcode hcat hunknown hnew
          · rename_i hold
            exact .visited _ htarget hdirect hcode (not_not.mp hold)
      · rename_i hcat
        exact .branch _ htarget hdirect hcode hcat
    · rename_i hcode
      refine .outside (fun a ha => ?_) hdirect
      cases htarget.symm.trans ha
      exact hcode
  | memory _ =>
    exact .indirect (by simp [ExtendedInstruction.directTarget, hop])
      (by simp [ExtendedInstruction.indirectJump, hop])
  | register _ =>
    exact .indirect (by simp [ExtendedInstruction.directTarget, hop])
      (by simp [ExtendedInstruction.indirectJump, hop])
  | pointer =>
    exact .outside (by simp [ExtendedInstruction.directTarget, hop])
      (by simp [ExtendedInstruction.indirectJump, hop])
  | unused =>
    exact .outside (by simp [ExtendedInstruction.directTarget, hop])
      (by simp [ExtendedInstruction.indirectJump, hop])

theorem branchTarget_handled : Handled s (branchTarget t insn inserted bb s).1 := by
  have hout := branchTarget_out t insn inserted bb s
  generalize branchTarget t insn inserted bb s = r at hout ⊢
  cases hout with
  | outside => exact Handled.refl s
  | known target => exact Handled.addCallSite s target "jump"
  | enqueued target =>
    refine { Handled.refl s with
      work := List.prefix_append _ _, work_length := ?_
      functionWork := List.prefix_append _ _, queue_length := ?_ }
    · simp
    · show (s.functionWork ++ [target]).length + s.function.callSites.toList.length ≤ _
      rw [List.length_append, List.length_singleton]
      omega
  | visited => exact Handled.refl s
  | branch target =>
    split
    · refine { Handled.refl s with work := List.prefix_append _ _, work_length := ?_ }
      simp
    · exact (Handled.refl s).congr_right rfl rfl rfl rfl rfl rfl rfl rfl rfl
  | indirect =>
    exact (Handled.indirect insn inserted "jump" s).congr_right rfl rfl rfl rfl rfl rfl rfl rfl rfl

theorem branchTarget_block :
    (branchTarget t insn inserted bb s).1.function.basicBlocks = s.function.basicBlocks ∧
      (branchTarget t insn inserted bb s).1.pc = s.pc ∧
      (branchTarget t insn inserted bb s).2.startAddress = bb.startAddress ∧
      (branchTarget t insn inserted bb s).2.successors =
        bb.successors ++ targetSuccessors t insn := by
  have hout := branchTarget_out t insn inserted bb s
  generalize branchTarget t insn inserted bb s = r at hout ⊢
  cases hout with
  | outside houtside =>
    rw [targetSuccessors_eq_nil t insn houtside, List.append_nil]
    exact ⟨rfl, rfl, rfl, rfl⟩
  | known target htarget _ hcode =>
    rw [targetSuccessors_of_inCode t insn htarget hcode]
    exact ⟨rfl, rfl, rfl, rfl⟩
  | enqueued target htarget _ hcode =>
    rw [targetSuccessors_of_inCode t insn htarget hcode]
    exact ⟨rfl, rfl, rfl, rfl⟩
  | visited target htarget _ hcode =>
    rw [targetSuccessors_of_inCode t insn htarget hcode]
    exact ⟨rfl, rfl, rfl, rfl⟩
  | branch target htarget _ hcode =>
    rw [targetSuccessors_of_inCode t insn htarget hcode]
    exact ⟨rfl, rfl, rfl, rfl⟩
  | indirect htarget =>
    rw [targetSuccessors_eq_nil t insn (by simp [htarget]), List.append_nil]
    exact ⟨rfl, rfl, rfl, rfl⟩

/-- Where a direct branch target in the code is found afterwards. -/
theorem branchTarget_target {a : Nat} (ha : insn.directTarget = some a) (hc : t.InCode a) :
    a ∈ s.visited ∨
      (if insn.instruction.category = .uncondBr then
        s.module.InKnown a ∨ a ∈ (branchTarget t insn inserted bb s).1.functionWork
      else a ∈ (branchTarget t insn inserted bb s).1.work) := by
  have hout := branchTarget_out t insn inserted bb s
  generalize branchTarget t insn inserted bb s = r at hout ⊢
  cases hout with
  | outside houtside => exact absurd hc (houtside a ha)
  | known target htarget _ _ hcat hknown =>
    cases htarget.symm.trans ha
    rw [if_pos hcat]
    exact .inr (.inl (Module.inKnown_of_isSome hknown))
  | enqueued target htarget _ _ hcat =>
    cases htarget.symm.trans ha
    rw [if_pos hcat]
    exact .inr (.inr (List.mem_append_right _ List.mem_cons_self))
  | visited target htarget _ _ hvisited =>
    cases htarget.symm.trans ha
    exact .inl hvisited
  | branch target htarget _ _ hcat =>
    cases htarget.symm.trans ha
    rw [if_neg hcat]
    by_cases hv : a ∈ s.visited
    · exact .inl hv
    · right
      rw [if_pos hv]
      exact List.mem_append_right _ List.mem_cons_self
  | indirect htarget => cases htarget.symm.trans ha

/-- The successors of a block that ends with the branch. -/
def branchSuccessors : List Nat :=
  targetSuccessors t insn ++ if insn.instruction.category = .condBr then [insn.next] else []

/-- The block `bb`, which began in `s`, is in the function of `s'`: it ends at `stop`, with `succs`
as its further successors. -/
structure Closes (bb : BasicBlock) (stop : Nat) (succs : List Nat) (s s' : AnalyzeState) : Prop where
  closed : s'.bb = none
  block : ∃ b : BasicBlock, s'.function.basicBlocks = s.function.basicBlocks ++ [b] ∧
    b.startAddress = bb.startAddress ∧ b.endAddress = stop ∧ b.successors = bb.successors ++ succs

theorem closeBlock_closes {s s' : AnalyzeState} {b : BasicBlock} {succs : List Nat} (stop last : Nat)
    (hs : s'.function.basicBlocks = s.function.basicBlocks) (hb : b.startAddress = bb.startAddress)
    (hsucc : b.successors = bb.successors ++ succs) :
    Closes bb stop succs s (s'.closeBlock b stop last).addBasicBlock where
  closed := rfl
  block := ⟨{ b with endAddress := stop, lastInsnAddr := last },
    congrArg (· ++ _) hs, hb, rfl, hsucc⟩

theorem closeBlock_handled {s s' : AnalyzeState} (h : Handled s s') (b : BasicBlock)
    (stop last : Nat) : Handled s (s'.closeBlock b stop last).addBasicBlock :=
  h.congr_right rfl rfl rfl rfl rfl rfl rfl rfl rfl

/-- `HandleBranch` closes the block after its target is handled. -/
theorem handleBranch_eq :
    ∃ (s' : AnalyzeState) (b : BasicBlock), Handled s s' ∧
      s'.function.basicBlocks = s.function.basicBlocks ∧
      s'.work = (branchTarget t insn inserted bb s).1.work ∧
      s'.functionWork = (branchTarget t insn inserted bb s).1.functionWork ∧
      s'.localInsnCount = (branchTarget t insn inserted bb s).1.localInsnCount ∧
      b.startAddress = bb.startAddress ∧
      b.successors = bb.successors ++ branchSuccessors t insn ∧
      handleBranch t insn inserted bb s = (s'.closeBlock b insn.next s.pc).addBasicBlock := by
  have hh := branchTarget_handled t insn inserted bb s
  obtain ⟨h1, h2, h3, h4⟩ := branchTarget_block t insn inserted bb s
  unfold handleBranch branchSuccessors
  generalize branchTarget t insn inserted bb s = r at hh h1 h2 h3 h4 ⊢
  obtain ⟨s₁, b₁⟩ := r
  dsimp only at hh h1 h2 h3 h4 ⊢
  by_cases hcond : insn.instruction.category = .condBr
  · rw [if_pos hcond, if_pos hcond]
    refine ⟨s₁.mapModule fun m => m.addXref s₁.pc insn.next "jump", b₁.addSuccessor insn.next,
      hh.congr_right rfl rfl rfl rfl rfl rfl rfl rfl rfl, h1, rfl, rfl, rfl, h3, ?_, ?_⟩
    · show b₁.successors ++ [insn.next] = _
      rw [h4, List.append_assoc]
    · show (AnalyzeState.closeBlock _ _ _ s₁.pc).addBasicBlock = _
      rw [h2]
  · rw [if_neg hcond, if_neg hcond]
    refine ⟨s₁, b₁, hh, h1, rfl, rfl, rfl, h3, ?_, ?_⟩
    · rw [h4, List.append_nil]
    · show (s₁.closeBlock b₁ insn.next s₁.pc).addBasicBlock = _
      rw [h2]

theorem handleBranch_handled : Handled s (handleBranch t insn inserted bb s) := by
  obtain ⟨s', b, hh, -, -, -, -, -, -, heq⟩ := handleBranch_eq t insn inserted bb s
  rw [heq]
  exact closeBlock_handled hh b _ _

theorem handleBranch_closes :
    Closes bb insn.next (branchSuccessors t insn) s (handleBranch t insn inserted bb s) := by
  obtain ⟨s', b, -, hs, -, -, -, hb, hsucc, heq⟩ := handleBranch_eq t insn inserted bb s
  rw [heq]
  exact closeBlock_closes bb _ _ hs hb hsucc

theorem handleBranch_target {a : Nat} (ha : insn.directTarget = some a) (hc : t.InCode a) :
    a ∈ s.visited ∨
      (if insn.instruction.category = .uncondBr then
        s.module.InKnown a ∨ a ∈ (handleBranch t insn inserted bb s).functionWork
      else a ∈ (handleBranch t insn inserted bb s).work) := by
  obtain ⟨s', b, -, -, hw, hq, -, -, -, heq⟩ := handleBranch_eq t insn inserted bb s
  rw [heq]
  show _ ∨ (if _ then _ ∨ a ∈ s'.functionWork else a ∈ s'.work)
  rw [hw, hq]
  exact branchTarget_target t insn inserted bb s ha hc

/-! ## Trampolines -/

theorem trampolineTarget_handled : Handled s (trampolineTarget insn inserted bb s).1 := by
  have hindirect : Handled s (s.mapModule (markIndirect insn inserted)) :=
    (Handled.refl s).congr_right rfl (markIndirect_functions _ _ _)
      (markIndirect_functionByStart _ _ _) (markIndirect_symbolTable _ _ _) rfl rfl rfl rfl rfl
  unfold trampolineTarget
  cases (insn.instruction.op 0).value with
  | immediate imm =>
    refine { Handled.refl s with queue_length := ?_, callSites := fun a b hb h => ?_ }
    · have := length_addCallSite s.function insn.address (insn.relTarget imm)
      show s.functionWork.length +
        (s.function.addCallSite insn.address (insn.relTarget imm)).callSites.toList.length ≤ _
      omega
    · exact Function.mem_addCallSite.mpr (.inr ⟨h, fun hab => hb hab.2⟩)
  | memory _ => exact hindirect.congr_right rfl rfl rfl rfl rfl rfl rfl rfl rfl
  | register _ => exact hindirect.congr_right rfl rfl rfl rfl rfl rfl rfl rfl rfl
  | pointer => exact Handled.refl s
  | unused => exact Handled.refl s

theorem trampolineTarget_block :
    (trampolineTarget insn inserted bb s).1.function.basicBlocks = s.function.basicBlocks ∧
      SameBlock bb (trampolineTarget insn inserted bb s).2.1 := by
  unfold trampolineTarget
  cases (insn.instruction.op 0).value <;> exact ⟨rfl, ⟨rfl, rfl, rfl⟩⟩

theorem trampolineTarget_target {a : Nat} (ha : insn.directTarget = some a) :
    addrPair insn.address a ∈
      (trampolineTarget insn inserted bb s).1.function.callSites := by
  unfold ExtendedInstruction.directTarget at ha
  unfold trampolineTarget
  cases h : (insn.instruction.op 0).value with
  | immediate imm =>
    rw [h] at ha
    cases ha
    exact Function.mem_addCallSite.mpr (.inl ⟨rfl, rfl⟩)
  | memory _ => rw [h] at ha; cases ha
  | register _ => rw [h] at ha; cases ha
  | pointer => rw [h] at ha; cases ha
  | unused => rw [h] at ha; cases ha

theorem handleTrampoline_handled : Handled s (handleTrampoline t insn inserted bb s) :=
  (closeBlock_handled (trampolineTarget_handled insn inserted bb s)
    (trampolineTarget insn inserted bb s).2.1 insn.next insn.address).congr_right
    rfl rfl rfl rfl rfl rfl rfl rfl rfl

theorem handleTrampoline_work : (handleTrampoline t insn inserted bb s).work = s.work := by
  show (trampolineTarget insn inserted bb s).1.work = s.work
  unfold trampolineTarget
  cases (insn.instruction.op 0).value <;> rfl

theorem handleTrampoline_closes :
    Closes bb insn.next [] s (handleTrampoline t insn inserted bb s) := by
  obtain ⟨hs, hb⟩ := trampolineTarget_block insn inserted bb s
  obtain ⟨h1, h2⟩ := closeBlock_closes bb insn.next insn.address hs hb.start
    (hb.successors.trans (List.append_nil _).symm)
  exact ⟨h1, h2⟩

theorem handleTrampoline_target {a : Nat} (ha : insn.directTarget = some a) :
    addrPair insn.address a ∈ (handleTrampoline t insn inserted bb s).function.callSites :=
  trampolineTarget_target insn inserted bb s ha

end

/-! ## A decoded instruction -/

/-- `s'` is `s` after the instruction at its `pc` was decoded and handled. A direct target in the
code is found again: that of a conditional branch in the work list, that of a jump or call in a
known function, among the functions to explore or as a call site. -/
structure Decoded (t : Target) (insn : ExtendedInstruction) (s s' : AnalyzeState) : Prop where
  visited : s'.visited = insert insn.address s.visited
  functions : s'.module.functions = s.module.functions
  functionByStart : s'.module.functionByStart = s.module.functionByStart
  symbolTable : s'.module.symbolTable = s.module.symbolTable
  start : s'.function.startAddress = s.function.startAddress
  count : s'.localInsnCount = s.localInsnCount + 1
  work : s.work <+: s'.work
  work_length : s'.work.length ≤ s.work.length + 1
  functionWork : s.functionWork <+: s'.functionWork
  queue_length : s'.functionWork.length + s'.function.callSites.toList.length ≤
    s.functionWork.length + s.function.callSites.toList.length + 2
  callSites : ∀ a b, b ≠ 0 → addrPair a b ∈ s.function.callSites →
    addrPair a b ∈ s'.function.callSites
  condTarget : insn.instruction.category = .condBr → ∀ a, insn.directTarget = some a →
    t.InCode a → a ∈ s'.visited ∨ a ∈ s'.work
  transfer : insn.instruction.category = .call ∨ insn.instruction.category = .uncondBr →
    ∀ a, insn.directTarget = some a → t.InCode a → a ∈ s'.visited ∨ s.module.InKnown a ∨
      a ∈ s'.functionWork ∨ addrPair insn.address a ∈ s'.function.callSites

/-- How a pass goes that decodes `insn`: straight on in the same block, on after a conditional
branch that closes the block, or out of the loop after a jump or a return that closes it. The first
instruction of a function gets no successors when it is a jump. -/
inductive DecodeEffect (t : Target) (insn : ExtendedInstruction) (s : AnalyzeState) :
    Loop.Out AnalyzeState → Prop
  | straight {s' : AnalyzeState}
      (category : insn.instruction.category = .call ∨ insn.instruction.category = .other)
      (decoded : Decoded t insn s s') (pc : s'.pc = insn.next)
      (blocks : s'.function.basicBlocks = s.function.basicBlocks)
      (opened : ∃ b, s'.bb = some b ∧ SameBlock s.currentBlock b) :
      DecodeEffect t insn s (.next s')
  | cond {s' : AnalyzeState} (category : insn.instruction.category = .condBr)
      (decoded : Decoded t insn s s') (pc : s'.pc = insn.next)
      (closes : Closes s.currentBlock insn.next (branchSuccessors t insn) s s') :
      DecodeEffect t insn s (.next s')
  | jump {s' : AnalyzeState} (category : insn.instruction.category = .uncondBr)
      (decoded : Decoded t insn s s')
      (closes : Closes s.currentBlock insn.next
        (if s.localInsnCount = 0 then [] else branchSuccessors t insn) s s') :
      DecodeEffect t insn s (.done s')
  | ret {s' : AnalyzeState} (category : insn.instruction.category = .ret)
      (decoded : Decoded t insn s s') (closes : Closes s.currentBlock insn.next [] s s') :
      DecodeEffect t insn s (.done s')

section

variable {t : Target} {insn : ExtendedInstruction} {s : AnalyzeState}

theorem addInstruction_functions (m : Module) (i : ExtendedInstruction) :
    (m.addInstruction i).functions = m.functions := by
  unfold Module.addInstruction
  split <;> rfl

theorem addInstruction_functionByStart (m : Module) (i : ExtendedInstruction) :
    (m.addInstruction i).functionByStart = m.functionByStart := by
  unfold Module.addInstruction
  split <;> rfl

theorem addInstruction_symbolTable (m : Module) (i : ExtendedInstruction) :
    (m.addInstruction i).symbolTable = m.symbolTable := by
  unfold Module.addInstruction
  split <;> rfl

theorem inKnown_enter {a : Nat} (h : (s.enter insn).module.InKnown a) : s.module.InKnown a := by
  obtain ⟨f, hf, hr⟩ := h
  have hfun : (s.enter insn).module.functions = s.module.functions := addInstruction_functions _ _
  exact ⟨f, hfun ▸ hf, hr⟩

/-- From the handling of an instruction to the whole pass: `s₁` is the state after the instruction
was recorded, and `s'` is `s₂` with the instruction counted. -/
theorem decoded_of_handled {s₁ s₂ s' : AnalyzeState} (h : Handled s₁ s₂)
    (hc : s₁.context = (s.enter insn).context) (hf : s₁.function = s.function)
    (hw : s₁.work = s.work) (hq : s₁.functionWork = s.functionWork)
    (hc' : s'.context = s₂.context) (hf' : s'.function = s₂.function)
    (hw' : s'.work = s₂.work) (hq' : s'.functionWork = s₂.functionWork)
    (hn : s'.localInsnCount = s.localInsnCount + 1)
    (hcond : insn.instruction.category = .condBr → ∀ a, insn.directTarget = some a →
      t.InCode a → a ∈ s₁.visited ∨ a ∈ s₂.work)
    (htrans : insn.instruction.category = .call ∨ insn.instruction.category = .uncondBr →
      ∀ a, insn.directTarget = some a → t.InCode a → a ∈ s₁.visited ∨ s₁.module.InKnown a ∨
        a ∈ s₂.functionWork ∨ addrPair insn.address a ∈ s₂.function.callSites) :
    Decoded t insn s s' := by
  have hv : s'.visited = s₁.visited := (congrArg AnalysisContext.visited hc').trans h.visited
  have hv₁ : s₁.visited = insert insn.address s.visited := congrArg AnalysisContext.visited hc
  have hm : s'.module = s₂.module := congrArg AnalysisContext.module hc'
  have hm₁ : s₁.module = s.module.addInstruction insn := congrArg AnalysisContext.module hc
  refine
    { visited := hv.trans hv₁, count := hn, functions := ?_, functionByStart := ?_
      symbolTable := ?_, start := ?_, work := ?_, work_length := ?_, functionWork := ?_
      queue_length := ?_, callSites := ?_, condTarget := ?_, transfer := ?_ }
  · rw [hm, h.functions, hm₁, addInstruction_functions]
  · rw [hm, h.functionByStart, hm₁, addInstruction_functionByStart]
  · rw [hm, h.symbolTable, hm₁, addInstruction_symbolTable]
  · rw [hf', h.start, hf]
  · rw [hw', ← hw]
    exact h.work
  · rw [hw', ← hw]
    exact h.work_length
  · rw [hq', ← hq]
    exact h.functionWork
  · rw [hq', hf', ← hq, ← hf]
    exact h.queue_length
  · rw [hf', ← hf]
    exact h.callSites
  · intro hcat a ha hcode
    rw [hv, hw']
    exact hcond hcat a ha hcode
  · intro hcat a ha hcode
    rw [hv, hq', hf']
    refine (htrans hcat a ha hcode).imp id (Or.imp (fun hk => ?_) id)
    have hk' : (s.enter insn).module.InKnown a := by
      rw [hm₁] at hk
      exact hk
    exact inKnown_enter hk'

/-- Closing a block is not affected by recording the instruction first. -/
theorem closes_of_enter {s₁ s₂ s' : AnalyzeState} {bb : BasicBlock} {stop : Nat} {succs : List Nat}
    (h : Closes bb stop succs s₁ s₂) (hf : s₁.function = s.function)
    (hf' : s'.function = s₂.function) (hb : s'.bb = s₂.bb) : Closes bb stop succs s s' where
  closed := hb.trans h.closed
  block := by rw [hf', ← hf]; exact h.block

/-- The state in which an instruction is handled that is not a trampoline's jump. -/
def AnalyzeState.recorded (s : AnalyzeState) (insn : ExtendedInstruction) : AnalyzeState :=
  (s.enter insn).countInsn.countStack insn.instruction

/-- What a pass that decodes `insn` does, by the kind of the instruction; `inserted` says whether
its record is new. -/
inductive DecodeOut (t : Target) (insn : ExtendedInstruction) (inserted : Bool) (s : AnalyzeState) :
    Loop.Out AnalyzeState → Prop
  | trampoline (hfirst : s.localInsnCount = 0) (hcat : insn.instruction.category = .uncondBr) :
    DecodeOut t insn inserted s
      (.done (handleTrampoline t insn inserted s.currentBlock (s.enter insn)).countInsn)
  | call (hcat : insn.instruction.category = .call) : DecodeOut t insn inserted s
      (.next ((handleCall t insn inserted s.currentBlock (s.recorded insn)).advance insn))
  | condBr (hcat : insn.instruction.category = .condBr) : DecodeOut t insn inserted s
      (.next ((handleBranch t insn inserted s.currentBlock (s.recorded insn)).advance insn))
  | uncondBr (hcat : insn.instruction.category = .uncondBr) (hlater : s.localInsnCount ≠ 0) :
    DecodeOut t insn inserted s
      (.done (handleBranch t insn inserted s.currentBlock (s.recorded insn)))
  | ret (hcat : insn.instruction.category = .ret) : DecodeOut t insn inserted s
      (.done ((s.recorded insn).closeBlock s.currentBlock insn.next insn.address).addBasicBlock)
  | other (hcat : insn.instruction.category = .other) : DecodeOut t insn inserted s
      (.next (({ s.recorded insn with bb := some s.currentBlock } : AnalyzeState).advance insn))

theorem decodeInsn_out (t : Target) (insn : ExtendedInstruction) (s : AnalyzeState) :
    DecodeOut t insn (!s.module.instructions.contains insn.address) s (decodeInsn t insn s) := by
  unfold decodeInsn
  dsimp only
  split
  · rename_i h0
    exact .trampoline h0.1 h0.2
  · rename_i h0
    cases hcat : insn.instruction.category with
    | call => exact .call hcat
    | condBr => exact .condBr hcat
    | uncondBr => exact .uncondBr hcat fun hfirst => h0 ⟨hfirst, hcat⟩
    | ret => exact .ret hcat
    | other => exact .other hcat

/-- The ways to the next pass, and the ways to the end of the loop. -/
theorem decodeInsn_result {s' : AnalyzeState}
    (h : decodeInsn t insn s = .next s' ∨ decodeInsn t insn s = .done s') :
    ∃ inserted, inserted = (!s.module.instructions.contains insn.address) ∧
      (DecodeOut t insn inserted s (.next s') ∨ DecodeOut t insn inserted s (.done s')) := by
  have hout := decodeInsn_out t insn s
  rcases h with h | h
  · exact ⟨_, rfl, .inl (h ▸ hout)⟩
  · exact ⟨_, rfl, .inr (h ▸ hout)⟩

/-- **One decoded instruction.** -/
theorem decodeInsn_effect : DecodeEffect t insn s (decodeInsn t insn s) := by
  have hout := decodeInsn_out t insn s
  generalize (!s.module.instructions.contains insn.address) = inserted at hout
  generalize decodeInsn t insn s = o at hout ⊢
  cases hout with
  | trampoline hfirst hcat =>
    have hh := handleTrampoline_handled t insn inserted s.currentBlock (s.enter insn)
    have hcl := handleTrampoline_closes t insn inserted s.currentBlock (s.enter insn)
    refine .jump hcat (decoded_of_handled hh rfl rfl rfl rfl rfl rfl rfl rfl ?_ ?_ ?_) ?_
    · exact congrArg (· + 1) hh.count
    · simp [hcat]
    · intro _ a ha _
      exact .inr (.inr (.inr (handleTrampoline_target t insn inserted _ _ ha)))
    · rw [if_pos hfirst]
      exact closes_of_enter hcl rfl rfl rfl
  | call hcat =>
    have hh := handleCall_handled t insn inserted s.currentBlock (s.recorded insn)
    obtain ⟨hblocks, hopen⟩ := handleCall_block t insn inserted s.currentBlock (s.recorded insn)
    refine .straight (.inl hcat) (decoded_of_handled hh rfl rfl rfl rfl rfl rfl rfl rfl
      hh.count ?_ ?_) rfl hblocks hopen
    · simp [hcat]
    · intro _ a ha hcode
      rcases handleCall_target t insn inserted s.currentBlock (s.recorded insn) ha hcode with h | h
      · exact .inl h
      · exact .inr (.inr (.inl h))
  | condBr hcat =>
    have hh := handleBranch_handled t insn inserted s.currentBlock (s.recorded insn)
    have hcl := handleBranch_closes t insn inserted s.currentBlock (s.recorded insn)
    refine .cond hcat (decoded_of_handled hh rfl rfl rfl rfl rfl rfl rfl rfl
      hh.count ?_ ?_) rfl (closes_of_enter hcl rfl rfl rfl)
    · intro _ a ha hcode
      have := handleBranch_target t insn inserted s.currentBlock (s.recorded insn) ha hcode
      rwa [if_neg (by rw [hcat]; exact ZydisCategory.noConfusion)] at this
    · simp [hcat]
  | uncondBr hcat hlater =>
    have hh := handleBranch_handled t insn inserted s.currentBlock (s.recorded insn)
    have hcl := handleBranch_closes t insn inserted s.currentBlock (s.recorded insn)
    refine .jump hcat (decoded_of_handled hh rfl rfl rfl rfl rfl rfl rfl rfl hh.count ?_ ?_) ?_
    · simp [hcat]
    · intro _ a ha hcode
      have := handleBranch_target t insn inserted s.currentBlock (s.recorded insn) ha hcode
      rw [if_pos hcat] at this
      rcases this with h | h | h
      · exact .inl h
      · exact .inr (.inl h)
      · exact .inr (.inr (.inl h))
    · rw [if_neg hlater]
      exact closes_of_enter hcl rfl rfl rfl
  | ret hcat =>
    have hh := closeBlock_handled (Handled.refl (s.recorded insn)) s.currentBlock insn.next
      insn.address
    have hcl := closeBlock_closes s.currentBlock insn.next insn.address
      (rfl : (s.recorded insn).function.basicBlocks = (s.recorded insn).function.basicBlocks) rfl
      (List.append_nil _).symm
    refine .ret hcat (decoded_of_handled hh rfl rfl rfl rfl rfl rfl rfl rfl hh.count ?_ ?_)
      (closes_of_enter hcl rfl rfl rfl)
    · simp [hcat]
    · simp [hcat]
  | other hcat =>
    refine .straight (.inr hcat) (decoded_of_handled (Handled.refl (s.recorded insn)) rfl rfl rfl
      rfl rfl rfl rfl rfl rfl ?_ ?_) rfl rfl ⟨_, rfl, ⟨rfl, rfl, rfl⟩⟩
    · simp [hcat]
    · simp [hcat]

/-- What a pass that decodes `insn` leaves, however it goes on: its block, open or closed. -/
theorem DecodeEffect.result {s' : AnalyzeState} {o : Loop.Out AnalyzeState}
    (h : DecodeEffect t insn s o) (ho : o = .next s' ∨ o = .done s') : Decoded t insn s s' ∧
      ((s'.function.basicBlocks = s.function.basicBlocks ∧
          ∃ b, s'.bb = some b ∧ SameBlock s.currentBlock b) ∨
        ∃ succs, Closes s.currentBlock insn.next succs s s') := by
  cases h with
  | straight _ hdec _ hblocks hopen =>
    rcases ho with ho | ho <;> cases ho
    exact ⟨hdec, .inl ⟨hblocks, hopen⟩⟩
  | cond _ hdec _ hc =>
    rcases ho with ho | ho <;> cases ho
    exact ⟨hdec, .inr ⟨_, hc⟩⟩
  | jump _ hdec hc =>
    rcases ho with ho | ho <;> cases ho
    exact ⟨hdec, .inr ⟨_, hc⟩⟩
  | ret _ hdec hc =>
    rcases ho with ho | ho <;> cases ho
    exact ⟨hdec, .inr ⟨_, hc⟩⟩

end

end ReWizard
