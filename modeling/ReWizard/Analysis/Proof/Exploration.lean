import ReWizard.Analysis.Proof.DecodeStep
import Mathlib.Order.Interval.Finset.Nat

/-!
# The loops of `AnalyzeFunction`

The loops finish within their bounds, because every decoded instruction is a newly visited address
of the mapping (`Progress`), and what they leave is closed under the flow of control (`Explored`):

* `decode_run`, `decodeFrom_progress`, `Explored.decodeFrom`: the inner loop;
* `analyzeBlocks_exits`: the outer loop is left with no work;
* `analyzeBlocks_explored`: every flow of control out of a newly visited instruction leads to a
  visited address or to bytes that do not decode.
-/

namespace ReWizard

/-- The address is mapped. -/
def Target.Mapped (t : Target) (a : Nat) : Prop :=
  t.loader.currentImageBase ≤ a ∧ a < t.loader.imageEnd

theorem Target.InCode.mapped {t : Target} {a : Nat} (h : t.InCode a) : t.Mapped a :=
  FileLoader.isWithinMapping_iff.mp h.1

theorem Target.Mapped.pos {t : Target} {a : Nat} (h : t.Mapped a) : a ≠ 0 := by
  have h1 := t.loader.base_pos
  have h2 := h.1
  omega

/-! ## Static control flow -/

/-- Control flows from the instruction at `v` on to the next one or to the target of a direct
conditional branch. -/
inductive Flow (t : Target) (v : Nat) : Nat → Prop
  | fallThrough {i : ExtendedInstruction} : t.disassemble v = some i →
      i.instruction.category ≠ .uncondBr → i.instruction.category ≠ .ret → Flow t v i.next
  | condTarget {i : ExtendedInstruction} {a : Nat} : t.disassemble v = some i →
      i.instruction.category = .condBr → i.directTarget = some a → Flow t v a

/-- Control is transferred from the instruction at `v` by a direct call or jump. -/
inductive Transfer (t : Target) (v : Nat) : Nat → Prop
  | mk {i : ExtendedInstruction} {a : Nat} : t.disassemble v = some i →
      i.instruction.category = .call ∨ i.instruction.category = .uncondBr →
      i.directTarget = some a → Transfer t v a

/-! ## Progress -/

/-- The mapped addresses that are not visited. -/
def unvisited (t : Target) (visited : Finset Nat) : Nat :=
  (Finset.Ico t.loader.currentImageBase t.loader.imageEnd \ visited).card

theorem unvisited_le (t : Target) (visited : Finset Nat) :
    unvisited t visited ≤ t.loader.mappedSize := by
  refine le_trans (Finset.card_le_card Finset.sdiff_subset) ?_
  rw [Nat.card_Ico]
  unfold FileLoader.imageEnd
  omega

theorem unvisited_insert {t : Target} {visited : Finset Nat} {a : Nat} (ha : a ∉ visited)
    (hm : t.Mapped a) : unvisited t (insert a visited) + 1 = unvisited t visited := by
  unfold unvisited
  have hmem : a ∈ Finset.Ico t.loader.currentImageBase t.loader.imageEnd \ visited :=
    Finset.mem_sdiff.mpr ⟨Finset.mem_Ico.mpr hm, ha⟩
  rw [Finset.sdiff_insert, ← Finset.card_erase_add_one hmem]

/-- What every part of `AnalyzeFunction` keeps and what it uses up: each newly visited address pays
for the queue entries and call sites that its instruction adds. -/
structure Progress (t : Target) (s s' : AnalyzeState) : Prop where
  functions : s'.module.functions = s.module.functions
  functionByStart : s'.module.functionByStart = s.module.functionByStart
  symbolTable : s'.module.symbolTable = s.module.symbolTable
  start : s'.function.startAddress = s.function.startAddress
  visited : s.visited ⊆ s'.visited
  decodes : ∀ a ∈ s'.visited, a ∈ s.visited ∨ (t.Mapped a ∧ (t.disassemble a).isSome)
  functionWork : s.functionWork <+: s'.functionWork
  callSites : ∀ a b, b ≠ 0 → addrPair a b ∈ s.function.callSites →
    addrPair a b ∈ s'.function.callSites
  work_le : s'.work.length + unvisited t s'.visited ≤ s.work.length + unvisited t s.visited
  queue_le : s'.functionWork.length + s'.function.callSites.toList.length +
      2 * unvisited t s'.visited ≤
    s.functionWork.length + s.function.callSites.toList.length + 2 * unvisited t s.visited

namespace Progress

variable {t : Target} {s s' s'' : AnalyzeState}

theorem refl (t : Target) (s : AnalyzeState) : Progress t s s where
  functions := rfl
  functionByStart := rfl
  symbolTable := rfl
  start := rfl
  visited := Finset.Subset.refl _
  decodes := fun _ ha => .inl ha
  functionWork := List.prefix_rfl
  callSites := fun _ _ _ h => h
  work_le := Nat.le_refl _
  queue_le := Nat.le_refl _

theorem trans (h : Progress t s s') (h' : Progress t s' s'') : Progress t s s'' where
  functions := h'.functions.trans h.functions
  functionByStart := h'.functionByStart.trans h.functionByStart
  symbolTable := h'.symbolTable.trans h.symbolTable
  start := h'.start.trans h.start
  visited := h.visited.trans h'.visited
  decodes := fun a ha => (h'.decodes a ha).elim (h.decodes a) .inr
  functionWork := h.functionWork.trans h'.functionWork
  callSites := fun a b hb hm => h'.callSites a b hb (h.callSites a b hb hm)
  work_le := h'.work_le.trans h.work_le
  queue_le := h'.queue_le.trans h.queue_le

/-- Only the fields that `Progress` speaks of matter. -/
theorem congr (h : Progress t s s') (hc : s''.context = s'.context)
    (hs : s''.function.startAddress = s'.function.startAddress)
    (hcs : s''.function.callSites = s'.function.callSites)
    (hw : s''.work.length ≤ s'.work.length) (hq : s''.functionWork = s'.functionWork) :
    Progress t s s'' := by
  have hv : s''.visited = s'.visited := congrArg AnalysisContext.visited hc
  have hm : s''.module = s'.module := congrArg AnalysisContext.module hc
  refine { functions := hm ▸ h.functions, functionByStart := hm ▸ h.functionByStart
           symbolTable := hm ▸ h.symbolTable, start := hs.trans h.start
           visited := hv ▸ h.visited, decodes := hv ▸ h.decodes
           functionWork := hq ▸ h.functionWork, callSites := hcs ▸ h.callSites
           work_le := ?_, queue_le := ?_ }
  · have := h.work_le
    rw [hv]
    omega
  · rw [hv, hq, hcs]
    exact h.queue_le

/-- One decoded instruction. -/
theorem of_decoded {insn : ExtendedInstruction} (h : Decoded t insn s s') (hm : t.Mapped s.pc)
    (hpc : s.pc ∉ s.visited) (hd : t.disassemble s.pc = some insn) : Progress t s s' := by
  obtain ⟨haddr, -⟩ := Target.disassemble_eq_some hd
  have hv : s'.visited = insert s.pc s.visited := haddr ▸ h.visited
  have hu := unvisited_insert hpc hm
  have hw := h.work_length
  have hq := h.queue_length
  refine { functions := h.functions, functionByStart := h.functionByStart
           symbolTable := h.symbolTable, start := h.start
           visited := hv ▸ Finset.subset_insert _ _, decodes := fun a ha => ?_
           functionWork := h.functionWork, callSites := h.callSites, work_le := ?_
           queue_le := ?_ }
  · rw [hv] at ha
    rcases Finset.mem_insert.mp ha with rfl | ha
    · exact .inr ⟨hm, by rw [hd]; rfl⟩
    · exact .inl ha
  · rw [hv]
    omega
  · rw [hv]
    omega

end Progress

/-! ## One pass of the inner loop -/

section

variable {t : Target}

/-- The ways a pass of the inner loop goes: it stops at once, it closes the block before bytes that
do not decode, or it decodes an instruction. -/
theorem decodeStep_cases (t : Target) (s : AnalyzeState) :
    (decodeStep t s = .done s ∧
      (s.pc ∈ s.visited ∨ ¬ t.Mapped s.pc ∨ (t.disassemble s.pc = none ∧ s.bb = none))) ∨
    (s.pc ∉ s.visited ∧ t.Mapped s.pc ∧ t.disassemble s.pc = none ∧
      ∃ bb last, s.bb = some bb ∧ decodeStep t s = .done (s.closeBlock bb s.pc last)) ∨
    (s.pc ∉ s.visited ∧ t.Mapped s.pc ∧ ∃ insn, t.disassemble s.pc = some insn ∧
      DecodeEffect t insn s (decodeStep t s)) := by
  unfold decodeStep
  by_cases hv : s.pc ∈ s.visited
  · rw [if_pos hv]
    exact .inl ⟨rfl, .inl hv⟩
  · rw [if_neg hv]
    by_cases hm : t.Mapped s.pc
    · have hm' : ¬ (s.pc < t.loader.currentImageBase ∨ t.loader.imageEnd ≤ s.pc) := by
        have := hm.1
        have := hm.2
        omega
      rw [if_neg hm']
      cases hd : t.disassemble s.pc with
      | none =>
        cases hb : s.bb with
        | none => exact .inl ⟨rfl, .inr (.inr ⟨rfl, rfl⟩)⟩
        | some bb => exact .inr (.inl ⟨hv, hm, rfl, bb, _, rfl, rfl⟩)
      | some insn => exact .inr (.inr ⟨hv, hm, insn, rfl, decodeInsn_effect⟩)
    · have hm' : s.pc < t.loader.currentImageBase ∨ t.loader.imageEnd ≤ s.pc := by
        unfold Target.Mapped at hm
        omega
      rw [if_pos hm']
      exact .inl ⟨rfl, .inr (.inl hm)⟩

/-- A pass that goes on has decoded an instruction. -/
theorem decodeStep_next_effect {s s' : AnalyzeState} (h : decodeStep t s = .next s') :
    s.pc ∉ s.visited ∧ t.Mapped s.pc ∧ ∃ insn, t.disassemble s.pc = some insn ∧
      DecodeEffect t insn s (.next s') := by
  rcases decodeStep_cases t s with ⟨h', -⟩ | ⟨-, -, -, bb, last, -, h'⟩ | ⟨hv, hm, insn, hd, he⟩
  · rw [h'] at h
    cases h
  · rw [h'] at h
    cases h
  · exact ⟨hv, hm, insn, hd, h ▸ he⟩

/-- Control flows out of that instruction. -/
theorem decodeStep_next {s s' : AnalyzeState} (h : decodeStep t s = .next s') :
    s.pc ∉ s.visited ∧ t.Mapped s.pc ∧ ∃ insn, t.disassemble s.pc = some insn ∧
      Decoded t insn s s' ∧ s'.pc = insn.next := by
  obtain ⟨hv, hm, insn, hd, he⟩ := decodeStep_next_effect h
  cases he with
  | straight _ hdec hpc _ _ => exact ⟨hv, hm, insn, hd, hdec, hpc⟩
  | cond _ hdec hpc _ => exact ⟨hv, hm, insn, hd, hdec, hpc⟩

/-- What a pass leaves, however it goes on: nothing new, the open block closed before bytes that do
not decode, or a decoded instruction. -/
theorem decodeStep_result {s s' : AnalyzeState}
    (hn : decodeStep t s = .next s' ∨ decodeStep t s = .done s') :
    (s' = s ∧ (s.pc ∈ s.visited ∨ ¬ t.Mapped s.pc ∨ t.disassemble s.pc = none)) ∨
    (t.disassemble s.pc = none ∧ ∃ bb last, s.bb = some bb ∧ s' = s.closeBlock bb s.pc last) ∨
    (s.pc ∉ s.visited ∧ t.Mapped s.pc ∧ ∃ insn, t.disassemble s.pc = some insn ∧
      Decoded t insn s s' ∧
      ((s'.function.basicBlocks = s.function.basicBlocks ∧
          ∃ b, s'.bb = some b ∧ SameBlock s.currentBlock b) ∨
        ∃ succs, Closes s.currentBlock insn.next succs s s')) := by
  rcases decodeStep_cases t s with ⟨h', hstop⟩ | ⟨-, -, hnone, bb, last, hb, h'⟩ |
    ⟨hv, hm, insn, hd, he⟩
  · rw [h'] at hn
    rcases hn with hn | hn <;> cases hn
    exact .inl ⟨rfl, hstop.imp id (Or.imp id And.left)⟩
  · rw [h'] at hn
    rcases hn with hn | hn <;> cases hn
    exact .inr (.inl ⟨hnone, bb, last, hb, rfl⟩)
  · exact .inr (.inr ⟨hv, hm, insn, hd, he.result hn⟩)

theorem decodeStep_progress {s s' : AnalyzeState}
    (hn : decodeStep t s = .next s' ∨ decodeStep t s = .done s') : Progress t s s' := by
  rcases decodeStep_result hn with ⟨rfl, -⟩ | ⟨-, bb, last, -, rfl⟩ | ⟨hv, hm, insn, hd, hdec, -⟩
  · exact Progress.refl t _
  · exact (Progress.refl t s).congr rfl rfl rfl (Nat.le_refl _) rfl
  · exact .of_decoded hdec hm hv hd

/-- The inner loop finishes within its bound. -/
theorem decode_run (t : Target) (s : AnalyzeState) :
    Loop.run (decodeStep t) (t.loader.mappedSize + 1) s =
      some (Loop.exec (decodeStep t) (t.loader.mappedSize + 1) s) := by
  refine Loop.run_eq_exec (I := fun _ => True) (fun s => unvisited t s.visited)
    (fun s s' _ h => ⟨trivial, ?_⟩) trivial (Nat.lt_succ_of_le (unvisited_le t _))
  obtain ⟨hv, hm, insn, hd, hdec, -⟩ := decodeStep_next h
  obtain ⟨haddr, -⟩ := Target.disassemble_eq_some hd
  have := unvisited_insert hv hm
  rw [show s'.visited = insert s.pc s.visited from haddr ▸ hdec.visited]
  omega

theorem decode_exits (t : Target) (s : AnalyzeState) :
    Loop.Exits (decodeStep t) s (Loop.exec (decodeStep t) (t.loader.mappedSize + 1) s) :=
  Loop.exits_of_run (decode_run t s)

theorem exits_progress {s s' : AnalyzeState} (h : Loop.Exits (decodeStep t) s s') :
    Progress t s s' := by
  obtain ⟨r, hr, hd⟩ := h.inv (I := fun r => Progress t s r) (Progress.refl t s)
    fun r r' hr hn => hr.trans (decodeStep_progress (.inl hn))
  exact hr.trans (decodeStep_progress (.inr hd))

theorem addBasicBlock_congr {s s' : AnalyzeState} (h : Progress t s s') :
    Progress t s s'.addBasicBlock := by
  unfold AnalyzeState.addBasicBlock
  cases s'.bb with
  | none => exact h
  | some b => exact h.congr rfl rfl rfl (Nat.le_refl _) rfl

theorem decodeFrom_progress (pc : Nat) (s : AnalyzeState) : Progress t s (decodeFrom t pc s) := by
  have h0 : Progress t s { s with pc := pc, bb := none } :=
    (Progress.refl t s).congr rfl rfl rfl (Nat.le_refl _) rfl
  exact addBasicBlock_congr (h0.trans (exits_progress (decode_exits t _)))

/-! ## The outer loop -/

/-- A pass of the outer loop takes the first address of the work list. -/
theorem workStep_next {s s' : AnalyzeState} (h : workStep t s = .next s') :
    ∃ pc rest, s.work = pc :: rest ∧
      ((pc ∈ s.visited ∧ s' = { s with work := rest }) ∨
        (pc ∉ s.visited ∧ s' = decodeFrom t pc { s with work := rest })) := by
  unfold workStep at h
  split at h
  · cases h
  · rename_i pc rest hw
    refine ⟨pc, rest, hw, ?_⟩
    dsimp only at h
    split at h
    · rename_i hv
      cases h
      exact .inl ⟨hv, rfl⟩
    · rename_i hv
      cases h
      exact .inr ⟨hv, rfl⟩

theorem workStep_done {s s' : AnalyzeState} (h : workStep t s = .done s') :
    s' = s ∧ s.work = [] := by
  unfold workStep at h
  split at h
  · rename_i hw
    cases h
    exact ⟨rfl, hw⟩
  · dsimp only at h
    split at h <;> cases h

theorem workStep_progress {s s' : AnalyzeState} (h : workStep t s = .next s') :
    Progress t s s' ∧
      s'.work.length + unvisited t s'.visited < s.work.length + unvisited t s.visited := by
  obtain ⟨pc, rest, hw, ⟨-, rfl⟩ | ⟨-, rfl⟩⟩ := workStep_next h
  · refine ⟨(Progress.refl t s).congr rfl rfl rfl ?_ rfl, ?_⟩
    · show rest.length ≤ s.work.length
      rw [hw]
      exact Nat.le_succ _
    · show rest.length + unvisited t s.visited < _
      rw [hw, List.length_cons]
      omega
  · have hp := decodeFrom_progress (t := t) pc { s with work := rest }
    have h0 : Progress t s { s with work := rest } :=
      (Progress.refl t s).congr rfl rfl rfl (by rw [hw]; exact Nat.le_succ _) rfl
    refine ⟨h0.trans hp, lt_of_le_of_lt hp.work_le ?_⟩
    show rest.length + unvisited t s.visited < _
    rw [hw, List.length_cons]
    omega

/-- The outer loop finishes within a bound for its work list. -/
theorem work_run (t : Target) {n : Nat} {s : AnalyzeState}
    (hn : s.work.length + t.loader.mappedSize < n) :
    Loop.run (workStep t) n s = some (Loop.exec (workStep t) n s) := by
  refine Loop.run_eq_exec (I := fun _ => True) (fun s => s.work.length + unvisited t s.visited)
    (fun s s' _ h => ⟨trivial, (workStep_progress h).2⟩) trivial ?_
  have := unvisited_le t s.visited
  omega

theorem analyzeBlocks_run (t : Target) (ctx : AnalysisContext) (f : Function) (start : Nat)
    (queue : List Nat) :
    Loop.run (workStep t) (t.loader.mappedSize + 2) (analyzeInit ctx f start queue) =
      some (analyzeBlocks t ctx f start queue) := by
  refine work_run t ?_
  show 1 + _ < _
  omega

theorem analyzeBlocks_exits (t : Target) (ctx : AnalysisContext) (f : Function) (start : Nat)
    (queue : List Nat) :
    Loop.Exits (workStep t) (analyzeInit ctx f start queue)
      (analyzeBlocks t ctx f start queue) :=
  Loop.exits_of_run (analyzeBlocks_run t ctx f start queue)

theorem analyzeBlocks_progress (ctx : AnalysisContext) (f : Function) (start : Nat)
    (queue : List Nat) :
    Progress t (analyzeInit ctx f start queue) (analyzeBlocks t ctx f start queue) ∧
      (analyzeBlocks t ctx f start queue).work = [] := by
  obtain ⟨r, hr, hd⟩ := (analyzeBlocks_exits t ctx f start queue).inv
    (I := Progress t (analyzeInit ctx f start queue)) (Progress.refl t _)
    fun r r' hr hn => hr.trans (workStep_progress hn).1
  obtain ⟨heq, hw⟩ := workStep_done hd
  rw [heq]
  exact ⟨hr, hw⟩

/-! ## What is explored -/

/-- Since `old` was visited, every flow of control out of a newly visited instruction is dealt with
(visited, in the work list, about to be decoded as `pending`, or not an instruction), every
transfer leads to a visited address, a known function, a function to explore or a recorded call
site, and `start` is dealt with like a target of a flow. -/
structure Explored (t : Target) (old : Finset Nat) (start : Nat) (s : AnalyzeState)
    (pending : Nat → Prop) : Prop where
  flow : ∀ v ∈ s.visited, v ∉ old → ∀ u, Flow t v u → t.InCode u →
    u ∈ s.visited ∨ u ∈ s.work ∨ pending u ∨ t.disassemble u = none
  transfer : ∀ v ∈ s.visited, v ∉ old → ∀ u, Transfer t v u → t.InCode u →
    u ∈ s.visited ∨ s.module.InKnown u ∨ u ∈ s.functionWork ∨
      ∃ c, addrPair c u ∈ s.function.callSites
  start : t.Mapped start → start ∈ s.visited ∨ start ∈ s.work ∨ pending start ∨
    t.disassemble start = none

namespace Explored

variable {old : Finset Nat} {start : Nat} {s s' : AnalyzeState} {P Q : Nat → Prop}

/-- Addresses that are pending may be dealt with in another way, and blocks do not matter. -/
theorem congr (h : Explored t old start s P) (hc : s'.context = s.context)
    (hq : s'.functionWork = s.functionWork)
    (hcs : s'.function.callSites = s.function.callSites)
    (hP : ∀ u, t.Mapped u → u ∈ s.work ∨ P u →
      u ∈ s'.visited ∨ u ∈ s'.work ∨ Q u ∨ t.disassemble u = none) :
    Explored t old start s' Q := by
  have hv : s'.visited = s.visited := congrArg AnalysisContext.visited hc
  have hm : s'.module = s.module := congrArg AnalysisContext.module hc
  have hres : ∀ u, t.Mapped u → (u ∈ s.visited ∨ u ∈ s.work ∨ P u ∨ t.disassemble u = none) →
      u ∈ s'.visited ∨ u ∈ s'.work ∨ Q u ∨ t.disassemble u = none := by
    intro u hu h
    rcases h with h | h | h | h
    · exact .inl (hv ▸ h)
    · exact hP u hu (.inl h)
    · exact hP u hu (.inr h)
    · exact .inr (.inr (.inr h))
  refine ⟨fun v hv' hold u hf hu => hres u hu.mapped (h.flow v (hv ▸ hv') hold u hf hu), ?_,
    fun hst => hres start hst (h.start hst)⟩
  rw [hv, hm, hq, hcs]
  exact h.transfer

/-- One decoded instruction, which was pending. Control flows on from it to what is pending next,
unless it ends the block without a fall-through. -/
theorem decoded {insn : ExtendedInstruction} (h : Explored t old start s (· = s.pc))
    (hd : t.disassemble s.pc = some insn) (hdec : Decoded t insn s s')
    (hQ : insn.instruction.category ≠ .uncondBr → insn.instruction.category ≠ .ret →
      Q insn.next) : Explored t old start s' Q := by
  obtain ⟨haddr, -⟩ := Target.disassemble_eq_some hd
  have hvis : s'.visited = insert s.pc s.visited := haddr ▸ hdec.visited
  have hsub : s.visited ⊆ s'.visited := hvis ▸ Finset.subset_insert _ _
  have hpc : s.pc ∈ s'.visited := hvis ▸ Finset.mem_insert_self _ _
  have hknown : ∀ u, s.module.InKnown u → s'.module.InKnown u := fun u ⟨f, hf, hr⟩ =>
    ⟨f, hdec.functions ▸ hf, hr⟩
  have hres : ∀ u, (u ∈ s.visited ∨ u ∈ s.work ∨ u = s.pc ∨ t.disassemble u = none) →
      u ∈ s'.visited ∨ u ∈ s'.work ∨ Q u ∨ t.disassemble u = none := by
    intro u h
    rcases h with h | h | rfl | h
    · exact .inl (hsub h)
    · exact .inr (.inl (hdec.work.subset h))
    · exact .inl hpc
    · exact .inr (.inr (.inr h))
  refine ⟨fun v hv hold u hf hu => ?_, fun v hv hold u hf hu => ?_, fun hst => hres _ (h.start hst)⟩
  · rw [hvis] at hv
    rcases Finset.mem_insert.mp hv with rfl | hv
    · cases hf with
      | fallThrough hd' h1 h2 =>
        rw [hd] at hd'
        cases hd'
        exact .inr (.inr (.inl (hQ h1 h2)))
      | condTarget hd' hcat ha =>
        rw [hd] at hd'
        cases hd'
        exact (hdec.condTarget hcat _ ha hu).imp id .inl
    · exact hres u (h.flow v hv hold u hf hu)
  · rw [hvis] at hv
    rcases Finset.mem_insert.mp hv with rfl | hv
    · obtain ⟨hd', hcat, ha⟩ := hf
      rw [hd] at hd'
      cases hd'
      rcases hdec.transfer hcat _ ha hu with h | h | h | h
      · exact .inl h
      · exact .inr (.inl (hknown _ h))
      · exact .inr (.inr (.inl h))
      · exact .inr (.inr (.inr ⟨_, h⟩))
    · rcases h.transfer v hv hold u hf hu with h | h | h | ⟨c, h⟩
      · exact .inl (hsub h)
      · exact .inr (.inl (hknown _ h))
      · exact .inr (.inr (.inl (hdec.functionWork.subset h)))
      · exact .inr (.inr (.inr ⟨c, hdec.callSites c u hu.mapped.pos h⟩))

/-- A pass of the inner loop. -/
theorem decodeStep_next' (h : Explored t old start s (· = s.pc))
    (hn : decodeStep t s = .next s') : Explored t old start s' (· = s'.pc) := by
  obtain ⟨-, -, insn, hd, hdec, hpc⟩ := decodeStep_next hn
  exact h.decoded hd hdec fun _ _ => hpc.symm

theorem decodeStep_done (h : Explored t old start s (· = s.pc))
    (hn : decodeStep t s = .done s') : Explored t old start s' fun _ => False := by
  rcases decodeStep_cases t s with ⟨h', hstop⟩ | ⟨-, -, hnone, bb, last, -, h'⟩ |
    ⟨-, -, insn, hd, he⟩
  · rw [h'] at hn
    cases hn
    refine h.congr rfl rfl rfl fun u hm hu => ?_
    rcases hu with hu | rfl
    · exact .inr (.inl hu)
    · rcases hstop with hv | hv | ⟨hv, -⟩
      · exact .inl hv
      · exact absurd hm hv
      · exact .inr (.inr (.inr hv))
  · rw [h'] at hn
    cases hn
    refine h.congr rfl rfl rfl fun u hm hu => ?_
    rcases hu with hu | rfl
    · exact .inr (.inl hu)
    · exact .inr (.inr (.inr hnone))
  · rw [hn] at he
    cases he with
    | jump hcat hdec _ => exact h.decoded hd hdec fun hne _ => absurd hcat hne
    | ret hcat hdec _ => exact h.decoded hd hdec fun _ hne => absurd hcat hne

theorem addBasicBlock (h : Explored t old start s P) : Explored t old start s.addBasicBlock P := by
  unfold AnalyzeState.addBasicBlock
  cases s.bb with
  | none => exact h
  | some b =>
    refine h.congr rfl rfl rfl fun u _ hu => ?_
    exact hu.elim (fun hu => .inr (.inl hu)) fun hu => .inr (.inr (.inl hu))

theorem decodeFrom {pc : Nat} (h : Explored t old start s (· = pc)) :
    Explored t old start (ReWizard.decodeFrom t pc s) fun _ => False := by
  have h0 : Explored t old start { s with pc := pc, bb := none } (· = pc) :=
    h.congr rfl rfl rfl fun u _ hu =>
      hu.elim (fun hu => .inr (.inl hu)) fun hu => .inr (.inr (.inl hu))
  obtain ⟨r, hr, hd⟩ := (decode_exits t { s with pc := pc, bb := none }).inv
    (I := fun r => Explored t old start r (· = r.pc)) h0 fun r r' hr hn => hr.decodeStep_next' hn
  exact (hr.decodeStep_done hd).addBasicBlock

/-- A pass of the outer loop. -/
theorem workStep (h : Explored t old start s fun _ => False)
    (hn : ReWizard.workStep t s = .next s') : Explored t old start s' fun _ => False := by
  obtain ⟨pc, rest, hw, ⟨hv, rfl⟩ | ⟨-, rfl⟩⟩ := workStep_next hn
  · refine h.congr rfl rfl rfl fun u _ hu => ?_
    rcases hu with hu | hu
    · rw [hw] at hu
      rcases List.mem_cons.mp hu with rfl | hu
      · exact .inl hv
      · exact .inr (.inl hu)
    · exact hu.elim
  · refine Explored.decodeFrom (h.congr rfl rfl rfl fun u _ hu => ?_)
    rcases hu with hu | hu
    · rw [hw] at hu
      rcases List.mem_cons.mp hu with rfl | hu
      · exact .inr (.inr (.inl rfl))
      · exact .inr (.inl hu)
    · exact hu.elim

end Explored

/-- **What `AnalyzeFunction` explores.** -/
theorem analyzeBlocks_explored (ctx : AnalysisContext) (f : Function) (start : Nat)
    (queue : List Nat) :
    Explored t ctx.visited start (analyzeBlocks t ctx f start queue) fun _ => False := by
  have h0 : Explored t ctx.visited start (analyzeInit ctx f start queue) fun _ => False :=
    ⟨fun v hv hold => absurd hv hold, fun v hv hold => absurd hv hold,
      fun _ => .inr (.inl List.mem_cons_self)⟩
  obtain ⟨r, hr, hd⟩ := (analyzeBlocks_exits t ctx f start queue).inv
    (I := fun r => Explored t ctx.visited start r fun _ => False) h0 fun r r' hr hn => hr.workStep hn
  obtain ⟨heq, -⟩ := workStep_done hd
  exact heq ▸ hr

end

end ReWizard
