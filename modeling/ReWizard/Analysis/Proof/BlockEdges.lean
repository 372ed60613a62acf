import ReWizard.Analysis.Proof.BlockCover

/-!
# The edges between blocks

Edges come from two places: a branch gives its block the successors it can go on to, and splitting
a block joins the halves. Nothing gives an edge to a block that runs into code which the call
decoded before, and the one-jump function of a trampoline has no edge at all.

* `Placed`: where a decoded instruction is found, and which of its successors are accounted for;
* `analyzeFunction_edgesComplete_iff`: with no instruction cut in two, the edges are complete
  exactly when no such block is left open and the function is not a jump to itself.
-/

namespace ReWizard

section

variable {t : Target}

/-! ## Static successors -/

/-- Control goes from the instruction at `v` on to the next one, or to the direct target of a branch
into executable mapped memory. -/
inductive StaticSuccessor (t : Target) (v : Nat) : Nat → Prop
  | fallThrough {i : ExtendedInstruction} : t.disassemble v = some i →
      i.instruction.category ≠ .uncondBr → i.instruction.category ≠ .ret →
      StaticSuccessor t v i.next
  | target {i : ExtendedInstruction} {a : Nat} : t.disassemble v = some i →
      i.instruction.category = .condBr ∨ i.instruction.category = .uncondBr →
      i.directTarget = some a → t.InCode a → StaticSuccessor t v a

/-- The instruction at `v` is neither a branch nor a return. -/
def Target.Straight (t : Target) (v : Nat) : Prop :=
  ∃ i, t.disassemble v = some i ∧
    (i.instruction.category = .call ∨ i.instruction.category = .other)

theorem Target.Straight.fallThrough {v : Nat} (h : t.Straight v) (hm : t.Mapped v) :
    StaticSuccessor t v (t.instrEnd v) := by
  obtain ⟨i, hd, hcat⟩ := h
  rw [Target.instrEnd_eq hd, ← Target.next_eq hd hm.2]
  refine .fallThrough hd ?_ ?_
  · rcases hcat with h | h <;> rw [h] <;> exact ZydisCategory.noConfusion
  · rcases hcat with h | h <;> rw [h] <;> exact ZydisCategory.noConfusion

theorem Target.Straight.successor {v u : Nat} (h : t.Straight v) (hm : t.Mapped v)
    (hs : StaticSuccessor t v u) : u = t.instrEnd v := by
  obtain ⟨i, hd, hcat⟩ := h
  cases hs with
  | fallThrough hd' _ _ =>
    rw [Target.instrEnd_eq hd', Target.next_eq hd' hm.2]
  | target hd' hcat' _ _ =>
    rw [hd] at hd'
    cases hd'
    rcases hcat with h | h <;> rw [h] at hcat' <;> rcases hcat' with h' | h' <;> cases h'

/-- A branch has its static successors among the successors that it gives its block. -/
theorem branchSuccessors_complete {i : ExtendedInstruction} {v u : Nat}
    (hd : t.disassemble v = some i)
    (hcat : i.instruction.category = .condBr ∨ i.instruction.category = .uncondBr)
    (hs : StaticSuccessor t v u) : u ∈ branchSuccessors t i := by
  unfold branchSuccessors
  cases hs with
  | fallThrough hd' hu _ =>
    rw [hd] at hd'
    cases hd'
    rw [if_pos (hcat.resolve_right hu)]
    exact List.mem_append_right _ List.mem_cons_self
  | target hd' _ ha hc =>
    rw [hd] at hd'
    cases hd'
    refine List.mem_append_left _ ?_
    unfold targetSuccessors
    rw [ha]
    dsimp only
    rw [if_pos hc]
    exact List.mem_cons_self

/-- Every static successor that was visited since `old` follows in the same block, or is a
successor of the block that ends with the instruction. -/
def EdgesComplete (t : Target) (old : Finset Nat) (r : AnalyzeState) : Prop :=
  ∀ v ∈ r.visited \ old, ∀ u ∈ r.visited \ old, StaticSuccessor t v u →
    ∃ b ∈ r.function.basicBlocks, b.Contains v ∧
      ((u = t.instrEnd v ∧ b.Contains u) ∨ (b.endAddress = t.instrEnd v ∧ u ∈ b.successors))

/-! ## What can go wrong -/

/-- The pass records `e` as a successor of the block that it closes. -/
def RecordsSuccessor (t : Target) (s : AnalyzeState) (e : Nat) : Prop :=
  Decodes t s ∧ ∃ i, t.disassemble s.pc = some i ∧
    (i.instruction.category = .condBr ∨
      (i.instruction.category = .uncondBr ∧ s.localInsnCount ≠ 0)) ∧ e ∈ branchSuccessors t i

/-- The pass records a successor strictly inside an instruction that the call decodes. -/
def CutsInstruction (t : Target) (s₀ s : AnalyzeState) : Prop :=
  ∃ e, RecordsSuccessor t s e ∧
    ∃ r, DecodePass t s₀ r ∧ Decodes t r ∧ r.pc < e ∧ e < t.instrEnd r.pc

/-- The pass leaves a block open, and the block has an edge: to the address visited since `old`
that it ran into, or between its own instructions. -/
def LosesEdge (t : Target) (old : Finset Nat) (s : AnalyzeState) : Prop :=
  LeavesBlockOpen t s ∧ (s.pc ∈ s.visited \ old ∨
    ∃ b, s.bb = some b ∧ t.instrEnd b.startAddress ≠ s.pc)

/-- The function begins with a jump to itself. -/
def JumpsToSelf (t : Target) (old : Finset Nat) (start : Nat) : Prop :=
  start ∉ old ∧ ∃ i, t.disassemble start = some i ∧ i.instruction.category = .uncondBr ∧
    i.directTarget = some start ∧ t.InCode start

/-! ## The open block -/

/-- The open block begins and ends with instructions visited since `old` that control falls
through, and has no successors yet. -/
structure OpenRun (t : Target) (old : Finset Nat) (s : AnalyzeState) (b : BasicBlock) : Prop where
  successors : b.successors = []
  first : b.startAddress ∈ s.visited \ old
  straight : t.Straight b.startAddress
  second : t.instrEnd b.startAddress = s.pc ∨ t.instrEnd b.startAddress ∈ s.visited \ old
  last : ∃ v ∈ s.visited \ old, b.startAddress ≤ v ∧ t.Straight v ∧ t.instrEnd v = s.pc

theorem OpenRun.start_le {old : Finset Nat} {s : AnalyzeState} {b : BasicBlock}
    (h : OpenRun t old s b) : b.startAddress ≤ s.pc := by
  obtain ⟨v, -, hle, -, hend⟩ := h.last
  have hpos : v ≤ t.instrEnd v := by
    unfold Target.instrEnd
    split <;> omega
  omega

theorem currentBlock_some {s : AnalyzeState} {b : BasicBlock} (hb : s.bb = some b) :
    s.currentBlock = b := by
  unfold AnalyzeState.currentBlock
  rw [hb]
  rfl

theorem currentBlock_none {s : AnalyzeState} (hb : s.bb = none) :
    s.currentBlock = BasicBlock.create s.pc := by
  unfold AnalyzeState.currentBlock
  rw [hb]
  rfl

/-- Whatever the open block is, it is such a run. -/
def OpenRuns (t : Target) (old : Finset Nat) (s : AnalyzeState) : Prop :=
  ∀ b, s.bb = some b → OpenRun t old s b

theorem OpenRuns.next {old : Finset Nat} {s s' : AnalyzeState} (h : OpenRuns t old s)
    (hold : old ⊆ s.visited) (hn : decodeStep t s = .next s') : OpenRuns t old s' := by
  obtain ⟨hv, hm, i, hd, he⟩ := decodeStep_next_effect hn
  obtain ⟨haddr, -⟩ := Target.disassemble_eq_some hd
  cases he with
  | straight hcat hdec hpc _ hopen =>
    obtain ⟨b, hb, hsame⟩ := hopen
    have hvis : s'.visited = insert s.pc s.visited := haddr ▸ hdec.visited
    have hend : t.instrEnd s.pc = s'.pc := by
      rw [Target.instrEnd_eq hd, hpc, Target.next_eq hd hm.2]
    have hnew : s.pc ∈ s'.visited \ old :=
      Finset.mem_sdiff.mpr ⟨hvis ▸ Finset.mem_insert_self _ _, fun h => hv (hold h)⟩
    have hsub : s.visited \ old ⊆ s'.visited \ old :=
      Finset.sdiff_subset_sdiff (hvis ▸ Finset.subset_insert _ _) (Finset.Subset.refl _)
    intro c hc
    rw [hb] at hc
    cases hc
    cases hbb : s.bb with
    | none =>
      have hcur := currentBlock_none hbb
      have hstart : b.startAddress = s.pc := by
        rw [hsame.start, hcur]
        rfl
      refine ⟨?_, hstart ▸ hnew, hstart ▸ ⟨i, hd, hcat⟩, .inl (hstart ▸ hend),
        s.pc, hnew, Nat.le_of_eq hstart, ⟨i, hd, hcat⟩, hend⟩
      rw [hsame.successors, hcur]
      rfl
    | some d =>
      have hle := (h d hbb).start_le
      obtain ⟨h1, h2, h3, h4, -⟩ := h d hbb
      have hcur := currentBlock_some hbb
      have hstart : b.startAddress = d.startAddress := by
        rw [hsame.start, hcur]
      refine ⟨?_, hstart ▸ hsub h2, hstart ▸ h3, .inr ?_, s.pc, hnew, hstart ▸ hle,
        ⟨i, hd, hcat⟩, hend⟩
      · rw [hsame.successors, hcur, h1]
      · rw [hstart]
        rcases h4 with h4 | h4
        · exact h4 ▸ hnew
        · exact hsub h4
  | cond _ _ _ hc =>
    intro c hc'
    rw [hc.closed] at hc'
    cases hc'

theorem addBasicBlock_bb (s : AnalyzeState) : s.addBasicBlock.bb = none := by
  unfold AnalyzeState.addBasicBlock
  split
  · assumption
  · rfl

/-! ## Where an instruction is found -/

/-- The instruction at `v` lies inside a closed block and control falls through it, or it ends the
block, which has its successors in `R`, or it lies in the open block, or none of its successors
is in `R`. -/
inductive Placed (t : Target) (R : Finset Nat) (s : AnalyzeState) (v : Nat) : Prop
  | inside {b : BasicBlock} (mem : b ∈ s.function.basicBlocks) (start : b.startAddress ≤ v)
      (stop : t.instrEnd v < b.endAddress) (straight : t.Straight v)
  | last {b : BasicBlock} (mem : b ∈ s.function.basicBlocks) (start : b.startAddress ≤ v)
      (stop : t.instrEnd v = b.endAddress)
      (succs : ∀ u ∈ R, StaticSuccessor t v u → u ∈ b.successors)
  | opened {b : BasicBlock} (bb : s.bb = some b) (start : b.startAddress ≤ v)
      (stop : t.instrEnd v ≤ s.pc) (straight : t.Straight v)
  | alone (succs : ∀ u ∈ R, ¬ StaticSuccessor t v u)

/-- Where the instructions visited since `old` are found. -/
structure Edges (t : Target) (s₀ : AnalyzeState) (old R : Finset Nat) (s : AnalyzeState) : Prop where
  keeps : old ⊆ s.visited
  decoded : ∀ v ∈ s.visited \ old, ∃ r, DecodePass t s₀ r ∧ Decodes t r ∧ r.pc = v
  placed : ∀ v ∈ s.visited \ old, Placed t R s v
  starts : ∀ b ∈ s.function.basicBlocks, b.startAddress ∈ s.visited \ old
  succs : ∀ b ∈ s.function.basicBlocks, ∀ e ∈ b.successors,
    ∃ r, DecodePass t s₀ r ∧ RecordsSuccessor t r e
  runs : OpenRuns t old s

namespace Edges

variable {s₀ : AnalyzeState} {old R : Finset Nat} {s s' : AnalyzeState}

theorem move (h : Edges t s₀ old R s) (hb : s.bb = none) (rest : List Nat) (pc : Nat) :
    Edges t s₀ old R { s with work := rest, pc := pc, bb := none } := by
  refine ⟨h.keeps, h.decoded, fun v hv => ?_, h.starts, h.succs, fun b hb => by cases hb⟩
  cases h.placed v hv with
  | inside h1 h2 h3 h4 => exact .inside h1 h2 h3 h4
  | last h1 h2 h3 h4 => exact .last h1 h2 h3 h4
  | opened h1 _ _ _ =>
    rw [hb] at h1
    cases h1
  | alone h1 => exact .alone h1

theorem addBasicBlock (h : Edges t s₀ old R s) (hb : s.bb = none) :
    Edges t s₀ old R s.addBasicBlock := by
  unfold AnalyzeState.addBasicBlock
  rw [hb]
  exact h

theorem mapped (h : Edges t s₀ old R s) {v : Nat} (hv : v ∈ s.visited \ old) : t.Mapped v := by
  obtain ⟨r, -, hr, rfl⟩ := h.decoded v hv
  exact hr.2.1

/-- The block of the next instruction has no successors yet, and begins with a visited instruction
or with that one. -/
theorem currentBlock (h : Edges t s₀ old R s) : s.currentBlock.successors = [] ∧
    s.currentBlock.startAddress ≤ s.pc ∧
    (s.currentBlock.startAddress = s.pc ∨ s.currentBlock.startAddress ∈ s.visited \ old) := by
  cases hb : s.bb with
  | none =>
    rw [currentBlock_none hb]
    exact ⟨rfl, Nat.le_refl _, .inl rfl⟩
  | some b =>
    rw [currentBlock_some hb]
    exact ⟨(h.runs b hb).successors, (h.runs b hb).start_le, .inr (h.runs b hb).first⟩

/-- What a decoded instruction adds to the visited addresses. -/
theorem visited_cases (h : Edges t s₀ old R s) (hpc : s.pc ∉ s.visited)
    (hvis : s'.visited = insert s.pc s.visited) : old ⊆ s'.visited ∧
      s.visited \ old ⊆ s'.visited \ old ∧ s.pc ∈ s'.visited \ old ∧
      ∀ v ∈ s'.visited \ old, v = s.pc ∨ v ∈ s.visited \ old := by
  refine ⟨hvis ▸ h.keeps.trans (Finset.subset_insert _ _),
    Finset.sdiff_subset_sdiff (hvis ▸ Finset.subset_insert _ _) (Finset.Subset.refl _),
    Finset.mem_sdiff.mpr ⟨hvis ▸ Finset.mem_insert_self _ _, fun hm => hpc (h.keeps hm)⟩,
    fun v hv => ?_⟩
  obtain ⟨hv, hold⟩ := Finset.mem_sdiff.mp hv
  rw [hvis] at hv
  exact (Finset.mem_insert.mp hv).imp id fun hv => Finset.mem_sdiff.mpr ⟨hv, hold⟩

/-- An instruction that closes the block with the successors `succs`. -/
theorem closes {i : ExtendedInstruction} {succs : List Nat} (h : Edges t s₀ old R s)
    (hp : DecodePass t s₀ s) (hdecs : Decodes t s) (hd : t.disassemble s.pc = some i)
    (hdec : Decoded t i s s') (hc : Closes s.currentBlock i.next succs s s')
    (hs : ∀ u ∈ R, StaticSuccessor t s.pc u → u ∈ succs)
    (hrec : ∀ e ∈ succs, RecordsSuccessor t s e) : Edges t s₀ old R s' := by
  obtain ⟨haddr, -, -, hpos, -⟩ := Target.disassemble_eq_some hd
  obtain ⟨hkeeps, hsub, hnew, hcases⟩ := h.visited_cases hdecs.1 (haddr ▸ hdec.visited)
  obtain ⟨hclosed, b, hblocks, hstart, hstop, hsucc⟩ := hc
  obtain ⟨hempty, hle, hcur⟩ := h.currentBlock
  have hnext := Target.next_eq hd hdecs.2.1.2
  have hend : t.instrEnd s.pc = i.next := (Target.instrEnd_eq hd).trans hnext.symm
  have hmem : b ∈ s'.function.basicBlocks := hblocks ▸ List.mem_append_right _ List.mem_cons_self
  have hold : ∀ c ∈ s.function.basicBlocks, c ∈ s'.function.basicBlocks := fun c hc =>
    hblocks ▸ List.mem_append_left _ hc
  have hlast : ∀ c ∈ s'.function.basicBlocks, c ∈ s.function.basicBlocks ∨ c = b := by
    intro c hc
    rw [hblocks] at hc
    exact (List.mem_append.mp hc).imp id List.mem_singleton.mp
  rw [hempty, List.nil_append] at hsucc
  refine ⟨hkeeps, fun v hv => ?_, fun v hv => ?_, fun c hc => ?_, fun c hc e he => ?_, fun c hc => ?_⟩
  · rcases hcases v hv with rfl | hv
    · exact ⟨s, hp, hdecs, rfl⟩
    · exact h.decoded v hv
  · rcases hcases v hv with rfl | hv
    · exact .last hmem (hstart ▸ hle) (hend.trans hstop.symm) fun u hu hsu => hsucc ▸ hs u hu hsu
    · cases h.placed v hv with
      | inside h1 h2 h3 h4 => exact .inside (hold _ h1) h2 h3 h4
      | last h1 h2 h3 h4 => exact .last (hold _ h1) h2 h3 h4
      | @opened d h1 h2 h3 h4 =>
        refine .inside hmem ?_ ?_ h4
        · rw [hstart, currentBlock_some h1]
          exact h2
        · rw [hstop]
          omega
      | alone h1 => exact .alone h1
  · rcases hlast c hc with hc | rfl
    · exact hsub (h.starts c hc)
    · rw [hstart]
      rcases hcur with hcur | hcur
      · exact hcur ▸ hnew
      · exact hsub hcur
  · rcases hlast c hc with hc | rfl
    · exact h.succs c hc e he
    · exact ⟨s, hp, hrec e (hsucc ▸ he)⟩
  · rw [hclosed] at hc
    cases hc

/-- An instruction that goes on in the same block. -/
theorem straight {i : ExtendedInstruction} (h : Edges t s₀ old R s) (hp : DecodePass t s₀ s)
    (hdecs : Decodes t s) (hd : t.disassemble s.pc = some i)
    (hcat : i.instruction.category = .call ∨ i.instruction.category = .other)
    (hdec : Decoded t i s s') (hpc : s'.pc = i.next)
    (hblocks : s'.function.basicBlocks = s.function.basicBlocks)
    (hopen : ∃ b, s'.bb = some b ∧ SameBlock s.currentBlock b)
    (hruns : OpenRuns t old s') : Edges t s₀ old R s' := by
  obtain ⟨haddr, -, -, hpos, -⟩ := Target.disassemble_eq_some hd
  obtain ⟨hkeeps, hsub, hnew, hcases⟩ := h.visited_cases hdecs.1 (haddr ▸ hdec.visited)
  obtain ⟨b, hb, hsame⟩ := hopen
  have hend : t.instrEnd s.pc = s'.pc := by
    rw [Target.instrEnd_eq hd, hpc, Target.next_eq hd hdecs.2.1.2]
  have hlt : s.pc < s'.pc := by
    rw [← hend, Target.instrEnd_eq hd]
    omega
  refine ⟨hkeeps, fun v hv => ?_, fun v hv => ?_, fun c hc => ?_, fun c hc e he => ?_, hruns⟩
  · rcases hcases v hv with rfl | hv
    · exact ⟨s, hp, hdecs, rfl⟩
    · exact h.decoded v hv
  · rcases hcases v hv with rfl | hv
    · exact .opened hb (hsame.start ▸ h.currentBlock.2.1) (Nat.le_of_eq hend) ⟨i, hd, hcat⟩
    · cases h.placed v hv with
      | inside h1 h2 h3 h4 => exact .inside (hblocks ▸ h1) h2 h3 h4
      | last h1 h2 h3 h4 => exact .last (hblocks ▸ h1) h2 h3 h4
      | @opened d h1 h2 h3 h4 =>
        refine .opened hb ?_ (by omega) h4
        rw [hsame.start, currentBlock_some h1]
        exact h2
      | alone h1 => exact .alone h1
  · exact hsub (h.starts c (hblocks ▸ hc))
  · exact h.succs c (hblocks ▸ hc) e he

theorem next (h : Edges t s₀ old R s) (hp : DecodePass t s₀ s) (hn : decodeStep t s = .next s') :
    Edges t s₀ old R s' := by
  have hruns := h.runs.next h.keeps hn
  obtain ⟨hv, hm, i, hd, he⟩ := decodeStep_next_effect hn
  have hdecs : Decodes t s := ⟨hv, hm, by rw [hd]; exact Option.some_ne_none _⟩
  cases he with
  | straight hcat hdec hpc hblocks hopen =>
    exact h.straight hp hdecs hd hcat hdec hpc hblocks hopen hruns
  | cond hcat hdec _ hc =>
    exact h.closes hp hdecs hd hdec hc
      (fun u _ hsu => branchSuccessors_complete hd (.inl hcat) hsu)
      fun e he => ⟨hdecs, i, hd, .inl hcat, he⟩

/-- The open block `b` is handed over as `c`. -/
theorem handOver (h : Edges t s₀ old R s) {b c : BasicBlock} (hb : s.bb = some b)
    (hv : s'.visited = s.visited)
    (hblocks : s'.function.basicBlocks = s.function.basicBlocks ++ [c]) (hb' : s'.bb = none)
    (hstart : c.startAddress = b.startAddress) (hsucc : c.successors = b.successors)
    (hplaced : ∀ v ∈ s.visited \ old, b.startAddress ≤ v → t.instrEnd v ≤ s.pc → t.Straight v →
      Placed t R s' v) : Edges t s₀ old R s' := by
  have hold : ∀ d ∈ s.function.basicBlocks, d ∈ s'.function.basicBlocks := fun d hd =>
    hblocks ▸ List.mem_append_left _ hd
  have hlast : ∀ d ∈ s'.function.basicBlocks, d ∈ s.function.basicBlocks ∨ d = c := by
    intro d hd
    rw [hblocks] at hd
    exact (List.mem_append.mp hd).imp id List.mem_singleton.mp
  refine ⟨hv ▸ h.keeps, hv ▸ h.decoded, fun v hvis => ?_, fun d hd => ?_, fun d hd e he => ?_,
    fun d hd => ?_⟩
  · rw [hv] at hvis
    cases h.placed v hvis with
    | inside h1 h2 h3 h4 => exact .inside (hold _ h1) h2 h3 h4
    | last h1 h2 h3 h4 => exact .last (hold _ h1) h2 h3 h4
    | opened h1 h2 h3 h4 =>
      rw [hb] at h1
      cases h1
      exact hplaced v hvis h2 h3 h4
    | alone h1 => exact .alone h1
  · rw [hv]
    rcases hlast d hd with hd | rfl
    · exact h.starts d hd
    · exact hstart ▸ (h.runs b hb).first
  · rcases hlast d hd with hd | rfl
    · exact h.succs d hd e he
    · rw [hsucc, (h.runs b hb).successors] at he
      cases he
  · rw [hb'] at hd
    cases hd

/-- Two instructions that do not overlap and span an address together are the same. -/
theorem eq_of_span {N : Finset Nat} (hdisj : ∀ x, spanCount t N x ≤ 1) {v w : Nat} (hv : v ∈ N)
    (hw : w ∈ N) (hlt : v < t.instrEnd v) (hwv : w ≤ v) (hvw : v < t.instrEnd w) : v = w :=
  Finset.card_le_one.mp (hdisj v) v (Finset.mem_filter.mpr ⟨hv, Nat.le_refl _, hlt⟩) w
    (Finset.mem_filter.mpr ⟨hw, hwv, hvw⟩)

theorem lt_end (h : Edges t s₀ old R s) {v : Nat} (hv : v ∈ s.visited \ old) :
    v < t.instrEnd v := by
  obtain ⟨r, -, hr, rfl⟩ := h.decoded v hv
  obtain ⟨i, hi⟩ := Option.ne_none_iff_exists'.mp hr.2.2
  obtain ⟨-, -, -, hpos, -⟩ := Target.disassemble_eq_some hi
  rw [Target.instrEnd_eq hi]
  omega

/-- Handing over a block that is left open and loses no edge: its one instruction goes nowhere. -/
theorem leave (h : Edges t s₀ old R s) {b : BasicBlock} (hb : s.bb = some b)
    (hR : ∀ u ∈ R, u ∉ old ∧ t.Mapped u ∧ t.disassemble u ≠ none)
    (hdisj : SpansDisjoint t old s.visited) (hstop : s.pc ∈ s.visited ∨ ¬ t.Mapped s.pc)
    (hlose : ¬ LosesEdge t old s) : Edges t s₀ old R s.addBasicBlock := by
  have hadd : s.addBasicBlock = { s with function := s.function.addBasicBlock b, bb := none } := by
    unfold AnalyzeState.addBasicBlock
    rw [hb]
  have hopen : LeavesBlockOpen t s := ⟨by rw [hb]; rfl, hstop⟩
  have hone : t.instrEnd b.startAddress = s.pc := by
    by_contra hne
    exact hlose ⟨hopen, .inr ⟨b, hb, hne⟩⟩
  have hpc : s.pc ∉ R := by
    intro hmem
    obtain ⟨hold, hm, -⟩ := hR _ hmem
    rcases hstop with hv | hm'
    · exact hlose ⟨hopen, .inl (Finset.mem_sdiff.mpr ⟨hv, hold⟩)⟩
    · exact hm' hm
  have hblocks : s.addBasicBlock.function.basicBlocks = s.function.basicBlocks ++ [b] := by
    rw [hadd]
    rfl
  refine h.handOver hb (addBasicBlock_visited s) hblocks (addBasicBlock_bb s) rfl rfl
    fun v hv hle hend hst => ?_
  have hlt := h.lt_end hv
  obtain rfl := eq_of_span hdisj hv (h.runs b hb).first hlt hle (by omega)
  refine .alone fun u hu hsu => hpc ?_
  rw [← hone, ← hst.successor (h.mapped hv) hsu]
  exact hu

/-- Handing over a block that was closed before bytes that do not decode. -/
theorem closeBefore (h : Edges t s₀ old R s) {b : BasicBlock} (hb : s.bb = some b) (last : Nat)
    (hR : ∀ u ∈ R, u ∉ old ∧ t.Mapped u ∧ t.disassemble u ≠ none)
    (hnone : t.disassemble s.pc = none) :
    Edges t s₀ old R (s.closeBlock b s.pc last).addBasicBlock := by
  refine h.handOver (c := { b with endAddress := s.pc, lastInsnAddr := last }) hb rfl rfl rfl rfl rfl
    fun v hv hle hend hst => ?_
  rcases Nat.lt_or_eq_of_le hend with hlt | heq
  · exact .inside (List.mem_append_right _ List.mem_cons_self) hle hlt hst
  · refine .last (List.mem_append_right _ List.mem_cons_self) hle heq fun u hu hsu => ?_
    rw [hst.successor (h.mapped hv) hsu, heq] at hu
    exact absurd hnone (hR _ hu).2.2

/-- Leaving the loop. The call ends with the instructions `R` visited, without overlaps; the pass
loses no edge and, if it is a trampoline, does not jump into `R`. -/
theorem done (h : Edges t s₀ old R s) (hp : DecodePass t s₀ s) (hn : decodeStep t s = .done s')
    (hR : ∀ u ∈ R, u ∉ old ∧ t.Mapped u ∧ t.disassemble u ≠ none)
    (hdisj : SpansDisjoint t old s.visited) (hlose : ¬ LosesEdge t old s)
    (hjump : Decodes t s → s.localInsnCount = 0 → ∀ i, t.disassemble s.pc = some i →
      i.instruction.category = .uncondBr → ∀ u ∈ R, ¬ StaticSuccessor t s.pc u) :
    Edges t s₀ old R s'.addBasicBlock := by
  rcases decodeStep_cases t s with ⟨h', hstop⟩ | ⟨hv, hm, hnone, bb, last, hb, h'⟩ |
    ⟨hv, hm, i, hd, he⟩
  · rw [h'] at hn
    cases hn
    cases hb : s.bb with
    | none => exact h.addBasicBlock hb
    | some b =>
      refine h.leave hb hR hdisj ?_ hlose
      rcases hstop with hv | hm | ⟨-, hnone⟩
      · exact .inl hv
      · exact .inr hm
      · rw [hb] at hnone
        cases hnone
  · rw [h'] at hn
    cases hn
    exact h.closeBefore hb last hR hnone
  · have hdecs : Decodes t s := ⟨hv, hm, by rw [hd]; exact Option.some_ne_none _⟩
    rw [hn] at he
    cases he with
    | jump hcat hdec hc =>
      refine (h.closes hp hdecs hd hdec hc (fun u hu hsu => ?_) fun e he => ?_).addBasicBlock
        hc.closed
      · split
        · rename_i h0
          exact absurd hsu (hjump hdecs h0 i hd hcat u hu)
        · exact branchSuccessors_complete hd (.inr hcat) hsu
      · split at he
        · cases he
        · rename_i h0
          exact ⟨hdecs, i, hd, .inr ⟨hcat, h0⟩, he⟩
    | ret hcat hdec hc =>
      refine (h.closes hp hdecs hd hdec hc (fun u hu hsu => ?_) fun e he => by cases he).addBasicBlock
        hc.closed
      cases hsu with
      | fallThrough hd' _ hr =>
        rw [hd] at hd'
        cases hd'
        exact absurd hcat hr
      | target hd' hc' _ _ =>
        rw [hd] at hd'
        cases hd'
        rw [hcat] at hc'
        rcases hc' with hc' | hc' <;> cases hc'

end Edges

/-! ## The first instruction -/

/-- A pass counts the instruction that it decodes, and adds no work otherwise. -/
theorem decodeStep_count {s s' : AnalyzeState}
    (hn : decodeStep t s = .next s' ∨ decodeStep t s = .done s') :
    s.localInsnCount < s'.localInsnCount ∨
      (s'.localInsnCount = s.localInsnCount ∧ s'.work = s.work) := by
  rcases decodeStep_result hn with ⟨rfl, -⟩ | ⟨-, bb, last, -, rfl⟩ | ⟨-, -, i, -, hdec, -⟩
  · exact .inr ⟨rfl, rfl⟩
  · exact .inr ⟨rfl, rfl⟩
  · exact .inl (hdec.count ▸ Nat.lt_succ_self _)

theorem addBasicBlock_work (s : AnalyzeState) : s.addBasicBlock.work = s.work ∧
    s.addBasicBlock.localInsnCount = s.localInsnCount := by
  unfold AnalyzeState.addBasicBlock
  split <;> exact ⟨rfl, rfl⟩

/-- As long as nothing is counted, the inner loop is in the state that it began in. -/
theorem reaches_count {s r : AnalyzeState} (h : Loop.Reaches (decodeStep t) s r) :
    r.localInsnCount = 0 → r = s :=
  h.inv (I := fun r => r.localInsnCount = 0 → r = s) (fun _ => rfl) fun r r' _ _ hn h0 => by
    obtain ⟨-, -, i, -, hdec, -⟩ := decodeStep_next hn
    rw [hdec.count] at h0
    cases h0

/-- Nothing is decoded before the first pass, which is at the start of the function. -/
theorem DecodePass.first {ctx : AnalysisContext} {f : Function} {start : Nat} {queue : List Nat}
    {s : AnalyzeState} (hp : DecodePass t (analyzeInit ctx f start queue) s)
    (h0 : s.localInsnCount = 0) : s.pc = start ∧ s.visited = ctx.visited := by
  obtain ⟨hw, hwork, hpc, hs⟩ := hp
  rename_i w pc rest
  have houter : w.localInsnCount = 0 → w = analyzeInit ctx f start queue ∨ w.work = [] := by
    refine hw.inv (I := fun w => w.localInsnCount = 0 →
      w = analyzeInit ctx f start queue ∨ w.work = []) (fun _ => .inl rfl) fun r r' _ hI hn hr' => ?_
    obtain ⟨pc, rest, hr, ⟨-, rfl⟩ | ⟨-, rfl⟩⟩ := workStep_next hn
    · rcases hI hr' with rfl | hempty
      · cases hr
        exact .inr rfl
      · rw [hempty] at hr
        cases hr
    · obtain ⟨q, hq, hd⟩ := (decode_exits t { r with work := rest, pc := pc, bb := none }).reached
      unfold decodeFrom at hr' ⊢
      rw [(addBasicBlock_work _).2] at hr'
      rw [(addBasicBlock_work _).1]
      rcases decodeStep_count (.inr hd) with hlt | ⟨hcount, hsame⟩
      · exact absurd (lt_of_lt_of_eq hlt hr') (Nat.not_lt_zero _)
      · rw [hcount] at hr'
        have hqr := reaches_count hq hr'
        rw [hqr] at hr'
        rw [hsame, hqr]
        rcases hI hr' with rfl | hempty
        · cases hr
          exact .inr rfl
        · rw [hempty] at hr
          cases hr
  have hsw := reaches_count hs h0
  rw [hsw] at h0 ⊢
  rcases houter h0 with rfl | hempty
  · cases hwork
    exact ⟨rfl, rfl⟩
  · rw [hempty] at hwork
    cases hwork

/-- A pass that finds a jump as the first instruction. -/
theorem decodeStep_trampoline {s : AnalyzeState} {i : ExtendedInstruction}
    (hv : s.pc ∉ s.visited) (hm : t.Mapped s.pc) (hd : t.disassemble s.pc = some i)
    (hfirst : s.localInsnCount = 0) (hcat : i.instruction.category = .uncondBr) :
    decodeStep t s = .done (handleTrampoline t i (!s.module.instructions.contains i.address)
      s.currentBlock (s.enter i)).countInsn := by
  have hm' : ¬ (s.pc < t.loader.currentImageBase ∨ t.loader.imageEnd ≤ s.pc) := by
    have h1 := hm.1
    have h2 := hm.2
    omega
  unfold decodeStep
  rw [if_neg hv, if_neg hm', hd]
  show decodeInsn t i s = _
  unfold decodeInsn
  exact if_pos ⟨hfirst, hcat⟩

/-- A call whose first run ends with nothing left to do. -/
theorem analyzeBlocks_of_done {ctx : AnalysisContext} {start : Nat} {queue : List Nat}
    {s s' : AnalyzeState} (hp : DecodePass t (analyzeInit ctx (newFunction start) start queue) s)
    (hstep : decodeStep t s = .done s') (hwork : s'.work = []) (hbb : s'.bb = none) :
    analyzeBlocks t ctx (newFunction start) start queue = s' := by
  have hadd : s'.addBasicBlock = s' := by
    unfold AnalyzeState.addBasicBlock
    rw [hbb]
  obtain ⟨x, hx, hreach⟩ := hp.leaves
  cases hx with
  | next hn _ =>
    rw [hstep] at hn
    cases hn
  | done hd' =>
    rw [hstep] at hd'
    cases hd'
    rw [hadd] at hreach
    cases hreach.exits (analyzeBlocks_exits t ctx (newFunction start) start queue) with
    | next hn _ =>
      obtain ⟨pc, rest, hw, -⟩ := workStep_next hn
      rw [hwork] at hw
      cases hw
    | done hd' => exact (workStep_done hd').1

/-- The function of a trampoline: the one jump, in a block without successors. -/
theorem analyzeBlocks_trampoline {ctx : AnalysisContext} {start : Nat} {queue : List Nat}
    {i : ExtendedInstruction} (hstart : start ∉ ctx.visited) (hm : t.Mapped start)
    (hd : t.disassemble start = some i) (hcat : i.instruction.category = .uncondBr) :
    (analyzeBlocks t ctx (newFunction start) start queue).visited = insert start ctx.visited ∧
      ∃ b, (analyzeBlocks t ctx (newFunction start) start queue).function.basicBlocks = [b] ∧
        b.startAddress = start ∧ b.successors = [] := by
  let s : AnalyzeState :=
    { analyzeInit ctx (newFunction start) start queue with work := [], pc := start }
  have hp : DecodePass t (analyzeInit ctx (newFunction start) start queue) s :=
    ⟨.refl, rfl, hstart, .refl⟩
  obtain ⟨haddr, -⟩ := Target.disassemble_eq_some hd
  have hstep := decodeStep_trampoline (s := s) hstart hm hd rfl hcat
  have hh := handleTrampoline_handled t i (!s.module.instructions.contains i.address)
    s.currentBlock (s.enter i)
  have hcl := handleTrampoline_closes t i (!s.module.instructions.contains i.address)
    s.currentBlock (s.enter i)
  rw [analyzeBlocks_of_done hp hstep (handleTrampoline_work t i _ _ _) hcl.closed]
  obtain ⟨b, hblocks, hbs, -, hsucc⟩ := hcl.block
  refine ⟨?_, b, hblocks, hbs, hsucc⟩
  show (handleTrampoline t i _ s.currentBlock (s.enter i)).visited = _
  rw [hh.visited]
  show insert i.address _ = _
  rw [haddr]
  rfl

/-! ## Complete edges -/

variable {ctx : AnalysisContext} {start : Nat} {queue : List Nat}

/-- No pass decodes an instruction that overlaps another one, or cuts one with a successor. -/
def Uncut (t : Target) (ctx : AnalysisContext) (start : Nat) (queue : List Nat) : Prop :=
  ∀ s, DecodePass t (analyzeInit ctx (newFunction start) start queue) s →
    ¬ OverlapsDecoded t ctx.visited s ∧
      ¬ CutsInstruction t (analyzeInit ctx (newFunction start) start queue) s

/-- The instructions that the call visits. -/
def newlyVisited (t : Target) (ctx : AnalysisContext) (start : Nat) (queue : List Nat) :
    Finset Nat :=
  (analyzeBlocks t ctx (newFunction start) start queue).visited \ ctx.visited

theorem newlyVisited_decodes {u : Nat} (hu : u ∈ newlyVisited t ctx start queue) :
    u ∉ ctx.visited ∧ t.Mapped u ∧ t.disassemble u ≠ none := by
  obtain ⟨hu, hold⟩ := Finset.mem_sdiff.mp hu
  rcases (analyzeBlocks_progress (t := t) ctx (newFunction start) start queue).1.decodes u hu with
    h | ⟨hm, hd⟩
  · exact absurd h hold
  · exact ⟨hold, hm, Option.isSome_iff_ne_none.mp hd⟩

/-- A trampoline that is not a jump to itself has no successor that the call visits. -/
theorem trampoline_successor (hself : ¬ JumpsToSelf t ctx.visited start) {s : AnalyzeState}
    (hp : DecodePass t (analyzeInit ctx (newFunction start) start queue) s) (hdecs : Decodes t s)
    (h0 : s.localInsnCount = 0) {i : ExtendedInstruction} (hd : t.disassemble s.pc = some i)
    (hcat : i.instruction.category = .uncondBr) :
    ∀ u ∈ newlyVisited t ctx start queue, ¬ StaticSuccessor t s.pc u := by
  obtain ⟨hpc, hvis⟩ := hp.first h0
  obtain ⟨hstart, hm, -⟩ := hdecs
  rw [hpc] at hd hm hstart ⊢
  rw [hvis] at hstart
  intro u hu hsu
  unfold newlyVisited at hu
  rw [(analyzeBlocks_trampoline hstart hm hd hcat).1] at hu
  obtain ⟨hu, hold⟩ := Finset.mem_sdiff.mp hu
  obtain rfl : u = start := (Finset.mem_insert.mp hu).resolve_right hold
  cases hsu with
  | fallThrough hd' hne _ =>
    rw [hd] at hd'
    cases hd'
    exact hne hcat
  | target hd' _ ha hc =>
    rw [hd] at hd'
    cases hd'
    exact hself ⟨hstart, i, hd, hcat, ha, hc⟩

/-- With no edge lost, every instruction of the call is placed. -/
theorem edges_run (hclean : Uncut t ctx start queue)
    (hlose : ∀ s, DecodePass t (analyzeInit ctx (newFunction start) start queue) s →
      ¬ LosesEdge t ctx.visited s) (hself : ¬ JumpsToSelf t ctx.visited start) :
    Edges t (analyzeInit ctx (newFunction start) start queue) ctx.visited
        (newlyVisited t ctx start queue)
        (analyzeBlocks t ctx (newFunction start) start queue) ∧
      (analyzeBlocks t ctx (newFunction start) start queue).bb = none := by
  have hdisj := (spansDisjoint_of_noOverlap fun s hp => (hclean s hp).1).2
  have hinit : Edges t (analyzeInit ctx (newFunction start) start queue) ctx.visited
      (newlyVisited t ctx start queue) (analyzeInit ctx (newFunction start) start queue) := by
    have hempty : ∀ v, v ∉ ctx.visited \ ctx.visited := fun v hv =>
      (Finset.mem_sdiff.mp hv).2 (Finset.mem_sdiff.mp hv).1
    exact ⟨Finset.Subset.refl _, fun v hv => absurd hv (hempty v),
      fun v hv => absurd hv (hempty v), fun b hb => absurd hb List.not_mem_nil,
      fun b hb => absurd hb List.not_mem_nil, fun b hb => (by cases hb)⟩
  exact (analysis_inv rfl hinit (fun _ rest pc h hb => h.move hb rest pc)
    (fun _ _ hp h hn => h.next hp hn)
    fun s _ hp h hn => h.done hp hn (fun _ hu => newlyVisited_decodes hu) (hdisj s hp)
      (hlose s hp) fun hdecs h0 _ hd hcat => trampoline_successor hself hp hdecs h0 hd hcat).1 _
    (analyzeBlocks_reached t ctx _ start queue)

/-- No entry of the blocks lies strictly inside an instruction. -/
theorem Edges.uncut (hclean : Uncut t ctx start queue) {r : AnalyzeState}
    (h : Edges t (analyzeInit ctx (newFunction start) start queue) ctx.visited
      (newlyVisited t ctx start queue) r) (hdisj : SpansDisjoint t ctx.visited r.visited)
    {e v : Nat} (he : e ∈ (collectEntries r.function.basicBlocks).toList)
    (hv : v ∈ r.visited \ ctx.visited) (hve : v < e) : t.instrEnd v ≤ e := by
  by_contra hlt
  obtain ⟨b, hb, rfl | he⟩ := mem_collectEntries.mp he
  · have hmem := h.starts b hb
    have := eq_of_span hdisj hmem hv (h.lt_end hmem) (Nat.le_of_lt hve) (by omega)
    omega
  · obtain ⟨p, hp, hrec⟩ := h.succs b hb e he
    obtain ⟨q, hq, hdec, rfl⟩ := h.decoded v hv
    exact (hclean p hp).2 ⟨e, hrec, q, hq, hdec, hve, by omega⟩

theorem edgesComplete_of_edges (hclean : Uncut t ctx start queue)
    (h : Edges t (analyzeInit ctx (newFunction start) start queue) ctx.visited
      (newlyVisited t ctx start queue) (analyzeBlocks t ctx (newFunction start) start queue))
    (hb : (analyzeBlocks t ctx (newFunction start) start queue).bb = none) :
    EdgesComplete t ctx.visited (analyzeFunction t ctx (newFunction start) start queue) := by
  have hdisj := (spansDisjoint_of_noOverlap fun s hp => (hclean s hp).1).1
  intro v hv u hu hs
  have hlt := h.lt_end hv
  have hcut : ∀ {p : BasicBlock}, p.Contains v → p.endAddress ∈
      (collectEntries (analyzeBlocks t ctx (newFunction start) start
        queue).function.basicBlocks).toList → t.instrEnd v ≤ p.endAddress := fun hpv hpe =>
    h.uncut hclean hdisj hpe hv hpv.2
  cases h.placed v hv with
  | inside hmem hstart hstop hst =>
    obtain ⟨p, hp, hpv, hpiece⟩ := normalizeBlocks_piece hmem (x := v) ⟨hstart, by omega⟩
    have hu' := hst.successor (h.mapped hv) hs
    have hpstart := hpv.1
    refine ⟨p, hp, hpv, ?_⟩
    rcases hpiece with ⟨he, -⟩ | ⟨-, hent, hsucc⟩
    · exact .inl ⟨hu', by omega, by omega⟩
    · rcases Nat.lt_or_eq_of_le (hcut hpv hent) with hlt' | heq
      · exact .inl ⟨hu', by omega, by omega⟩
      · refine .inr ⟨heq.symm, ?_⟩
        rw [hsucc, hu', heq]
        exact List.mem_cons_self
  | last hmem hstart hstop hsuccs =>
    obtain ⟨p, hp, hpv, hpiece⟩ := normalizeBlocks_piece hmem (x := v) ⟨hstart, by omega⟩
    refine ⟨p, hp, hpv, ?_⟩
    rcases hpiece with ⟨he, hsucc⟩ | ⟨hlt', hent, -⟩
    · exact .inr ⟨he.trans hstop.symm, hsucc ▸ hsuccs u hu hs⟩
    · have := hcut hpv hent
      omega
  | opened hopen _ _ _ =>
    rw [hb] at hopen
    cases hopen
  | alone hsuccs => exact absurd hs (hsuccs u hu)

/-! ## Lost edges -/

/-- The open block of every pass is a run. -/
theorem openRuns {s : AnalyzeState}
    (hp : DecodePass t (analyzeInit ctx (newFunction start) start queue) s) :
    OpenRuns t ctx.visited s := by
  have hinit : OpenRuns t ctx.visited (analyzeInit ctx (newFunction start) start queue) :=
    fun b hb => by cases hb
  refine (analysis_inv (I := OpenRuns t ctx.visited) rfl hinit ?_ ?_ ?_).2 s hp
  · intro s rest pc _ _ b hb
    cases hb
  · intro s s' hp h hn
    obtain ⟨lost, -, hl⟩ := ((Laid.init ctx start queue).run rfl).2 s hp
    exact h.next hl.keeps hn
  · intro s s' _ _ _ b hb
    rw [addBasicBlock_bb] at hb
    cases hb

/-- No block of the result has an address of a block that was left open. -/
theorem not_contains_lost {s : AnalyzeState} {b : BasicBlock}
    (hp : DecodePass t (analyzeInit ctx (newFunction start) start queue) s)
    (hopen : LeavesBlockOpen t s) (hb : s.bb = some b)
    (hdisj : SpansDisjoint t ctx.visited
      (analyzeBlocks t ctx (newFunction start) start queue).visited) {x : Nat}
    (h1 : b.startAddress ≤ x) (h2 : x < s.pc) :
    ∀ c ∈ (analyzeFunction t ctx (newFunction start) start queue).function.basicBlocks,
      ¬ c.Contains x := by
  obtain ⟨lost, -, hl⟩ := ((Laid.init ctx start queue).run rfl).2 s hp
  obtain ⟨⟨lost', hle, hl'⟩, hnone⟩ := ((hl.leave hb).run (addBasicBlock_bb s)).1 _
    (reaches_analyzeBlocks (hopen.leaves hp))
  have hpos : 1 ≤ lost' x := by
    refine le_trans ?_ (hle x)
    show 1 ≤ lost x + if b.startAddress ≤ x ∧ x < s.pc then 1 else 0
    rw [if_pos ⟨h1, h2⟩]
    omega
  have hcount := hl'.counts x
  unfold AnalyzeState.openBlock at hcount
  rw [hnone, List.append_nil] at hcount
  have hone := hdisj x
  have hzero : cover (analyzeFunction t ctx (newFunction start) start
      queue).function.basicBlocks x = 0 := by
    refine (normalizeBlocks_cover _ x).trans ?_
    omega
  intro c hc hcx
  exact List.countP_eq_zero.mp hzero c hc (decide_eq_true hcx)

theorem not_edgesComplete_of_losesEdge (hclean : Uncut t ctx start queue) {s : AnalyzeState}
    (hp : DecodePass t (analyzeInit ctx (newFunction start) start queue) s)
    (hlose : LosesEdge t ctx.visited s) :
    ¬ EdgesComplete t ctx.visited (analyzeFunction t ctx (newFunction start) start queue) := by
  obtain ⟨hopen, hcase⟩ := hlose
  obtain ⟨b, hb⟩ := Option.isSome_iff_exists.mp hopen.1
  have hrun := openRuns hp b hb
  have hdisj := (spansDisjoint_of_noOverlap fun s hp => (hclean s hp).1).1
  have hlost := fun {x} => not_contains_lost hp hopen hb hdisj (x := x)
  have hsub : s.visited \ ctx.visited ⊆ newlyVisited t ctx start queue :=
    Finset.sdiff_subset_sdiff (hp.visited (.inr hopen.decodeStep_eq)) (Finset.Subset.refl _)
  intro hedges
  -- the block ends with an instruction that falls through to a visited one
  have hlast : s.pc ∈ s.visited \ ctx.visited → False := by
    intro hpc
    obtain ⟨v, hv, hle, hst, hend⟩ := hrun.last
    have hmapped := (newlyVisited_decodes (hsub hv)).2.1
    obtain ⟨c, hc, hcv, -⟩ := hedges v (hsub hv) s.pc (hsub hpc) (hend ▸ hst.fallThrough hmapped)
    refine hlost hle ?_ c hc hcv
    have hlt := lt_instrEnd (Finset.mem_sdiff.mp (hsub hv)).1 (Finset.mem_sdiff.mp hv).2
    omega
  rcases hcase with hpc | ⟨c, hc, hne⟩
  · exact hlast hpc
  · rw [hb] at hc
    cases hc
    have hfirst := hsub hrun.first
    obtain ⟨c, hc, hcv, -⟩ := hedges b.startAddress hfirst (t.instrEnd b.startAddress)
      (hsub (hrun.second.resolve_left hne)) (hrun.straight.fallThrough
        (newlyVisited_decodes hfirst).2.1)
    refine hlost (Nat.le_refl _) ?_ c hc hcv
    obtain ⟨lost, -, hl⟩ := ((Laid.init ctx start queue).run rfl).2 s hp
    exact (hl.opened b hb).1

/-- A jump to itself is its own successor, and its block has none. -/
theorem not_edgesComplete_of_jumpsToSelf (hself : JumpsToSelf t ctx.visited start) :
    ¬ EdgesComplete t ctx.visited (analyzeFunction t ctx (newFunction start) start queue) := by
  obtain ⟨hstart, i, hd, hcat, ha, hc⟩ := hself
  obtain ⟨hvis, b, hblocks, hbs, hsucc⟩ :=
    @analyzeBlocks_trampoline t ctx start queue i hstart hc.mapped hd hcat
  intro hedges
  have hmem : start ∈ newlyVisited t ctx start queue :=
    Finset.mem_sdiff.mpr ⟨hvis ▸ Finset.mem_insert_self _ _, hstart⟩
  obtain ⟨c, hc', hcv, hcase⟩ := hedges start hmem start hmem (.target hd (.inr hcat) ha hc)
  -- the only entry is the start of the block, so the block is never split
  have hempty : ∀ c ∈ normalizeBlocks [b], c.startAddress = start ∧ c.successors = [] := by
    refine normalizeBlocks_inv (I := fun bs =>
      ∀ c ∈ bs, c.startAddress = start ∧ c.successors = []) ⟨?_, ?_⟩ ?_
    · intro bs k c e hbs hin he
      obtain ⟨d, hd', rfl | he⟩ := mem_collectEntries.mp he
      · have hafter := hin.after
        rw [List.mem_singleton.mp hd', hbs c (List.mem_of_getElem? hin.block) |>.1] at hafter
        omega
      · rw [List.mem_singleton.mp hd', hsucc] at he
        cases he
    · intro bs k from' hbs c hc
      obtain ⟨d, hd', rfl | rfl⟩ := mem_modify hc
      · exact hbs c hd'
      · exact hbs d hd'
    · intro c hc
      rw [List.mem_singleton.mp hc]
      exact ⟨hbs, hsucc⟩
  have hc'' : c ∈ normalizeBlocks [b] := by
    have hfun : (analyzeFunction t ctx (newFunction start) start queue).function.basicBlocks =
      normalizeBlocks (analyzeBlocks t ctx (newFunction start) start queue).function.basicBlocks :=
      rfl
    rwa [hfun, hblocks] at hc'
  rcases hcase with ⟨heq, -⟩ | ⟨-, hin⟩
  · have := lt_instrEnd (Finset.mem_sdiff.mp hmem).1 hstart
    omega
  · rw [(hempty c hc'').2] at hin
    cases hin

/-- **CFG edges**: with no instruction cut in two, the edges are complete exactly when no pass
leaves a block open that has an edge, and the function does not begin with a jump to itself. -/
theorem analyzeFunction_edgesComplete_iff (hclean : Uncut t ctx start queue) :
    EdgesComplete t ctx.visited (analyzeFunction t ctx (newFunction start) start queue) ↔
      (∀ s, DecodePass t (analyzeInit ctx (newFunction start) start queue) s →
        ¬ LosesEdge t ctx.visited s) ∧ ¬ JumpsToSelf t ctx.visited start := by
  constructor
  · intro hedges
    exact ⟨fun s hp hlose => not_edgesComplete_of_losesEdge hclean hp hlose hedges,
      fun hself => not_edgesComplete_of_jumpsToSelf hself hedges⟩
  · rintro ⟨hlose, hself⟩
    obtain ⟨h, hb⟩ := edges_run hclean hlose hself
    exact edgesComplete_of_edges hclean h hb

end

/-! ## Sample images -/

/-- `jz +1; nop; ret`: the `ret` is the target of the branch and what the `nop` falls through to. -/
def skippedNop : Target := sampleTarget [0x74, 0x01, 0x90, 0xC3]

/-- Every pass decodes one of the three instructions, apart from those before it. -/
theorem skippedNop_pass {s : AnalyzeState}
    (hp : DecodePass skippedNop (analyzeInit {} (newFunction 0x1000) 0x1000 []) s) :
    s.pc ∈ [0x1000, 0x1002, 0x1003] ∧ s.pc ∉ s.visited ∧
      ∀ a ∈ s.visited, skippedNop.instrEnd a ≤ s.pc ∨ skippedNop.instrEnd s.pc ≤ a := by
  have hcheck : checkPasses skippedNop (fun s => decide (s.pc ∈ [0x1000, 0x1002, 0x1003] ∧
      s.pc ∉ s.visited ∧ ∀ a ∈ s.visited, skippedNop.instrEnd a ≤ s.pc ∨
        skippedNop.instrEnd s.pc ≤ a)) 5 (analyzeInit {} (newFunction 0x1000) 0x1000 []) = true := by
    decide +kernel
  exact of_decide_eq_true (hp.of_check hcheck)

theorem skippedNop_uncut : Uncut skippedNop {} 0x1000 [] := by
  have hsucc : ∀ v ∈ [0x1000, 0x1002, 0x1003], ∀ i ∈ skippedNop.disassemble v,
      ∀ e ∈ branchSuccessors skippedNop i, ∀ r ∈ [0x1000, 0x1002, 0x1003],
        e ≤ r ∨ skippedNop.instrEnd r ≤ e := by
    decide +kernel
  intro s hp
  obtain ⟨hpc, -, hapart⟩ := skippedNop_pass hp
  constructor
  · rintro ⟨-, a, ha, -, h1, h2⟩
    have := hapart a ha
    omega
  · rintro ⟨e, ⟨-, i, hd, -, he⟩, r, hr, -, h1, h2⟩
    have := hsucc s.pc hpc i hd e he r.pc (skippedNop_pass hr).1
    omega

/-- All of its blocks are closed, so its edges are complete. -/
theorem skippedNop_edgesComplete : EdgesComplete skippedNop ∅
    (analyzeFunction skippedNop {} (newFunction 0x1000) 0x1000 []) := by
  have hmapped : ∀ v ∈ [0x1000, 0x1002, 0x1003], 0x1000 ≤ v ∧ v < 0x1004 := by decide
  refine (analyzeFunction_edgesComplete_iff skippedNop_uncut).mpr ⟨fun s hp hlose => ?_, ?_⟩
  · obtain ⟨hpc, hnew, -⟩ := skippedNop_pass hp
    exact hlose.1.2.elim hnew fun hm => hm (hmapped s.pc hpc)
  · rintro ⟨-, i, hd, hcat, -⟩
    have hjz : skippedNop.disassemble 0x1000 =
        some { instruction := jzInsn 1, address := 0x1000 } := by decide
    cases hjz.symm.trans hd
    cases hcat

theorem not_edgesComplete {t : Target} {old : Finset Nat} {r : AnalyzeState} {v u : Nat}
    (hs : StaticSuccessor t v u) (hv : v ∈ r.visited \ old) (hu : u ∈ r.visited \ old)
    (hnone : ∀ b ∈ r.function.basicBlocks, ¬ b.Contains v) : ¬ EdgesComplete t old r := fun h => by
  obtain ⟨b, hb, hbv, -⟩ := h v hv u hu hs
  exact hnone b hb hbv

/-- The `nop` of the rotated loop falls through to the branch, and no block says so. -/
theorem rotatedLoop_not_edgesComplete :
    ¬ EdgesComplete rotatedLoop ∅
      (analyzeFunction rotatedLoop {} (newFunction 0x1001) 0x1001 []) := by
  have hnop : rotatedLoop.disassemble 0x1000 = some { instruction := nopInsn, address := 0x1000 } := by
    decide
  exact not_edgesComplete (.fallThrough hnop (by decide) (by decide)) (by decide +kernel)
    (by decide +kernel) (by decide +kernel)

end ReWizard
