import ReWizard.Analysis.Fragment
import ReWizard.Analysis.Proof.Exploration
import ReWizard.Analysis.Proof.Normalize

/-!
# The blocks of a function

`AnalyzeFunction` closes a block at every branch, return, trampoline and before bytes that do not
decode. A block that runs into visited code or out of the mapping is handed over without an end,
and instructions that overlap lie in blocks that overlap.

* `Laid`: an address lies in as many newly decoded instructions as in blocks, apart from the blocks
  that were handed over open;
* `analyzeFunction_blocksCover_iff`: the blocks are non-empty, disjoint and cover every newly
  visited instruction once exactly when no pass leaves a block open or decodes an overlapping
  instruction.
-/

namespace ReWizard

section

variable {t : Target}

/-! ## The passes of a call -/

/-- In the call that begins in `s₀`, a pass of the inner loop starts in `s`. -/
inductive DecodePass (t : Target) (s₀ s : AnalyzeState) : Prop
  | mk {w : AnalyzeState} {pc : Nat} {rest : List Nat} : Loop.Reaches (workStep t) s₀ w →
      w.work = pc :: rest → pc ∉ w.visited →
      Loop.Reaches (decodeStep t) { w with work := rest, pc := pc, bb := none } s →
      DecodePass t s₀ s

/-- `p` holds of the state before every pass of the inner loop. -/
def checkPasses (t : Target) (p : AnalyzeState → Bool) (n : Nat) (s₀ : AnalyzeState) : Bool :=
  Loop.check (workStep t) (fun w =>
    match w.work with
    | [] => true
    | pc :: rest => decide (pc ∈ w.visited) ||
      Loop.check (decodeStep t) p n { w with work := rest, pc := pc, bb := none }) n s₀

theorem DecodePass.of_check {p : AnalyzeState → Bool} {n : Nat} {s₀ s : AnalyzeState}
    (hp : DecodePass t s₀ s) (h : checkPasses t p n s₀ = true) : p s = true := by
  obtain ⟨hw, hwork, hpc, hs⟩ := hp
  have hpasses := hw.of_check h
  rw [hwork] at hpasses
  dsimp only at hpasses
  rw [decide_eq_false hpc, Bool.false_or] at hpasses
  exact hs.of_check hpasses

/-- The invariant rule for the two loops: `I` is kept by every pass of the inner loop, and without
an open block it depends neither on the work list nor on `pc`. -/
theorem analysis_inv {s₀ : AnalyzeState} {I : AnalyzeState → Prop} (hb : s₀.bb = none) (h0 : I s₀)
    (hmove : ∀ s rest pc, I s → s.bb = none → I { s with work := rest, pc := pc, bb := none })
    (hnext : ∀ s s', DecodePass t s₀ s → I s → decodeStep t s = .next s' → I s')
    (hdone : ∀ s s', DecodePass t s₀ s → I s → decodeStep t s = .done s' → I s'.addBasicBlock) :
    (∀ w, Loop.Reaches (workStep t) s₀ w → I w ∧ w.bb = none) ∧
      ∀ s, DecodePass t s₀ s → I s := by
  have hpass : ∀ w pc rest, Loop.Reaches (workStep t) s₀ w → w.work = pc :: rest →
      pc ∉ w.visited → (I w ∧ w.bb = none) → ∀ s,
      Loop.Reaches (decodeStep t) { w with work := rest, pc := pc, bb := none } s → I s := by
    intro w pc rest hw hwork hpc hIw s hs
    exact hs.inv (hmove w rest pc hIw.1 hIw.2) fun r r' hr hI hn =>
      hnext r r' ⟨hw, hwork, hpc, hr⟩ hI hn
  have hwork : ∀ w, Loop.Reaches (workStep t) s₀ w → I w ∧ w.bb = none := by
    intro w hw
    refine hw.inv (I := fun w => I w ∧ w.bb = none) ⟨h0, hb⟩ fun r r' hr hI hn => ?_
    obtain ⟨pc, rest, hrest, ⟨-, rfl⟩ | ⟨hpc, rfl⟩⟩ := workStep_next hn
    · have hsame : { r with work := rest, pc := r.pc, bb := none } = { r with work := rest } := by
        rw [← hI.2]
      exact ⟨hsame ▸ hmove r rest r.pc hI.1 hI.2, hI.2⟩
    · obtain ⟨q, hq, hd⟩ := (decode_exits t { r with work := rest, pc := pc, bb := none }).reached
      refine ⟨hdone q _ ⟨hr, hrest, hpc, hq⟩ (hpass r pc rest hr hrest hpc hI q hq) hd, ?_⟩
      show (AnalyzeState.addBasicBlock _).bb = none
      unfold AnalyzeState.addBasicBlock
      split
      · assumption
      · rfl
  refine ⟨hwork, fun s hs => ?_⟩
  obtain ⟨hw, hrest, hpc, hs⟩ := hs
  exact hpass _ _ _ hw hrest hpc (hwork _ hw) s hs

/-- After a pass the inner loop goes on until it is left, and the outer loop goes on from there. -/
theorem DecodePass.leaves {s₀ s : AnalyzeState} (h : DecodePass t s₀ s) :
    ∃ x, Loop.Exits (decodeStep t) s x ∧ Loop.Reaches (workStep t) s₀ x.addBasicBlock := by
  obtain ⟨hw, hwork, hpc, hs⟩ := h
  rename_i w pc rest
  have hstep : workStep t w = .next (decodeFrom t pc { w with work := rest }) := by
    unfold workStep
    rw [hwork]
    exact if_neg hpc
  exact ⟨_, hs.exits (decode_exits t _), hw.tail hstep⟩

/-- The same from the state that the pass leaves. -/
theorem DecodePass.leaves_after {s₀ s s' : AnalyzeState} (h : DecodePass t s₀ s)
    (hn : decodeStep t s = .next s' ∨ decodeStep t s = .done s') :
    ∃ x, (x = s' ∨ Loop.Exits (decodeStep t) s' x) ∧
      Loop.Reaches (workStep t) s₀ x.addBasicBlock := by
  obtain ⟨x, hx, hreach⟩ := h.leaves
  refine ⟨x, ?_, hreach⟩
  cases hx with
  | next hn' hx' =>
    rw [hn'] at hn
    rcases hn with hn | hn <;> cases hn
    exact .inr hx'
  | done hd =>
    rw [hd] at hn
    rcases hn with hn | hn <;> cases hn
    exact .inl rfl

/-- From every state that it reaches, the outer loop reaches the result. -/
theorem reaches_analyzeBlocks {ctx : AnalysisContext} {f : Function} {start : Nat}
    {queue : List Nat} {w : AnalyzeState}
    (hw : Loop.Reaches (workStep t) (analyzeInit ctx f start queue) w) :
    Loop.Reaches (workStep t) w (analyzeBlocks t ctx f start queue) := by
  obtain ⟨r, hr, hd⟩ := (hw.exits (analyzeBlocks_exits t ctx f start queue)).reached
  obtain ⟨heq, -⟩ := workStep_done hd
  rwa [heq]

theorem analyzeBlocks_reached (t : Target) (ctx : AnalysisContext) (f : Function) (start : Nat)
    (queue : List Nat) : Loop.Reaches (workStep t) (analyzeInit ctx f start queue)
      (analyzeBlocks t ctx f start queue) := reaches_analyzeBlocks .refl

/-- What every step of the two loops brings about, the rest of a call brings about. -/
theorem DecodePass.after {R : AnalyzeState → AnalyzeState → Prop} (hrefl : ∀ s, R s s)
    (htrans : ∀ {s s' s''}, R s s' → R s' s'' → R s s'')
    (hmove : ∀ s rest, R s { s with work := rest })
    (hstart : ∀ s pc, R s { s with pc := pc, bb := none })
    (hstep : ∀ {s s'}, decodeStep t s = .next s' ∨ decodeStep t s = .done s' → R s s')
    (hblock : ∀ s : AnalyzeState, R s s.addBasicBlock) {ctx : AnalysisContext} {f : Function}
    {start : Nat} {queue : List Nat} {s s' : AnalyzeState}
    (hp : DecodePass t (analyzeInit ctx f start queue) s)
    (hn : decodeStep t s = .next s' ∨ decodeStep t s = .done s') :
    R s' (analyzeBlocks t ctx f start queue) := by
  have hexits : ∀ {r x}, Loop.Exits (decodeStep t) r x → R r x.addBasicBlock := by
    intro r x hx
    obtain ⟨q, hq, hd⟩ := hx.inv (I := R r) (hrefl r)
      fun u u' hu hn => htrans hu (hstep (.inl hn))
    exact htrans (htrans hq (hstep (.inr hd))) (hblock x)
  obtain ⟨x, hx, hreach⟩ := hp.leaves_after hn
  have hafter : R x.addBasicBlock (analyzeBlocks t ctx f start queue) := by
    refine (reaches_analyzeBlocks hreach).inv (I := R x.addBasicBlock) (hrefl _)
      fun r r' _ hr hn => htrans hr ?_
    obtain ⟨pc, rest, -, ⟨-, rfl⟩ | ⟨-, rfl⟩⟩ := workStep_next hn
    · exact hmove r rest
    · exact htrans (htrans (hmove r rest) (hstart _ pc)) (hexits (decode_exits t _))
  rcases hx with rfl | hx
  · exact htrans (hblock x) hafter
  · exact htrans (hexits hx) hafter

/-! ## Instructions and the addresses they span -/

/-- The address after the instruction at `a`, or `a` itself if there is none. -/
def Target.instrEnd (t : Target) (a : Nat) : Nat :=
  match t.disassemble a with
  | none => a
  | some i => a + i.instruction.length

theorem Target.instrEnd_eq {a : Nat} {i : ExtendedInstruction} (h : t.disassemble a = some i) :
    t.instrEnd a = a + i.instruction.length := by
  unfold instrEnd
  rw [h]

/-- The number of instructions at the addresses of `N` that span the address `x`. -/
def spanCount (t : Target) (N : Finset Nat) (x : Nat) : Nat :=
  (N.filter fun a => a ≤ x ∧ x < t.instrEnd a).card

theorem spanCount_insert {N : Finset Nat} {a : Nat} (ha : a ∉ N) (x : Nat) :
    spanCount t (insert a N) x =
      spanCount t N x + if a ≤ x ∧ x < t.instrEnd a then 1 else 0 := by
  unfold spanCount
  rw [Finset.filter_insert]
  split
  · exact Finset.card_insert_of_notMem fun h => ha (Finset.mem_filter.mp h).1
  · rfl

theorem spanCount_mono {N N' : Finset Nat} (h : N ⊆ N') (x : Nat) :
    spanCount t N x ≤ spanCount t N' x :=
  Finset.card_le_card (Finset.filter_subset_filter _ h)

theorem spanCount_pos {N : Finset Nat} {a x : Nat} (ha : a ∈ N) (h1 : a ≤ x)
    (h2 : x < t.instrEnd a) : 0 < spanCount t N x :=
  Finset.card_pos.mpr ⟨a, Finset.mem_filter.mpr ⟨ha, h1, h2⟩⟩

/-! ## Blocks while they are laid out -/

/-- The open block, as far as it is decoded. -/
def AnalyzeState.openBlock (s : AnalyzeState) : List BasicBlock :=
  match s.bb with
  | none => []
  | some b => [{ b with endAddress := s.pc }]

/-- Every address lies in as many instructions visited since `old` as in blocks, the open one
included, and in blocks that were `lost` by handing them over without an end. The other blocks have
addresses, and the open block has no end yet. -/
structure Laid (t : Target) (old : Finset Nat) (lost : Nat → Nat) (s : AnalyzeState) : Prop where
  keeps : old ⊆ s.visited
  counts : ∀ x, cover (s.function.basicBlocks ++ s.openBlock) x + lost x =
    spanCount t (s.visited \ old) x
  proper : ∀ b ∈ s.function.basicBlocks, b.Proper ∨ 0 < lost b.startAddress
  opened : ∀ b, s.bb = some b → b.startAddress < s.pc ∧ b.endAddress = 0

/-- The open block grows by the instruction at `pc`. -/
theorem cover_currentBlock {s : AnalyzeState} {b : BasicBlock} {n : Nat}
    (ho : ∀ b, s.bb = some b → b.startAddress < s.pc ∧ b.endAddress = 0)
    (hs : b.startAddress = s.currentBlock.startAddress) (he : b.endAddress = n) (hn : s.pc ≤ n)
    (x : Nat) :
    cover [b] x = cover s.openBlock x + if s.pc ≤ x ∧ x < n then 1 else 0 := by
  unfold AnalyzeState.currentBlock at hs
  unfold AnalyzeState.openBlock
  cases hb : s.bb with
  | none =>
    rw [hb] at hs
    rw [cover_singleton, hs, he]
    show _ = 0 + _
    rw [Nat.zero_add]
    rfl
  | some c =>
    rw [hb] at hs
    have hc := (ho c hb).1
    rw [cover_singleton, cover_singleton, he, hs]
    show (if c.startAddress ≤ x ∧ x < n then 1 else 0) =
      (if c.startAddress ≤ x ∧ x < s.pc then 1 else 0) + if s.pc ≤ x ∧ x < n then 1 else 0
    by_cases hx : x < s.pc
    · rw [if_neg (c := s.pc ≤ x ∧ _) (by omega)]
      by_cases hcx : c.startAddress ≤ x
      · rw [if_pos ⟨hcx, by omega⟩, if_pos ⟨hcx, hx⟩]
      · rw [if_neg (by omega), if_neg (by omega)]
    · rw [if_neg (c := c.startAddress ≤ x ∧ x < s.pc) (by omega), Nat.zero_add]
      by_cases hxn : x < n
      · rw [if_pos ⟨by omega, hxn⟩, if_pos ⟨by omega, hxn⟩]
      · rw [if_neg (by omega), if_neg (by omega)]

theorem currentBlock_start {s : AnalyzeState}
    (ho : ∀ b, s.bb = some b → b.startAddress < s.pc ∧ b.endAddress = 0) :
    s.currentBlock.startAddress ≤ s.pc ∧ s.currentBlock.endAddress = 0 := by
  unfold AnalyzeState.currentBlock
  cases hb : s.bb with
  | none => exact ⟨Nat.le_refl _, rfl⟩
  | some b => exact ⟨Nat.le_of_lt (ho b hb).1, (ho b hb).2⟩

/-- What the visited set and the spans are after the instruction at `pc`. -/
theorem spanCount_visited {old : Finset Nat} {s : AnalyzeState} {visited : Finset Nat}
    {insn : ExtendedInstruction} (hold : old ⊆ s.visited) (hpc : s.pc ∉ s.visited)
    (hm : t.Mapped s.pc) (hd : t.disassemble s.pc = some insn)
    (hv : visited = insert insn.address s.visited) :
    old ⊆ visited ∧ s.pc < insn.next ∧ ∀ x, spanCount t (visited \ old) x =
      spanCount t (s.visited \ old) x + if s.pc ≤ x ∧ x < insn.next then 1 else 0 := by
  obtain ⟨haddr, -, -, hpos, -⟩ := Target.disassemble_eq_some hd
  rw [haddr] at hv
  have hnext := Target.next_eq hd hm.2
  have hend : t.instrEnd s.pc = insn.next := (Target.instrEnd_eq hd).trans hnext.symm
  refine ⟨hv ▸ hold.trans (Finset.subset_insert _ _), by omega, fun x => ?_⟩
  rw [hv, Finset.insert_sdiff_of_notMem _ fun h => hpc (hold h), spanCount_insert, hend]
  exact fun h => hpc (Finset.mem_sdiff.mp h).1

namespace Laid

variable {old : Finset Nat} {lost : Nat → Nat} {s s' : AnalyzeState}

theorem init (ctx : AnalysisContext) (start : Nat) (queue : List Nat) :
    Laid t ctx.visited 0 (analyzeInit ctx (newFunction start) start queue) where
  keeps := Finset.Subset.refl _
  counts := fun x => by
    show 0 + 0 = spanCount t (ctx.visited \ ctx.visited) x
    rw [Finset.sdiff_self]
    rfl
  proper := fun b hb => by cases hb
  opened := fun b hb => by cases hb

theorem move (h : Laid t old lost s) (hb : s.bb = none) (rest : List Nat) (pc : Nat) :
    Laid t old lost { s with work := rest, pc := pc, bb := none } where
  keeps := h.keeps
  counts := fun x => by
    have := h.counts x
    unfold AnalyzeState.openBlock at this
    rw [hb] at this
    exact this
  proper := h.proper
  opened := fun b hb => by cases hb

/-- Closing a block after an instruction. -/
theorem closes {insn : ExtendedInstruction} {succs : List Nat} (h : Laid t old lost s)
    (hpc : s.pc ∉ s.visited) (hm : t.Mapped s.pc) (hd : t.disassemble s.pc = some insn)
    (hdec : Decoded t insn s s') (hc : Closes s.currentBlock insn.next succs s s') :
    Laid t old lost s' := by
  obtain ⟨hold, hlt, hspan⟩ := spanCount_visited h.keeps hpc hm hd hdec.visited
  obtain ⟨hclosed, b, hblocks, hstart, hstop, -⟩ := hc
  have hcur := (currentBlock_start h.opened).1
  refine ⟨hold, fun x => ?_, fun c hc => ?_, fun c hc => ?_⟩
  · have hopen : s'.openBlock = [] := by
      unfold AnalyzeState.openBlock
      rw [hclosed]
    have hx := h.counts x
    rw [cover_append] at hx
    rw [hopen, List.append_nil, hblocks, cover_append,
      cover_currentBlock h.opened hstart hstop (Nat.le_of_lt hlt), hspan]
    omega
  · rw [hblocks] at hc
    rcases List.mem_append.mp hc with hc | hc
    · exact h.proper c hc
    · rw [List.mem_singleton.mp hc]
      refine .inl ?_
      unfold BasicBlock.Proper
      omega
  · rw [hclosed] at hc
    cases hc

/-- Going on in the same block after an instruction. -/
theorem straight {insn : ExtendedInstruction} (h : Laid t old lost s) (hpc : s.pc ∉ s.visited)
    (hm : t.Mapped s.pc) (hd : t.disassemble s.pc = some insn) (hdec : Decoded t insn s s')
    (hnext : s'.pc = insn.next) (hblocks : s'.function.basicBlocks = s.function.basicBlocks)
    (hopen : ∃ b, s'.bb = some b ∧ SameBlock s.currentBlock b) : Laid t old lost s' := by
  obtain ⟨hold, hlt, hspan⟩ := spanCount_visited h.keeps hpc hm hd hdec.visited
  obtain ⟨b, hb, hsame⟩ := hopen
  have hcur := currentBlock_start h.opened
  refine ⟨hold, fun x => ?_, hblocks ▸ h.proper, fun c hc => ?_⟩
  · have hx := h.counts x
    rw [cover_append] at hx
    have ho : s'.openBlock = [{ b with endAddress := insn.next }] := by
      unfold AnalyzeState.openBlock
      rw [hb, hnext]
    have hgrow := cover_currentBlock (b := { b with endAddress := insn.next })
      (n := insn.next) h.opened hsame.start rfl (Nat.le_of_lt hlt) x
    rw [ho, hblocks, cover_append, hspan]
    omega
  · rw [hb] at hc
    cases hc
    rw [hsame.start, hsame.stop, hnext]
    exact ⟨by omega, hcur.2⟩

theorem next (h : Laid t old lost s) (hn : decodeStep t s = .next s') : Laid t old lost s' := by
  obtain ⟨hv, hm, insn, hd, he⟩ := decodeStep_next_effect hn
  cases he with
  | straight _ hdec hpc hblocks hopen => exact h.straight hv hm hd hdec hpc hblocks hopen
  | cond _ hdec _ hc => exact h.closes hv hm hd hdec hc

theorem addBasicBlock (h : Laid t old lost s) (hb : s.bb = none) :
    Laid t old lost s.addBasicBlock := by
  unfold AnalyzeState.addBasicBlock
  rw [hb]
  exact h

end Laid

/-! ## Blocks that are handed over open -/

/-- The pass ends the loop with a block that has no end: `pc` is visited or not mapped. -/
def LeavesBlockOpen (t : Target) (s : AnalyzeState) : Prop :=
  s.bb.isSome = true ∧ (s.pc ∈ s.visited ∨ ¬ t.Mapped s.pc)

theorem LeavesBlockOpen.decodeStep_eq {s : AnalyzeState} (h : LeavesBlockOpen t s) :
    decodeStep t s = .done s := by
  rcases decodeStep_cases t s with ⟨h', -⟩ | ⟨hv, hm, -⟩ | ⟨hv, hm, -⟩
  · exact h'
  · exact absurd hm (h.2.resolve_left hv)
  · exact absurd hm (h.2.resolve_left hv)

/-- Such a pass hands the block over, and the outer loop goes on from there. -/
theorem LeavesBlockOpen.leaves {s₀ s : AnalyzeState} (h : LeavesBlockOpen t s)
    (hp : DecodePass t s₀ s) : Loop.Reaches (workStep t) s₀ s.addBasicBlock := by
  obtain ⟨x, hx, hreach⟩ := hp.leaves
  cases hx with
  | next hn _ =>
    rw [h.decodeStep_eq] at hn
    cases hn
  | done hd =>
    rw [h.decodeStep_eq] at hd
    cases hd
    exact hreach

namespace Laid

variable {old : Finset Nat} {lost : Nat → Nat} {s s' : AnalyzeState}

/-- The loop is left with the block closed. -/
theorem done (h : Laid t old lost s) (hopen : ¬ LeavesBlockOpen t s)
    (hn : decodeStep t s = .done s') : Laid t old lost s'.addBasicBlock := by
  rcases decodeStep_cases t s with ⟨h', hstop⟩ | ⟨-, -, -, bb, last, hb, h'⟩ |
    ⟨hv, hm, insn, hd, he⟩
  · rw [h'] at hn
    cases hn
    refine h.addBasicBlock ?_
    cases hb : s.bb with
    | none => rfl
    | some b =>
      have hsome : s.bb.isSome = true := by rw [hb]; rfl
      rcases hstop with hv | hm | ⟨-, hnone⟩
      · exact absurd ⟨hsome, .inl hv⟩ hopen
      · exact absurd ⟨hsome, .inr hm⟩ hopen
      · rw [hb] at hnone
        cases hnone
  · rw [h'] at hn
    cases hn
    have ho : s.openBlock = [{ bb with endAddress := s.pc }] := by
      unfold AnalyzeState.openBlock
      rw [hb]
    refine ⟨h.keeps, fun x => ?_, fun c hc => ?_, fun c hc => by cases hc⟩
    · have hx := h.counts x
      rw [ho, cover_append] at hx
      show ReWizard.cover ((s.function.basicBlocks ++
        [{ bb with endAddress := s.pc, lastInsnAddr := last }]) ++ []) x + lost x = _
      rw [List.append_nil, cover_append]
      exact hx
    · rcases List.mem_append.mp hc with hc | hc
      · exact h.proper c hc
      · rw [List.mem_singleton.mp hc]
        exact .inl (h.opened bb hb).1
  · rw [hn] at he
    cases he with
    | jump _ hdec hc => exact (h.closes hv hm hd hdec hc).addBasicBlock hc.closed
    | ret _ hdec hc => exact (h.closes hv hm hd hdec hc).addBasicBlock hc.closed

/-- The loop is left with the block open: its addresses are lost. -/
theorem leave (h : Laid t old lost s) {b : BasicBlock} (hb : s.bb = some b) :
    Laid t old (lost + fun x => if b.startAddress ≤ x ∧ x < s.pc then 1 else 0)
      s.addBasicBlock := by
  obtain ⟨hlt, hend⟩ := h.opened b hb
  have ho : s.openBlock = [{ b with endAddress := s.pc }] := by
    unfold AnalyzeState.openBlock
    rw [hb]
  have hadd : s.addBasicBlock = { s with function := s.function.addBasicBlock b, bb := none } := by
    unfold AnalyzeState.addBasicBlock
    rw [hb]
  rw [hadd]
  refine ⟨h.keeps, fun x => ?_, fun c hc => ?_, fun c hc => by cases hc⟩
  · have hx := h.counts x
    rw [ho, cover_append, cover_singleton] at hx
    show ReWizard.cover ((s.function.basicBlocks ++ [b]) ++ []) x +
      (lost x + if b.startAddress ≤ x ∧ x < s.pc then 1 else 0) =
        spanCount t (s.visited \ old) x
    have hempty : ReWizard.cover [b] x = 0 := by
      rw [cover_singleton, if_neg (by omega)]
    rw [List.append_nil, cover_append, hempty]
    dsimp only at hx
    omega
  · rcases List.mem_append.mp hc with hc | hc
    · exact (h.proper c hc).imp id fun hl => Nat.lt_of_lt_of_le hl (Nat.le_add_right _ _)
    · rw [List.mem_singleton.mp hc]
      refine .inr ?_
      show 0 < lost b.startAddress + if b.startAddress ≤ b.startAddress ∧ _ then 1 else 0
      rw [if_pos ⟨Nat.le_refl _, hlt⟩]
      omega

/-- The blocks stay laid out, with what was lost still lost. -/
theorem run (h : Laid t old lost s) (hb : s.bb = none) :
    (∀ w, Loop.Reaches (workStep t) s w → (∃ lost', lost ≤ lost' ∧ Laid t old lost' w) ∧
      w.bb = none) ∧ ∀ r, DecodePass t s r → ∃ lost', lost ≤ lost' ∧ Laid t old lost' r := by
  refine analysis_inv (I := fun r => ∃ lost', lost ≤ lost' ∧ Laid t old lost' r) hb
    ⟨lost, le_refl _, h⟩ (fun r rest pc ⟨l, hl, h⟩ hb => ⟨l, hl, h.move hb rest pc⟩)
    (fun r r' _ ⟨l, hl, h⟩ hn => ⟨l, hl, h.next hn⟩) fun r r' _ ⟨l, hl, h⟩ hn => ?_
  by_cases hopen : LeavesBlockOpen t r
  · obtain ⟨b, hb⟩ := Option.isSome_iff_exists.mp hopen.1
    rw [hopen.decodeStep_eq] at hn
    cases hn
    exact ⟨_, fun x => (hl x).trans (Nat.le_add_right _ _), h.leave hb⟩
  · exact ⟨l, hl, h.done hopen hn⟩

end Laid

/-- As long as no block is handed over open, nothing is lost. -/
theorem laid_of_closed {ctx : AnalysisContext} {start : Nat} {queue : List Nat}
    (hclosed : ∀ s, DecodePass t (analyzeInit ctx (newFunction start) start queue) s →
      ¬ LeavesBlockOpen t s) :
    (∀ w, Loop.Reaches (workStep t) (analyzeInit ctx (newFunction start) start queue) w →
      Laid t ctx.visited 0 w ∧ w.bb = none) ∧
    ∀ s, DecodePass t (analyzeInit ctx (newFunction start) start queue) s →
      Laid t ctx.visited 0 s :=
  analysis_inv rfl (Laid.init ctx start queue) (fun _ rest pc h hb => h.move hb rest pc)
    (fun _ _ _ h hn => h.next hn) fun s _ hp h hn => h.done (hclosed s hp) hn

/-! ## What a pass leaves is there at the end -/

theorem decodeStep_blocks {s s' : AnalyzeState}
    (hn : decodeStep t s = .next s' ∨ decodeStep t s = .done s') :
    s.function.basicBlocks <+: s'.function.basicBlocks := by
  rcases decodeStep_result hn with ⟨rfl, -⟩ | ⟨-, bb, last, -, rfl⟩ | ⟨-, -, insn, -, -, hblocks⟩
  · exact List.prefix_rfl
  · exact List.prefix_rfl
  · rcases hblocks with ⟨hsame, -⟩ | ⟨succs, -, b, hblocks, -⟩
    · rw [hsame]
    · rw [hblocks]
      exact List.prefix_append _ _

theorem addBasicBlock_blocks (s : AnalyzeState) :
    s.function.basicBlocks <+: s.addBasicBlock.function.basicBlocks := by
  unfold AnalyzeState.addBasicBlock
  split
  · exact List.prefix_rfl
  · exact List.prefix_append _ _

theorem workStep_blocks {s s' : AnalyzeState} (hn : workStep t s = .next s') :
    s.function.basicBlocks <+: s'.function.basicBlocks := by
  obtain ⟨pc, rest, -, ⟨-, rfl⟩ | ⟨-, rfl⟩⟩ := workStep_next hn
  · exact List.prefix_rfl
  · obtain ⟨r, hr, hd⟩ := (decode_exits t { s with work := rest, pc := pc, bb := none }).inv
      (I := fun r => s.function.basicBlocks <+: r.function.basicBlocks) List.prefix_rfl
      fun r r' hr hn => hr.trans (decodeStep_blocks (.inl hn))
    exact (hr.trans (decodeStep_blocks (.inr hd))).trans (addBasicBlock_blocks _)

/-- What the outer loop has when it starts a pass is in the result. -/
theorem analyzeBlocks_extends {ctx : AnalysisContext} {f : Function} {start : Nat}
    {queue : List Nat} {w : AnalyzeState}
    (hw : Loop.Reaches (workStep t) (analyzeInit ctx f start queue) w) :
    w.visited ⊆ (analyzeBlocks t ctx f start queue).visited ∧
      w.function.basicBlocks <+: (analyzeBlocks t ctx f start queue).function.basicBlocks := by
  obtain ⟨r, ⟨hv, hb⟩, hd⟩ := (hw.exits (analyzeBlocks_exits t ctx f start queue)).inv
    (I := fun r => w.visited ⊆ r.visited ∧ w.function.basicBlocks <+: r.function.basicBlocks)
    ⟨Finset.Subset.refl _, List.prefix_rfl⟩
    fun r r' hr hn => ⟨hr.1.trans (workStep_progress hn).1.visited, hr.2.trans (workStep_blocks hn)⟩
  rw [(workStep_done hd).1]
  exact ⟨hv, hb⟩

/-- A block that is handed over open is in the result, without an end. -/
theorem improper_of_leavesBlockOpen {ctx : AnalysisContext} {start : Nat} {queue : List Nat}
    {s : AnalyzeState} (hp : DecodePass t (analyzeInit ctx (newFunction start) start queue) s)
    (hopen : LeavesBlockOpen t s) :
    ∃ b ∈ (analyzeBlocks t ctx (newFunction start) start queue).function.basicBlocks,
      ¬ b.Proper := by
  obtain ⟨b, hb⟩ := Option.isSome_iff_exists.mp hopen.1
  obtain ⟨lost, -, hl⟩ := ((Laid.init ctx start queue).run rfl).2 s hp
  have hend := (hl.opened b hb).2
  have hmem : b ∈ s.addBasicBlock.function.basicBlocks := by
    unfold AnalyzeState.addBasicBlock
    rw [hb]
    exact List.mem_append_right _ List.mem_cons_self
  refine ⟨b, (analyzeBlocks_extends (hopen.leaves hp)).2.subset hmem, ?_⟩
  unfold BasicBlock.Proper
  omega

/-! ## Overlapping instructions -/

/-- The pass decodes the instruction at `pc`. -/
def Decodes (t : Target) (s : AnalyzeState) : Prop :=
  s.pc ∉ s.visited ∧ t.Mapped s.pc ∧ t.disassemble s.pc ≠ none

/-- The pass decodes an instruction that overlaps one decoded since `old`. -/
def OverlapsDecoded (t : Target) (old : Finset Nat) (s : AnalyzeState) : Prop :=
  Decodes t s ∧ ∃ a ∈ s.visited, a ∉ old ∧ s.pc < t.instrEnd a ∧ a < t.instrEnd s.pc

/-- A pass visits the instruction that it decodes, and nothing else. -/
theorem decodeStep_visited {s s' : AnalyzeState}
    (hn : decodeStep t s = .next s' ∨ decodeStep t s = .done s') :
    (¬ Decodes t s ∧ s'.visited = s.visited) ∨
      (Decodes t s ∧ s'.visited = insert s.pc s.visited) := by
  rcases decodeStep_result hn with ⟨rfl, hstop⟩ | ⟨hnone, bb, last, -, rfl⟩ |
    ⟨hv, hm, insn, hd, hdec, -⟩
  · refine .inl ⟨fun ⟨hv, hm, hd⟩ => ?_, rfl⟩
    rcases hstop with h | h | h
    · exact hv h
    · exact h hm
    · exact hd h
  · exact .inl ⟨fun ⟨_, _, hd⟩ => hd hnone, rfl⟩
  · obtain ⟨haddr, -⟩ := Target.disassemble_eq_some hd
    exact .inr ⟨⟨hv, hm, by rw [hd]; exact Option.some_ne_none _⟩, haddr ▸ hdec.visited⟩

theorem addBasicBlock_visited (s : AnalyzeState) : s.addBasicBlock.visited = s.visited := by
  unfold AnalyzeState.addBasicBlock
  split <;> rfl

/-- What a pass visits is visited in the result. -/
theorem DecodePass.visited {ctx : AnalysisContext} {f : Function} {start : Nat} {queue : List Nat}
    {s s' : AnalyzeState} (hp : DecodePass t (analyzeInit ctx f start queue) s)
    (hn : decodeStep t s = .next s' ∨ decodeStep t s = .done s') :
    s'.visited ⊆ (analyzeBlocks t ctx f start queue).visited := by
  obtain ⟨x, hx, hreach⟩ := hp.leaves_after hn
  have hlast := (analyzeBlocks_extends hreach).1
  rw [addBasicBlock_visited] at hlast
  rcases hx with rfl | hx
  · exact hlast
  · exact (exits_progress hx).visited.trans hlast

/-- The spans of the instructions visited since `old` do not overlap. -/
def SpansDisjoint (t : Target) (old visited : Finset Nat) : Prop :=
  ∀ x, spanCount t (visited \ old) x ≤ 1

/-- What the call visits are instructions. -/
theorem lt_instrEnd {ctx : AnalysisContext} {f : Function} {start : Nat} {queue : List Nat}
    {a : Nat} (ha : a ∈ (analyzeBlocks t ctx f start queue).visited) (hold : a ∉ ctx.visited) :
    a < t.instrEnd a := by
  rcases (analyzeBlocks_progress (t := t) ctx f start queue).1.decodes a ha with h | ⟨-, h⟩
  · exact absurd h hold
  · obtain ⟨i, hi⟩ := Option.isSome_iff_exists.mp h
    obtain ⟨-, -, -, hpos, -⟩ := Target.disassemble_eq_some hi
    rw [Target.instrEnd_eq hi]
    omega

/-- Two overlapping instructions span an address together. -/
theorem not_spansDisjoint_of_overlaps {ctx : AnalysisContext} {f : Function} {start : Nat}
    {queue : List Nat} {s : AnalyzeState} (hp : DecodePass t (analyzeInit ctx f start queue) s)
    (hold : ctx.visited ⊆ s.visited) (hover : OverlapsDecoded t ctx.visited s) :
    ¬ SpansDisjoint t ctx.visited (analyzeBlocks t ctx f start queue).visited := by
  obtain ⟨hdec, a, ha, haold, h1, h2⟩ := hover
  obtain ⟨s', hn⟩ : ∃ s', decodeStep t s = .next s' ∨ decodeStep t s = .done s' := by
    cases h : decodeStep t s with
    | next s' => exact ⟨s', .inl rfl⟩
    | done s' => exact ⟨s', .inr rfl⟩
  have hv : s'.visited = insert s.pc s.visited :=
    ((decodeStep_visited hn).resolve_left fun h => h.1 hdec).2
  have hpc : s.pc ∉ s.visited \ ctx.visited := fun h => hdec.1 (Finset.mem_sdiff.mp h).1
  have hpcnew : s.pc ∉ ctx.visited := fun h => hdec.1 (hold h)
  have hlt := lt_instrEnd (hp.visited hn (hv ▸ Finset.mem_insert_self _ _)) hpcnew
  have hlta := lt_instrEnd (hp.visited hn (hv ▸ Finset.mem_insert_of_mem ha)) haold
  -- the greater of the two addresses lies in both instructions
  have hboth : ∃ x, (a ≤ x ∧ x < t.instrEnd a) ∧ s.pc ≤ x ∧ x < t.instrEnd s.pc := by
    by_cases hle : a ≤ s.pc
    · exact ⟨s.pc, ⟨hle, h1⟩, Nat.le_refl _, hlt⟩
    · exact ⟨a, ⟨Nat.le_refl _, hlta⟩, by omega, h2⟩
  obtain ⟨x, hxa, hxpc⟩ := hboth
  intro hdisj
  have hpos := spanCount_pos (t := t) (Finset.mem_sdiff.mpr ⟨ha, haold⟩) hxa.1 hxa.2
  have hmono := spanCount_mono (t := t)
    (Finset.sdiff_subset_sdiff (hp.visited hn) (Finset.Subset.refl ctx.visited)) x
  rw [hv, Finset.insert_sdiff_of_notMem _ hpcnew, spanCount_insert hpc,
    if_pos hxpc] at hmono
  have := hdisj x
  omega

/-- A pass that does not decode an overlapping instruction keeps the spans disjoint. -/
theorem SpansDisjoint.step {old : Finset Nat} {s s' : AnalyzeState}
    (h : SpansDisjoint t old s.visited) (hold : old ⊆ s.visited) (hover : ¬ OverlapsDecoded t old s)
    (hn : decodeStep t s = .next s' ∨ decodeStep t s = .done s') :
    SpansDisjoint t old s'.visited := by
  rcases decodeStep_visited hn with ⟨-, hv⟩ | ⟨hdec, hv⟩
  · rwa [hv]
  · intro x
    rw [hv, Finset.insert_sdiff_of_notMem _ fun h => hdec.1 (hold h), spanCount_insert fun h =>
      hdec.1 (Finset.mem_sdiff.mp h).1]
    split
    · rename_i hx
      have hzero : spanCount t (s.visited \ old) x = 0 := by
        refine Finset.card_eq_zero.mpr (Finset.filter_eq_empty_iff.mpr fun a ha hax => hover ?_)
        obtain ⟨hav, haold⟩ := Finset.mem_sdiff.mp ha
        exact ⟨hdec, a, hav, haold, by omega, by omega⟩
      omega
    · exact h x

/-- Without overlapping instructions the spans stay disjoint. -/
theorem spansDisjoint_of_noOverlap {ctx : AnalysisContext} {start : Nat} {queue : List Nat}
    (h : ∀ s, DecodePass t (analyzeInit ctx (newFunction start) start queue) s →
      ¬ OverlapsDecoded t ctx.visited s) :
    SpansDisjoint t ctx.visited (analyzeBlocks t ctx (newFunction start) start queue).visited ∧
      ∀ s, DecodePass t (analyzeInit ctx (newFunction start) start queue) s →
        SpansDisjoint t ctx.visited s.visited := by
  have hkeeps : ∀ s, DecodePass t (analyzeInit ctx (newFunction start) start queue) s →
      ctx.visited ⊆ s.visited := fun s hp => by
    obtain ⟨lost, -, hl⟩ := ((Laid.init ctx start queue).run rfl).2 s hp
    exact hl.keeps
  have hinit : SpansDisjoint t ctx.visited ctx.visited := by
    intro x
    rw [Finset.sdiff_self]
    exact Nat.zero_le _
  obtain ⟨hwork, hpass⟩ := analysis_inv (I := fun s => SpansDisjoint t ctx.visited s.visited)
    (rfl : (analyzeInit ctx (newFunction start) start queue).bb = none) hinit (fun _ _ _ h _ => h)
    (fun s s' hp hd hn => hd.step (hkeeps s hp) (h s hp) (.inl hn))
    fun s s' hp hd hn => addBasicBlock_visited s' ▸ hd.step (hkeeps s hp) (h s hp) (.inr hn)
  exact ⟨(hwork _ (analyzeBlocks_reached t ctx _ start queue)).1, hpass⟩

/-! ## Coverage -/

/-- Every block has addresses, no two blocks share one, and every instruction visited since `old`
lies in exactly one block. -/
structure BlocksCover (old : Finset Nat) (r : AnalyzeState) : Prop where
  proper : ∀ b ∈ r.function.basicBlocks, b.Proper
  disjoint : r.function.basicBlocks.Pairwise fun b c => ∀ x, ¬ (b.Contains x ∧ c.Contains x)
  covers : ∀ a ∈ r.visited, a ∉ old → cover r.function.basicBlocks a = 1

theorem pairwise_disjoint_iff {blocks : List BasicBlock} :
    blocks.Pairwise (fun b c => ∀ x, ¬ (b.Contains x ∧ c.Contains x)) ↔
      ∀ x, cover blocks x ≤ 1 := by
  induction blocks with
  | nil => exact ⟨fun _ _ => Nat.zero_le _, fun _ => .nil⟩
  | cons b rest ih =>
    have hcons : ∀ x, cover (b :: rest) x =
        cover rest x + if decide (b.Contains x) = true then 1 else 0 := fun x =>
      List.countP_cons
    rw [List.pairwise_cons, ih]
    constructor
    · rintro ⟨hb, hrest⟩ x
      rw [hcons]
      split
      · rename_i hx
        have hzero : cover rest x = 0 := List.countP_eq_zero.mpr fun c hc hcx =>
          hb c hc x ⟨of_decide_eq_true hx, of_decide_eq_true hcx⟩
        omega
      · exact hrest x
    · intro h
      refine ⟨fun c hc x hx => ?_, fun x => ?_⟩
      · have hpos : 0 < cover rest x := List.countP_pos_iff.mpr ⟨c, hc, decide_eq_true hx.2⟩
        have := h x
        rw [hcons, if_pos (decide_eq_true hx.1)] at this
        omega
      · have := h x
        rw [hcons] at this
        omega

/-- **Block coverage**: the blocks are non-empty, disjoint and cover what the call visits exactly when
no pass of the call leaves a block open or decodes an instruction that overlaps one decoded before. -/
theorem analyzeFunction_blocksCover_iff (t : Target) (ctx : AnalysisContext) (start : Nat)
    (queue : List Nat) :
    BlocksCover ctx.visited (analyzeFunction t ctx (newFunction start) start queue) ↔
      ∀ s, DecodePass t (analyzeInit ctx (newFunction start) start queue) s →
        ¬ LeavesBlockOpen t s ∧ ¬ OverlapsDecoded t ctx.visited s := by
  -- with every block closed, the blocks cover what the instructions span
  have hlaid : (∀ s, DecodePass t (analyzeInit ctx (newFunction start) start queue) s →
      ¬ LeavesBlockOpen t s) →
      (∀ b ∈ (analyzeBlocks t ctx (newFunction start) start queue).function.basicBlocks,
        b.Proper) ∧
      ∀ x, cover (analyzeFunction t ctx (newFunction start) start queue).function.basicBlocks x =
        spanCount t ((analyzeBlocks t ctx (newFunction start) start queue).visited \
          ctx.visited) x := by
    intro hclosed
    obtain ⟨hl, hb⟩ := (laid_of_closed hclosed).1 _ (analyzeBlocks_reached t ctx _ start queue)
    refine ⟨fun b hb => (hl.proper b hb).resolve_right (Nat.lt_irrefl 0), fun x =>
      (normalizeBlocks_cover _ x).trans ?_⟩
    have := hl.counts x
    unfold AnalyzeState.openBlock at this
    rwa [hb, List.append_nil] at this
  constructor
  · intro h
    have hclosed : ∀ s, DecodePass t (analyzeInit ctx (newFunction start) start queue) s →
        ¬ LeavesBlockOpen t s := by
      intro s hp hopen
      obtain ⟨b, hb, himp⟩ := normalizeBlocks_improper (improper_of_leavesBlockOpen hp hopen)
      exact himp (h.proper b hb)
    refine fun s hp => ⟨hclosed s hp, fun hover => ?_⟩
    refine not_spansDisjoint_of_overlaps hp ((laid_of_closed hclosed).2 s hp).keeps hover fun x => ?_
    rw [← (hlaid hclosed).2 x]
    exact pairwise_disjoint_iff.mp h.disjoint x
  · intro h
    obtain ⟨hproper, hcover⟩ := hlaid fun s hp => (h s hp).1
    have hdisj := (spansDisjoint_of_noOverlap fun s hp => (h s hp).2).1
    refine ⟨normalizeBlocks_proper hproper,
      pairwise_disjoint_iff.mpr fun x => hcover x ▸ hdisj x, fun a ha hold => ?_⟩
    rw [hcover a]
    have hmem : a ∈ (analyzeBlocks t ctx (newFunction start) start queue).visited \ ctx.visited :=
      Finset.mem_sdiff.mpr ⟨ha, hold⟩
    have hpos := spanCount_pos (t := t) hmem (Nat.le_refl a) (lt_instrEnd ha hold)
    have := hdisj a
    omega

end

/-! ## A block that runs into visited code -/

/-- `nop; jz -3; ret`, analysed from the `jz` on: the branch target falls through to the branch. -/
def rotatedLoop : Target := sampleTarget [0x90, 0x74, 0xFD, 0xC3]

/-- The block of the `nop` ends where the branch was decoded before, and is left without an end. -/
theorem rotatedLoop_not_blocksCover :
    ¬ BlocksCover ∅ (analyzeFunction rotatedLoop {} (newFunction 0x1001) 0x1001 []) := by
  intro h
  have hopen : ∃ b ∈ (analyzeFunction rotatedLoop {} (newFunction 0x1001) 0x1001
      []).function.basicBlocks, b.startAddress = 0x1000 ∧ b.endAddress = 0 := by decide +kernel
  obtain ⟨b, hb, hs, he⟩ := hopen
  have hproper := h.proper b hb
  unfold BasicBlock.Proper at hproper
  omega

end ReWizard
