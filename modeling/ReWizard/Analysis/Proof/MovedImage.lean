import ReWizard.Analysis.Proof.Exploration
import ReWizard.Analysis.Proof.RelabelledBlocks
import ReWizard.Analysis.XrefManager

/-!
# The same image at another base

An image that is mapped at another base has its instructions at other addresses. `Target.Moved` says
that the image of `t'` is that of `t` moved up by `δ`, and `AnalysisContext.Moved` that one context
knows of the one image what another context knows of the other: visited addresses, functions,
blocks, records, call sites, cross-references and symbols correspond one by one.

An address that an instruction refers to is either computed from where the instruction is, and then
it moves with the image, or fixed, and then it has to lie outside of the image (`Target.Refer`).
-/

namespace ReWizard

/-! ## Addresses -/

/-- The address in the moved image. The null address, which stands for none, stays. -/
def moveAddr (δ a : Nat) : Nat := if a = 0 then 0 else a + δ

@[simp] theorem moveAddr_zero (δ : Nat) : moveAddr δ 0 = 0 := rfl

theorem moveAddr_of_pos {δ a : Nat} (h : a ≠ 0) : moveAddr δ a = a + δ := if_neg h

theorem moveAddr_strictMono (δ : Nat) : StrictMono (moveAddr δ) := by
  intro a b h
  unfold moveAddr
  split <;> split <;> omega

theorem moveAddr_eq_zero {δ a : Nat} : moveAddr δ a = 0 ↔ a = 0 := by
  unfold moveAddr
  split <;> omega

/-- Addition on addresses commutes with the move. -/
theorem addrAdd_move (a b δ : Nat) : addrAdd (addrAdd a δ) b = addrAdd (addrAdd a b) δ := by
  unfold addrAdd
  simp only [Nat.mod_add_mod]
  rw [Nat.add_right_comm]

/-- An operand of the instruction shows an address, the same wherever the instruction is: the slot
of a call, the address that `lea` takes, or the number that `mov` loads. -/
inductive ExtendedInstruction.ShowsFixed (i : ExtendedInstruction) : Nat → Prop
  | slot {mem : MemOperand} : i.instruction.category = .call →
      (i.instruction.op 0).value = .memory mem → mem.base = .none → mem.index = .none →
      ShowsFixed i mem.disp.toNat
  | taken {mem : MemOperand} : i.instruction.mnemonic = .lea →
      (i.instruction.op 1).value = .memory mem → mem.base = .none → mem.index = .none →
      ShowsFixed i mem.disp.toNat
  | loaded {imm : BitVec 64} : i.instruction.mnemonic = .mov →
      (i.instruction.op 1).value = .immediate imm → ShowsFixed i imm.toNat

/-- An operand of the instruction shows an address by its distance from the instruction: the target
of a call or jump, the slot of a call, or the address that `lea` takes. -/
inductive ExtendedInstruction.ShowsRelative (i : ExtendedInstruction) : Nat → Prop
  | target {imm : BitVec 64} : (i.instruction.op 0).value = .immediate imm →
      ShowsRelative i (i.relTarget imm)
  | slot {mem : MemOperand} : i.instruction.category = .call →
      (i.instruction.op 0).value = .memory mem → mem.base = .rip →
      ShowsRelative i (i.relTarget mem.disp)
  | taken {mem : MemOperand} : i.instruction.mnemonic = .lea →
      (i.instruction.op 1).value = .memory mem → mem.base = .rip →
      ShowsRelative i (i.relTarget mem.disp)

/-- The record is of what is decoded at its address. -/
def Target.Decoded (t : Target) (i : ExtendedInstruction) : Prop :=
  t.Mapped i.address ∧ (t.disassemble i.address).map (·.instruction) = some i.instruction

/-- `t'` has the image of `t` moved up by `δ`: the same bytes as far as the decoder reads, in which
no instruction shows a fixed address of either image, or the null address, which stands for a target
that is not known. -/
structure Target.Moved (t t' : Target) (δ : Nat) : Prop where
  decoder : t'.disassembler = t.disassembler
  base : t'.loader.currentImageBase = t.loader.currentImageBase + δ
  size : t'.loader.mappedSize = t.loader.mappedSize
  binary : t'.loader.binary = t.loader.binary
  entrypoint : t.loader.binary.entrypoint < addrSpace
  memory : ∀ a, t.loader.currentImageBase ≤ a → a < t.loader.imageEnd + maxInstructionLength →
    t'.loader.memory (a + δ) = t.loader.memory a
  sections : t'.loader.executableSections =
    t.loader.executableSections.map fun r => (r.1 + δ, r.2 + δ)
  inside : ∀ r ∈ t.loader.executableSections,
    t.loader.currentImageBase ≤ r.1 ∧ r.2 ≤ t.loader.imageEnd
  fixed : ∀ i d, t.Decoded i → i.ShowsFixed d →
    t.loader.isWithinMapping d = false ∧ t'.loader.isWithinMapping d = false
  relative : ∀ i d, t.Decoded i → i.ShowsRelative d → d ≠ 0 ∧ addrAdd d δ ≠ 0

/-- What an instruction refers to in the one image and in the other. -/
inductive Target.Refer (t t' : Target) (δ : Nat) : Nat → Nat → Prop
  | moved {d : Nat} : d < addrSpace → d ≠ 0 → addrAdd d δ ≠ 0 → Refer t t' δ d (addrAdd d δ)
  | fixed {d : Nat} : t.loader.isWithinMapping d = false → t'.loader.isWithinMapping d = false →
      Refer t t' δ d d

namespace Target.Moved

variable {t t' : Target} {δ : Nat} (h : t.Moved t' δ)

include h

theorem imageEnd : t'.loader.imageEnd = t.loader.imageEnd + δ := by
  unfold FileLoader.imageEnd
  rw [h.base, h.size, Nat.add_right_comm]

/-- There is room for the image and an instruction behind it. -/
theorem room : t.loader.imageEnd + maxInstructionLength + δ < addrSpace := by
  have h1 := t'.loader.belowTop
  have h2 : t'.loader.imageEnd = _ := h.imageEnd
  unfold FileLoader.imageEnd at h2 ⊢
  omega

theorem isWithinMapping (a : Nat) :
    t'.loader.isWithinMapping (moveAddr δ a) = t.loader.isWithinMapping a := by
  have h0 := t.loader.base_pos
  have h1 := t'.loader.base_pos
  unfold FileLoader.isWithinMapping
  rw [h.base, h.imageEnd]
  refine decide_eq_decide.mpr ?_
  unfold moveAddr
  split <;> omega

theorem isWithinMapping_addrAdd {a : Nat} (ha : a < addrSpace) :
    t'.loader.isWithinMapping (addrAdd a δ) = t.loader.isWithinMapping a := by
  have h0 := t.loader.base_pos
  have h1 := h.room
  unfold FileLoader.isWithinMapping
  rw [h.base, h.imageEnd]
  refine decide_eq_decide.mpr ?_
  by_cases hlt : a + δ < addrSpace
  · rw [addrAdd_of_lt hlt]
    omega
  · have hwrap : addrAdd a δ = a + δ - addrSpace := by
      unfold addrAdd
      rw [Nat.mod_eq_sub_mod (by omega), Nat.mod_eq_of_lt (by omega)]
    rw [hwrap]
    omega

theorem addrAdd_of_within {a : Nat} (ha : t.loader.isWithinMapping a = true) :
    addrAdd a δ = moveAddr δ a := by
  have h0 := t.loader.base_pos
  have h1 := h.room
  obtain ⟨hlo, hhi⟩ := FileLoader.isWithinMapping_iff.mp ha
  rw [moveAddr_of_pos (by omega), addrAdd_of_lt (by omega)]

theorem isExecutableAddress (a : Nat) :
    t'.loader.isExecutableAddress (moveAddr δ a) = t.loader.isExecutableAddress a := by
  have h0 := t.loader.base_pos
  unfold FileLoader.isExecutableAddress
  rw [h.sections, List.any_map, Bool.eq_iff_iff, List.any_eq_true, List.any_eq_true]
  refine exists_congr fun r => and_congr_right fun hr => ?_
  have hlo := (h.inside r hr).1
  simp only [Function.comp_apply, decide_eq_true_eq]
  unfold moveAddr
  split <;> omega

/-- Executable addresses are mapped. -/
theorem mapped {a : Nat} (ha : t.loader.isExecutableAddress a = true) : t.Mapped a := by
  unfold FileLoader.isExecutableAddress at ha
  obtain ⟨r, hr, hin⟩ := List.any_eq_true.mp ha
  have hin := of_decide_eq_true hin
  obtain ⟨hlo, hhi⟩ := h.inside r hr
  exact ⟨hlo.trans hin.1, hin.2.trans_le hhi⟩

theorem mapped' {a : Nat} (ha : t'.loader.isExecutableAddress a = true) :
    t'.loader.isWithinMapping a = true := by
  unfold FileLoader.isExecutableAddress at ha
  rw [h.sections, List.any_map] at ha
  obtain ⟨r, hr, hin⟩ := List.any_eq_true.mp ha
  obtain ⟨hlo, hhi⟩ := h.inside r hr
  have hin : r.1 + δ ≤ a ∧ a < r.2 + δ := of_decide_eq_true hin
  rw [FileLoader.isWithinMapping_iff, h.base, h.imageEnd]
  omega

theorem isExecutableAddress_addrAdd {a : Nat} (ha : a < addrSpace) :
    t'.loader.isExecutableAddress (addrAdd a δ) = t.loader.isExecutableAddress a := by
  by_cases hin : t.loader.isWithinMapping a = true
  · rw [h.addrAdd_of_within hin, h.isExecutableAddress]
  · have hx : ¬ t.loader.isExecutableAddress a = true :=
      fun hx => hin (FileLoader.isWithinMapping_iff.mpr (h.mapped hx))
    have hx' : ¬ t'.loader.isExecutableAddress (addrAdd a δ) = true := by
      intro hx'
      have := h.mapped' hx'
      rw [h.isWithinMapping_addrAdd ha] at this
      exact hin this
    rw [Bool.not_eq_true] at hx hx'
    rw [hx, hx']

/-- The instruction at an address of the one image is at the moved address in the other. -/
theorem disassemble_map {a : Nat} (ha : t.Mapped a) : t'.disassemble (moveAddr δ a) =
    (t.disassemble a).map fun i => { i with address := moveAddr δ a } := by
  have hbytes : readBytes t'.loader.memory (a + δ) maxInstructionLength =
      readBytes t.loader.memory a maxInstructionLength := by
    refine List.map_congr_left fun k hk => ?_
    have hk := List.mem_range.mp hk
    rw [Nat.add_right_comm]
    exact h.memory (a + k) (by have := ha.1; omega) (by have := ha.2; omega)
  unfold Target.disassemble Disassembler.disassembleSingle
  rw [moveAddr_of_pos ha.pos, h.decoder, hbytes, Option.map_map]
  rfl

end Target.Moved

/-! ## References -/

namespace Target.Refer

variable {t t' : Target} {δ d d' : Nat}

theorem within (h : t.Moved t' δ) (hr : t.Refer t' δ d d') :
    t'.loader.isWithinMapping d' = t.loader.isWithinMapping d := by
  cases hr with
  | moved hd _ _ => exact h.isWithinMapping_addrAdd hd
  | fixed hd hd' => rw [hd, hd']

theorem eq_move (h : t.Moved t' δ) (hr : t.Refer t' δ d d')
    (hw : t.loader.isWithinMapping d = true) : d' = moveAddr δ d := by
  cases hr with
  | moved _ _ _ => exact h.addrAdd_of_within hw
  | fixed hd _ =>
    rw [hd] at hw
    cases hw

theorem eq_zero (hr : t.Refer t' δ d d') : d' = 0 ↔ d = 0 := by
  cases hr with
  | moved _ h0 h0' => exact iff_of_false h0' h0
  | fixed _ _ => exact Iff.rfl

theorem null (t t' : Target) (δ : Nat) : t.Refer t' δ 0 0 := by
  have h0 := t.loader.base_pos
  have h1 := t'.loader.base_pos
  refine .fixed (decide_eq_false ?_) (decide_eq_false ?_) <;> omega

end Target.Refer

/-! ## Records and functions -/

/-- The record of an instruction, and the record in the other image. -/
structure Target.Recorded (t t' : Target) (δ : Nat) (i i' : ExtendedInstruction) : Prop where
  decoded : t.Decoded i
  same : i' = { i with address := moveAddr δ i.address, indirectValue := i'.indirectValue }
  value : t.Refer t' δ i.indirectValue i'.indirectValue

namespace Target.Recorded

variable {t t' : Target} {δ : Nat} {i i' : ExtendedInstruction}

theorem address (hr : t.Recorded t' δ i i') : i'.address = moveAddr δ i.address := by
  rw [hr.same]

theorem instruction (hr : t.Recorded t' δ i i') : i'.instruction = i.instruction := by
  rw [hr.same]

variable (h : t.Moved t' δ)

include h

theorem next (hr : t.Recorded t' δ i i') : i'.next = addrAdd i.next δ ∧
    i'.next = moveAddr δ i.next ∧ i.next = i.address + i.instruction.length := by
  have hroom := h.room
  obtain ⟨hm, hd⟩ := hr.decoded
  have hpos := hm.pos
  have hend := hm.2
  obtain ⟨j, hj, hinsn⟩ := Option.map_eq_some_iff.mp hd
  obtain ⟨-, -, -, -, hlen⟩ := Target.disassemble_eq_some hj
  rw [hinsn] at hlen
  have hnext : i.next = i.address + i.instruction.length := addrAdd_of_lt (by omega)
  have hnext' : i'.next = i.next + δ := by
    unfold ExtendedInstruction.next at hnext ⊢
    rw [hr.address, hr.instruction, moveAddr_of_pos hpos, hnext, addrAdd_of_lt (by omega)]
    omega
  refine ⟨?_, ?_, hnext⟩
  · rw [hnext', addrAdd_of_lt (by omega)]
  · rw [hnext', moveAddr_of_pos (by omega)]

theorem referNext (hr : t.Recorded t' δ i i') : t.Refer t' δ i.next i'.next := by
  have hroom := h.room
  obtain ⟨hm, hd⟩ := hr.decoded
  have hpos := hm.pos
  have hend := hm.2
  obtain ⟨j, hj, hinsn⟩ := Option.map_eq_some_iff.mp hd
  obtain ⟨-, -, -, -, hlen⟩ := Target.disassemble_eq_some hj
  rw [hinsn] at hlen
  obtain ⟨hadd, -, hnext⟩ := hr.next h
  have hsum : addrAdd i.next δ = i.next + δ := addrAdd_of_lt (by omega)
  rw [hadd]
  exact .moved (by omega) (by omega) (by omega)

theorem relTarget (hr : t.Recorded t' δ i i') (imm : BitVec 64) :
    i'.relTarget imm = addrAdd (i.relTarget imm) δ := by
  unfold ExtendedInstruction.relTarget
  rw [(hr.next h).1, addrAdd_move]

/-- An address that is shown by its distance moves with the instruction. -/
theorem refer (hr : t.Recorded t' δ i i') {imm : BitVec 64}
    (hshows : i.ShowsRelative (i.relTarget imm)) :
    t.Refer t' δ (i.relTarget imm) (i'.relTarget imm) := by
  obtain ⟨h0, h0'⟩ := h.relative i _ hr.decoded hshows
  rw [hr.relTarget h]
  exact .moved (addrAdd_lt _ _) h0 h0'

/-- An address that is shown as it is stays. -/
theorem referFixed (hr : t.Recorded t' δ i i') {d : Nat} (hshows : i.ShowsFixed d) :
    t.Refer t' δ d d :=
  .fixed (h.fixed i d hr.decoded hshows).1 (h.fixed i d hr.decoded hshows).2

end Target.Recorded

/-- Both decoders fail, or they find the same instruction. -/
theorem Target.Moved.disassemble {t t' : Target} {δ : Nat} (h : t.Moved t' δ) {a : Nat}
    (ha : t.Mapped a) :
    Option.Rel (fun i i' => i.address = a ∧ t.Recorded t' δ i i') (t.disassemble a)
      (t'.disassemble (moveAddr δ a)) := by
  rw [h.disassemble_map ha]
  cases hd : t.disassemble a with
  | none => exact .none
  | some i =>
    obtain ⟨haddr, -, h0, -⟩ := Target.disassemble_eq_some hd
    refine .some ⟨haddr, ⟨haddr ▸ ha, by rw [haddr, hd]; rfl⟩, by rw [haddr], ?_⟩
    dsimp only
    rw [h0]
    exact .null t t' δ

/-- Functions are named after their start, or after the target of the jump that they are. -/
inductive NameMoved (δ : Nat) : String → String → Prop
  | sub (a : Nat) : NameMoved δ ("sub_" ++ hex a) ("sub_" ++ hex (moveAddr δ a))
  | jump (a : Nat) : NameMoved δ ("j__" ++ hex a) ("j__" ++ hex (moveAddr δ a))

/-- Neither name is that of the entry function. -/
theorem NameMoved.ne_entrypoint {δ : Nat} {n n' : String} (h : NameMoved δ n n') :
    n ≠ "__entrypoint" ∧ n' ≠ "__entrypoint" := by
  have hsub : ∀ a, "sub_" ++ hex a ≠ "__entrypoint" := fun a heq => by
    have := congrArg String.toList heq
    simp at this
  have hjump : ∀ a, "j__" ++ hex a ≠ "__entrypoint" := fun a heq => by
    have := congrArg String.toList heq
    simp at this
  cases h with
  | sub a => exact ⟨hsub _, hsub _⟩
  | jump a => exact ⟨hjump _, hjump _⟩

/-- The function at the new addresses, but for its name and its call sites. -/
def Function.relabel (δ : Nat) (f : Function) : Function :=
  { f with
    startAddress := moveAddr δ f.startAddress
    endAddress := moveAddr δ f.endAddress
    lastInsnAddr := moveAddr δ f.lastInsnAddr
    basicBlocks := f.basicBlocks.map (BasicBlock.relabel (moveAddr δ))
    opaquePredicateAddresses := f.opaquePredicateAddresses.relabel (moveAddr_strictMono δ) }

/-- A call site of a function, and the call site in the other image. -/
def Target.SiteMoved (t t' : Target) (δ : Nat) (c c' : AddrPair) : Prop :=
  (ofLex c').1 = moveAddr δ (ofLex c).1 ∧ t.Refer t' δ (ofLex c).2 (ofLex c').2

/-- The functions are the same but for the base of the image. -/
structure Target.FunctionMoved (t t' : Target) (δ : Nat) (f f' : Function) : Prop where
  same : f' = { f.relabel δ with
    name := f'.name
    callSites := f'.callSites
    opaquePredicateResults := f'.opaquePredicateResults }
  name : NameMoved δ f.name f'.name
  callSites : f.callSites.toList.Matched (t.SiteMoved t' δ) f'.callSites.toList
  verdicts : f.opaquePredicateResults.Relabelled (moveAddr δ) Eq f'.opaquePredicateResults

namespace Target.FunctionMoved

variable {t t' : Target} {δ : Nat} {f f' : Function}

theorem start (h : t.FunctionMoved t' δ f f') : f'.startAddress = moveAddr δ f.startAddress := by
  rw [h.same]
  rfl

theorem stop (h : t.FunctionMoved t' δ f f') : f'.endAddress = moveAddr δ f.endAddress := by
  rw [h.same]
  rfl

theorem blocks (h : t.FunctionMoved t' δ f f') :
    f'.basicBlocks = f.basicBlocks.map (BasicBlock.relabel (moveAddr δ)) := by
  rw [h.same]
  rfl

theorem addCallSite (h : t.FunctionMoved t' δ f f') (c : Nat) {d d' : Nat}
    (hd : t.Refer t' δ d d') :
    t.FunctionMoved t' δ (f.addCallSite c d) (f'.addCallSite (moveAddr δ c) d') := by
  have hinj := (moveAddr_strictMono δ).injective
  -- the placeholder is taken away on both sides or on none
  have hsame : ∀ {e e' : AddrPair}, t.SiteMoved t' δ e e' →
      ((ofLex e').1 = moveAddr δ c ∧ (ofLex e').2 = 0 ↔ (ofLex e).1 = c ∧ (ofLex e).2 = 0) := by
    intro e e' he
    rw [he.1, hinj.eq_iff, he.2.eq_zero]
  refine ⟨?_, h.name, ⟨fun e he => ?_, fun e' he' => ?_⟩, h.verdicts⟩
  · unfold Function.addCallSite
    rw [h.same]
    rfl
  · rcases Function.mem_addCallSite (a := (ofLex e).1) (b := (ofLex e).2) |>.mp he with
      ⟨h1, h2⟩ | ⟨hmem, hne⟩
    · refine ⟨addrPair (moveAddr δ c) d', Function.mem_addCallSite.mpr (.inl ⟨rfl, rfl⟩), ?_, ?_⟩
      · rw [h1]
        rfl
      · rw [h2]
        exact hd
    · obtain ⟨e', he', hrel⟩ := h.callSites.left e hmem
      exact ⟨e', Function.mem_addCallSite (a := (ofLex e').1) (b := (ofLex e').2) |>.mpr
        (.inr ⟨he', mt (hsame hrel).mp hne⟩), hrel⟩
  · rcases Function.mem_addCallSite (a := (ofLex e').1) (b := (ofLex e').2) |>.mp he' with
      ⟨h1, h2⟩ | ⟨hmem, hne⟩
    · refine ⟨addrPair c d, Function.mem_addCallSite.mpr (.inl ⟨rfl, rfl⟩), h1, ?_⟩
      rw [h2]
      exact hd
    · obtain ⟨e, he, hrel⟩ := h.callSites.right e' hmem
      exact ⟨e, Function.mem_addCallSite (a := (ofLex e).1) (b := (ofLex e).2) |>.mpr
        (.inr ⟨he, mt (hsame hrel).mpr hne⟩), hrel⟩

/-- What the addresses do not enter. -/
theorem congr (h : t.FunctionMoved t' δ f f') {g g' : Function}
    (hsame : g' = { g.relabel δ with
      name := g'.name
      callSites := g'.callSites
      opaquePredicateResults := g'.opaquePredicateResults })
    (hname : NameMoved δ g.name g'.name) (hc : g.callSites = f.callSites)
    (hc' : g'.callSites = f'.callSites)
    (hv : g.opaquePredicateResults = f.opaquePredicateResults)
    (hv' : g'.opaquePredicateResults = f'.opaquePredicateResults) :
    t.FunctionMoved t' δ g g' := by
  refine ⟨hsame, hname, ?_, ?_⟩
  · rw [hc, hc']
    exact h.callSites
  · rw [hv, hv']
    exact h.verdicts

theorem indirectCalls (h : t.FunctionMoved t' δ f f') : t.FunctionMoved t' δ
    { f with containsIndirectCalls := true } { f' with containsIndirectCalls := true } :=
  h.congr (by rw [h.same]; rfl) h.name rfl rfl rfl rfl

theorem indirectJumps (h : t.FunctionMoved t' δ f f') : t.FunctionMoved t' δ
    { f with containsIndirectJumps := true } { f' with containsIndirectJumps := true } :=
  h.congr (by rw [h.same]; rfl) h.name rfl rfl rfl rfl

theorem trampoline (h : t.FunctionMoved t' δ f f') {n n' : String} (hn : NameMoved δ n n') :
    t.FunctionMoved t' δ { f with name := n, isTrampoline := true }
      { f' with name := n', isTrampoline := true } :=
  h.congr (by rw [h.same]; rfl) hn rfl rfl rfl rfl

theorem mark (h : t.FunctionMoved t' δ f f') (b : Bool) :
    t.FunctionMoved t' δ { f with markedForHybridAnalysis := b }
      { f' with markedForHybridAnalysis := b } :=
  h.congr (by rw [h.same]; rfl) h.name rfl rfl rfl rfl

theorem addBasicBlock (h : t.FunctionMoved t' δ f f') (b : BasicBlock) :
    t.FunctionMoved t' δ (f.addBasicBlock b)
      (f'.addBasicBlock (b.relabel (moveAddr δ))) := by
  refine h.congr ?_ h.name rfl rfl rfl rfl
  unfold Function.addBasicBlock
  rw [h.same]
  simp [Function.relabel]

theorem normalizeBasicBlocks (h : t.FunctionMoved t' δ f f') :
    t.FunctionMoved t' δ f.normalizeBasicBlocks f'.normalizeBasicBlocks := by
  refine h.congr ?_ h.name rfl rfl rfl rfl
  have hmono := moveAddr_strictMono δ
  unfold Function.normalizeBasicBlocks
  dsimp only
  rw [h.blocks, h.start, normalizeBlocks_relabel hmono rfl, buildCFG_relabel hmono, h.same]
  rfl

end Target.FunctionMoved

/-! ## Contexts -/

/-- The symbols at the new addresses. -/
structure SymbolsMoved (δ : Nat) (s s' : SymbolTable) : Prop where
  imports : List.Forall₂ (fun i i' => i' =
    { i with address := addrAdd i.address δ, iatEntry := addrAdd i.iatEntry δ }) s.imports s'.imports
  exports : List.Forall₂ (fun e e' => e.address < addrSpace ∧
    e' = { e with address := addrAdd e.address δ }) s.exports s'.exports
  relocations : List.Forall₂ (fun r r' => r' = { r with address := addrAdd r.address δ })
    s.relocations s'.relocations

/-- A cross-reference, and the one in the other image. -/
structure Target.XrefMoved (t t' : Target) (δ : Nat) (x x' : Xref) : Prop where
  src : x'.src = moveAddr δ x.src
  dst : t.Refer t' δ x.dst x'.dst
  type : x'.type = x.type

/-- The modules say the same of their images. -/
structure Target.ModuleMoved (t t' : Target) (δ : Nat) (m m' : Module) : Prop where
  instructions : m.instructions.Relabelled (moveAddr δ) (t.Recorded t' δ) m'.instructions
  functions : List.Forall₂ (t.FunctionMoved t' δ) m.functions m'.functions
  index : m.functionByStart.Relabelled (moveAddr δ) Eq m'.functionByStart
  symbols : SymbolsMoved δ m.symbolTable m'.symbolTable
  xrefs : m.xrefManager.all.Matched (t.XrefMoved t' δ) m'.xrefManager.all

/-- The contexts say the same of their images. -/
structure Target.ContextMoved (t t' : Target) (δ : Nat) (ctx ctx' : AnalysisContext) : Prop where
  module : t.ModuleMoved t' δ ctx.module ctx'.module
  visited : ctx'.visited = ctx.visited.image (moveAddr δ)

namespace Target.ModuleMoved

variable {t t' : Target} {δ : Nat} {m m' : Module}

theorem contains (h : t.ModuleMoved t' δ m m') (a : Nat) :
    m'.instructions.contains (moveAddr δ a) = m.instructions.contains a :=
  h.instructions.contains (moveAddr_strictMono δ) a

theorem getInstruction (h : t.ModuleMoved t' δ m m') (a : Nat) :
    Option.Rel (t.Recorded t' δ) (m.getInstruction a) (m'.getInstruction (moveAddr δ a)) :=
  h.instructions.get? (moveAddr_strictMono δ) a

theorem functions_nil (h : t.ModuleMoved t' δ m m') : m'.functions = [] ↔ m.functions = [] := by
  rw [← List.length_eq_zero_iff, ← List.length_eq_zero_iff, h.functions.length_eq]

theorem getFunctionForAddress (h : t.ModuleMoved t' δ m m') (a : Nat) :
    Option.Rel (t.FunctionMoved t' δ) (m.getFunctionForAddress a)
      (m'.getFunctionForAddress (moveAddr δ a)) := by
  have hmono := moveAddr_strictMono δ
  have hfloor := h.index.floor? hmono a
  have hget : ∀ {l l' : List Function} (k : Nat), List.Forall₂ (t.FunctionMoved t' δ) l l' →
      Option.Rel (t.FunctionMoved t' δ) l[k]? l'[k]? := by
    intro l l' k h
    induction h generalizing k with
    | nil => exact .none
    | cons hf _ ih =>
      cases k with
      | zero => exact .some hf
      | succ k => exact ih k
  unfold Module.getFunctionForAddress
  generalize m.functionByStart.floor? a = o at hfloor ⊢
  generalize m'.functionByStart.floor? (moveAddr δ a) = o' at hfloor ⊢
  cases hfloor with
  | none => exact .none
  | @some e e' hrel =>
    obtain ⟨start, slot⟩ := e
    obtain ⟨start', slot'⟩ := e'
    obtain ⟨-, rfl⟩ := hrel
    cases slot with
    | none => exact .none
    | some k =>
      have hk := hget k h.functions
      dsimp only
      generalize m.functions[k]? = p at hk ⊢
      generalize m'.functions[k]? = p' at hk ⊢
      cases hk with
      | none => exact .none
      | @some f f' hf =>
        dsimp only
        rw [hf.start, hf.stop]
        simp only [hmono.lt_iff_lt, hmono.le_iff_le]
        split
        · exact .some hf
        · exact .none

theorem isSome (h : t.ModuleMoved t' δ m m') (a : Nat) :
    (m'.getFunctionForAddress (moveAddr δ a)).isSome = (m.getFunctionForAddress a).isSome := by
  have hrel := h.getFunctionForAddress a
  generalize m.getFunctionForAddress a = o at hrel ⊢
  generalize m'.getFunctionForAddress (moveAddr δ a) = o' at hrel ⊢
  cases hrel <;> rfl

theorem isNone (h : t.ModuleMoved t' δ m m') (a : Nat) :
    (m'.getFunctionForAddress (moveAddr δ a)).isNone = (m.getFunctionForAddress a).isNone := by
  rw [← Option.not_isSome, ← Option.not_isSome, h.isSome]

theorem addXref (h : t.ModuleMoved t' δ m m') {src d d' : Nat} (hd : t.Refer t' δ d d')
    (kind : String) :
    t.ModuleMoved t' δ (m.addXref src d kind) (m'.addXref (moveAddr δ src) d' kind) := by
  have hnew : t.XrefMoved t' δ ⟨src, d, kind⟩ ⟨moveAddr δ src, d', kind⟩ := ⟨rfl, hd, rfl⟩
  refine { h with xrefs := ⟨fun x hx => ?_, fun x' hx' => ?_⟩ }
  · rcases XrefManager.mem_addXref.mp hx with rfl | hx
    · exact ⟨_, XrefManager.mem_addXref.mpr (.inl rfl), hnew⟩
    · obtain ⟨x', hx', hrel⟩ := h.xrefs.left x hx
      exact ⟨x', XrefManager.mem_addXref.mpr (.inr hx'), hrel⟩
  · rcases XrefManager.mem_addXref.mp hx' with rfl | hx'
    · exact ⟨_, XrefManager.mem_addXref.mpr (.inl rfl), hnew⟩
    · obtain ⟨x, hx, hrel⟩ := h.xrefs.right x' hx'
      exact ⟨x, XrefManager.mem_addXref.mpr (.inr hx), hrel⟩

theorem insert (h : t.ModuleMoved t' δ m m') {i i' : ExtendedInstruction}
    (hi : t.Recorded t' δ i i') :
    t.ModuleMoved t' δ
      { m with
        instructions := m.instructions.insert i.address i
        keyed := m.keyed.insert rfl }
      { m' with
        instructions := m'.instructions.insert i'.address i'
        keyed := m'.keyed.insert rfl } := by
  have haddr := hi.address
  refine { h with instructions := ?_ }
  simp only [haddr]
  exact h.instructions.insert (moveAddr_strictMono δ) hi

theorem addInstruction (h : t.ModuleMoved t' δ m m') {i i' : ExtendedInstruction}
    (hi : t.Recorded t' δ i i') :
    t.ModuleMoved t' δ (m.addInstruction i) (m'.addInstruction i') := by
  have haddr := hi.address
  have hcontains : m'.instructions.contains i'.address = m.instructions.contains i.address := by
    rw [haddr, h.contains]
  unfold Module.addInstruction
  simp only [hcontains]
  split
  · exact h
  · exact h.insert hi

theorem markIndirect (h : t.ModuleMoved t' δ m m') {i i' : ExtendedInstruction}
    (hi : t.Recorded t' δ i i') (inserted : Bool) :
    t.ModuleMoved t' δ (ReWizard.markIndirect i inserted m)
      (ReWizard.markIndirect i' inserted m') := by
  have hmark : t.Recorded t' δ { i with isIndirect := true } { i' with isIndirect := true } :=
    ⟨hi.decoded, by rw [hi.same], hi.value⟩
  unfold ReWizard.markIndirect
  split
  · exact h.insert hmark
  · exact h

theorem addFunction (h : t.ModuleMoved t' δ m m') {f f' : Function}
    (hf : t.FunctionMoved t' δ f f') :
    t.ModuleMoved t' δ (m.addFunction f) (m'.addFunction f') := by
  refine { h with functions := List.rel_append h.functions (.cons hf .nil), index := ?_ }
  unfold Module.addFunction
  rw [hf.start, h.functions.length_eq]
  exact h.index.insert (moveAddr_strictMono δ) rfl

end Target.ModuleMoved

namespace Target.ContextMoved

variable {t t' : Target} {δ : Nat} {ctx ctx' : AnalysisContext}

theorem mem_visited (h : t.ContextMoved t' δ ctx ctx') (a : Nat) :
    moveAddr δ a ∈ ctx'.visited ↔ a ∈ ctx.visited := by
  rw [h.visited]
  exact (moveAddr_strictMono δ).injective.mem_finset_image

end Target.ContextMoved

end ReWizard
