import ReWizard.Analysis.Proof.NormalizedBlocks

/-!
# What a block says about its instructions

Besides its range and its edges a block carries the address of its last instruction and two flags for
indirect calls and jumps. `Split` leaves them all with the old half, and the new half has none of
them:

* `normalizeBlocks_same`: where no successor lies inside a block, normalisation keeps them;
* `normalizeBlocks_fresh`: a block that begins at a cut has no last instruction;
* `normalizeBasicBlocks_metadata_iff`: so the metadata are true afterwards if and only if nothing was
  cut.
-/

namespace ReWizard

/-- An indirect call. -/
def ExtendedInstruction.IsIndirectCall (i : ExtendedInstruction) : Prop :=
  i.instruction.category = .call ∧ i.indirectCall = true

/-- An indirect jump. -/
def ExtendedInstruction.IsIndirectJump (i : ExtendedInstruction) : Prop :=
  (i.instruction.category = .condBr ∨ i.instruction.category = .uncondBr) ∧ i.indirectJump = true

instance (i : ExtendedInstruction) : Decidable i.IsIndirectCall :=
  inferInstanceAs (Decidable (_ ∧ _))

instance (i : ExtendedInstruction) : Decidable i.IsIndirectJump :=
  inferInstanceAs (Decidable (_ ∧ _))

section

variable (code : Nat → Option ExtendedInstruction)

/-- An instruction of the kind starts in the block. `code` has the instruction that starts at an
address. -/
def BasicBlock.Has (b : BasicBlock) (kind : ExtendedInstruction → Prop) : Prop :=
  ∃ a i, b.Contains a ∧ code a = some i ∧ kind i

/-- The last instruction that starts in the block is where the block says, and the flags tell whether
an indirect call or jump starts in it. -/
structure BasicBlock.MetadataTrue (b : BasicBlock) : Prop where
  inside : b.Contains b.lastInsnAddr
  starts : (code b.lastInsnAddr).isSome
  last : ∀ a, b.Contains a → (code a).isSome → a ≤ b.lastInsnAddr
  calls : b.containsIndirectCalls = true ↔ b.Has code ExtendedInstruction.IsIndirectCall
  jumps : b.containsIndirectJumps = true ↔ b.Has code ExtendedInstruction.IsIndirectJump

/-- Every successor that lies inside a block is where an instruction starts. -/
def AtBoundaries (blocks : List BasicBlock) : Prop :=
  ∀ b ∈ blocks, ∀ c ∈ blocks, ∀ a ∈ c.successors, b.startAddress < a → a < b.endAddress →
    (code a).isSome

end

/-- No successor lies strictly inside a block. -/
def NoSuccessorInside (blocks : List BasicBlock) : Prop :=
  ∀ b ∈ blocks, ∀ c ∈ blocks, ∀ a ∈ c.successors, ¬ (b.startAddress < a ∧ a < b.endAddress)

variable {blocks : List BasicBlock}

/-- Two blocks with the same range and metadata. -/
structure BasicBlock.Same (b p : BasicBlock) : Prop where
  start : p.startAddress = b.startAddress
  stop : p.endAddress = b.endAddress
  last : p.lastInsnAddr = b.lastInsnAddr
  calls : p.containsIndirectCalls = b.containsIndirectCalls
  jumps : p.containsIndirectJumps = b.containsIndirectJumps

theorem BasicBlock.Same.metadata {b p : BasicBlock} (h : b.Same p)
    {code : Nat → Option ExtendedInstruction} (hb : b.MetadataTrue code) : p.MetadataTrue code := by
  have hcontains : ∀ a, p.Contains a ↔ b.Contains a := fun a => by
    unfold BasicBlock.Contains
    rw [h.start, h.stop]
  have hhas : ∀ kind, p.Has code kind ↔ b.Has code kind := fun kind => by
    unfold BasicBlock.Has
    simp only [hcontains]
  refine ⟨?_, ?_, fun a ha hi => ?_, ?_, ?_⟩
  · rw [h.last, hcontains]
    exact hb.inside
  · rw [h.last]
    exact hb.starts
  · rw [h.last]
    exact hb.last a ((hcontains a).mp ha) hi
  · rw [h.calls, hhas]
    exact hb.calls
  · rw [h.jumps, hhas]
    exact hb.jumps

/-- An entry inside a block of a partition is a successor. -/
theorem Partition.entry_inside (h : Partition blocks) {b : BasicBlock} (hb : b ∈ blocks) {a : Nat}
    (ha : a ∈ (collectEntries blocks).toList) (h1 : b.startAddress < a) (h2 : a < b.endAddress) :
    ∃ c ∈ blocks, a ∈ c.successors := by
  obtain ⟨c, hc, rfl | ha⟩ := mem_collectEntries.mp ha
  · exact absurd h2 (Nat.not_lt.mpr (h.start_not_inside hc hb h1))
  · exact ⟨c, hc, ha⟩

/-- Blocks that nothing is inside of keep their ranges and metadata. -/
theorem normalizeBlocks_same (h : Partition blocks) (hnone : NoSuccessorInside blocks) :
    ∀ p ∈ normalizeBlocks blocks, ∃ b ∈ blocks, b.Same p := by
  refine normalizeBlocks_inv (I := fun bs => ∀ p ∈ bs, ∃ b ∈ blocks, b.Same p) ⟨?_, ?_⟩
    fun b hb => ⟨b, hb, rfl, rfl, rfl, rfl, rfl⟩
  · intro bs k c a hbs hc ha
    obtain ⟨b, hb, hbc⟩ := hbs c (List.mem_of_getElem? hc.block)
    have h1 : b.startAddress < a := hbc.start ▸ hc.after
    have h2 : a < b.endAddress := hbc.stop ▸ hc.before
    obtain ⟨d, hd, had⟩ := h.entry_inside hb ha h1 h2
    exact absurd ⟨h1, h2⟩ (hnone b hb d hd a had)
  · intro bs k start hbs p hp
    obtain ⟨q, hq, rfl | rfl⟩ := mem_modify hp
    · exact hbs _ hq
    · obtain ⟨b, hb, hbq⟩ := hbs q hq
      exact ⟨b, hb, hbq.start, hbq.stop, hbq.last, hbq.calls, hbq.jumps⟩

/-- A block begins where one began before, or it has no last instruction. -/
theorem normalizeBlocks_fresh :
    ∀ p ∈ normalizeBlocks blocks,
      (∃ b ∈ blocks, p.startAddress = b.startAddress) ∨ p.lastInsnAddr = 0 := by
  refine normalizeBlocks_inv (I := fun bs => ∀ p ∈ bs,
    (∃ b ∈ blocks, p.startAddress = b.startAddress) ∨ p.lastInsnAddr = 0) ⟨?_, ?_⟩
    fun b hb => .inl ⟨b, hb, rfl⟩
  · intro bs k c a hbs hc _ p hp
    rcases of_mem_splitBlocks hp with hp | rfl | rfl
    · exact hbs p hp
    · exact hbs c (List.mem_of_getElem? hc.block)
    · exact .inr rfl
  · intro bs k start hbs p hp
    obtain ⟨q, hq, rfl | rfl⟩ := mem_modify hp
    · exact hbs _ hq
    · exact hbs q hq

/-- **The metadata are true after normalisation, if and only if nothing is cut**: on non-empty blocks
that do not overlap and whose metadata are true, wherever their successors are. -/
theorem normalizeBasicBlocks_metadata_iff (code : Nat → Option ExtendedInstruction) (f : Function)
    (h : Partition f.basicBlocks) (hm : ∀ b ∈ f.basicBlocks, b.MetadataTrue code) :
    (∀ b ∈ f.normalizeBasicBlocks.basicBlocks, b.MetadataTrue code) ↔
      NoSuccessorInside f.basicBlocks := by
  constructor
  · rintro hall b hb c hc a ha ⟨h1, h2⟩
    -- the block that begins at the cut is not one of the old ones
    have hcovered : Covered f.basicBlocks a := ⟨b, hb, Nat.le_of_lt h1, h2⟩
    obtain ⟨p, hp, rfl⟩ :=
      exists_start_of_lookup (normalizeBlocks_lookups (mem_collectEntries.mpr ⟨c, hc, .inr ha⟩))
        (covered_normalizeBlocks.mpr hcovered)
    rcases normalizeBlocks_fresh p hp with ⟨d, hd, hstart⟩ | hlast
    · have := h.start_not_inside hd hb (hstart ▸ h1)
      omega
    · have hinside := (hall p hp).inside.1
      rw [hlast] at hinside
      omega
  · intro hnone p hp
    obtain ⟨b, hb, hbp⟩ := normalizeBlocks_same h hnone p hp
    exact hbp.metadata (hm b hb)

/-! ## A jump into a block -/

/-- `nop; call rax; nop; jmp` to the second `nop`. -/
def loopCode (a : Nat) : Option ExtendedInstruction :=
  match a with
  | 0x1000 => some { instruction := nopInsn, address := a }
  | 0x1001 => some { instruction := callRegInsn .rax, address := a }
  | 0x1003 => some { instruction := nopInsn, address := a }
  | 0x1004 => some { instruction := jmpInsn 0xFD, address := a }
  | _ => none

/-- Its block, with a jump to `target` at the end. -/
def loopBlock (target : Nat) : BasicBlock where
  name := "loc_1000"
  startAddress := 0x1000
  endAddress := 0x1006
  lastInsnAddr := 0x1004
  containsIndirectCalls := true
  successors := [target]

def loopFunction (target : Nat) : Function where
  name := "sub_1000"
  startAddress := 0x1000
  endAddress := 0x1006
  lastInsnAddr := 0x1004
  basicBlocks := [loopBlock target]
  containsIndirectCalls := true

theorem loopFunction_partition (target : Nat) : Partition (loopFunction target).basicBlocks where
  proper := fun b hb => by
    rw [List.mem_singleton.mp hb]
    show 0x1000 < 0x1006
    decide
  disjoint := List.pairwise_singleton _ _

theorem loopFunction_metadata (target : Nat) :
    ∀ b ∈ (loopFunction target).basicBlocks, b.MetadataTrue loopCode := by
  intro b hb
  rw [List.mem_singleton.mp hb]
  have hcases : ∀ a, (loopBlock target).Contains a →
      a = 0x1000 ∨ a = 0x1001 ∨ a = 0x1002 ∨ a = 0x1003 ∨ a = 0x1004 ∨ a = 0x1005 := by
    rintro a ⟨h1, h2⟩
    simp only [loopBlock] at h1 h2
    omega
  refine ⟨⟨?_, ?_⟩, rfl, fun a ha hi => ?_, ⟨fun _ => ?_, fun _ => rfl⟩, fun hflag => ?_, ?_⟩
  · show 0x1000 ≤ 0x1004
    decide
  · show 0x1004 < 0x1006
    decide
  · show a ≤ 0x1004
    rcases hcases a ha with rfl | rfl | rfl | rfl | rfl | rfl
    all_goals first | decide | cases hi
  · refine ⟨0x1001, _, ⟨?_, ?_⟩, rfl, by decide⟩
    · show 0x1000 ≤ 0x1001
      decide
    · show 0x1001 < 0x1006
      decide
  · cases hflag
  · rintro ⟨a, i, ha, hi, hkind⟩
    rcases hcases a ha with rfl | rfl | rfl | rfl | rfl | rfl
    all_goals cases hi
    all_goals exact absurd hkind (by decide)

/-- A jump to the beginning cuts nothing. -/
theorem loopFunction_metadata_kept :
    Partition (loopFunction 0x1000).basicBlocks ∧
      ∀ b ∈ (loopFunction 0x1000).normalizeBasicBlocks.basicBlocks, b.MetadataTrue loopCode := by
  refine ⟨loopFunction_partition 0x1000, ?_⟩
  refine (normalizeBasicBlocks_metadata_iff loopCode _ (loopFunction_partition 0x1000)
    (loopFunction_metadata 0x1000)).mpr ?_
  intro b hb c hc a ha
  rw [List.mem_singleton.mp hb]
  rw [List.mem_singleton.mp hc] at ha
  rw [List.mem_singleton.mp ha]
  decide

/-- A jump into the block leaves a half without a last instruction. -/
theorem loopFunction_metadata_lost :
    Partition (loopFunction 0x1003).basicBlocks ∧
      (∀ b ∈ (loopFunction 0x1003).basicBlocks, b.MetadataTrue loopCode) ∧
      AtBoundaries loopCode (loopFunction 0x1003).basicBlocks ∧
      ¬ ∀ b ∈ (loopFunction 0x1003).normalizeBasicBlocks.basicBlocks, b.MetadataTrue loopCode := by
  refine ⟨loopFunction_partition 0x1003, loopFunction_metadata 0x1003, ?_, fun hall => ?_⟩
  · intro b _ c hc a ha _ _
    rw [List.mem_singleton.mp hc] at ha
    rw [List.mem_singleton.mp ha]
    decide
  · have hlost : ∃ b ∈ (loopFunction 0x1003).normalizeBasicBlocks.basicBlocks,
        b.startAddress = 0x1003 ∧ b.lastInsnAddr = 0 := by
      decide +kernel
    obtain ⟨b, hb, hstart, hlast⟩ := hlost
    have hinside := (hall b hb).inside.1
    rw [hstart, hlast] at hinside
    omega

end ReWizard
