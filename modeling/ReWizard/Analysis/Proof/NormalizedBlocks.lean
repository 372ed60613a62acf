import ReWizard.Analysis.Proof.Layout

/-!
# What normalisation makes of a partition

`NormalizeBasicBlocks` ends for every block list (`normalizeBlocks_terminates`). On non-empty blocks
that do not overlap (`Partition`) it cuts every block at the entries inside it and does nothing
else: `normalizeBasicBlocks_normalized`.
-/

namespace ReWizard

/-! ## Termination -/

/-- **The loop ends**: whatever the blocks are, the loop over them is left after finitely many passes,
and of these at most as many split a block as there are entries inside blocks. -/
theorem normalizeBlocks_terminates (blocks : List BasicBlock) :
    ∃ s, Loop.Exits (normalizeStep (collectEntries blocks).toList) ⟨blocks, 0⟩ s ∧
      s.blocks = normalizeBlocks blocks ∧
      (normalizeBlocks blocks).length ≤
        blocks.length + entriesInside (collectEntries blocks).toList blocks := by
  have hs : SuccessorsIn (collectEntries blocks).toList blocks := fun b hb a ha =>
    mem_collectEntries.mpr ⟨b, hb, .inr ha⟩
  have hnd : (collectEntries blocks).toList.Nodup := (collectEntries blocks).sorted.imp ne_of_lt
  refine ⟨_, normalize_exits hnd hs, rfl, ?_⟩
  have htotal := normalizeBlocks_inv (kept_total hnd (blocks.length +
    entriesInside (collectEntries blocks).toList blocks)) rfl
  omega

/-! ## Partitions -/

/-- Non-empty blocks that do not overlap. -/
structure Partition (blocks : List BasicBlock) : Prop where
  proper : ∀ b ∈ blocks, b.Proper
  disjoint : blocks.Pairwise fun b c =>
    b.endAddress ≤ c.startAddress ∨ c.endAddress ≤ b.startAddress

/-- Some block has the address. -/
def Covered (blocks : List BasicBlock) (a : Nat) : Prop := ∃ b ∈ blocks, b.Contains a

theorem cover_pos_iff {blocks : List BasicBlock} {a : Nat} :
    0 < cover blocks a ↔ Covered blocks a := by
  unfold cover Covered
  rw [List.countP_pos_iff]
  simp only [decide_eq_true_eq]

theorem BasicBlock.Proper.contains_start {b : BasicBlock} (h : b.Proper) :
    b.Contains b.startAddress := ⟨Nat.le_refl _, h⟩

/-- Non-empty blocks do not overlap when no address is in two of them. -/
theorem partition_iff_cover {blocks : List BasicBlock} :
    Partition blocks ↔ (∀ b ∈ blocks, b.Proper) ∧ ∀ a, cover blocks a ≤ 1 := by
  induction blocks with
  | nil =>
    exact ⟨fun _ => ⟨List.forall_mem_nil _, fun _ => Nat.zero_le 1⟩,
      fun _ => ⟨List.forall_mem_nil _, .nil⟩⟩
  | cons b rest ih =>
    have hcons : ∀ a, cover (b :: rest) a = cover rest a + if b.Contains a then 1 else 0 := by
      intro a
      unfold cover
      rw [List.countP_cons]
      simp only [decide_eq_true_eq]
    constructor
    · rintro ⟨hproper, hdisjoint⟩
      obtain ⟨hb, hrest⟩ := List.pairwise_cons.mp hdisjoint
      have hrest' := ih.mp ⟨fun c hc => hproper c (List.mem_cons_of_mem b hc), hrest⟩
      refine ⟨hproper, fun a => ?_⟩
      rw [hcons]
      split
      · rename_i hba
        have hnone : ¬ 0 < cover rest a := by
          rw [cover_pos_iff]
          rintro ⟨c, hc, hca⟩
          have h1 := hba.1
          have h2 := hba.2
          have h3 := hca.1
          have h4 := hca.2
          rcases hb c hc with hbc | hbc <;> omega
        omega
      · exact hrest'.2 a
    · rintro ⟨hproper, hcover⟩
      have hrest := ih.mpr ⟨fun c hc => hproper c (List.mem_cons_of_mem b hc), fun a => by
        have := hcover a
        rw [hcons] at this
        omega⟩
      refine ⟨hproper, List.pairwise_cons.mpr ⟨fun c hc => ?_, hrest.disjoint⟩⟩
      by_contra hcon
      -- the greater start is in both blocks
      have hbp := hproper b List.mem_cons_self
      have hcp := hproper c (List.mem_cons_of_mem b hc)
      unfold BasicBlock.Proper at hbp hcp
      have hb : b.Contains (max b.startAddress c.startAddress) := ⟨le_max_left _ _, by omega⟩
      have hc' : 0 < cover rest (max b.startAddress c.startAddress) :=
        cover_pos_iff.mpr ⟨c, hc, le_max_right _ _, by omega⟩
      have := hcover (max b.startAddress c.startAddress)
      rw [hcons, if_pos hb] at this
      omega

namespace Partition

variable {blocks : List BasicBlock} {b c : BasicBlock} {a : Nat}

/-- An address is in one block only. -/
theorem index_unique (h : Partition blocks) {j k : Nat} (hb : blocks[j]? = some b)
    (hc : blocks[k]? = some c) (hba : b.Contains a) (hca : c.Contains a) : j = k := by
  obtain ⟨hj, rfl⟩ := List.getElem?_eq_some_iff.mp hb
  obtain ⟨hk, rfl⟩ := List.getElem?_eq_some_iff.mp hc
  have hpairs := List.pairwise_iff_getElem.mp h.disjoint
  have h1 := hba.1
  have h2 := hba.2
  have h3 := hca.1
  have h4 := hca.2
  rcases Nat.lt_trichotomy j k with hlt | heq | hlt
  · have := hpairs j k hj hk hlt
    omega
  · exact heq
  · have := hpairs k j hk hj hlt
    omega

theorem eq_of_contains (h : Partition blocks) (hb : b ∈ blocks) (hc : c ∈ blocks)
    (hba : b.Contains a) (hca : c.Contains a) : b = c := by
  obtain ⟨j, hj⟩ := List.getElem?_of_mem hb
  obtain ⟨k, hk⟩ := List.getElem?_of_mem hc
  obtain rfl := h.index_unique hj hk hba hca
  rw [hj] at hk
  exact Option.some.inj hk

/-- Two blocks do not end at the same address. -/
theorem eq_of_end (h : Partition blocks) (hb : b ∈ blocks) (hc : c ∈ blocks)
    (heq : b.endAddress = c.endAddress) : b = c := by
  have hbp := h.proper b hb
  have hcp := h.proper c hc
  unfold BasicBlock.Proper at hbp hcp
  exact h.eq_of_contains (a := b.endAddress - 1) hb hc ⟨by omega, by omega⟩ ⟨by omega, by omega⟩

/-- A block start is not strictly inside a block. -/
theorem start_not_inside (h : Partition blocks) (hb : b ∈ blocks) (hc : c ∈ blocks)
    (h1 : c.startAddress < b.startAddress) : c.endAddress ≤ b.startAddress := by
  by_contra hcon
  have heq := h.eq_of_contains hb hc (h.proper b hb).contains_start
    ⟨Nat.le_of_lt h1, Nat.lt_of_not_le hcon⟩
  rw [heq] at h1
  exact Nat.lt_irrefl _ h1

end Partition

/-- Normalised blocks are a partition again. -/
theorem Partition.normalizeBlocks {blocks : List BasicBlock} (h : Partition blocks) :
    Partition (normalizeBlocks blocks) := by
  obtain ⟨hproper, hcover⟩ := partition_iff_cover.mp h
  exact partition_iff_cover.mpr ⟨normalizeBlocks_proper hproper, fun a =>
    (normalizeBlocks_cover blocks a).symm ▸ hcover a⟩

theorem covered_normalizeBlocks {blocks : List BasicBlock} {a : Nat} :
    Covered (normalizeBlocks blocks) a ↔ Covered blocks a := by
  rw [← cover_pos_iff, ← cover_pos_iff, normalizeBlocks_cover]

/-! ## Starts and ends -/

/-- A start stays a start. -/
theorem normalizeBlocks_start {blocks : List BasicBlock} {b : BasicBlock} (hb : b ∈ blocks) :
    ∃ p ∈ normalizeBlocks blocks, p.startAddress = b.startAddress := by
  refine normalizeBlocks_inv (I := fun bs => ∃ p ∈ bs, p.startAddress = b.startAddress) ⟨?_, ?_⟩
    ⟨b, hb, rfl⟩
  · rintro bs k c a ⟨p, hp, hstart⟩ hc _
    rcases mem_splitBlocks hc hp with rfl | hp
    · exact ⟨(p.split a).1, left_mem_splitBlocks hc, hstart⟩
    · exact ⟨p, hp, hstart⟩
  · rintro bs k start ⟨p, hp, hstart⟩
    obtain ⟨q, hq, rfl | rfl⟩ := mem_link (k := k) hp start
    · exact ⟨q, hq, hstart⟩
    · exact ⟨_, hq, hstart⟩

/-- An entry that is looked up without a split, and that some block has, is a block start. -/
theorem exists_start_of_lookup {blocks : List BasicBlock} {a : Nat}
    (h : (getBasicBlockForAddress blocks a).wasSplit = false) (ha : Covered blocks a) :
    ∃ p ∈ blocks, p.startAddress = a := by
  obtain ⟨b, hb, hba⟩ := ha
  unfold getBasicBlockForAddress at h
  cases hk : findForSplit blocks a with
  | none =>
    have hno := List.findIdx?_eq_none_iff.mp hk b hb
    have h1 := hba.1
    have h2 := hba.2
    have := of_decide_eq_false hno
    omega
  | some k =>
    rw [hk] at h
    obtain ⟨hlt, -, -⟩ := List.findIdx?_eq_some_iff_getElem.mp hk
    dsimp only at h
    rw [List.getElem?_eq_getElem hlt] at h
    dsimp only at h
    split at h
    · rename_i heq
      exact ⟨_, List.getElem_mem hlt, heq.symm⟩
    · cases h

/-- Where a block ended, a block with its successors ends. -/
theorem normalizeBlocks_end {blocks : List BasicBlock} {b : BasicBlock} (hb : b ∈ blocks) :
    ∃ p ∈ normalizeBlocks blocks, p.endAddress = b.endAddress ∧ p.successors = b.successors := by
  refine normalizeBlocks_inv (I := fun bs =>
    ∃ p ∈ bs, p.endAddress = b.endAddress ∧ p.successors = b.successors) ⟨?_, ?_⟩ ⟨b, hb, rfl, rfl⟩
  · rintro bs k c a ⟨p, hp, hpb⟩ hc _
    rcases mem_splitBlocks hc hp with rfl | hp
    · exact ⟨(p.split a).2, right_mem_splitBlocks, hpb⟩
    · exact ⟨p, hp, hpb⟩
  · rintro bs k start ⟨p, hp, hpb⟩
    obtain ⟨q, hq, rfl | rfl⟩ := mem_link (k := k) hp start
    · exact ⟨q, hq, hpb⟩
    · exact ⟨_, hq, hpb⟩

/-- A block ends where one of the old blocks did, or leads to its own end. -/
theorem normalizeBlocks_successors_cases {blocks : List BasicBlock} :
    ∀ p ∈ normalizeBlocks blocks,
      (∃ b ∈ blocks, p.endAddress = b.endAddress ∧ p.successors = b.successors) ∨
        p.successors = [p.endAddress] := by
  refine normalizeBlocks_inv (I := fun bs => ∀ p ∈ bs,
    (∃ b ∈ blocks, p.endAddress = b.endAddress ∧ p.successors = b.successors) ∨
      p.successors = [p.endAddress]) ⟨?_, ?_⟩ fun b hb => .inl ⟨b, hb, rfl, rfl⟩
  · intro bs k c a h hc _ p hp
    rcases of_mem_splitBlocks hp with hp | rfl | rfl
    · exact h p hp
    · exact .inr rfl
    · rcases h c (List.mem_of_getElem? hc.block) with hold | hnew
      · exact .inl hold
      · exact .inr hnew
  · intro bs k start h p hp
    obtain ⟨q, hq, rfl | rfl⟩ := mem_modify hp
    · exact h _ hq
    · exact h q hq

/-! ## The program is preserved -/

/-- `out` has the addresses of `blocks`, cut at the entries, and the successors of `blocks`. -/
structure Normalized (blocks out : List BasicBlock) : Prop where
  partition : Partition out
  covered : ∀ a, Covered out a ↔ Covered blocks a
  starts : ∀ b ∈ blocks, ∃ p ∈ out, p.startAddress = b.startAddress
  targets : ∀ b ∈ blocks, ∀ a ∈ b.successors, Covered blocks a → ∃ p ∈ out, p.startAddress = a
  ends : ∀ b ∈ blocks, ∃ p ∈ out, p.endAddress = b.endAddress ∧ p.successors = b.successors ∧
    ∀ q ∈ out, q.endAddress = b.endAddress → q = p
  others : ∀ p ∈ out, (∀ b ∈ blocks, p.endAddress ≠ b.endAddress) → p.successors = [p.endAddress]

/-- **Normalisation preserves the program**: on non-empty blocks that do not overlap, whatever their
successors are, it cuts blocks at the entries inside them and links the pieces. -/
theorem normalizeBasicBlocks_normalized (f : Function) (h : Partition f.basicBlocks) :
    Normalized f.basicBlocks f.normalizeBasicBlocks.basicBlocks where
  partition := h.normalizeBlocks
  covered := fun _ => covered_normalizeBlocks
  starts := fun _ hb => normalizeBlocks_start hb
  targets := fun b hb _ ha hcovered =>
    exists_start_of_lookup (normalizeBlocks_lookups (mem_collectEntries.mpr ⟨b, hb, .inr ha⟩))
      (covered_normalizeBlocks.mpr hcovered)
  ends := fun b hb => by
    obtain ⟨p, hp, hend, hsuccs⟩ := normalizeBlocks_end hb
    exact ⟨p, hp, hend, hsuccs, fun q hq hqe =>
      h.normalizeBlocks.eq_of_end hq hp (hqe.trans hend.symm)⟩
  others := fun p hp hne =>
    (normalizeBlocks_successors_cases p hp).resolve_left fun ⟨b, hb, hend, _⟩ => hne b hb hend

/-- A block with a branch into the middle of another, and the other one. -/
def crossingFunction : Function :=
  { name := "sub_0", startAddress := 0, basicBlocks :=
    [{ BasicBlock.create 0 with endAddress := 4, successors := [6, 4] },
      { BasicBlock.create 4 with endAddress := 9, successors := [0] }] }

theorem crossingFunction_partition : Partition crossingFunction.basicBlocks where
  proper := by decide
  disjoint := by decide

theorem crossingFunction_normalized :
    Normalized crossingFunction.basicBlocks crossingFunction.normalizeBasicBlocks.basicBlocks :=
  normalizeBasicBlocks_normalized crossingFunction crossingFunction_partition

end ReWizard
