import ReWizard.Analysis.Proof.NormalizedBlocks

/-!
# One pass of `NormalizeBasicBlocks`

On blocks that do not overlap, a pass of the loop does one of three things (`NormalizePass`): it cuts
the block at hand at the lowest entry inside it; it links the successors of the block up to one that
lies inside a block, and cuts that one there; or it links them all and goes on to the next block.
`normalizePass_of_next` says that there is nothing else.
-/

namespace ReWizard

/-! ## Lookups -/

theorem findForSplit_none {blocks : List BasicBlock} {a : Nat} (h : findForSplit blocks a = none) :
    ¬ Covered blocks a := by
  rintro ⟨b, hb, h1, h2⟩
  have hno := of_decide_eq_false (List.findIdx?_eq_none_iff.mp h b hb)
  omega

/-- A lookup finds nothing, or the beginning of a block, or the inside of one, which it cuts. -/
theorem lookup_cases (blocks : List BasicBlock) (a : Nat) :
    (¬ Covered blocks a ∧ getBasicBlockForAddress blocks a = ⟨none, blocks, false⟩) ∨
    (∃ k d, blocks[k]? = some d ∧ d.startAddress = a ∧
      getBasicBlockForAddress blocks a = ⟨some k, blocks, false⟩) ∨
    ∃ k c, Inside blocks k c a ∧
      getBasicBlockForAddress blocks a = ⟨some blocks.length, splitBlocks blocks k c a, true⟩ := by
  unfold getBasicBlockForAddress
  cases hk : findForSplit blocks a with
  | none => exact .inl ⟨findForSplit_none hk, rfl⟩
  | some k =>
    obtain ⟨hlt, hp, -⟩ := List.findIdx?_eq_some_iff_getElem.mp hk
    dsimp only
    rw [List.getElem?_eq_getElem hlt]
    dsimp only
    by_cases ha : a = blocks[k].startAddress
    · rw [if_pos ha]
      exact .inr (.inl ⟨k, _, List.getElem?_eq_getElem hlt, ha.symm, rfl⟩)
    · rw [if_neg ha]
      rcases of_decide_eq_true hp with h | ⟨h1, h2⟩
      · exact absurd h ha
      · exact .inr (.inr ⟨k, _, ⟨List.getElem?_eq_getElem hlt, h1, h2⟩, rfl⟩)

theorem Inside.contains {blocks : List BasicBlock} {k : Nat} {b : BasicBlock} {a : Nat}
    (h : Inside blocks k b a) : b.Contains a := ⟨Nat.le_of_lt h.after, h.before⟩

theorem Inside.mem {blocks : List BasicBlock} {k : Nat} {b : BasicBlock} {a : Nat}
    (h : Inside blocks k b a) : b ∈ blocks := List.mem_of_getElem? h.block

/-- A lookup of an address inside a block of a partition cuts that block. -/
theorem Partition.lookup_inside {blocks : List BasicBlock} (h : Partition blocks) {k : Nat}
    {b : BasicBlock} {a : Nat} (hb : Inside blocks k b a) :
    getBasicBlockForAddress blocks a = ⟨some blocks.length, splitBlocks blocks k b a, true⟩ := by
  rcases lookup_cases blocks a with ⟨hno, -⟩ | ⟨j, d, hd, rfl, -⟩ | ⟨j, c, hc, heq⟩
  · exact absurd ⟨b, hb.mem, hb.contains⟩ hno
  · have hdm := List.mem_of_getElem? hd
    have := h.start_not_inside hdm hb.mem hb.after
    have := hb.before
    omega
  · obtain rfl := h.index_unique hc.block hb.block hc.contains hb.contains
    have hcb := hc.block
    rw [hb.block] at hcb
    cases hcb
    exact heq

/-! ## The entry inside a block -/

/-- The address is strictly inside the block. -/
def BasicBlock.insideAt (b : BasicBlock) (a : Nat) : Bool :=
  decide (b.startAddress < a ∧ a < b.endAddress)

theorem BasicBlock.insideAt_iff {b : BasicBlock} {a : Nat} :
    b.insideAt a = true ↔ b.startAddress < a ∧ a < b.endAddress := decide_eq_true_iff

/-- An entry that is found is inside. -/
theorem inside_of_find? {blocks : List BasicBlock} {k : Nat} {b : BasicBlock} {entries : List Nat}
    {a : Nat} (hb : blocks[k]? = some b) (h : entries.find? b.insideAt = some a) :
    Inside blocks k b a := by
  obtain ⟨hafter, hbefore⟩ := BasicBlock.insideAt_iff.mp (List.find?_some h)
  exact ⟨hb, hafter, hbefore⟩

theorem splitAtEntry_eq {blocks : List BasicBlock} (h : Partition blocks) {k : Nat} {b : BasicBlock}
    (hb : blocks[k]? = some b) : ∀ l : List Nat,
    splitAtEntry blocks b l = (l.find? b.insideAt).map fun a => splitBlocks blocks k b a
  | [] => rfl
  | a :: rest => by
    unfold splitAtEntry
    by_cases ha : b.startAddress < a ∧ a < b.endAddress
    · rw [if_pos ha, h.lookup_inside ⟨hb, ha.1, ha.2⟩,
        List.find?_cons_of_pos (BasicBlock.insideAt_iff.mpr ha)]
      rfl
    · rw [if_neg ha, List.find?_cons_of_neg (mt BasicBlock.insideAt_iff.mp ha)]
      exact splitAtEntry_eq h hb rest

/-- What is found first in a sorted list is the lowest. -/
theorem find?_lowest {p : Nat → Bool} {l : List Nat} (hs : l.Pairwise (· < ·)) {a : Nat}
    (h : l.find? p = some a) : ∀ x ∈ l, p x = true → a ≤ x := by
  intro x hx hp
  obtain ⟨-, before, after, rfl, hbefore⟩ := List.find?_eq_some_iff_append.mp h
  rcases List.mem_append.mp hx with hx | hx
  · have := hbefore x hx
    rw [hp] at this
    cases this
  · rcases List.mem_cons.mp hx with rfl | hx
    · exact Nat.le_refl x
    · have hsorted := (List.pairwise_append.mp hs).2.1
      exact Nat.le_of_lt ((List.pairwise_cons.mp hsorted).1 x hx)

/-! ## Linking -/

/-- The block after a block that starts at `start` has linked the successors `l`. -/
def BasicBlock.linkedFrom (start : Nat) (l : List Nat) (b : BasicBlock) : BasicBlock :=
  { b with predecessors := b.predecessors ++ List.replicate (l.count b.startAddress) start }

section

variable {start : Nat} {l : List Nat} {b : BasicBlock}

@[simp] theorem BasicBlock.linkedFrom_startAddress :
    (b.linkedFrom start l).startAddress = b.startAddress := rfl

@[simp] theorem BasicBlock.linkedFrom_endAddress :
    (b.linkedFrom start l).endAddress = b.endAddress := rfl

@[simp] theorem BasicBlock.linkedFrom_successors :
    (b.linkedFrom start l).successors = b.successors := rfl

theorem BasicBlock.mem_linkedFrom {q : Nat} : q ∈ (b.linkedFrom start l).predecessors ↔
    q ∈ b.predecessors ∨ (b.startAddress ∈ l ∧ q = start) := by
  show q ∈ b.predecessors ++ List.replicate (l.count b.startAddress) start ↔ _
  rw [List.mem_append, List.mem_replicate, ← List.count_pos_iff (a := b.startAddress),
    Nat.pos_iff_ne_zero]

theorem BasicBlock.linkedFrom_of_notMem (h : b.startAddress ∉ l) : b.linkedFrom start l = b := by
  unfold linkedFrom
  rw [List.count_eq_zero.mpr h, List.replicate_zero, List.append_nil]

theorem BasicBlock.linkedFrom_cons (a : Nat) :
    (b.linkedFrom start [a]).linkedFrom start l = b.linkedFrom start (a :: l) := by
  unfold linkedFrom
  dsimp only
  rw [List.append_assoc, List.replicate_append_replicate, ← List.count_append]
  rfl

end

/-- Linking leaves the ranges alone. -/
theorem Partition.linked {blocks : List BasicBlock} (h : Partition blocks) (start : Nat)
    (l : List Nat) : Partition (blocks.map (BasicBlock.linkedFrom start l)) where
  proper := fun c hc => by
    obtain ⟨b, hb, rfl⟩ := List.mem_map.mp hc
    exact h.proper b hb
  disjoint := by
    rw [List.pairwise_map]
    exact h.disjoint

theorem covered_linked {blocks : List BasicBlock} {start : Nat} {l : List Nat} {a : Nat} :
    Covered (blocks.map (BasicBlock.linkedFrom start l)) a ↔ Covered blocks a := by
  constructor
  · rintro ⟨c, hc, hca⟩
    obtain ⟨b, hb, rfl⟩ := List.mem_map.mp hc
    exact ⟨b, hb, hca⟩
  · rintro ⟨b, hb, hba⟩
    exact ⟨_, List.mem_map_of_mem hb, hba⟩

/-- Starts are different, so only one block gets the predecessor. -/
theorem Partition.modify_eq {blocks : List BasicBlock} (h : Partition blocks) {k : Nat}
    {d : BasicBlock} (hd : blocks[k]? = some d) (start : Nat) :
    (blocks.modify k fun b => b.addPredecessor start) =
      blocks.map (BasicBlock.linkedFrom start [d.startAddress]) := by
  apply List.ext_getElem?
  intro n
  rw [List.getElem?_modify, List.getElem?_map]
  cases hn : blocks[n]? with
  | none => rfl
  | some b =>
    simp only [Option.map_eq_map, Option.map_some, Option.some.injEq]
    split
    · rename_i hkn
      subst hkn
      rw [hd] at hn
      cases hn
      unfold BasicBlock.linkedFrom BasicBlock.addPredecessor
      rw [List.count_singleton_self, List.replicate_one]
    · rename_i hkn
      refine (BasicBlock.linkedFrom_of_notMem fun hmem => hkn ?_).symm
      have heq := List.mem_singleton.mp hmem
      have hb := h.proper b (List.mem_of_getElem? hn)
      have hd' := h.proper d (List.mem_of_getElem? hd)
      exact h.index_unique hd hn (heq ▸ hd'.contains_start) hb.contains_start

/-- Every address of the list that some block has is the beginning of a block. -/
def AtStarts (blocks : List BasicBlock) (l : List Nat) : Prop :=
  ∀ a ∈ l, Covered blocks a → ∃ d ∈ blocks, d.startAddress = a

theorem AtStarts.of_linked {blocks : List BasicBlock} {start : Nat} {l l' : List Nat}
    (h : AtStarts (blocks.map (BasicBlock.linkedFrom start l)) l') : AtStarts blocks l' := by
  intro a ha hcovered
  obtain ⟨c, hc, rfl⟩ := h a ha (covered_linked.mpr hcovered)
  obtain ⟨b, hb, rfl⟩ := List.mem_map.mp hc
  exact ⟨b, hb, rfl⟩

theorem Partition.notMem_of_notCovered {blocks : List BasicBlock} (h : Partition blocks) {a : Nat}
    (ha : ¬ Covered blocks a) {b : BasicBlock} (hb : b ∈ blocks) : b.startAddress ≠ a :=
  fun heq => ha ⟨b, hb, heq ▸ (h.proper b hb).contains_start⟩

theorem map_linkedFrom_nil (start : Nat) (blocks : List BasicBlock) :
    blocks.map (BasicBlock.linkedFrom start []) = blocks := by
  have hid : BasicBlock.linkedFrom start [] = id :=
    funext fun b => BasicBlock.linkedFrom_of_notMem List.not_mem_nil
  rw [hid, List.map_id]

/-- The loop over the successors `l` links them all, or links those before the first that is inside
a block, cuts there and links the new block. -/
inductive Links (start : Nat) (blocks : List BasicBlock) (l : List Nat) :
    List BasicBlock × Bool → Prop
  | all : AtStarts blocks l →
    Links start blocks l (blocks.map (BasicBlock.linkedFrom start l), false)
  | cut {done rest : List Nat} {x k : Nat} {c : BasicBlock} : l = done ++ x :: rest →
    AtStarts blocks done → Inside (blocks.map (BasicBlock.linkedFrom start done)) k c x →
    Links start blocks l
      ((splitBlocks (blocks.map (BasicBlock.linkedFrom start done)) k c x).modify blocks.length
        fun b => b.addPredecessor start, true)

/-- `blocks'` are the blocks after the first successor. -/
theorem Links.cons {start a : Nat} {rest : List Nat} {blocks blocks' : List BasicBlock}
    {r : List BasicBlock × Bool} (h : Links start blocks' rest r)
    (hmap : ∀ l, blocks'.map (BasicBlock.linkedFrom start l) =
      blocks.map (BasicBlock.linkedFrom start (a :: l)))
    (hcons : ∀ l, AtStarts blocks' l → AtStarts blocks (a :: l)) :
    Links start blocks (a :: rest) r := by
  cases h with
  | all hall =>
    rw [hmap]
    exact .all (hcons rest hall)
  | @cut done more x k c hsplit hall hin =>
    have hlength : blocks'.length = blocks.length := by
      have := congrArg List.length (hmap [])
      rwa [List.length_map, List.length_map] at this
    rw [hmap] at hin ⊢
    rw [hlength]
    exact .cut (by rw [hsplit]; rfl) (hcons done hall) hin

theorem linkSuccessors_links (start : Nat) : ∀ (l : List Nat) {blocks : List BasicBlock},
    Partition blocks → Links start blocks l (linkSuccessors start blocks l)
  | [], blocks, _ => by
    have hlinks : Links start blocks [] (blocks.map (BasicBlock.linkedFrom start []), false) :=
      .all fun a ha => absurd ha List.not_mem_nil
    rw [map_linkedFrom_nil] at hlinks
    exact hlinks
  | a :: rest, blocks, h => by
    rcases lookup_cases blocks a with ⟨hno, heq⟩ | ⟨k, d, hd, rfl, heq⟩ | ⟨k, c, hc, heq⟩
    · have hstep : linkSuccessors start blocks (a :: rest) = linkSuccessors start blocks rest := by
        rw [linkSuccessors]
        dsimp only
        rw [heq]
      rw [hstep]
      refine (linkSuccessors_links start rest h).cons (fun l => ?_) fun l hl x hx hcovered => ?_
      · refine List.map_congr_left fun b hb => ?_
        have hskip : b.linkedFrom start [a] = b := BasicBlock.linkedFrom_of_notMem fun hmem =>
          h.notMem_of_notCovered hno hb (List.mem_singleton.mp hmem)
        rw [← BasicBlock.linkedFrom_cons, hskip]
      · rcases List.mem_cons.mp hx with rfl | hx
        · exact absurd hcovered hno
        · exact hl x hx hcovered
    · have hstep : linkSuccessors start blocks (d.startAddress :: rest) =
          linkSuccessors start (blocks.map (BasicBlock.linkedFrom start [d.startAddress])) rest := by
        rw [linkSuccessors]
        dsimp only
        rw [heq, ← h.modify_eq hd]
        rfl
      rw [hstep]
      refine (linkSuccessors_links start rest (h.linked start [d.startAddress])).cons (fun l => ?_)
        fun l hl x hx hcovered => ?_
      · rw [List.map_map]
        exact List.map_congr_left fun b _ => BasicBlock.linkedFrom_cons _
      · rcases List.mem_cons.mp hx with rfl | hx
        · exact ⟨d, List.mem_of_getElem? hd, rfl⟩
        · exact hl.of_linked x hx hcovered
    · have hnil := map_linkedFrom_nil start blocks
      have hin : Inside (blocks.map (BasicBlock.linkedFrom start [])) k c a := by rwa [hnil]
      have hsplit : a :: rest = [] ++ a :: rest := rfl
      have hcut := Links.cut hsplit (fun x hx => absurd hx List.not_mem_nil) hin
      rw [hnil] at hcut
      rw [linkSuccessors]
      dsimp only
      rw [heq]
      exact hcut

/-! ## Cutting keeps a partition -/

theorem Partition.split {blocks : List BasicBlock} (h : Partition blocks) {k : Nat} {b : BasicBlock}
    {a : Nat} (hb : Inside blocks k b a) : Partition (splitBlocks blocks k b a) := by
  obtain ⟨hproper, hcover⟩ := partition_iff_cover.mp h
  refine partition_iff_cover.mpr ⟨splitBlocks_proper hproper hb, fun x => ?_⟩
  rw [cover_split hb]
  exact hcover x

theorem covered_split {blocks : List BasicBlock} {k : Nat} {b : BasicBlock} {a x : Nat}
    (hb : Inside blocks k b a) : Covered (splitBlocks blocks k b a) x ↔ Covered blocks x := by
  rw [← cover_pos_iff, ← cover_pos_iff, cover_split hb]

/-! ## Passes -/

/-- What a pass of the loop does on blocks that do not overlap. -/
inductive NormalizePass (entries : List Nat) : NormState → NormState → Prop
  | cut {blocks : List BasicBlock} {i : Nat} {b : BasicBlock} {x : Nat} :
    blocks[i]? = some b → entries.find? b.insideAt = some x →
      NormalizePass entries ⟨blocks, i⟩ ⟨splitBlocks blocks i b x, 0⟩
  | linkCut {blocks : List BasicBlock} {i k : Nat} {b c : BasicBlock} {done rest : List Nat}
      {x : Nat} :
    blocks[i]? = some b → entries.find? b.insideAt = none → b.successors = done ++ x :: rest →
      AtStarts blocks done → Inside (blocks.map (BasicBlock.linkedFrom b.startAddress done)) k c x →
      NormalizePass entries ⟨blocks, i⟩
        ⟨(splitBlocks (blocks.map (BasicBlock.linkedFrom b.startAddress done)) k c x).map
          (BasicBlock.linkedFrom b.startAddress [x]), 0⟩
  | linked {blocks : List BasicBlock} {i : Nat} {b : BasicBlock} :
    blocks[i]? = some b → entries.find? b.insideAt = none → AtStarts blocks b.successors →
      NormalizePass entries ⟨blocks, i⟩
        ⟨blocks.map (BasicBlock.linkedFrom b.startAddress b.successors), i + 1⟩

theorem normalizePass_of_next {entries : List Nat} {s s' : NormState} (h : Partition s.blocks)
    (hn : normalizeStep entries s = .next s') : NormalizePass entries s s' := by
  obtain ⟨blocks, i⟩ := s
  unfold normalizeStep at hn
  dsimp only at h hn
  split at hn
  · cases hn
  · rename_i b hb
    rw [splitAtEntry_eq h hb] at hn
    cases hx : entries.find? b.insideAt with
    | some x =>
      rw [hx] at hn
      cases hn
      exact .cut hb hx
    | none =>
      rw [hx] at hn
      dsimp only [Option.map_none] at hn
      have hlinks := linkSuccessors_links b.startAddress b.successors h
      generalize linkSuccessors b.startAddress blocks b.successors = r at hlinks hn
      cases hlinks with
      | all hall =>
        cases hn
        exact .linked hb hx hall
      | @cut done rest x k c hsplit hall hin =>
        cases hn
        have hmap := h.linked b.startAddress done
        -- the new block is the last one
        have hlast : (splitBlocks (blocks.map (BasicBlock.linkedFrom b.startAddress done)) k c x)[
            blocks.length]? = some (c.split x).2 := by
          unfold splitBlocks
          rw [List.getElem?_append_right (by simp)]
          simp
        rw [(hmap.split hin).modify_eq hlast]
        exact .linkCut hb hx hsplit hall hin

end ReWizard
