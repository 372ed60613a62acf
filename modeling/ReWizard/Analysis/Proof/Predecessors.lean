import ReWizard.Lib.BreadthFirst
import ReWizard.Analysis.Proof.NormalizePass

/-!
# Predecessors after normalisation

`Split` makes the old half a predecessor of the new one, and linking adds a predecessor for each
successor that is found. No predecessor is ever taken away, so when a block is cut twice and the
second cut comes before the first, the first half stays a predecessor of a block that it no longer
leads to.

The loop comes to the entries in breadth-first order (`cutOrder`), starting with the block starts:

* `Traced`: as long as every block was cut at the lowest entry inside it, the predecessors are right;
* `Stale`: after a cut with an entry before it, they never become right again;
* `normalizeBasicBlocks_predecessors_iff`: the predecessors are the inverse of the successors if and
  only if the entries inside each block come in ascending order.
-/

namespace ReWizard

open BreadthFirst

instance (blocks : List BasicBlock) (a : Nat) : Decidable (Covered blocks a) :=
  inferInstanceAs (Decidable (∃ b ∈ blocks, b.Contains a))

/-- A block is a predecessor exactly of the blocks that are its successors. -/
def PredecessorsInverse (blocks : List BasicBlock) : Prop :=
  ∀ p ∈ blocks, ∀ b ∈ blocks, p.startAddress ∈ b.predecessors ↔ b.startAddress ∈ p.successors

/-! ## The order of the cuts -/

/-- What code at `a` leads to when every entry is a block start: the next entry of its block, or the
successors of the block if there is none. -/
def followUps (blocks : List BasicBlock) (a : Nat) : List Nat :=
  match blocks.find? fun b => decide (b.Contains a) with
  | none => []
  | some b =>
    match (collectEntries blocks).toList.find? fun e => decide (a < e ∧ e < b.endAddress) with
    | some e => [e]
    | none => b.successors.filter fun s => decide (Covered blocks s)

/-- The entries in breadth-first order from the block starts, in the order of the blocks. -/
def cutOrder (blocks : List BasicBlock) : List Nat :=
  orderAfter (followUps blocks) (blocks.map BasicBlock.startAddress)
    (collectEntries blocks).toList.length

/-- Of the entries inside a block, the lower ones come first. -/
def CutInOrder (blocks : List BasicBlock) : Prop :=
  ∀ b ∈ blocks, ∀ x ∈ (collectEntries blocks).toList, ∀ y ∈ (collectEntries blocks).toList,
    b.startAddress < x → x < y → y < b.endAddress →
      (cutOrder blocks).idxOf x < (cutOrder blocks).idxOf y

section

variable {blocks : List BasicBlock}

theorem filter_covered {a : Nat} {l : List Nat} (ha : Covered blocks a) :
    (a :: l).filter (fun s => decide (Covered blocks s)) =
      a :: l.filter fun s => decide (Covered blocks s) :=
  List.filter_cons_of_pos (p := fun s => decide (Covered blocks s)) (decide_eq_true ha)

theorem followUps_eq (h : Partition blocks) {b : BasicBlock} (hb : b ∈ blocks) {a : Nat}
    (ha : b.Contains a) : followUps blocks a =
      match (collectEntries blocks).toList.find? fun e => decide (a < e ∧ e < b.endAddress) with
      | some e => [e]
      | none => b.successors.filter fun s => decide (Covered blocks s) := by
  unfold followUps
  cases hfind : blocks.find? fun b => decide (b.Contains a) with
  | none =>
    have := List.find?_eq_none.mp hfind b hb
    exact absurd (decide_eq_true ha) this
  | some c =>
    have hca : c.Contains a := by simpa using List.find?_some hfind
    obtain rfl := h.eq_of_contains hb (List.mem_of_find?_eq_some hfind) ha hca
    rfl

theorem entries_of_followUps {a : Nat} : ∀ e ∈ followUps blocks a,
    e ∈ (collectEntries blocks).toList := by
  intro e he
  unfold followUps at he
  split at he
  · cases he
  · rename_i b hb
    split at he
    · rename_i x hx
      rw [List.mem_singleton.mp he]
      exact List.mem_of_find?_eq_some hx
    · exact mem_collectEntries.mpr
        ⟨b, List.mem_of_find?_eq_some hb, .inr (List.mem_filter.mp he).1⟩

/-- The order has every entry once, so the bound is large enough. -/
theorem cutOrder_length_le : (cutOrder blocks).length ≤ (collectEntries blocks).toList.length := by
  have hsub : ∀ e ∈ cutOrder blocks, e ∈ (collectEntries blocks).toList := by
    refine forall_mem_orderAfter (P := (· ∈ (collectEntries blocks).toList)) ?_
      (fun _ _ e he => entries_of_followUps e he) _
    intro a ha
    obtain ⟨b, hb, rfl⟩ := List.mem_map.mp ha
    exact mem_collectEntries.mpr ⟨b, hb, .inl rfl⟩
  exact (List.subperm_of_subset (nodup_orderAfter _ _ _) hsub).length_le

theorem Partition.nodup_starts (h : Partition blocks) :
    (blocks.map BasicBlock.startAddress).Nodup := by
  refine List.Nodup.map_on ?_ (h.disjoint.imp_of_mem ?_)
  · intro b hb c hc heq
    exact h.eq_of_contains hb hc (h.proper b hb).contains_start
      (heq ▸ (h.proper c hc).contains_start)
  · rintro b c hb - hdisjoint rfl
    have := h.proper b hb
    unfold BasicBlock.Proper at this
    omega

end

/-! ## Starts -/

theorem linked_starts (blocks : List BasicBlock) (start : Nat) (l : List Nat) :
    (blocks.map (BasicBlock.linkedFrom start l)).map BasicBlock.startAddress =
      blocks.map BasicBlock.startAddress := by
  rw [List.map_map]
  rfl

/-- A cut adds one start. -/
theorem splitBlocks_starts {blocks : List BasicBlock} {k : Nat} {c : BasicBlock} {x : Nat}
    (hin : Inside blocks k c x) : (splitBlocks blocks k c x).map BasicBlock.startAddress =
      blocks.map BasicBlock.startAddress ++ [x] := by
  obtain ⟨hk, hc⟩ := List.getElem?_eq_some_iff.mp hin.block
  have hk' : k < (blocks.map BasicBlock.startAddress).length := by rwa [List.length_map]
  have hset : (blocks.map BasicBlock.startAddress).set k c.startAddress =
      blocks.map BasicBlock.startAddress := by
    rw [← hc, ← List.getElem_map BasicBlock.startAddress (h := hk')]
    exact List.set_getElem_self hk'
  unfold splitBlocks
  rw [List.map_append, List.map_set]
  exact congrArg (· ++ [x]) hset

/-! ## Traced blocks -/

/-- `p` is a piece of `b`, and has entries inside only if it is the last one. -/
structure BasicBlock.PieceIn (entries : List Nat) (b p : BasicBlock) : Prop where
  start : b.Contains p.startAddress
  stop : (p.endAddress = b.endAddress ∧ p.successors = b.successors) ∨
    (p.endAddress < b.endAddress ∧ p.endAddress ∈ entries ∧ p.successors = [p.endAddress] ∧
      entries.find? p.insideAt = none)

/-- Blocks that were cut from `orig`, each time at the lowest entry. Every predecessor leads to its
block, and will not be cut. -/
structure Traced (orig blocks : List BasicBlock) : Prop where
  partition : Partition blocks
  covered : ∀ a, Covered blocks a ↔ Covered orig a
  pieces : ∀ p ∈ blocks, ∃ b ∈ orig, b.PieceIn (collectEntries orig).toList p
  preds : ∀ d ∈ blocks, ∀ q ∈ d.predecessors, ∃ p ∈ blocks, p.startAddress = q ∧
    d.startAddress ∈ p.successors ∧ (collectEntries orig).toList.find? p.insideAt = none
  ascending : (blocks.map BasicBlock.startAddress).Pairwise fun x y =>
    ∀ b ∈ orig, b.Contains x → b.Contains y → x < y

namespace Traced

variable {orig blocks : List BasicBlock}

theorem init (h : Partition orig) (hp : ∀ b ∈ orig, b.predecessors = []) : Traced orig orig where
  partition := h
  covered := fun _ => Iff.rfl
  pieces := fun p hmem => ⟨p, hmem, (h.proper p hmem).contains_start, .inl ⟨rfl, rfl⟩⟩
  preds := fun d hd q hq => by
    rw [hp d hd] at hq
    cases hq
  ascending := by
    rw [List.pairwise_map]
    refine h.disjoint.imp_of_mem fun {p d} hpm hdm hdisjoint b hb hbp hbd => ?_
    -- both are the block that has their starts
    obtain rfl := h.eq_of_contains hpm hb (h.proper p hpm).contains_start hbp
    obtain rfl := h.eq_of_contains hdm hb (h.proper d hdm).contains_start hbd
    have := h.proper d hdm
    unfold BasicBlock.Proper at this
    omega

/-- Predecessors that lead to their block may be added. -/
theorem linked (h : Traced orig blocks) {b : BasicBlock} (hb : b ∈ blocks)
    (hnone : (collectEntries orig).toList.find? b.insideAt = none) {l : List Nat}
    (hl : ∀ a ∈ l, a ∈ b.successors) :
    Traced orig (blocks.map (BasicBlock.linkedFrom b.startAddress l)) where
  partition := h.partition.linked _ _
  covered := fun a => covered_linked.trans (h.covered a)
  pieces := fun p hp => by
    obtain ⟨d, hd, rfl⟩ := List.mem_map.mp hp
    obtain ⟨c, hc, hpiece⟩ := h.pieces d hd
    exact ⟨c, hc, hpiece.start, hpiece.stop⟩
  preds := fun p hp q hq => by
    obtain ⟨d, hd, rfl⟩ := List.mem_map.mp hp
    rcases BasicBlock.mem_linkedFrom.mp hq with hq | ⟨hmem, rfl⟩
    · obtain ⟨c, hc, hstart, hsucc, hno⟩ := h.preds d hd q hq
      exact ⟨_, List.mem_map_of_mem hc, hstart, hsucc, hno⟩
    · exact ⟨_, List.mem_map_of_mem hb, rfl, hl _ hmem, hnone⟩
  ascending := by
    rw [linked_starts]
    exact h.ascending

/-- A block that has an entry inside is the last piece. -/
theorem last_piece (h : Traced orig blocks) {c : BasicBlock} (hc : c ∈ blocks) {x : Nat}
    (hx : (collectEntries orig).toList.find? c.insideAt = some x) :
    ∃ b ∈ orig, b.Contains c.startAddress ∧ c.endAddress = b.endAddress ∧
      c.successors = b.successors := by
  obtain ⟨b, hb, hstart, ⟨hend, hsucc⟩ | ⟨-, -, -, hno⟩⟩ := h.pieces c hc
  · exact ⟨b, hb, hstart, hend, hsucc⟩
  · rw [hx] at hno
    cases hno

/-- A cut at the lowest entry. -/
theorem split (horig : Partition orig) (h : Traced orig blocks) {k : Nat} {c : BasicBlock} {x : Nat}
    (hin : Inside blocks k c x) (hx : (collectEntries orig).toList.find? c.insideAt = some x) :
    Traced orig (splitBlocks blocks k c x) := by
  have hlow := find?_lowest (collectEntries orig).sorted hx
  have hxe := List.mem_of_find?_eq_some hx
  have h1 := hin.after
  have h2 := hin.before
  obtain ⟨b, hb, hbc, hend, hsucc⟩ := h.last_piece hin.mem hx
  have hleft : (collectEntries orig).toList.find? (c.split x).1.insideAt = none := by
    refine List.find?_eq_none.mpr fun e he hinside => ?_
    obtain ⟨he1, he2⟩ := BasicBlock.insideAt_iff.mp hinside
    have := hlow e he (BasicBlock.insideAt_iff.mpr ⟨he1, Nat.lt_trans he2 h2⟩)
    exact absurd he2 (Nat.not_lt.mpr this)
  refine ⟨h.partition.split hin, fun a => (covered_split hin).trans (h.covered a), ?_, ?_, ?_⟩
  · intro p hp
    rcases of_mem_splitBlocks hp with hp | rfl | rfl
    · exact h.pieces p hp
    · exact ⟨b, hb, hbc, .inr ⟨hend ▸ h2, hxe, rfl, hleft⟩⟩
    · exact ⟨b, hb, ⟨Nat.le_trans hbc.1 (Nat.le_of_lt h1), hend ▸ h2⟩, .inl ⟨hend, hsucc⟩⟩
  · -- the cut block had an entry inside, so it was not a predecessor
    have hold : ∀ {start q}, (∃ p ∈ blocks, p.startAddress = q ∧ start ∈ p.successors ∧
        (collectEntries orig).toList.find? p.insideAt = none) →
          ∃ p ∈ splitBlocks blocks k c x, p.startAddress = q ∧ start ∈ p.successors ∧
            (collectEntries orig).toList.find? p.insideAt = none := by
      rintro start q ⟨p, hp, hstart, hps, hno⟩
      rcases mem_splitBlocks hin hp with rfl | hp
      · rw [hx] at hno
        cases hno
      · exact ⟨p, hp, hstart, hps, hno⟩
    intro d hd q hq
    rcases of_mem_splitBlocks hd with hd | rfl | rfl
    · exact hold (h.preds d hd q hq)
    · exact hold (h.preds c hin.mem q hq)
    · refine ⟨(c.split x).1, left_mem_splitBlocks hin, ?_, List.mem_cons_self, hleft⟩
      exact (List.mem_singleton.mp hq).symm
  · rw [splitBlocks_starts hin, List.pairwise_append]
    refine ⟨h.ascending, List.pairwise_singleton _ _, fun a ha y hy d hd hda hdy => ?_⟩
    rw [List.mem_singleton.mp hy] at hdy ⊢
    obtain ⟨p, hp, rfl⟩ := List.mem_map.mp ha
    -- a piece after the cut block would begin where the original block ends
    obtain rfl := horig.eq_of_contains hd hb hdy ⟨Nat.le_trans hbc.1 (Nat.le_of_lt h1), hend ▸ h2⟩
    by_contra hcon
    have hlt : c.startAddress < p.startAddress := Nat.lt_of_lt_of_le h1 (Nat.le_of_not_lt hcon)
    have hafter := h.partition.start_not_inside hp hin.mem hlt
    rw [hend] at hafter
    exact absurd hda.2 (Nat.not_lt.mpr hafter)

/-- Every successor is an entry. -/
theorem successors (h : Traced orig blocks) {p : BasicBlock} (hp : p ∈ blocks) {a : Nat}
    (ha : a ∈ p.successors) : a ∈ (collectEntries orig).toList := by
  obtain ⟨b, hb, -, ⟨-, hsucc⟩ | ⟨-, hend, hsucc, -⟩⟩ := h.pieces p hp
  · rw [hsucc] at ha
    exact mem_collectEntries.mpr ⟨b, hb, .inr ha⟩
  · rw [hsucc] at ha
    rw [List.mem_singleton.mp ha]
    exact hend

/-- What a piece leads to: the lowest entry inside it, or its successors. -/
theorem followUps_start (horig : Partition orig) (h : Traced orig blocks) {p : BasicBlock}
    (hp : p ∈ blocks) : followUps orig p.startAddress =
      match (collectEntries orig).toList.find? p.insideAt with
      | some e => [e]
      | none => p.successors.filter fun s => decide (Covered orig s) := by
  obtain ⟨b, hb, hstart, ⟨hend, hsucc⟩ | ⟨hlt, hentry, hsucc, hno⟩⟩ := h.pieces p hp
  · rw [followUps_eq horig hb hstart, ← hend, hsucc]
    rfl
  · -- the piece ends at the next entry
    have hproper := h.partition.proper p hp
    have hnext : (collectEntries orig).toList.find?
        (fun e => decide (p.startAddress < e ∧ e < b.endAddress)) = some p.endAddress := by
      cases hfind : (collectEntries orig).toList.find?
          (fun e => decide (p.startAddress < e ∧ e < b.endAddress)) with
      | none =>
        have := List.find?_eq_none.mp hfind _ hentry
        exact absurd (decide_eq_true ⟨hproper, hlt⟩) this
      | some e =>
        have hle := find?_lowest (collectEntries orig).sorted hfind _ hentry
          (decide_eq_true ⟨hproper, hlt⟩)
        have hinside : p.startAddress < e ∧ e < b.endAddress := by
          simpa using List.find?_some hfind
        rcases Nat.lt_or_eq_of_le hle with hlt' | rfl
        · have := List.find?_eq_none.mp hno e (List.mem_of_find?_eq_some hfind)
          exact absurd (BasicBlock.insideAt_iff.mpr ⟨hinside.1, hlt'⟩) this
        · rfl
    have hcovered : Covered orig p.endAddress :=
      ⟨b, hb, Nat.le_trans hstart.1 (Nat.le_of_lt hproper), hlt⟩
    rw [followUps_eq horig hb hstart, hnext, hno, hsucc]
    dsimp only
    rw [filter_covered hcovered, List.filter_nil]

end Traced

/-! ## Stale predecessors -/

/-- A block has a predecessor with an entry between the two, inside one of the original blocks. -/
def Stale (orig blocks : List BasicBlock) : Prop :=
  ∃ d ∈ blocks, ∃ p ∈ blocks, p.startAddress ∈ d.predecessors ∧
    ∃ y ∈ (collectEntries orig).toList, ∃ b ∈ orig, b.startAddress ≤ p.startAddress ∧
      p.startAddress < y ∧ y < d.startAddress ∧ d.startAddress < b.endAddress

namespace Stale

variable {orig blocks : List BasicBlock}

theorem linked (h : Stale orig blocks) (start : Nat) (l : List Nat) :
    Stale orig (blocks.map (BasicBlock.linkedFrom start l)) := by
  obtain ⟨d, hd, p, hp, hpred, hbetween⟩ := h
  exact ⟨_, List.mem_map_of_mem hd, _, List.mem_map_of_mem hp,
    BasicBlock.mem_linkedFrom.mpr (.inl hpred), hbetween⟩

theorem split (h : Stale orig blocks) {k : Nat} {c : BasicBlock} {x : Nat}
    (hin : Inside blocks k c x) : Stale orig (splitBlocks blocks k c x) := by
  -- the first half keeps the start and the predecessors
  have hkeep : ∀ p ∈ blocks, ∃ p' ∈ splitBlocks blocks k c x,
      p'.startAddress = p.startAddress ∧ p'.predecessors = p.predecessors := by
    intro p hp
    rcases mem_splitBlocks hin hp with rfl | hp
    · exact ⟨_, left_mem_splitBlocks hin, rfl, rfl⟩
    · exact ⟨p, hp, rfl, rfl⟩
  obtain ⟨d, hd, p, hp, hpred, y, hy, b, hb, h1, h2, h3, h4⟩ := h
  obtain ⟨d', hd', hds, hdp⟩ := hkeep d hd
  obtain ⟨p', hp', hps, -⟩ := hkeep p hp
  refine ⟨d', hd', p', hp', ?_, y, hy, b, hb, ?_⟩
  · rw [hps, hdp]
    exact hpred
  · rw [hps, hds]
    exact ⟨h1, h2, h3, h4⟩

/-- A stale predecessor does not lead to its block in the end, since the entry is a start then. -/
theorem not_inverse {f : Function} (h : Partition f.basicBlocks)
    (hs : Stale f.basicBlocks f.normalizeBasicBlocks.basicBlocks) :
    ¬ PredecessorsInverse f.normalizeBasicBlocks.basicBlocks := by
  intro hinverse
  have hnorm := normalizeBasicBlocks_normalized f h
  obtain ⟨d, hd, p, hp, hpred, y, hy, b, hb, h1, h2, h3, h4⟩ := hs
  have hsucc := (hinverse p hp d hd).mp hpred
  have hcovered : Covered f.basicBlocks y := ⟨b, hb, by omega, by omega⟩
  obtain ⟨r, hr, rfl⟩ := exists_start_of_lookup (normalizeBlocks_lookups hy)
    ((hnorm.covered y).mpr hcovered)
  have hstop := hnorm.partition.start_not_inside hr hp h2
  have hproper := hnorm.partition.proper p hp
  unfold BasicBlock.Proper at hproper
  have hothers := hnorm.others p hp fun c hc hend => by
    have hcp := h.proper c hc
    unfold BasicBlock.Proper at hcp
    have heq := h.eq_of_contains (a := p.endAddress - 1) hb hc ⟨by omega, by omega⟩
      ⟨by omega, by omega⟩
    subst heq
    omega
  rw [hothers] at hsucc
  have := List.mem_singleton.mp hsucc
  omega

end Stale

/-! ## The loop -/

/-- All that happened so far was in order. -/
structure InOrder (orig : List BasicBlock) (s : NormState) : Prop where
  traced : Traced orig s.blocks
  stage : BreadthFirst.Stage (followUps orig) (orig.map BasicBlock.startAddress) s.index
    (s.blocks.map BasicBlock.startAddress)

theorem idxOf_lt_of_prefix {l l' : List Nat} (h : l <+: l') {x y : Nat} (hx : x ∈ l) (hy : y ∉ l) :
    l'.idxOf x < l'.idxOf y := by
  obtain ⟨more, rfl⟩ := h
  rw [List.idxOf_append_of_mem hx, List.idxOf_append_of_notMem hy]
  exact Nat.lt_add_right _ (List.idxOf_lt_length_iff.mpr hx)

theorem Partition.inside_not_start {blocks : List BasicBlock} (h : Partition blocks) {k : Nat}
    {c : BasicBlock} {x : Nat} (hin : Inside blocks k c x) :
    x ∉ blocks.map BasicBlock.startAddress := by
  intro hmem
  obtain ⟨d, hd, rfl⟩ := List.mem_map.mp hmem
  exact absurd hin.before (Nat.not_lt.mpr (h.start_not_inside hd hin.mem hin.after))

theorem getElem?_starts {blocks : List BasicBlock} {i : Nat} {b : BasicBlock}
    (hb : blocks[i]? = some b) :
    (blocks.map BasicBlock.startAddress)[i]? = some b.startAddress := by
  rw [List.getElem?_map, hb]
  rfl

/-- Linked successors are among the starts. -/
theorem Traced.linked_mem_starts {orig blocks : List BasicBlock} (h : Traced orig blocks)
    {l : List Nat} (hall : AtStarts blocks l) :
    ∀ w ∈ l.filter (fun a => decide (Covered orig a)), w ∈ blocks.map BasicBlock.startAddress := by
  intro w hw
  obtain ⟨hw, hwc⟩ := List.mem_filter.mp hw
  obtain ⟨d, hd, rfl⟩ := hall w hw ((h.covered w).mpr (of_decide_eq_true hwc))
  exact List.mem_map_of_mem hd

section

variable {orig : List BasicBlock} {s s' : NormState}

/-- A cut that is not at the lowest entry: what is cut off gets a stale predecessor, and the lower
entry comes later. -/
theorem Traced.stale {blocks : List BasicBlock} (h : Traced orig blocks) {k : Nat}
    {c : BasicBlock} {x : Nat} (hin : Inside blocks k c x) (hx : x ∈ (collectEntries orig).toList)
    (hne : (collectEntries orig).toList.find? c.insideAt ≠ some x)
    (hstage : BreadthFirst.Stage (followUps orig) (orig.map BasicBlock.startAddress) 0
      (blocks.map BasicBlock.startAddress ++ [x])) :
    Stale orig (splitBlocks blocks k c x) ∧ ¬ CutInOrder orig := by
  cases hfind : (collectEntries orig).toList.find? c.insideAt with
  | none =>
    have := List.find?_eq_none.mp hfind x hx
    exact absurd (BasicBlock.insideAt_iff.mpr ⟨hin.after, hin.before⟩) this
  | some y =>
    have hy := List.mem_of_find?_eq_some hfind
    obtain ⟨hy1, hy2⟩ := BasicBlock.insideAt_iff.mp (List.find?_some hfind)
    have hlow := find?_lowest (collectEntries orig).sorted hfind x hx
      (BasicBlock.insideAt_iff.mpr ⟨hin.after, hin.before⟩)
    have hyx : y < x := Nat.lt_of_le_of_ne hlow fun heq => hne (heq ▸ hfind)
    obtain ⟨b, hb, hbc, hend, -⟩ := h.last_piece hin.mem hfind
    have hxb : x < b.endAddress := hend ▸ hin.before
    refine ⟨⟨(c.split x).2, right_mem_splitBlocks, (c.split x).1, left_mem_splitBlocks hin,
      List.mem_singleton.mpr rfl, y, hy, b, hb, hbc.1, hy1, hyx, hxb⟩, fun hcut => ?_⟩
    have hlt := hcut b hb y hy x hx (Nat.lt_of_le_of_lt hbc.1 hy1) hyx hxb
    have hprefix := hstage.isPrefix (N := (collectEntries orig).toList.length) cutOrder_length_le
    have hgt := idxOf_lt_of_prefix (x := x) (y := y) hprefix
      (List.mem_append_right _ List.mem_cons_self) fun hmem => by
        rcases List.mem_append.mp hmem with hmem | hmem
        · exact h.partition.inside_not_start ⟨hin.block, hy1, hy2⟩ hmem
        · exact Nat.ne_of_lt hyx (List.mem_singleton.mp hmem)
    exact Nat.lt_asymm hlt hgt

/-- A pass that links successors and then cuts a block at the next one. -/
theorem InOrder.linkCut (horig : Partition orig) {blocks : List BasicBlock} {i k : Nat}
    {b c : BasicBlock} {done rest : List Nat} {x : Nat} (h : InOrder orig ⟨blocks, i⟩)
    (hb : blocks[i]? = some b) (hx : (collectEntries orig).toList.find? b.insideAt = none)
    (hsplit : b.successors = done ++ x :: rest) (hall : AtStarts blocks done)
    (hin : Inside (blocks.map (BasicBlock.linkedFrom b.startAddress done)) k c x) :
    InOrder orig ⟨(splitBlocks (blocks.map (BasicBlock.linkedFrom b.startAddress done)) k c x).map
      (BasicBlock.linkedFrom b.startAddress [x]), 0⟩ ∨
      (Stale orig ((splitBlocks (blocks.map (BasicBlock.linkedFrom b.startAddress done)) k c x).map
        (BasicBlock.linkedFrom b.startAddress [x])) ∧ ¬ CutInOrder orig) := by
  obtain ⟨htraced, hstage⟩ := h
  have hbm := List.mem_of_getElem? hb
  have hfollow := htraced.followUps_start horig hbm
  have hlinked := htraced.linked (l := done) hbm hx fun a ha => hsplit ▸ List.mem_append_left _ ha
  have hxs : x ∈ b.successors := hsplit ▸ List.mem_append_right _ List.mem_cons_self
  have hcovered : Covered orig x := (hlinked.covered x).mp ⟨c, hin.mem, hin.contains⟩
  rw [hx, hsplit] at hfollow
  dsimp only at hfollow
  rw [List.filter_append, filter_covered hcovered] at hfollow
  have hnew : x ∉ blocks.map BasicBlock.startAddress := by
    rw [← linked_starts blocks b.startAddress done]
    exact hlinked.partition.inside_not_start hin
  have hadd := hstage.add (getElem?_starts hb) hfollow (htraced.linked_mem_starts hall) hnew
  have hadd' := hadd.mono (Nat.zero_le i)
  rw [← linked_starts blocks b.startAddress done] at hadd'
  by_cases hlow : (collectEntries orig).toList.find? c.insideAt = some x
  · have hcut := hlinked.split horig hin hlow
    -- the block that is linked has no entry inside, so it was not cut
    have hb' : b.linkedFrom b.startAddress done ∈
        splitBlocks (blocks.map (BasicBlock.linkedFrom b.startAddress done)) k c x := by
      rcases mem_splitBlocks hin (List.mem_map_of_mem hbm) with rfl | hmem
      · exact absurd (hx.symm.trans hlow) (by simp)
      · exact hmem
    refine .inl ⟨hcut.linked (l := [x]) hb' hx fun a ha => ?_, ?_⟩
    · rw [List.mem_singleton.mp ha]
      exact hxs
    · rw [linked_starts, splitBlocks_starts hin]
      exact hadd'
  · obtain ⟨hstale, hcut⟩ := hlinked.stale hin (htraced.successors hbm hxs) hlow hadd'
    exact .inr ⟨hstale.linked _ _, hcut⟩

/-- A pass keeps the order, or makes a predecessor stale. -/
theorem InOrder.step (horig : Partition orig) (h : InOrder orig s)
    (hn : NormalizePass (collectEntries orig).toList s s') :
    InOrder orig s' ∨ (Stale orig s'.blocks ∧ ¬ CutInOrder orig) := by
  obtain ⟨htraced, hstage⟩ := h
  cases hn with
  | @cut blocks i b x hb hx =>
    have hin : Inside blocks i b x := inside_of_find? hb hx
    have hfollow := htraced.followUps_start horig hin.mem
    rw [hx] at hfollow
    refine .inl ⟨htraced.split horig hin hx, ?_⟩
    have hbefore : ∀ w ∈ ([] : List Nat), w ∈ blocks.map BasicBlock.startAddress :=
      fun w hw => absurd hw List.not_mem_nil
    have hadd := hstage.add (getElem?_starts hb) hfollow hbefore
      (htraced.partition.inside_not_start hin)
    rw [splitBlocks_starts hin]
    exact hadd.mono (Nat.zero_le i)
  | linkCut hb hx hsplit hall hin =>
    exact InOrder.linkCut horig ⟨htraced, hstage⟩ hb hx hsplit hall hin
  | @linked blocks i b hb hx hall =>
    have hbm := List.mem_of_getElem? hb
    have hfollow := htraced.followUps_start horig hbm
    rw [hx] at hfollow
    refine .inl ⟨htraced.linked hbm hx fun a ha => ha, ?_⟩
    rw [linked_starts]
    refine hstage.next_turn (getElem?_starts hb) ?_
    rw [hfollow]
    exact htraced.linked_mem_starts hall

/-- The blocks up to the position of the loop have linked all their successors. -/
def AllLinked (s : NormState) : Prop :=
  ∀ j < s.index, ∀ p, s.blocks[j]? = some p → ∀ d ∈ s.blocks, d.startAddress ∈ p.successors →
    p.startAddress ∈ d.predecessors

theorem AllLinked.step {entries : List Nat} (h : AllLinked s) (hn : NormalizePass entries s s') :
    AllLinked s' := by
  cases hn with
  | cut => exact fun j hj => absurd hj (Nat.not_lt_zero j)
  | linkCut => exact fun j hj => absurd hj (Nat.not_lt_zero j)
  | @linked blocks i b hb =>
    intro j hj p hp d hd hmem
    rw [List.getElem?_map, Option.map_eq_some_iff] at hp
    obtain ⟨p', hp', rfl⟩ := hp
    obtain ⟨d', hd', rfl⟩ := List.mem_map.mp hd
    rw [BasicBlock.mem_linkedFrom]
    rcases Nat.lt_succ_iff_lt_or_eq.mp hj with hj | rfl
    · exact .inl (h j hj p' hp' d' hd' hmem)
    · rw [hb] at hp'
      cases hp'
      exact .inr ⟨hmem, rfl⟩

theorem Partition.pass {entries : List Nat} (h : Partition s.blocks)
    (hn : NormalizePass entries s s') : Partition s'.blocks := by
  cases hn with
  | cut hb hx => exact h.split (inside_of_find? hb hx)
  | linkCut _ _ _ _ hin => exact ((h.linked _ _).split hin).linked _ _
  | linked => exact h.linked _ _

theorem Stale.pass {entries : List Nat} (h : Stale orig s.blocks)
    (hn : NormalizePass entries s s') : Stale orig s'.blocks := by
  cases hn with
  | cut hb hx => exact h.split (inside_of_find? hb hx)
  | linkCut _ _ _ _ hin => exact ((h.linked _ _).split hin).linked _ _
  | linked => exact h.linked _ _

/-- The loop ends in order and with all blocks linked, or with a stale predecessor. -/
theorem normalizeBlocks_inOrder (h : Partition orig) (hp : ∀ b ∈ orig, b.predecessors = []) :
    ∃ s : NormState, normalizeBlocks orig = s.blocks ∧ s.blocks.length ≤ s.index ∧ AllLinked s ∧
      (InOrder orig s ∨ (Stale orig s.blocks ∧ ¬ CutInOrder orig)) := by
  have hs : SuccessorsIn (collectEntries orig).toList orig := fun b hb a ha =>
    mem_collectEntries.mpr ⟨b, hb, .inr ha⟩
  have hnd : (collectEntries orig).toList.Nodup := (collectEntries orig).sorted.imp ne_of_lt
  have hinit : InOrder orig ⟨orig, 0⟩ := ⟨Traced.init h hp, .start h.nodup_starts⟩
  obtain ⟨s, ⟨-, hlinked, hs⟩, hd⟩ := (normalize_exits hnd hs).inv
    (I := fun s => Partition s.blocks ∧ AllLinked s ∧
      (InOrder orig s ∨ (Stale orig s.blocks ∧ ¬ CutInOrder orig)))
    ⟨h, fun j hj => absurd hj (Nat.not_lt_zero j), .inl hinit⟩ fun s s' hI hn => by
      obtain ⟨hpart, hlinked, hI⟩ := hI
      have hpass := normalizePass_of_next hpart hn
      refine ⟨hpart.pass hpass, hlinked.step hpass, ?_⟩
      rcases hI with hI | ⟨hstale, hcut⟩
      · exact hI.step h hpass
      · exact .inr ⟨hstale.pass hpass, hcut⟩
  obtain ⟨heq, hend⟩ := normalizeStep_done hd
  refine ⟨s, ?_, List.getElem?_eq_none_iff.mp hend, hlinked, hs⟩
  unfold normalizeBlocks
  dsimp only
  rw [heq]

/-- When the loop ends in order, the starts are the entries in their order. -/
theorem InOrder.cutInOrder (h : InOrder orig s) (hs : normalizeBlocks orig = s.blocks)
    (hend : s.blocks.length ≤ s.index) : CutInOrder orig := by
  have horder : s.blocks.map BasicBlock.startAddress = cutOrder orig :=
    h.stage.eq_order (by rwa [List.length_map]) cutOrder_length_le
  intro b hb x hx y hy h1 hxy h2
  have hmem : ∀ {z}, z ∈ (collectEntries orig).toList → b.Contains z → z ∈ cutOrder orig := by
    intro z hz hbz
    obtain ⟨p, hp, rfl⟩ := exists_start_of_lookup (normalizeBlocks_lookups hz)
      (covered_normalizeBlocks.mpr ⟨b, hb, hbz⟩)
    rw [← horder]
    exact List.mem_map_of_mem (hs ▸ hp)
  have hbx : b.Contains x := ⟨Nat.le_of_lt h1, Nat.lt_trans hxy h2⟩
  have hby : b.Contains y := ⟨Nat.le_of_lt (Nat.lt_trans h1 hxy), h2⟩
  have hpairs : (cutOrder orig).Pairwise fun x y => ∀ b ∈ orig, b.Contains x → b.Contains y → x < y :=
    horder ▸ h.traced.ascending
  have hix := List.idxOf_lt_length_iff.mpr (hmem hx hbx)
  have hiy := List.idxOf_lt_length_iff.mpr (hmem hy hby)
  rcases Nat.lt_trichotomy ((cutOrder orig).idxOf x) ((cutOrder orig).idxOf y) with hlt | heq | hgt
  · exact hlt
  · exact absurd ((List.idxOf_inj (hmem hx hbx)).mp heq) (Nat.ne_of_lt hxy)
  · have := List.pairwise_iff_getElem.mp hpairs _ _ hiy hix hgt b hb
    rw [List.getElem_idxOf, List.getElem_idxOf] at this
    exact absurd (this hby hbx) (Nat.lt_asymm hxy)

/-- When the loop ends in order, every predecessor is right and none is missing. -/
theorem InOrder.inverse (h : InOrder orig s) (hlinked : AllLinked s)
    (hend : s.blocks.length ≤ s.index) : PredecessorsInverse s.blocks := by
  intro p hp b hb
  constructor
  · intro hpred
    obtain ⟨q, hq, hstart, hsucc, -⟩ := h.traced.preds b hb _ hpred
    have hpart := h.traced.partition
    have heq := hpart.eq_of_contains hq hp (hpart.proper q hq).contains_start
      (hstart ▸ (hpart.proper p hp).contains_start)
    exact heq ▸ hsucc
  · intro hsucc
    obtain ⟨j, hj⟩ := List.getElem?_of_mem hp
    have hlt := (List.getElem?_eq_some_iff.mp hj).1
    exact hlinked j (Nat.lt_of_lt_of_le hlt hend) p hj b hb hsucc

end

/-- **Predecessors are the inverse of successors, if and only if the cuts come in order**: for
non-empty blocks that do not overlap and have no predecessors, whatever their successors are. -/
theorem normalizeBasicBlocks_predecessors_iff (f : Function) (h : Partition f.basicBlocks)
    (hp : ∀ b ∈ f.basicBlocks, b.predecessors = []) :
    PredecessorsInverse f.normalizeBasicBlocks.basicBlocks ↔ CutInOrder f.basicBlocks := by
  obtain ⟨s, hs, hend, hlinked, hin | ⟨hstale, hcut⟩⟩ := normalizeBlocks_inOrder h hp
  · have hout : f.normalizeBasicBlocks.basicBlocks = s.blocks := hs
    rw [hout]
    exact ⟨fun _ => hin.cutInOrder hs hend, fun _ => hin.inverse hlinked hend⟩
  · have hout : f.normalizeBasicBlocks.basicBlocks = s.blocks := hs
    exact ⟨fun hinverse => absurd hinverse ((hout ▸ hstale).not_inverse h),
      fun hc => absurd hc hcut⟩

/-! ## Two branches into a block -/

/-- A block, and two blocks that branch into it. -/
def twiceCutFunction (first second : Nat) : Function :=
  { name := "sub_64", startAddress := 100, basicBlocks :=
    [{ BasicBlock.create 100 with endAddress := 110, successors := [first] },
      { BasicBlock.create 0 with endAddress := 30 },
      { BasicBlock.create 200 with endAddress := 210, successors := [second] }] }

theorem twiceCutFunction_partition (first second : Nat) :
    Partition (twiceCutFunction first second).basicBlocks where
  proper := by simp [twiceCutFunction, BasicBlock.create, BasicBlock.Proper]
  disjoint := by simp [twiceCutFunction, BasicBlock.create]

theorem twiceCutFunction_predecessors (first second : Nat) :
    ∀ b ∈ (twiceCutFunction first second).basicBlocks, b.predecessors = [] := by
  simp [twiceCutFunction, BasicBlock.create]

theorem twiceCutFunction_inverse :
    PredecessorsInverse (twiceCutFunction 10 20).normalizeBasicBlocks.basicBlocks :=
  (normalizeBasicBlocks_predecessors_iff _ (twiceCutFunction_partition 10 20)
    (twiceCutFunction_predecessors 10 20)).mpr (by unfold CutInOrder; decide +kernel)

/-- The branch to the higher address comes first: the block at 20 keeps the predecessor 0, which leads
to 10 only. -/
theorem twiceCutFunction_stale :
    Partition (twiceCutFunction 20 10).basicBlocks ∧
      (∀ b ∈ (twiceCutFunction 20 10).basicBlocks, b.predecessors = []) ∧
      ¬ PredecessorsInverse (twiceCutFunction 20 10).normalizeBasicBlocks.basicBlocks := by
  refine ⟨twiceCutFunction_partition 20 10, twiceCutFunction_predecessors 20 10, ?_⟩
  unfold PredecessorsInverse
  decide +kernel

end ReWizard
