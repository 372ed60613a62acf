import ReWizard.Lib.Digits
import ReWizard.Analysis.AnalysisResult
import Mathlib.Data.List.Pairwise
import Mathlib.Data.List.Nodup

/-!
# The DOT export and the block graph

Nodes are declared with the start address in hexadecimal, the end of an edge is written with the
start in decimal, and the search for the target block takes the end of a block to be inside it.
`toDot_blockGraph_iff` says when the export is the block graph nevertheless.
-/

namespace ReWizard

/-- The address lies in the block. -/
def BlockResult.Contains (b : BlockResult) (address : Nat) : Prop :=
  b.start ≤ address ∧ address < b.endAddr

instance (b : BlockResult) (address : Nat) : Decidable (b.Contains address) :=
  inferInstanceAs (Decidable (_ ∧ _))

/-! ## Node names -/

theorem hex_inj {n m : Nat} (h : hex n = hex m) : n = m :=
  Digits.toDigits_injective (by decide) (by decide) (String.ofList_injective h)

theorem underscore_notMem_hex (n : Nat) : '_' ∉ (hex n).toList := by
  unfold hex
  rw [String.toList_ofList]
  exact Digits.notMem_toDigits (by decide) (by decide) (by decide) n

section

variable {f : FunctionResult}

theorem nodeName_inj {a b : Nat} (h : f.nodeName a = f.nodeName b) : a = b :=
  hex_inj ((String.append_right_inj _).mp h)

/-- A bare address is not the name of a node of a block, whatever is behind its underscore. -/
theorem bare_ne (addr : Nat) (tail : String) :
    "0x" ++ hex addr ≠ safeName f.name ++ "_0x" ++ tail := by
  intro h
  have hmem : '_' ∈ ("0x" ++ hex addr).toList := by
    rw [h, String.toList_append, String.toList_append]
    exact List.mem_append_left _ (List.mem_append_right _ (by decide))
  rw [String.toList_append] at hmem
  rcases List.mem_append.mp hmem with hmem | hmem
  · exact absurd hmem (by decide)
  · exact underscore_notMem_hex addr hmem

end

/-! ## Proper functions -/

/-- The blocks are non-empty, and no two of them overlap. -/
structure FunctionResult.Proper (f : FunctionResult) : Prop where
  nonempty : ∀ b ∈ f.basicBlocks, b.start < b.endAddr
  disjoint : f.basicBlocks.Pairwise fun a b => a.endAddr ≤ b.start ∨ b.endAddr ≤ a.start

namespace FunctionResult.Proper

variable {f : FunctionResult}

/-- Two blocks with a common address are the same. -/
theorem eq_of_contains (h : f.Proper) {a b : BlockResult} (ha : a ∈ f.basicBlocks)
    (hb : b ∈ f.basicBlocks) {s : Nat} (has : a.Contains s) (hbs : b.Contains s) : a = b := by
  have hsymm : Std.Symm fun a b : BlockResult => a.endAddr ≤ b.start ∨ b.endAddr ≤ a.start :=
    ⟨fun _ _ => Or.symm⟩
  by_contra hne
  have hapart := h.disjoint.forall ha hb hne
  obtain ⟨ha1, ha2⟩ := has
  obtain ⟨hb1, hb2⟩ := hbs
  rcases hapart with hapart | hapart
  · omega
  · omega

theorem eq_of_start (h : f.Proper) {a b : BlockResult} (ha : a ∈ f.basicBlocks)
    (hb : b ∈ f.basicBlocks) (hstart : a.start = b.start) : a = b :=
  h.eq_of_contains ha hb ⟨Nat.le_refl _, h.nonempty a ha⟩
    ⟨hstart ▸ Nat.le_refl _, hstart ▸ h.nonempty b hb⟩

end FunctionResult.Proper

/-! ## The block graph -/

/-- Where an edge for the successor address has to end: in the node of the block around it, or in
the node of the bare address when no block is. -/
def FunctionResult.EndsRight (f : FunctionResult) (succAddr : Nat) (node : String) : Prop :=
  (∃ b ∈ f.basicBlocks, b.Contains succAddr ∧ node = f.nodeName b.start) ∨
    ((∀ b ∈ f.basicBlocks, ¬ b.Contains succAddr) ∧ node = "0x" ++ hex succAddr)

instance (f : FunctionResult) (succAddr : Nat) (node : String) :
    Decidable (f.EndsRight succAddr node) :=
  inferInstanceAs (Decidable (_ ∨ _))

/-- The cluster is the block graph: every edge line ends where it has to, each block has a node of
its own, and two nodes of blocks are joined by an edge line when a successor of the one lies in the
other. -/
structure FunctionResult.IsBlockGraph (f : FunctionResult) : Prop where
  ends : ∀ b ∈ f.basicBlocks, ∀ s ∈ b.successors, ∃ dst red,
    f.edgeLine b s = .edge (f.nodeName b.start) dst red ∧ f.EndsRight s dst
  nodes : (f.basicBlocks.map fun b => f.nodeName b.start).Nodup
  edges : ∀ a ∈ f.basicBlocks, ∀ b ∈ f.basicBlocks,
    (∃ red, .edge (f.nodeName a.start) (f.nodeName b.start) red ∈ f.edgeLines) ↔
      ∃ s ∈ a.successors, b.Contains s

/-- Every cluster is the block graph of its function. -/
def AnalysisResult.DotIsBlockGraph (r : AnalysisResult) : Prop :=
  ∀ f ∈ r.functions, f.IsBlockGraph

/-- If the search finds a block for the address, then some block is around the address, and the
found block's start in decimal reads like that block's start in hexadecimal. -/
def FunctionResult.TargetReads (f : FunctionResult) (succAddr : Nat) : Prop :=
  ∀ t, f.targetBlock succAddr = some t →
    ∃ b ∈ f.basicBlocks, b.Contains succAddr ∧ toString t.start = hex b.start

section

variable {f : FunctionResult}

/-- One edge. -/
theorem edgeTarget_endsRight_iff (succAddr : Nat) :
    f.EndsRight succAddr (f.edgeTarget succAddr) ↔ f.TargetReads succAddr := by
  unfold FunctionResult.edgeTarget FunctionResult.TargetReads
  cases hfind : f.targetBlock succAddr with
  | none =>
    have hnone : ∀ b ∈ f.basicBlocks, ¬ b.Contains succAddr := by
      intro b hb hc
      have hclosed := List.find?_eq_none.mp hfind b hb
      rw [decide_eq_true_eq] at hclosed
      exact hclosed ⟨hc.1, hc.2.le⟩
    exact ⟨fun _ t ht => (by cases ht), fun _ => .inr ⟨hnone, rfl⟩⟩
  | some t =>
    constructor
    · rintro (⟨b, hb, hc, hname⟩ | ⟨-, hname⟩) t' ht'
      · cases ht'
        exact ⟨b, hb, hc, (String.append_right_inj _).mp hname⟩
      · exact absurd hname.symm (bare_ne succAddr _)
    · intro h
      obtain ⟨b, hb, hc, hread⟩ := h t rfl
      exact .inl ⟨b, hb, hc, congrArg (safeName f.name ++ "_0x" ++ ·) hread⟩

/-- The ends of all edges decide. -/
theorem isBlockGraph_iff (h : f.Proper) : f.IsBlockGraph ↔
    ∀ b ∈ f.basicBlocks, ∀ s ∈ b.successors, f.TargetReads s := by
  constructor
  · intro hgraph b hb s hs
    obtain ⟨dst, red, hline, hend⟩ := hgraph.ends b hb s hs
    cases hline
    exact (edgeTarget_endsRight_iff s).mp hend
  · intro hreads
    have hends : ∀ b ∈ f.basicBlocks, ∀ s ∈ b.successors, f.EndsRight s (f.edgeTarget s) :=
      fun b hb s hs => (edgeTarget_endsRight_iff s).mpr (hreads b hb s hs)
    refine ⟨fun b hb s hs => ⟨_, _, rfl, hends b hb s hs⟩, ?_, fun a ha b hb => ⟨?_, ?_⟩⟩
    · refine List.pairwise_map.mpr (h.disjoint.imp_of_mem fun {a b} ha hb hapart hname => ?_)
      have hstart := nodeName_inj hname
      have hone := h.nonempty a ha
      have htwo := h.nonempty b hb
      omega
    · rintro ⟨red, hline⟩
      obtain ⟨a', ha', hline⟩ := List.mem_flatMap.mp hline
      obtain ⟨s, hs, hline⟩ := List.mem_map.mp hline
      obtain ⟨hsrc, hdst, -⟩ := FunctionResult.DotLine.edge.inj hline
      obtain rfl := h.eq_of_start ha' ha (nodeName_inj hsrc)
      refine ⟨s, hs, ?_⟩
      rcases hends a' ha' s hs with ⟨b', hb', hc, hname⟩ | ⟨-, hname⟩
      · obtain rfl := h.eq_of_start hb' hb (nodeName_inj (hname.symm.trans hdst))
        exact hc
      · exact absurd (hname.symm.trans hdst) (bare_ne s _)
    · rintro ⟨s, hs, hc⟩
      have hline : f.edgeLine a s ∈ f.edgeLines :=
        List.mem_flatMap.mpr ⟨a, ha, List.mem_map_of_mem hs⟩
      rcases hends a ha s hs with ⟨b', hb', hc', hname⟩ | ⟨hnone, -⟩
      · obtain rfl := h.eq_of_contains hb' hb hc' hc
        refine ⟨(f.targetBlock s).isNone, ?_⟩
        rw [← hname]
        exact hline
      · exact absurd hc (hnone b hb)

end

/-- **The DOT export is the block graph** of every function if and only if each search for a target
block finds nothing, or a block whose decimal start reads like the right one. -/
theorem toDot_blockGraph_iff (r : AnalysisResult) (h : ∀ f ∈ r.functions, f.Proper) :
    r.DotIsBlockGraph ↔
      ∀ f ∈ r.functions, ∀ b ∈ f.basicBlocks, ∀ s ∈ b.successors, f.TargetReads s := by
  constructor
  · exact fun hgraph f hf => (isBlockGraph_iff (h f hf)).mp (hgraph f hf)
  · exact fun hreads f hf => (isBlockGraph_iff (h f hf)).mpr (hreads f hf)

/-! ## Two blocks, one after the other -/

/-- A block that loops, at an address of one digit, and leaves the function. -/
def smallLoop : AnalysisResult :=
  ⟨[⟨"f", 4, [⟨4, 8, 6, false, false, [4, 0x401000], []⟩]⟩]⟩

theorem smallLoop_blockGraph : smallLoop.DotIsBlockGraph := by
  refine (toDot_blockGraph_iff smallLoop ?_).mpr ?_
  · intro f hf
    obtain rfl := List.mem_singleton.mp hf
    exact ⟨by decide, List.pairwise_singleton _ _⟩
  · intro f hf b hb s hs t ht
    obtain rfl := List.mem_singleton.mp hf
    obtain rfl := List.mem_singleton.mp hb
    rcases List.mem_cons.mp hs with rfl | hs
    · cases ht
      exact ⟨_, List.mem_cons_self, by decide, by decide⟩
    · obtain rfl := List.mem_singleton.mp hs
      cases ht

/-- `[0x401000, 0x401004)` and its fall-through `[0x401004, 0x401008)`. -/
def fallThroughBlocks : AnalysisResult :=
  ⟨[⟨"f", 0x401000, [⟨0x401000, 0x401004, 0x401002, false, false, [0x401004], []⟩,
    ⟨0x401004, 0x401008, 0x401006, false, false, [], [0x401000]⟩]⟩]⟩

/-- The edge ends in a name that no node is declared with. -/
theorem fallThroughBlocks_not_blockGraph : ¬ fallThroughBlocks.DotIsBlockGraph := by
  intro h
  obtain ⟨dst, red, hline, hend⟩ := (h _ List.mem_cons_self).ends _ List.mem_cons_self 0x401004
    List.mem_cons_self
  cases hline
  exact absurd hend (by decide +kernel)

end ReWizard
