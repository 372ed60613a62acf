import ReWizard.Analysis.Units
import ReWizard.Lib.Relabel

/-!
# Blocks at other addresses

Normalisation and the control-flow graph compare addresses and never compute with them, so blocks
that are given new addresses in the same order are split and linked alike
(`normalizeBlocks_relabel`) and have the same graph (`buildCFG_relabel`).
-/

namespace ReWizard

variable {f : Nat → Nat}

/-- The block at the new addresses, with the name that it has there. -/
def BasicBlock.relabel (f : Nat → Nat) (b : BasicBlock) : BasicBlock :=
  { b with
    name := "loc_" ++ hex (f b.startAddress)
    startAddress := f b.startAddress
    endAddress := f b.endAddress
    lastInsnAddr := f b.lastInsnAddr
    successors := b.successors.map f
    predecessors := b.predecessors.map f }

namespace BasicBlock

theorem relabel_contains (hf : StrictMono f) (b : BasicBlock) (a : Nat) :
    (b.relabel f).Contains (f a) ↔ b.Contains a := by
  unfold Contains relabel
  simp only [hf.lt_iff_lt, hf.le_iff_le]

/-- The null address stands for a last instruction that is not known. -/
theorem relabel_split (h0 : f 0 = 0) (b : BasicBlock) (a : Nat) :
    (b.relabel f).split (f a) = ((b.split a).1.relabel f, (b.split a).2.relabel f) := by
  simp [split, relabel, create, h0]

theorem relabel_addSuccessor (b : BasicBlock) (a : Nat) :
    (b.relabel f).addSuccessor (f a) = (b.addSuccessor a).relabel f := by
  simp [addSuccessor, relabel]

theorem relabel_addPredecessor (b : BasicBlock) (a : Nat) :
    (b.relabel f).addPredecessor (f a) = (b.addPredecessor a).relabel f := by
  simp [addPredecessor, relabel]

theorem relabel_removeSuccessor (hf : StrictMono f) (b : BasicBlock) (a : Nat) :
    (b.relabel f).removeSuccessor (f a) = (b.removeSuccessor a).relabel f := by
  simp [removeSuccessor, relabel, List.filter_map, Function.comp_def, hf.injective.eq_iff]

end BasicBlock

/-! ## The graph -/

section

variable (hf : StrictMono f)

include hf

theorem resolveBlock_relabel (blocks : List BasicBlock) (a : Nat) :
    resolveBlock (blocks.map (BasicBlock.relabel f)) (f a) = resolveBlock blocks a := by
  unfold resolveBlock
  rw [List.findIdx?_map]
  simp only [Function.comp_def, BasicBlock.relabel_contains hf]

theorem cfgStep_relabel (blocks : List BasicBlock) :
    cfgStep (blocks.map (BasicBlock.relabel f)) = cfgStep blocks := by
  funext w
  unfold cfgStep
  cases w.toVisit with
  | nil => rfl
  | cons u rest =>
    dsimp only
    rw [List.getElem?_map]
    cases blocks[u]? with
    | none => rfl
    | some b =>
      have hsuccs : (b.relabel f).successors.filterMap
          (resolveBlock (blocks.map (BasicBlock.relabel f))) =
            b.successors.filterMap (resolveBlock blocks) := by
        rw [show (b.relabel f).successors = b.successors.map f from rfl, List.filterMap_map]
        exact congrArg (fun g => b.successors.filterMap g)
          (funext fun a => resolveBlock_relabel hf blocks a)
      simp only [Option.map_some, hsuccs]

theorem buildCFG_relabel (start : Nat) (blocks : List BasicBlock) :
    buildCFG (f start) (blocks.map (BasicBlock.relabel f)) = buildCFG start blocks := by
  have hfuel : cfgFuel (blocks.map (BasicBlock.relabel f)) = cfgFuel blocks := by
    simp [cfgFuel, BasicBlock.relabel, Function.comp_def]
  unfold buildCFG
  rw [resolveBlock_relabel hf, cfgStep_relabel hf, hfuel, List.length_map]

/-! ## Normalisation -/

theorem collectEntries_relabel (blocks : List BasicBlock) :
    (collectEntries blocks).relabel hf = collectEntries (blocks.map (BasicBlock.relabel f)) := by
  have hfold : ∀ (blocks : List BasicBlock) (s : OrdSet Nat),
      (blocks.foldl (fun s b => b.successors.foldl OrdSet.insert (s.insert b.startAddress))
        s).relabel hf =
      (blocks.map (BasicBlock.relabel f)).foldl
        (fun s b => b.successors.foldl OrdSet.insert (s.insert b.startAddress)) (s.relabel hf) := by
    intro blocks
    induction blocks with
    | nil => exact fun _ => rfl
    | cons b blocks ih =>
      intro s
      rw [List.foldl_cons, List.map_cons, List.foldl_cons, ih, OrdSet.relabel_foldl_insert,
        OrdSet.relabel_insert]
      rfl
  exact hfold blocks OrdSet.empty

theorem findForSplit_relabel (blocks : List BasicBlock) (a : Nat) :
    findForSplit (blocks.map (BasicBlock.relabel f)) (f a) = findForSplit blocks a := by
  unfold findForSplit
  rw [List.findIdx?_map]
  simp only [Function.comp_def, BasicBlock.relabel, hf.lt_iff_lt, hf.injective.eq_iff]

variable (h0 : f 0 = 0)

include h0

theorem getBasicBlockForAddress_relabel (blocks : List BasicBlock) (a : Nat) :
    getBasicBlockForAddress (blocks.map (BasicBlock.relabel f)) (f a) =
      { getBasicBlockForAddress blocks a with
        blocks := (getBasicBlockForAddress blocks a).blocks.map (BasicBlock.relabel f) } := by
  unfold getBasicBlockForAddress
  rw [findForSplit_relabel hf]
  cases findForSplit blocks a with
  | none => rfl
  | some k =>
    dsimp only
    rw [List.getElem?_map]
    cases blocks[k]? with
    | none => rfl
    | some b =>
      have hstart : f a = (b.relabel f).startAddress ↔ a = b.startAddress := hf.injective.eq_iff
      simp only [Option.map_some, hstart, BasicBlock.relabel_split h0]
      split
      · rfl
      · simp [List.map_set]

theorem splitAtEntry_relabel (blocks : List BasicBlock) (b : BasicBlock) : ∀ entries : List Nat,
    splitAtEntry (blocks.map (BasicBlock.relabel f)) (b.relabel f) (entries.map f) =
      (splitAtEntry blocks b entries).map (List.map (BasicBlock.relabel f))
  | [] => rfl
  | entry :: rest => by
    have ih := splitAtEntry_relabel blocks b rest
    have hinside : (b.relabel f).startAddress < f entry ∧ f entry < (b.relabel f).endAddress ↔
        b.startAddress < entry ∧ entry < b.endAddress :=
      and_congr hf.lt_iff_lt hf.lt_iff_lt
    simp only [List.map_cons, splitAtEntry, hinside, getBasicBlockForAddress_relabel hf h0]
    split
    · split
      · rfl
      · exact ih
    · exact ih

theorem linkSuccessors_relabel (start : Nat) : ∀ (succs : List Nat) (blocks : List BasicBlock),
    linkSuccessors (f start) (blocks.map (BasicBlock.relabel f)) (succs.map f) =
      ((linkSuccessors start blocks succs).1.map (BasicBlock.relabel f),
        (linkSuccessors start blocks succs).2)
  | [], _ => rfl
  | succ :: rest, blocks => by
    have ih := linkSuccessors_relabel start rest
    have hmodify : ∀ (k : Nat) (l : List BasicBlock),
        (l.map (BasicBlock.relabel f)).modify k (fun b => b.addPredecessor (f start)) =
          (l.modify k fun b => b.addPredecessor start).map (BasicBlock.relabel f) := by
      intro k l
      refine List.ext_getElem? fun n => ?_
      rw [List.getElem?_modify, List.getElem?_map, List.getElem?_map, List.getElem?_modify]
      cases l[n]? with
      | none => rfl
      | some b =>
        simp only [Option.map_some, Option.map_eq_map]
        split
        · rw [BasicBlock.relabel_addPredecessor]
        · rfl
    simp only [List.map_cons, linkSuccessors, getBasicBlockForAddress_relabel hf h0]
    cases (getBasicBlockForAddress blocks succ).index with
    | none => exact ih _
    | some k =>
      dsimp only
      rw [hmodify]
      split
      · rfl
      · exact ih _

theorem normalizeStep_relabel (entries : List Nat) (blocks : List BasicBlock) (index : Nat) :
    normalizeStep (entries.map f) ⟨blocks.map (BasicBlock.relabel f), index⟩ =
      (normalizeStep entries ⟨blocks, index⟩).map fun s =>
        ⟨s.blocks.map (BasicBlock.relabel f), s.index⟩ := by
  unfold normalizeStep
  dsimp only
  rw [List.getElem?_map]
  cases blocks[index]? with
  | none => rfl
  | some b =>
    have hsuccs : (b.relabel f).successors = b.successors.map f := rfl
    have hstart : (b.relabel f).startAddress = f b.startAddress := rfl
    simp only [Option.map_some, splitAtEntry_relabel hf h0, hsuccs, hstart,
      linkSuccessors_relabel hf h0]
    cases splitAtEntry blocks b entries with
    | some split => rfl
    | none =>
      dsimp only [Option.map_none]
      cases hlink : linkSuccessors b.startAddress blocks b.successors with
      | mk linked again =>
        cases again <;> rfl

/-- **Normalisation does not look at the addresses**, only at their order. -/
theorem normalizeBlocks_relabel (blocks : List BasicBlock) :
    normalizeBlocks (blocks.map (BasicBlock.relabel f)) =
      (normalizeBlocks blocks).map (BasicBlock.relabel f) := by
  have hentries : (collectEntries (blocks.map (BasicBlock.relabel f))).toList =
      (collectEntries blocks).toList.map f := by
    rw [← collectEntries_relabel hf]
    rfl
  have hfuel : normalizeFuel (blocks.map (BasicBlock.relabel f))
      ((collectEntries blocks).toList.map f) =
        normalizeFuel blocks (collectEntries blocks).toList := by
    unfold normalizeFuel
    rw [List.length_map, List.length_map]
  have hloop := Loop.exec_map (f := fun s : NormState =>
      (⟨s.blocks.map (BasicBlock.relabel f), s.index⟩ : NormState))
    (fun s => normalizeStep_relabel hf h0 (collectEntries blocks).toList s.blocks s.index)
    (normalizeFuel blocks (collectEntries blocks).toList) ⟨blocks, 0⟩
  unfold normalizeBlocks
  dsimp only
  rw [hentries, hfuel]
  exact congrArg NormState.blocks hloop

end

end ReWizard
