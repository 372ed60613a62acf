import ReWizard.Analysis.Proof.DeadEdges

/-!
# What removing dead edges does to the successors

`OpaquePredicatePass` only takes successors out of blocks, and a block that a result has reduced
has nothing left for another one:

* `opaquePredicate_idempotent`: with at most two successors a block, a second run changes nothing;
* `keepsLiveEdge_iff`: when the block of a decided branch keeps the successor that is taken.
-/

namespace ReWizard

/-! ## Blocks with fewer successors -/

/-- `b'` is `b` with some successors taken out. -/
def BasicBlock.Thinned (b b' : BasicBlock) : Prop :=
  b'.successors.Sublist b.successors ∧ b' = { b with successors := b'.successors }

theorem BasicBlock.Thinned.refl (b : BasicBlock) : b.Thinned b := ⟨List.Sublist.refl _, rfl⟩

theorem BasicBlock.Thinned.trans {a b c : BasicBlock} (hab : a.Thinned b) (hbc : b.Thinned c) :
    a.Thinned c := by
  refine ⟨hbc.1.trans hab.1, ?_⟩
  rw [hbc.2, hab.2]

theorem BasicBlock.removeSuccessor_thinned (b : BasicBlock) (a : Nat) :
    b.Thinned (b.removeSuccessor a) := ⟨List.filter_sublist, rfl⟩

/-- The blocks of a function, with some successors taken out. -/
abbrev ThinnedBlocks : List BasicBlock → List BasicBlock → Prop :=
  List.Forall₂ BasicBlock.Thinned

theorem ThinnedBlocks.refl (blocks : List BasicBlock) : ThinnedBlocks blocks blocks :=
  List.forall₂_same.mpr fun b _ => .refl b

theorem ThinnedBlocks.set {b b' : BasicBlock} (h : b.Thinned b') :
    ∀ {blocks : List BasicBlock} {k : Nat}, blocks[k]? = some b →
      ThinnedBlocks blocks (blocks.set k b')
  | [], _, hb => by cases hb
  | c :: rest, 0, hb => by
    cases hb
    exact .cons h (ThinnedBlocks.refl rest)
  | c :: rest, k + 1, hb => .cons (.refl c) (ThinnedBlocks.set (k := k) h hb)

theorem ThinnedBlocks.trans {l₁ l₂ l₃ : List BasicBlock} (h₁₂ : ThinnedBlocks l₁ l₂)
    (h₂₃ : ThinnedBlocks l₂ l₃) : ThinnedBlocks l₁ l₃ := by
  induction h₁₂ generalizing l₃ with
  | nil => exact h₂₃
  | cons hab _ ih =>
    cases h₂₃ with
    | cons hbc hrest => exact .cons (hab.trans hbc) (ih hrest)

theorem ThinnedBlocks.ranges {blocks blocks' : List BasicBlock} (h : ThinnedBlocks blocks blocks') :
    blocks'.map BasicBlock.range = blocks.map BasicBlock.range := by
  induction h with
  | nil => rfl
  | cons hb _ ih =>
    rw [List.map_cons, List.map_cons, ih, hb.2]
    rfl

/-- The block at a position, from the blocks before. -/
theorem ThinnedBlocks.get {blocks blocks' : List BasicBlock} (h : ThinnedBlocks blocks blocks') :
    ∀ {k : Nat} {b' : BasicBlock}, blocks'[k]? = some b' →
      ∃ b, blocks[k]? = some b ∧ b.Thinned b' := by
  induction h with
  | nil => intro k b' hb'; cases hb'
  | cons hb _ ih =>
    intro k b' hb'
    cases k with
    | zero =>
      cases hb'
      exact ⟨_, rfl, hb⟩
    | succ k => exact ih hb'

theorem removeDeadEdge_thinned (s : RemovalState) (r : Nat × Bool) :
    ThinnedBlocks s.blocks (removeDeadEdge s r).blocks := by
  rcases removeDeadEdge_cases s r with ⟨heq, -⟩ | ⟨k, b, dead, -, hb, -, -, heq⟩
  · rw [heq]
    exact ThinnedBlocks.refl _
  · rw [heq]
    exact ThinnedBlocks.set (b.removeSuccessor_thinned dead) hb

theorem removeDeadEdges_thinned (rs : List (Nat × Bool)) (s : RemovalState) :
    ThinnedBlocks s.blocks (rs.foldl removeDeadEdge s).blocks :=
  List.foldlRecOn (motive := fun t : RemovalState => ThinnedBlocks s.blocks t.blocks) rs
    removeDeadEdge (ThinnedBlocks.refl _)
    fun t ht r _ => ThinnedBlocks.trans ht (removeDeadEdge_thinned t r)

theorem removeOpaquePredicates_thinned (f : Function) :
    ThinnedBlocks f.basicBlocks f.removeOpaquePredicates.basicBlocks := by
  unfold Function.removeOpaquePredicates
  split
  · exact removeDeadEdges_thinned f.opaquePredicateResults.toList ⟨f.basicBlocks, false⟩
  · exact ThinnedBlocks.refl _

/-! ## Results that are done with -/

/-- The address resolves to no block, or to one with fewer than two successors: a result for it
has nothing to take. -/
def Settled (blocks : List BasicBlock) (a : Nat) : Prop :=
  ∀ k b, resolveBlock blocks a = some k → blocks[k]? = some b → b.successors.length < 2

theorem Settled.thinned {blocks blocks' : List BasicBlock} {a : Nat} (h : Settled blocks a)
    (hthin : ThinnedBlocks blocks blocks') : Settled blocks' a := by
  intro k b' hk hb'
  rw [resolveBlock_congr hthin.ranges] at hk
  obtain ⟨b, hb, hsub, -⟩ := hthin.get hb'
  exact Nat.lt_of_le_of_lt hsub.length_le (h k b hk hb)

theorem removeDeadEdge_of_settled {s : RemovalState} {r : Nat × Bool}
    (h : Settled s.blocks r.1) : removeDeadEdge s r = s := by
  rcases removeDeadEdge_cases s r with ⟨heq, -⟩ | ⟨k, b, dead, hk, hb, hlong, -, -⟩
  · exact heq
  · exact absurd (h k b hk hb) (Nat.not_lt.mpr hlong)

/-- Of two successors, one that is taken leaves fewer than two. -/
theorem removeDeadEdge_settles {s : RemovalState} (r : Nat × Bool)
    (h : ∀ b ∈ s.blocks, b.successors.length ≤ 2) : Settled (removeDeadEdge s r).blocks r.1 := by
  intro k b' hk hb'
  rw [resolveBlock_congr (removeDeadEdge_ranges s r)] at hk
  rcases removeDeadEdge_cases s r with ⟨heq, hshort⟩ | ⟨j, b, dead, hj, hb, -, hdead, heq⟩
  · rw [heq] at hb'
    exact hshort k b' hk hb'
  · cases hj.symm.trans hk
    have hlt := (List.getElem?_eq_some_iff.mp hb).1
    rw [heq] at hb'
    cases (List.getElem?_set_self hlt).symm.trans hb'
    have hfewer : (b.removeSuccessor dead).successors.length < b.successors.length :=
      List.length_filter_lt_length_iff_exists.mpr ⟨dead, hdead, by simp⟩
    exact Nat.lt_of_lt_of_le hfewer (h b (List.mem_of_getElem? hb))

/-- After all results, none of them has anything left to take. -/
theorem removeDeadEdges_settle : ∀ (rs : List (Nat × Bool)) {s : RemovalState},
    (∀ b ∈ s.blocks, b.successors.length ≤ 2) →
      ∀ r ∈ rs, Settled (rs.foldl removeDeadEdge s).blocks r.1
  | [], _, _ => fun r hr => by cases hr
  | r :: rest, s, h => by
    have hstep := removeDeadEdge_thinned s r
    have hnext : ∀ b' ∈ (removeDeadEdge s r).blocks, b'.successors.length ≤ 2 := by
      intro b' hb'
      obtain ⟨k, hk⟩ := List.getElem?_of_mem hb'
      obtain ⟨b, hb, hsub, -⟩ := hstep.get hk
      exact hsub.length_le.trans (h b (List.mem_of_getElem? hb))
    rw [List.foldl_cons, List.forall_mem_cons]
    exact ⟨(removeDeadEdge_settles r h).thinned (removeDeadEdges_thinned rest _),
      removeDeadEdges_settle rest hnext⟩

theorem removeDeadEdges_of_settled : ∀ {rs : List (Nat × Bool)} {s : RemovalState},
    (∀ r ∈ rs, Settled s.blocks r.1) → rs.foldl removeDeadEdge s = s
  | [], _, _ => rfl
  | r :: rest, s, h => by
    obtain ⟨hr, hrest⟩ := List.forall_mem_cons.mp h
    rw [List.foldl_cons, removeDeadEdge_of_settled hr]
    exact removeDeadEdges_of_settled hrest

theorem removeOpaquePredicates_idem {f : Function}
    (h : ∀ b ∈ f.basicBlocks, b.successors.length ≤ 2) :
    f.removeOpaquePredicates.removeOpaquePredicates = f.removeOpaquePredicates := by
  by_cases hflag : f.hasOpaquePredicates = true
  · let s := f.opaquePredicateResults.toList.foldl removeDeadEdge ⟨f.basicBlocks, false⟩
    let f' : Function :=
      { f with
        basicBlocks := s.blocks
        cfgGraph := if s.modified then buildCFG f.startAddress s.blocks else f.cfgGraph }
    have hf' : f.removeOpaquePredicates = f' := if_pos hflag
    have hagain : f.opaquePredicateResults.toList.foldl removeDeadEdge ⟨s.blocks, false⟩ =
        ⟨s.blocks, false⟩ :=
      removeDeadEdges_of_settled (removeDeadEdges_settle _ h)
    rw [hf']
    unfold Function.removeOpaquePredicates
    rw [if_pos (show f'.hasOpaquePredicates = true from hflag)]
    show ({ f' with
      basicBlocks := (f.opaquePredicateResults.toList.foldl removeDeadEdge
        ⟨s.blocks, false⟩).blocks
      cfgGraph := if (f.opaquePredicateResults.toList.foldl removeDeadEdge
        ⟨s.blocks, false⟩).modified then _ else f'.cfgGraph } : Function) = f'
    rw [hagain]
    rfl
  · have hf' : f.removeOpaquePredicates = f := if_neg hflag
    rw [hf', hf']

/-- **The pass is idempotent and only removes edges**, when no block has more than two successors:
a second run leaves everything as it is, and every block is as before but for the successors that
are taken out. -/
theorem opaquePredicate_idempotent (ctx : AnalysisContext)
    (h : ∀ f ∈ ctx.module.functions, ∀ b ∈ f.basicBlocks, b.successors.length ≤ 2) :
    opaquePredicate (opaquePredicate ctx) = opaquePredicate ctx ∧
      List.Forall₂ (fun f f' => ThinnedBlocks f.basicBlocks f'.basicBlocks)
        ctx.module.functions (opaquePredicate ctx).module.functions := by
  constructor
  · have htwice : (ctx.module.functions.map Function.removeOpaquePredicates).map
        Function.removeOpaquePredicates =
          ctx.module.functions.map Function.removeOpaquePredicates := by
      rw [List.map_map]
      exact List.map_congr_left fun f hf => removeOpaquePredicates_idem (h f hf)
    unfold opaquePredicate
    dsimp only
    rw [htwice]
  · show List.Forall₂ _ _ (ctx.module.functions.map _)
    rw [List.forall₂_map_right_iff]
    exact List.forall₂_same.mpr fun f _ => removeOpaquePredicates_thinned f

/-- `testedJump` with the verdict of the interval analysis. -/
def testedDecided : AnalysisContext := abstractInterpretation testedRebuilt

/-- The branch of `testedJump` loses its fall-through once. -/
theorem testedJump_removed_once :
    opaquePredicate (opaquePredicate testedDecided) = opaquePredicate testedDecided ∧
      ∃ f ∈ (opaquePredicate testedDecided).module.functions[0]?,
        f.basicBlocks.map BasicBlock.successors = [[0x100e], [0x100e], []] :=
  ⟨(opaquePredicate_idempotent testedDecided (by decide +kernel)).1, by decide +kernel⟩

/-! ## The live edge -/

/-- A block with fewer than two successors is left alone. -/
theorem removeDeadEdges_short {k : Nat} {b : BasicBlock} (hshort : b.successors.length < 2) :
    ∀ (rs : List (Nat × Bool)) {s : RemovalState}, s.blocks[k]? = some b →
      (rs.foldl removeDeadEdge s).blocks[k]? = some b
  | [], _, hb => hb
  | r :: rest, s, hb => by
    rw [List.foldl_cons]
    refine removeDeadEdges_short hshort rest ?_
    rcases removeDeadEdge_cases s r with ⟨heq, -⟩ | ⟨j, c, dead, -, hc, hlong, -, heq⟩
    · rw [heq]
      exact hb
    · have hne : j ≠ k := by
        rintro rfl
        cases hc.symm.trans hb
        omega
      rw [heq]
      show (s.blocks.set j _)[k]? = _
      rw [List.getElem?_set_ne hne, hb]

/-- The first of the results that resolves to the block at `k`. -/
def resultFor (blocks : List BasicBlock) (k : Nat) (rs : List (Nat × Bool)) : Option (Nat × Bool) :=
  rs.find? fun r => decide (resolveBlock blocks r.1 = some k)

/-- The successors of a block with the branch target and the fall-through, after a result. -/
def successorsAfter (target fallthrough : Nat) : Option (Nat × Bool) → List Nat
  | none => [target, fallthrough]
  | some r => [target, fallthrough].filter fun a =>
      decide (a ≠ if r.2 then fallthrough else target)

/-- Of two successors, the first result that resolves to the block takes one away, by value, and no
other result takes any. -/
theorem removeDeadEdges_pair {k target fallthrough : Nat} {b : BasicBlock}
    (hsucc : b.successors = [target, fallthrough]) :
    ∀ (rs : List (Nat × Bool)) {s : RemovalState}, s.blocks[k]? = some b →
      ∃ b', (rs.foldl removeDeadEdge s).blocks[k]? = some b' ∧
        b'.successors = successorsAfter target fallthrough (resultFor s.blocks k rs)
  | [], _, hb => ⟨b, hb, hsucc⟩
  | r :: rest, s, hb => by
    have hlt := (List.getElem?_eq_some_iff.mp hb).1
    rw [List.foldl_cons]
    unfold resultFor
    by_cases hk : resolveBlock s.blocks r.1 = some k
    · -- the block is reduced here, and is too short for the results that come after
      let b' := b.removeSuccessor (if r.2 then fallthrough else target)
      have hstep : removeDeadEdge s r = ⟨s.blocks.set k b', true⟩ := by
        unfold removeDeadEdge
        rw [hk]
        dsimp only
        rw [hb]
        dsimp only
        rw [hsucc]
      have hb' : b'.successors = successorsAfter target fallthrough (some r) := by
        show b.successors.filter _ = _
        rw [hsucc]
        rfl
      have hfewer : b'.successors.length < 2 := by
        have hdead : (if r.2 then fallthrough else target) ∈ b.successors := by
          rw [hsucc]
          split <;> simp
        have hle : b'.successors.length < b.successors.length :=
          List.length_filter_lt_length_iff_exists.mpr ⟨_, hdead, by simp⟩
        rwa [hsucc] at hle
      rw [List.find?_cons_of_pos (by simpa using hk)]
      refine ⟨b', removeDeadEdges_short hfewer rest ?_, hb'⟩
      rw [hstep]
      exact List.getElem?_set_self hlt
    · rw [List.find?_cons_of_neg (by simpa using hk)]
      have hsame : (removeDeadEdge s r).blocks[k]? = some b := by
        rcases removeDeadEdge_cases s r with ⟨heq, -⟩ | ⟨j, c, dead, hj, -, -, -, heq⟩
        · rw [heq]
          exact hb
        · have hne : j ≠ k := fun h => hk (h ▸ hj)
          rw [heq]
          show (s.blocks.set j _)[k]? = _
          rw [List.getElem?_set_ne hne, hb]
      obtain ⟨b', hb', hafter⟩ := removeDeadEdges_pair hsucc rest hsame
      refine ⟨b', hb', hafter.trans ?_⟩
      unfold resultFor
      simp only [resolveBlock_congr (removeDeadEdge_ranges s r)]

/-- The result that the pass uses on the block at `k`, if it comes to it. -/
def Function.usedResult (f : Function) (k : Nat) : Option (Nat × Bool) :=
  if f.hasOpaquePredicates then resultFor f.basicBlocks k f.opaquePredicateResults.toList else none

theorem removeOpaquePredicates_pair {f : Function} {k target fallthrough : Nat} {b : BasicBlock}
    (hb : f.basicBlocks[k]? = some b) (hsucc : b.successors = [target, fallthrough]) :
    ∃ b', f.removeOpaquePredicates.basicBlocks[k]? = some b' ∧
      b'.successors = successorsAfter target fallthrough (f.usedResult k) := by
  unfold Function.removeOpaquePredicates Function.usedResult
  split
  · exact removeDeadEdges_pair (s := ⟨f.basicBlocks, false⟩) hsucc _ hb
  · exact ⟨b, hb, hsucc⟩

/-- The block at `k` of the `n`th function ends in a conditional branch with a recorded verdict,
and has the successors that the rebuilder gives the block of such a branch. -/
structure RecordedBranch (ctx : AnalysisContext) (n k : Nat) (f : Function) (b : BasicBlock)
    (i : ExtendedInstruction) (target fallthrough : Nat) (verdict : Bool) : Prop where
  function : ctx.module.functions[n]? = some f
  block : f.basicBlocks[k]? = some b
  last : (ctx.module.blockInsns b).getLast? = some i
  branch : i.instruction.category = .condBr
  recorded : f.opaquePredicateResults.get? i.address = some verdict
  successors : b.successors = [target, fallthrough]

/-- After the pass the block still has the successor that the verdict says is taken, and the other
one only when they are the same. -/
def KeepsLiveEdge (ctx : AnalysisContext) (n k target fallthrough : Nat) (verdict : Bool) : Prop :=
  ∃ f' b', (opaquePredicate ctx).module.functions[n]? = some f' ∧ f'.basicBlocks[k]? = some b' ∧
    (if verdict then target else fallthrough) ∈ b'.successors ∧
      ((if verdict then fallthrough else target) ∈ b'.successors → target = fallthrough)

theorem successorsAfter_iff {target fallthrough : Nat} {verdict : Bool} {r : Nat × Bool} :
    ((if verdict then target else fallthrough) ∈ successorsAfter target fallthrough (some r) ∧
      ((if verdict then fallthrough else target) ∈ successorsAfter target fallthrough (some r) →
        target = fallthrough)) ↔ target ≠ fallthrough ∧ r.2 = verdict := by
  by_cases heq : target = fallthrough
  · subst heq
    simp [successorsAfter]
  · have heq' : fallthrough ≠ target := Ne.symm heq
    cases verdict <;> cases h : r.2 <;> simp [successorsAfter, h, heq, heq']

/-- **The live edge of a decided branch is kept** if and only if the pass uses a result with the
branch's own verdict on its block and the two successors differ, or uses none and they are the
same. -/
theorem keepsLiveEdge_iff {ctx : AnalysisContext} {n k : Nat} {f : Function} {b : BasicBlock}
    {i : ExtendedInstruction} {target fallthrough : Nat} {verdict : Bool}
    (h : RecordedBranch ctx n k f b i target fallthrough verdict) :
    KeepsLiveEdge ctx n k target fallthrough verdict ↔
      match f.usedResult k with
      | some r => target ≠ fallthrough ∧ r.2 = verdict
      | none => target = fallthrough := by
  have hf' : (opaquePredicate ctx).module.functions[n]? = some f.removeOpaquePredicates := by
    show (ctx.module.functions.map _)[n]? = _
    rw [List.getElem?_map, h.function]
    rfl
  obtain ⟨b', hb', hafter⟩ := removeOpaquePredicates_pair h.block h.successors
  have hkeeps : KeepsLiveEdge ctx n k target fallthrough verdict ↔
      (if verdict then target else fallthrough) ∈ b'.successors ∧
        ((if verdict then fallthrough else target) ∈ b'.successors → target = fallthrough) := by
    constructor
    · rintro ⟨g, c, hg, hc, hlive⟩
      cases hf'.symm.trans hg
      cases hb'.symm.trans hc
      exact hlive
    · exact fun hlive => ⟨_, b', hf', hb', hlive⟩
  rw [hkeeps, hafter]
  cases f.usedResult k with
  | some r => exact successorsAfter_iff
  | none => cases verdict <;> simp [successorsAfter]

/-- The branch of `testedJump` keeps its target. -/
theorem testedJump_keeps_live_edge : KeepsLiveEdge testedDecided 0 0 0x100e 0x100c true := by
  have hbranch : ∃ f ∈ testedDecided.module.functions[0]?, ∃ b ∈ f.basicBlocks[0]?,
      ∃ i ∈ (testedDecided.module.blockInsns b).getLast?, i.instruction.category = .condBr ∧
        f.opaquePredicateResults.get? i.address = some true ∧
        b.successors = [0x100e, 0x100c] ∧ f.usedResult 0 = some (0x100a, true) := by
    decide +kernel
  obtain ⟨f, hf, b, hb, i, hi, hcat, hget, hsucc, hused⟩ := hbranch
  refine (keepsLiveEdge_iff ⟨hf, hb, hi, hcat, hget, hsucc⟩).mpr ?_
  rw [hused]
  exact ⟨by decide, rfl⟩

/-- `mov rbx, 0; test rbx, rbx; jz` to the next instruction, a `ret`. -/
def jumpToNext : Target :=
  testTarget [0x48, 0xC7, 0xC3, 0, 0, 0, 0, 0x48, 0x85, 0xDB, 0x74, 0x00, 0xC3]

/-- `jumpToNext` with the verdict of the interval analysis. -/
def nextDecided : AnalysisContext :=
  abstractInterpretation (rebuildControlFlow jumpToNext (freshContext {}))

/-- A branch to the next instruction loses both successors. -/
theorem jumpToNext_loses_live_edge :
    (∃ f ∈ nextDecided.module.functions[0]?, ∃ b ∈ f.basicBlocks[0]?,
      ∃ i ∈ (nextDecided.module.blockInsns b).getLast?,
        RecordedBranch nextDecided 0 0 f b i 0x100c 0x100c true) ∧
      ¬ KeepsLiveEdge nextDecided 0 0 0x100c 0x100c true := by
  have hbranch : ∃ f ∈ nextDecided.module.functions[0]?, ∃ b ∈ f.basicBlocks[0]?,
      ∃ i ∈ (nextDecided.module.blockInsns b).getLast?, i.instruction.category = .condBr ∧
        f.opaquePredicateResults.get? i.address = some true ∧
        b.successors = [0x100c, 0x100c] := by
    decide +kernel
  have hlost : ∃ f ∈ (opaquePredicate nextDecided).module.functions[0]?,
      ∃ b ∈ f.basicBlocks[0]?, b.successors = [] := by
    decide +kernel
  constructor
  · obtain ⟨f, hf, b, hb, i, hi, hcat, hget, hsucc⟩ := hbranch
    exact ⟨f, hf, b, hb, i, hi, hf, hb, hi, hcat, hget, hsucc⟩
  · rintro ⟨f', b', hf', hb', hlive, -⟩
    obtain ⟨f, hf, b, hb, hnone⟩ := hlost
    cases (Option.mem_def.mp hf).symm.trans hf'
    cases (Option.mem_def.mp hb).symm.trans hb'
    rw [hnone] at hlive
    cases hlive

end ReWizard
