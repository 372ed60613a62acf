import ReWizard.Lib.BreadthFirst
import ReWizard.Analysis.Proof.Layout

/-!
# The graph of `BuildCFG`

`BuildCFG` walks from the entry block over resolved successors. It marks a block when it has
expanded it, so a block may be queued and expanded again before (`BreadthFirst.LateWalk`):

* `buildCFG_exact`: the walk ends, and the graph has an edge exactly from a reachable block to what
  one of its successors resolves to;
* `buildCFG_edgesOnce_iff`: it has each edge as often as the successors ask for, if and only if no
  reachable block with edges is led to twice before its turn.
-/

namespace ReWizard

open BreadthFirst

/-! ## Reachable blocks -/

/-- Block `k` is the first in the list that contains the address. -/
def Resolves (blocks : List BasicBlock) (a k : Nat) : Prop :=
  ∃ b, blocks[k]? = some b ∧ b.Contains a ∧ ∀ j < k, ∀ c, blocks[j]? = some c → ¬ c.Contains a

/-- The blocks that are reached from the block of the start over resolved successors. -/
inductive Reachable (start : Nat) (blocks : List BasicBlock) : Nat → Prop
  | entry {k : Nat} : Resolves blocks start k → Reachable start blocks k
  | next {u v a : Nat} {b : BasicBlock} : Reachable start blocks u → blocks[u]? = some b →
      a ∈ b.successors → Resolves blocks a v → Reachable start blocks v

section

variable {blocks : List BasicBlock} {start : Nat}

theorem resolveBlock_eq_some_iff {a k : Nat} :
    resolveBlock blocks a = some k ↔ Resolves blocks a k := by
  unfold resolveBlock Resolves
  rw [List.findIdx?_eq_some_iff_getElem]
  constructor
  · rintro ⟨hk, hb, hfirst⟩
    refine ⟨blocks[k], List.getElem?_eq_getElem hk, of_decide_eq_true hb, fun j hj c hc => ?_⟩
    obtain ⟨hjl, rfl⟩ := List.getElem?_eq_some_iff.mp hc
    have hno := hfirst j hj
    rw [decide_eq_true_eq] at hno
    exact hno
  · rintro ⟨b, hb, hcontains, hfirst⟩
    obtain ⟨hk, rfl⟩ := List.getElem?_eq_some_iff.mp hb
    refine ⟨hk, decide_eq_true hcontains, fun j hj => ?_⟩
    rw [decide_eq_true_eq]
    exact hfirst j hj _ (List.getElem?_eq_getElem (hj.trans hk))

theorem mem_cfgSuccs_iff {u v : Nat} : v ∈ cfgSuccs blocks u ↔
    ∃ b a, blocks[u]? = some b ∧ a ∈ b.successors ∧ Resolves blocks a v := by
  unfold cfgSuccs
  cases hb : blocks[u]? with
  | none =>
    constructor
    · intro hv
      cases hv
    · rintro ⟨b, a, h, -⟩
      cases h
  | some b =>
    dsimp only
    rw [List.mem_filterMap]
    simp only [resolveBlock_eq_some_iff]
    constructor
    · rintro ⟨a, ha, hv⟩
      exact ⟨b, a, rfl, ha, hv⟩
    · rintro ⟨c, a, h, ha, hv⟩
      cases h
      exact ⟨a, ha, hv⟩

theorem reachable_iff {k : Nat} : Reachable start blocks k ↔ ReachedBlock blocks start k := by
  constructor
  · intro h
    induction h with
    | entry hk => exact ⟨_, resolveBlock_eq_some_iff.mpr hk, .refl⟩
    | next _ hb ha hv ih =>
      obtain ⟨entry, hentry, hpath⟩ := ih
      exact ⟨entry, hentry, hpath.tail (mem_cfgSuccs_iff.mpr ⟨_, _, hb, ha, hv⟩)⟩
  · rintro ⟨entry, hentry, hpath⟩
    induction hpath with
    | refl => exact .entry (resolveBlock_eq_some_iff.mp hentry)
    | tail _ hstep ih =>
      obtain ⟨b, a, hb, ha, hv⟩ := mem_cfgSuccs_iff.mp hstep
      exact .next ih hb ha hv

end

/-! ## The walk -/

/-- The walk of `BuildCFG` marks late, and has the edges out of what it has expanded. -/
structure CFGWalk.Late (blocks : List BasicBlock) (entry : Nat) (w : CFGWalk) : Prop where
  walk : LateWalk (cfgSuccs blocks) entry w.visited.reverse w.toVisit
  edges : w.edges = w.visited.reverse.flatMap fun u => (cfgSuccs blocks u).map fun v => (u, v)

theorem CFGWalk.Late.step {blocks : List BasicBlock} {entry : Nat} {w w' : CFGWalk}
    (h : w.Late blocks entry) (hn : cfgStep blocks w = .next w') : w'.Late blocks entry := by
  cases hw : w.toVisit with
  | nil =>
    unfold cfgStep at hn
    rw [hw] at hn
    cases hn
  | cons u rest =>
    rw [cfgStep_cons hw] at hn
    cases hn
    have hwalk := hw ▸ h.walk
    refine ⟨?_, ?_⟩
    · have hexpand := hwalk.expand
      simp only [List.mem_reverse] at hexpand
      rw [List.reverse_cons]
      exact hexpand
    · rw [List.reverse_cons, List.flatMap_append, ← h.edges, List.flatMap_singleton]

theorem cfgStep_done {blocks : List BasicBlock} {w w' : CFGWalk}
    (hd : cfgStep blocks w = .done w') : w' = w ∧ w.toVisit = [] := by
  cases hw : w.toVisit with
  | nil =>
    unfold cfgStep at hd
    rw [hw] at hd
    cases hd
    exact ⟨rfl, rfl⟩
  | cons u rest =>
    rw [cfgStep_cons hw] at hd
    cases hd

/-- The graph comes from a finished walk. -/
theorem buildCFG_walk {blocks : List BasicBlock} {start entry : Nat}
    (h : resolveBlock blocks start = some entry) :
    ∃ done, LateWalk (cfgSuccs blocks) entry done [] ∧ (buildCFG start blocks).edges =
      done.flatMap fun u => (cfgSuccs blocks u).map fun v => (u, v) := by
  have hlt : entry < blocks.length := (List.findIdx?_eq_some_iff_getElem.mp h).1
  obtain ⟨w, hw, hd⟩ := (cfg_exits blocks hlt).inv (I := CFGWalk.Late blocks entry)
    ⟨.start, rfl⟩ fun _ _ h hn => h.step hn
  obtain ⟨heq, hnil⟩ := cfgStep_done hd
  refine ⟨w.visited.reverse, hnil ▸ hw.walk, ?_⟩
  unfold buildCFG
  rw [h]
  dsimp only
  rw [heq]
  exact hw.edges

/-! ## The reachable graph -/

/-- One vertex for each block, and the edges of the reachable blocks. -/
structure CFGGraph.IsReachableGraph (g : CFGGraph) (start : Nat) (blocks : List BasicBlock) :
    Prop where
  vertices : g.vertices = blocks.length
  edges : ∀ u v, (u, v) ∈ g.edges ↔ Reachable start blocks u ∧
    ∃ b a, blocks[u]? = some b ∧ a ∈ b.successors ∧ Resolves blocks a v

/-- **`BuildCFG` builds the reachable graph**, whatever the blocks are, and its walk ends. -/
theorem buildCFG_exact (start : Nat) (blocks : List BasicBlock) :
    (buildCFG start blocks).IsReachableGraph start blocks ∧
      ∀ entry, Resolves blocks start entry → ∃ w,
        Loop.Exits (cfgStep blocks) ⟨[], [], [entry]⟩ w ∧ w.edges = (buildCFG start blocks).edges := by
  refine ⟨⟨?_, fun u v => ⟨fun huv => ?_, ?_⟩⟩, fun entry hentry => ?_⟩
  · unfold buildCFG
    split <;> rfl
  · cases hentry : resolveBlock blocks start with
    | none =>
      unfold buildCFG at huv
      rw [hentry] at huv
      cases huv
    | some entry =>
      obtain ⟨done, hwalk, hedges⟩ := buildCFG_walk hentry
      rw [hedges] at huv
      obtain ⟨x, hx, hxv⟩ := List.mem_flatMap.mp huv
      obtain ⟨y, hy, heq⟩ := List.mem_map.mp hxv
      cases heq
      refine ⟨reachable_iff.mpr ⟨entry, hentry, ?_⟩, mem_cfgSuccs_iff.mp hy⟩
      exact hwalk.reached u (List.mem_append_left _ hx)
  · rintro ⟨hu, hv⟩
    exact buildCFG_complete (reachable_iff.mp hu) (mem_cfgSuccs_iff.mpr hv)
  · rw [← resolveBlock_eq_some_iff] at hentry
    refine ⟨_, cfg_exits blocks (List.findIdx?_eq_some_iff_getElem.mp hentry).1, ?_⟩
    unfold buildCFG
    rw [hentry]

/-! ## Parallel edges -/

/-- Between two blocks, the first of which is reachable, there are as many edges as successors of the
first resolve to the second. -/
def EdgesOnce (start : Nat) (blocks : List BasicBlock) : Prop :=
  ∀ u b, Reachable start blocks u → blocks[u]? = some b → ∀ v,
    (buildCFG start blocks).edges.count (u, v) =
      b.successors.countP fun a => decide (resolveBlock blocks a = some v)

/-- The reachable blocks in breadth-first order. -/
def breadthFirstBlocks (start : Nat) (blocks : List BasicBlock) : List Nat :=
  match resolveBlock blocks start with
  | none => []
  | some entry => orderAfter (cfgSuccs blocks) [entry] blocks.length

/-- Of the successors of the blocks up to a reachable block and with it, in breadth-first order, one
resolves to it, and none if it is the entry block. Blocks without edges do not count. -/
def LedToOnce (start : Nat) (blocks : List BasicBlock) : Prop :=
  ∀ k u, (breadthFirstBlocks start blocks)[k]? = some u → cfgSuccs blocks u ≠ [] →
    (((breadthFirstBlocks start blocks).take (k + 1)).flatMap (cfgSuccs blocks)).count u =
      if resolveBlock blocks start = some u then 0 else 1

theorem count_cfgSuccs {blocks : List BasicBlock} {u : Nat} {b : BasicBlock}
    (hb : blocks[u]? = some b) (v : Nat) : (cfgSuccs blocks u).count v =
      b.successors.countP fun a => decide (resolveBlock blocks a = some v) := by
  unfold cfgSuccs
  rw [hb]
  dsimp only
  generalize b.successors = l
  induction l with
  | nil => rfl
  | cons a rest ih =>
    rw [List.countP_cons]
    cases ha : resolveBlock blocks a with
    | none =>
      rw [List.filterMap_cons_none ha, ih]
      rfl
    | some w =>
      rw [List.filterMap_cons_some ha, List.count_cons, ih]
      simp only [beq_iff_eq, decide_eq_true_eq, Option.some.injEq]

theorem count_edges (succ : Nat → List Nat) (u v : Nat) : ∀ done : List Nat,
    (done.flatMap fun x => (succ x).map fun y => (x, y)).count (u, v) =
      done.count u * (succ u).count v
  | [] => by simp
  | x :: rest => by
    have ih := count_edges succ u v rest
    have hhead : ((succ x).map fun y => (x, y)).count (u, v) =
        if x = u then (succ u).count v else 0 := by
      split
      · rename_i hxu
        rw [hxu]
        exact List.count_map_of_injective _ _ (fun y z h => (Prod.mk.inj h).2) v
      · rename_i hxu
        refine List.count_eq_zero.mpr fun hmem => ?_
        obtain ⟨y, -, heq⟩ := List.mem_map.mp hmem
        exact hxu (Prod.mk.inj heq).1
    rw [List.flatMap_cons, List.count_append, ih, hhead, List.count_cons]
    simp only [beq_iff_eq]
    split
    · rw [Nat.succ_mul, Nat.add_comm]
    · rw [Nat.zero_add, Nat.add_zero]

/-- Every block that the walk expands is a block of the list. -/
theorem length_discover_walk {blocks : List BasicBlock} {start entry : Nat} {done : List Nat}
    (hentry : resolveBlock blocks start = some entry)
    (hwalk : LateWalk (cfgSuccs blocks) entry done []) :
    (discover [] done).length ≤ blocks.length := by
  have hsub : discover [] done ⊆ List.range blocks.length := by
    intro u hu
    have hud := (mem_discover.mp hu).resolve_left List.not_mem_nil
    refine List.mem_range.mpr ?_
    rcases (hwalk.reached u (List.mem_append_left _ hud)).cases_tail with rfl | ⟨x, -, hx⟩
    · exact (List.findIdx?_eq_some_iff_getElem.mp hentry).1
    · exact cfgSuccs_lt hx
  have hnd : (discover [] done).Nodup := nodup_discover List.nodup_nil done
  have := (List.subperm_of_subset hnd hsub).length_le
  rwa [List.length_range] at this

/-- **Parallel edges**: whatever the blocks are, `BuildCFG` adds the edges out of the reachable blocks
once, if and only if no reachable block with edges is led to twice before its turn. -/
theorem buildCFG_edgesOnce_iff (start : Nat) (blocks : List BasicBlock) :
    EdgesOnce start blocks ↔ LedToOnce start blocks := by
  unfold EdgesOnce LedToOnce breadthFirstBlocks
  cases hentry : resolveBlock blocks start with
  | none =>
    constructor
    · intro _ k u hk
      cases hk
    · intro _ u b hu
      obtain ⟨entry, hsome, -⟩ := reachable_iff.mp hu
      rw [hentry] at hsome
      cases hsome
  | some entry =>
    obtain ⟨done, hwalk, hedges⟩ := buildCFG_walk hentry
    have hdone : ∀ {u b}, Reachable start blocks u → blocks[u]? = some b →
        cfgSuccs blocks u ≠ [] → u ∈ done := by
      intro u b hu hb hne
      obtain ⟨v, hv⟩ := List.exists_mem_of_ne_nil _ hne
      have huv := buildCFG_complete (reachable_iff.mp hu) hv
      rw [hedges] at huv
      obtain ⟨x, hx, hxv⟩ := List.mem_flatMap.mp huv
      obtain ⟨y, -, heq⟩ := List.mem_map.mp hxv
      cases heq
      exact hx
    have honce := hwalk.once_iff (length_discover_walk hentry hwalk)
    simp only [Option.some.injEq, eq_comm (a := entry)]
    rw [← honce]
    constructor
    · intro h u hu hne
      obtain ⟨v, hv⟩ := List.exists_mem_of_ne_nil _ hne
      obtain ⟨b, -, hb, -⟩ := mem_cfgSuccs_iff.mp hv
      have hreach : Reachable start blocks u := reachable_iff.mpr
        ⟨entry, hentry, hwalk.reached u (List.mem_append_left _ hu)⟩
      have hcount := h u b hreach hb v
      rw [hedges, count_edges, ← count_cfgSuccs hb] at hcount
      exact Nat.eq_of_mul_eq_mul_right (List.count_pos_iff.mpr hv) (hcount.trans (Nat.one_mul _).symm)
    · intro h u b hu hb v
      rw [hedges, count_edges, ← count_cfgSuccs hb]
      by_cases hne : cfgSuccs blocks u = []
      · rw [hne]
        simp
      · rw [h u (hdone hu hb hne) hne, Nat.one_mul]

/-! ## A branch that joins -/

/-- A branch, its two sides, the join and what comes after it. -/
def joinBlocks : List BasicBlock :=
  [{ BasicBlock.create 0 with endAddress := 4, successors := [4, 8] },
    { BasicBlock.create 4 with endAddress := 8, successors := [12] },
    { BasicBlock.create 8 with endAddress := 12, successors := [12] },
    { BasicBlock.create 12 with endAddress := 16, successors := [16] },
    { BasicBlock.create 16 with endAddress := 20 }]

/-- The join is queued by both sides and expanded twice. -/
theorem joinBlocks_edges : ¬ EdgesOnce 0 joinBlocks := by
  intro h
  have hentry : Reachable 0 joinBlocks 0 := .entry (resolveBlock_eq_some_iff.mp (by decide))
  have hside : Reachable 0 joinBlocks 1 :=
    .next (a := 4) hentry rfl (by decide) (resolveBlock_eq_some_iff.mp (by decide))
  have hjoin : Reachable 0 joinBlocks 3 :=
    .next (a := 12) hside rfl (by decide) (resolveBlock_eq_some_iff.mp (by decide))
  have hcount : (buildCFG 0 joinBlocks).edges.count (3, 4) = 2 := by decide +kernel
  have hone := h 3 _ hjoin rfl 4
  rw [hcount] at hone
  exact absurd hone (by decide)

end ReWizard
