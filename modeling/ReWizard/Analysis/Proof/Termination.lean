import ReWizard.Analysis.Proof.Completeness
import ReWizard.Analysis.Proof.Normalize
import Mathlib.Algebra.Order.BigOperators.Group.List

/-!
# Exploration terminates

Every loop of the exploration is left, whatever the visited set, the functions and the queues are
when it begins:

* the loops of `AnalyzeFunction` and the loops over functions because a newly visited address pays
  for what its instruction enqueues (`Exploration.lean`, `Completeness.lean`);
* the walk of `BuildCFG`, which may queue a block many times before it expands it, because
  expanding a block takes more from the weight of the queue than its successors add
  (`cfgStep_weight`);
* the sweep because it only moves forward (`sweepStep_forward`).
-/

namespace ReWizard

/-! ## The walk of `BuildCFG` -/

/-- The blocks that block `u` leads to. -/
def cfgSuccs (blocks : List BasicBlock) (u : Nat) : List Nat :=
  match blocks[u]? with
  | none => []
  | some b => b.successors.filterMap (resolveBlock blocks)

theorem cfgStep_cons {blocks : List BasicBlock} {w : CFGWalk} {u : Nat} {rest : List Nat}
    (h : w.toVisit = u :: rest) :
    cfgStep blocks w = .next
      { edges := w.edges ++ (cfgSuccs blocks u).map fun v => (u, v)
        visited := u :: w.visited
        toVisit := rest ++ (cfgSuccs blocks u).filter fun v => decide (v ∉ w.visited) } := by
  unfold cfgStep
  rw [h]
  rfl

theorem cfgSuccs_lt {blocks : List BasicBlock} {u v : Nat} (h : v ∈ cfgSuccs blocks u) :
    v < blocks.length := by
  unfold cfgSuccs at h
  split at h
  · cases h
  · obtain ⟨a, -, ha⟩ := List.mem_filterMap.mp h
    obtain ⟨hlt, -⟩ := List.findIdx?_eq_some_iff_getElem.mp ha
    exact hlt

theorem cfgSuccs_length (blocks : List BasicBlock) (u : Nat) :
    (cfgSuccs blocks u).length ≤ (blocks.map fun b => b.successors.length).sum := by
  unfold cfgSuccs
  split
  · exact Nat.zero_le _
  · rename_i b hb
    refine (List.length_filterMap_le _ _).trans ?_
    exact List.le_sum_of_mem (List.mem_map_of_mem (List.mem_of_getElem? hb))

/-- The blocks that are not expanded. -/
def unexpanded (n : Nat) (visited : List Nat) : Nat := (Finset.range n \ visited.toFinset).card

theorem unexpanded_cons_of_mem {n u : Nat} {visited : List Nat} (hu : u ∈ visited) :
    unexpanded n (u :: visited) = unexpanded n visited := by
  unfold unexpanded
  rw [List.toFinset_cons, Finset.insert_eq_of_mem (List.mem_toFinset.mpr hu)]

theorem unexpanded_cons_of_notMem {n u : Nat} {visited : List Nat} (hu : u ∉ visited)
    (hn : u < n) : unexpanded n (u :: visited) + 1 = unexpanded n visited := by
  unfold unexpanded
  have hmem : u ∈ Finset.range n \ visited.toFinset :=
    Finset.mem_sdiff.mpr ⟨Finset.mem_range.mpr hn, fun h => hu (List.mem_toFinset.mp h)⟩
  rw [List.toFinset_cons, Finset.sdiff_insert, ← Finset.card_erase_add_one hmem]

/-- What a block in the queue weighs: a block that is expanded weighs more than the blocks that it
can still enqueue, and both weigh more the more blocks are not expanded. -/
def cfgWeight (n base : Nat) (visited : List Nat) (v : Nat) : Nat :=
  base ^ (2 * unexpanded n visited + if v ∈ visited then 1 else 0)

def cfgMeasure (n base : Nat) (w : CFGWalk) : Nat :=
  (w.toVisit.map (cfgWeight n base w.visited)).sum

theorem sum_map_le {l : List Nat} {f : Nat → Nat} {c : Nat} (h : ∀ v ∈ l, f v ≤ c) :
    (l.map f).sum ≤ l.length * c := by
  have hle := List.sum_le_card_nsmul (l.map f) c fun x hx => by
    obtain ⟨v, hv, rfl⟩ := List.mem_map.mp hx
    exact h v hv
  simpa using hle

/-- A block that was expanded weighs more than the blocks that expanding it again adds, which are
not expanded. -/
theorem cfgWeight_expanded {n D u : Nat} {visited succs : List Nat} (hu : u ∈ visited)
    (hsuccs : succs.length ≤ D) (hnew : ∀ v ∈ succs, v ∉ visited) :
    (succs.map (cfgWeight n (D + 1) visited)).sum < cfgWeight n (D + 1) visited u := by
  have hle : (succs.map (cfgWeight n (D + 1) visited)).sum ≤
      succs.length * (D + 1) ^ (2 * unexpanded n visited) := by
    refine sum_map_le fun v hv => ?_
    unfold cfgWeight
    rw [if_neg (hnew v hv)]
    exact Nat.le_refl _
  have hpos : 0 < (D + 1) ^ (2 * unexpanded n visited) := Nat.pow_pos (Nat.succ_pos D)
  have hmul := Nat.mul_le_mul_right ((D + 1) ^ (2 * unexpanded n visited)) hsuccs
  unfold cfgWeight at hle ⊢
  rw [if_pos hu, Nat.pow_succ, Nat.mul_succ, Nat.mul_comm _ D]
  omega

/-- A block that was not expanded weighs more than what expanding it adds. -/
theorem cfgWeight_unexpanded {n D u : Nat} {visited succs : List Nat} (hu : u ∉ visited)
    (hn : u < n) (hsuccs : succs.length ≤ D) :
    (succs.map (cfgWeight n (D + 1) (u :: visited))).sum < cfgWeight n (D + 1) visited u := by
  have hcount := unexpanded_cons_of_notMem hu hn
  have hle : (succs.map (cfgWeight n (D + 1) (u :: visited))).sum ≤
      succs.length * (D + 1) ^ (2 * unexpanded n (u :: visited) + 1) := by
    refine sum_map_le fun v _ => ?_
    unfold cfgWeight
    refine Nat.pow_le_pow_right (Nat.succ_pos D) ?_
    split <;> omega
  have hpos : 0 < (D + 1) ^ (2 * unexpanded n (u :: visited) + 1) := Nat.pow_pos (Nat.succ_pos D)
  have hmul := Nat.mul_le_mul_right ((D + 1) ^ (2 * unexpanded n (u :: visited) + 1)) hsuccs
  have hweight : cfgWeight n (D + 1) visited u =
      D * (D + 1) ^ (2 * unexpanded n (u :: visited) + 1) +
        (D + 1) ^ (2 * unexpanded n (u :: visited) + 1) := by
    unfold cfgWeight
    rw [if_neg hu, ← hcount, Nat.mul_succ, Nat.add_zero, Nat.pow_succ _ (_ + 1), Nat.mul_succ,
      Nat.mul_comm _ D]
  omega

/-- Expanding a block makes no other block heavier. -/
theorem cfgWeight_cons_le {n D u v : Nat} {visited : List Nat} (hn : u < n) :
    cfgWeight n (D + 1) (u :: visited) v ≤ cfgWeight n (D + 1) visited v := by
  unfold cfgWeight
  refine Nat.pow_le_pow_right (Nat.succ_pos D) ?_
  by_cases hu : u ∈ visited
  · have hmem : v ∈ u :: visited ↔ v ∈ visited := by
      rw [List.mem_cons, or_iff_right_iff_imp]
      rintro rfl
      exact hu
    rw [unexpanded_cons_of_mem hu]
    simp only [hmem]
    exact Nat.le_refl _
  · have hcount := unexpanded_cons_of_notMem hu hn
    split <;> split <;> omega

/-- A pass of the walk takes away from the weight of the queue. -/
theorem cfgStep_weight {blocks : List BasicBlock} {w w' : CFGWalk}
    (h : ∀ v ∈ w.toVisit, v < blocks.length) (hn : cfgStep blocks w = .next w') :
    (∀ v ∈ w'.toVisit, v < blocks.length) ∧
      cfgMeasure blocks.length ((blocks.map fun b => b.successors.length).sum + 1) w' <
        cfgMeasure blocks.length ((blocks.map fun b => b.successors.length).sum + 1) w := by
  cases hq : w.toVisit with
  | nil =>
    unfold cfgStep at hn
    rw [hq] at hn
    cases hn
  | cons u rest =>
    rw [cfgStep_cons hq] at hn
    cases hn
    have hu : u < blocks.length := h u (by rw [hq]; exact List.mem_cons_self)
    generalize hsuccs : (cfgSuccs blocks u).filter (fun v => decide (v ∉ w.visited)) = succs
    generalize hD : (blocks.map fun b => b.successors.length).sum = D
    have hlen : succs.length ≤ D := by
      rw [← hsuccs, ← hD]
      exact (List.length_filter_le _ _).trans (cfgSuccs_length blocks u)
    have hnew : ∀ v ∈ succs, v < blocks.length ∧ v ∉ w.visited := by
      intro v hv
      rw [← hsuccs] at hv
      obtain ⟨hv, hnot⟩ := List.mem_filter.mp hv
      exact ⟨cfgSuccs_lt hv, of_decide_eq_true hnot⟩
    refine ⟨fun v hv => ?_, ?_⟩
    · rcases List.mem_append.mp hv with hv | hv
      · exact h v (by rw [hq]; exact List.mem_cons_of_mem _ hv)
      · exact (hnew v hv).1
    · have hrest : (rest.map (cfgWeight blocks.length (D + 1) (u :: w.visited))).sum ≤
          (rest.map (cfgWeight blocks.length (D + 1) w.visited)).sum :=
        List.sum_le_sum fun v _ => cfgWeight_cons_le hu
      have hadd : (succs.map (cfgWeight blocks.length (D + 1) (u :: w.visited))).sum <
          cfgWeight blocks.length (D + 1) w.visited u := by
        by_cases hvis : u ∈ w.visited
        · refine Nat.lt_of_le_of_lt (List.sum_le_sum fun v _ => cfgWeight_cons_le hu) ?_
          exact cfgWeight_expanded hvis hlen fun v hv => (hnew v hv).2
        · exact cfgWeight_unexpanded hvis hu hlen
      show ((rest ++ succs).map (cfgWeight blocks.length (D + 1) (u :: w.visited))).sum < _
      unfold cfgMeasure
      rw [hq, List.map_append, List.sum_append, List.map_cons, List.sum_cons]
      omega

/-- The walk ends. -/
theorem cfg_exits (blocks : List BasicBlock) {entry : Nat} (h : entry < blocks.length) :
    Loop.Exits (cfgStep blocks) ⟨[], [], [entry]⟩
      (Loop.exec (cfgStep blocks) (cfgFuel blocks) ⟨[], [], [entry]⟩) := by
  refine Loop.exec_exits (I := fun w => ∀ v ∈ w.toVisit, v < blocks.length)
    (cfgMeasure blocks.length ((blocks.map fun b => b.successors.length).sum + 1))
    (fun w w' hw hn => cfgStep_weight hw hn)
    (fun v hv => by rw [List.mem_singleton.mp hv]; exact h) ?_
  unfold cfgMeasure cfgWeight cfgFuel unexpanded
  rw [List.map_singleton, List.sum_singleton, if_neg List.not_mem_nil, List.toFinset_nil,
    Finset.sdiff_empty, Finset.card_range]
  exact Nat.lt_succ_self _

/-! ## The sweep -/

/-- A pass of the sweep moves forward by at least a byte. -/
theorem sweepStep_forward {t : Target} {ctx : AnalysisContext} {stop : Nat}
    (hstop : stop ≤ t.loader.imageEnd) {s s' : SweepState}
    (hn : sweepStep t ctx stop s = .next s') : stop - s'.addr < stop - s.addr := by
  have htop := t.loader.belowTop
  unfold FileLoader.imageEnd at hstop
  unfold sweepStep at hn
  split at hn
  · cases hn
  · rename_i hlt
    have hbyte : addrAdd s.addr 1 = s.addr + 1 := addrAdd_of_lt (by omega)
    split at hn
    · cases hn
      show stop - addrAdd s.addr 1 < _
      omega
    · split at hn
      · cases hn
        show stop - addrAdd s.addr 1 < _
        omega
      · rename_i insn hd
        cases hn
        obtain ⟨-, -, -, hpos, -⟩ := Target.disassemble_eq_some hd
        have hnext : insn.next = s.addr + insn.instruction.length :=
          Target.next_eq hd (by unfold FileLoader.imageEnd; omega)
        show stop - insn.next < _
        omega

theorem sweep_exits {t : Target} (ctx : AnalysisContext) (queue : List Nat) {range : Nat × Nat}
    (h : range.2 ≤ t.loader.imageEnd) :
    Loop.Exits (sweepStep t ctx range.2) ⟨range.1, queue⟩
      (Loop.exec (sweepStep t ctx range.2) (range.2 - range.1 + 1) ⟨range.1, queue⟩) :=
  Loop.exec_exits (I := fun _ => True) (fun s => range.2 - s.addr)
    (fun _ _ _ hn => ⟨trivial, sweepStep_forward h hn⟩) trivial (Nat.lt_succ_self _)

/-! ## All loops -/

/-- Every loop of the exploration is left, with the result that the definitions give it. -/
structure Terminates (t : Target) : Prop where
  decode : ∀ s, Loop.Exits (decodeStep t) s
    (Loop.exec (decodeStep t) (t.loader.mappedSize + 1) s)
  work : ∀ s n, s.work.length + t.loader.mappedSize < n →
    Loop.Exits (workStep t) s (Loop.exec (workStep t) n s)
  analyze : ∀ ctx f start queue, Loop.Exits (workStep t) (analyzeInit ctx f start queue)
    (analyzeBlocks t ctx f start queue)
  normalize : ∀ blocks, Loop.Exits (normalizeStep (collectEntries blocks).toList) ⟨blocks, 0⟩
    (Loop.exec (normalizeStep (collectEntries blocks).toList)
      (normalizeFuel blocks (collectEntries blocks).toList) ⟨blocks, 0⟩)
  cfg : ∀ blocks entry, entry < blocks.length → Loop.Exits (cfgStep blocks) ⟨[], [], [entry]⟩
    (Loop.exec (cfgStep blocks) (cfgFuel blocks) ⟨[], [], [entry]⟩)
  explore : ∀ bypassHeur s, Loop.Exits (exploreStep t bypassHeur) s
    (Loop.exec (exploreStep t bypassHeur) (exploreFuel t s) s)
  sweep : ∀ ctx queue, ∀ range ∈ t.loader.executableSections,
    Loop.Exits (sweepStep t ctx range.2) ⟨range.1, queue⟩
      (Loop.exec (sweepStep t ctx range.2) (range.2 - range.1 + 1) ⟨range.1, queue⟩)
  drain : ∀ s, Loop.Exits (drainStep t) s (Loop.exec (drainStep t) (exploreFuel t s) s)

/-- **Exploration terminates**, from every context and with every queue, when the executable ranges
end inside the mapping. -/
theorem exploration_terminates (t : Target)
    (h : ∀ range ∈ t.loader.executableSections, range.2 ≤ t.loader.imageEnd) : Terminates t where
  decode := decode_exits t
  work := fun _ _ hn => Loop.exits_of_run (work_run t hn)
  analyze := analyzeBlocks_exits t
  normalize := fun _ => normalize_exits ((collectEntries _).sorted.imp ne_of_lt)
    fun b hb _ ha => mem_collectEntries.mpr ⟨b, hb, .inr ha⟩
  cfg := fun blocks _ hentry => cfg_exits blocks hentry
  explore := fun bypassHeur => (exploreStep_loop t bypassHeur).exits
  sweep := fun ctx queue range hr => sweep_exits ctx queue (h range hr)
  drain := (drainStep_loop t).exits

/-- `call +4; jz +1; nop; ret`, the callee's `ret`, and `push rbp; ret` for the sweep. -/
def callAndSweep : Target :=
  sampleTarget [0xE8, 0x04, 0x00, 0x00, 0x00, 0x74, 0x01, 0x90, 0xC3, 0xC3, 0x55, 0xC3]

theorem callAndSweep_terminates : Terminates callAndSweep :=
  exploration_terminates callAndSweep (by decide)

/-- The last function is found by the sweep. -/
example : (rebuildControlFlow callAndSweep (freshContext {})).module.functions.map
    (·.startAddress) = [0x1000, 0x1009, 0x100A] := by
  decide +kernel

end ReWizard
