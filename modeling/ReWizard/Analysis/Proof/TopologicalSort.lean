import Mathlib.Algebra.BigOperators.Group.Finset.Piecewise
import Mathlib.Algebra.Order.BigOperators.Group.Finset
import Mathlib.Data.Finset.Lattice.Basic
import ReWizard.Analysis.PassManager

/-!
# `TopologicalSort` is exact

The graph (`mem_adj`): `name` is filed under `dep` in `adj` once for every time it declares the
registered `dep`. The loop's invariant is `SortInv`: the in-degree counter of `v` is the number
`openDeps` of `v`'s dependency edges to passes that are not in the result yet, a registered pass is
in the queue or the result exactly when that number is zero, and everything in the result comes
after all its registered dependencies. At the empty queue a pass is left out exactly when it depends
on one that is left out, so (`Cycle.ReachesCycle.of_stuck`) when it reaches a cycle.
-/

namespace ReWizard

variable {σ : Type _} {m : PassMap σ}

/-! ## The dependency graph -/

/-- The dependency edges of `v` to registered passes outside `result`. -/
def openDeps (m : PassMap σ) (adj : String → List String) (result : List String) (v : String) : Nat :=
  ∑ u ∈ m.keys.toFinset \ result.toFinset, (adj u).count v

/-- What the construction keeps: the counters count the edges, which come from `E`. -/
structure GraphInv (m : PassMap σ) (E : String → String → Prop) (g : PassGraph) : Prop where
  inDegree : ∀ v, g.inDegree v = openDeps m g.adj [] v
  mem : ∀ u v, v ∈ g.adj u ↔ E u v

theorem openDeps_update {dep : String} (hk : dep ∈ m.keys) (adj : String → List String)
    (name v : String) :
    openDeps m (Function.update adj dep (adj dep ++ [name])) [] v =
      openDeps m adj [] v + if name = v then 1 else 0 := by
  have hd : dep ∈ m.keys.toFinset \ ([] : List String).toFinset := by simpa using hk
  unfold openDeps
  rw [← Finset.add_sum_erase _ _ hd, ← Finset.add_sum_erase _ _ hd]
  have hrest : ∀ u ∈ (m.keys.toFinset \ ([] : List String).toFinset).erase dep,
      (Function.update adj dep (adj dep ++ [name]) u).count v = (adj u).count v := fun u hu => by
    rw [Function.update_of_ne (Finset.ne_of_mem_erase hu)]
  rw [Finset.sum_congr rfl hrest, Function.update_self, List.count_append, List.count_singleton]
  simp only [beq_iff_eq]
  omega

theorem addDependency_inv {E : String → String → Prop} {g : PassGraph} (h : GraphInv m E g)
    (name dep : String) :
    GraphInv m (fun u v => E u v ∨ (u = dep ∧ v = name ∧ dep ∈ m.keys))
      (addDependency m name g dep) := by
  unfold addDependency
  split
  · rename_i hdep
    have hk : dep ∈ m.keys := OrdMap.mem_keys_iff.mpr hdep
    refine ⟨fun v => ?_, fun u v => ?_⟩
    · rw [openDeps_update hk, Int.natCast_add, ← h.inDegree]
      by_cases hv : v = name
      · subst hv
        simp
      · simp [Function.update_of_ne hv, Ne.symm hv]
    · by_cases hu : u = dep
      · subst hu
        simp [h.mem, hk]
      · simp [h.mem, hu]
  · rename_i hdep
    have hk : dep ∉ m.keys := fun hc => hdep (OrdMap.mem_keys_iff.mp hc)
    exact ⟨h.inDegree, fun u v => by simp [h.mem, hk]⟩

theorem foldl_addDependency_inv (name : String) :
    ∀ (deps : List String) {E : String → String → Prop} {g : PassGraph}, GraphInv m E g →
      GraphInv m (fun u v => E u v ∨ (u ∈ deps ∧ v = name ∧ u ∈ m.keys))
        (deps.foldl (addDependency m name) g)
  | [], E, g, h => ⟨h.inDegree, fun u v => by simp [h.mem]⟩
  | dep :: deps, E, g, h => by
    have h' := foldl_addDependency_inv name deps (addDependency_inv h name dep)
    refine ⟨h'.inDegree, fun u v => (h'.mem u v).trans ?_⟩
    rw [List.mem_cons]
    constructor
    · intro hu
      rcases hu with (hu | ⟨rfl, rfl, hu⟩) | ⟨hd, hv, hu⟩
      · exact .inl hu
      · exact .inr ⟨.inl rfl, rfl, hu⟩
      · exact .inr ⟨.inr hd, hv, hu⟩
    · intro hu
      rcases hu with hu | ⟨rfl | hd, hv, hu⟩
      · exact .inl (.inl hu)
      · exact .inl (.inr ⟨rfl, hv, hu⟩)
      · exact .inr ⟨hd, hv, hu⟩

theorem foldl_passes_inv :
    ∀ (l : List (String × BaseAnalysisPass σ)) {E : String → String → Prop} {g : PassGraph},
      GraphInv m E g →
      GraphInv m (fun u v => E u v ∨ (∃ pass, (v, pass) ∈ l ∧ u ∈ pass.dependencies ∧ u ∈ m.keys))
        (l.foldl (fun g e => e.2.dependencies.foldl (addDependency m e.1) g) g)
  | [], E, g, h => ⟨h.inDegree, fun u v => by simp [h.mem]⟩
  | (name, pass) :: l, E, g, h => by
    have h' := foldl_passes_inv l (foldl_addDependency_inv name pass.dependencies h)
    refine ⟨h'.inDegree, fun u v => (h'.mem u v).trans ?_⟩
    constructor
    · intro hu
      rcases hu with (hu | ⟨hd, rfl, hu⟩) | ⟨p, hp, hd, hu⟩
      · exact .inl hu
      · exact .inr ⟨pass, List.mem_cons_self, hd, hu⟩
      · exact .inr ⟨p, List.mem_cons_of_mem _ hp, hd, hu⟩
    · intro hu
      rcases hu with hu | ⟨p, hp, hd, hu⟩
      · exact .inl (.inl hu)
      · rcases List.mem_cons.mp hp with he | hp
        · cases he
          exact .inl (.inr ⟨hd, rfl, hu⟩)
        · exact .inr ⟨p, hp, hd, hu⟩

theorem buildGraph_inv (m : PassMap σ) :
    GraphInv m (fun u v => m.DependsOn v u) (buildGraph m) := by
  have h0 : GraphInv m (fun _ _ => False) ⟨fun _ => [], fun _ => 0⟩ :=
    ⟨fun v => by simp [openDeps], fun u v => by simp⟩
  have h := foldl_passes_inv m.toList h0
  refine ⟨h.inDegree, fun u v => (h.mem u v).trans ?_⟩
  simp only [false_or, PassMap.DependsOn, OrdMap.get?_eq_some_iff]

/-- **The graph**: `v` is filed under `u` exactly when `v` declares the registered pass `u`. -/
theorem mem_adj {u v : String} : v ∈ (buildGraph m).adj u ↔ m.DependsOn v u :=
  (buildGraph_inv m).mem u v

theorem PassMap.DependsOn.registered {p d : String} (h : m.DependsOn p d) :
    p ∈ m.keys ∧ d ∈ m.keys := by
  obtain ⟨pass, hp, -, hd⟩ := h
  exact ⟨OrdMap.mem_keys_iff.mpr (by rw [hp]; rfl), hd⟩

/-! ## Taking a pass from the queue -/

theorem visitDependent_inDegree_apply (s : SortState) (a v : String) :
    (visitDependent s a).inDegree v = s.inDegree v - if a = v then 1 else 0 := by
  rw [visitDependent_inDegree]
  by_cases hv : v = a
  · subst hv
    simp
  · simp [Function.update_of_ne hv, Ne.symm hv]

theorem count_cons_ite (a v : String) (l : List String) :
    (a :: l).count v = l.count v + if a = v then 1 else 0 := by
  rw [List.count_cons]
  simp only [beq_iff_eq]

theorem foldl_visitDependent_result : ∀ (l : List String) (s : SortState),
    (l.foldl visitDependent s).result = s.result
  | [], _ => rfl
  | a :: l, s => (foldl_visitDependent_result l _).trans (visitDependent_result s a)

theorem foldl_visitDependent_inDegree : ∀ (l : List String) (s : SortState) (v : String),
    (l.foldl visitDependent s).inDegree v = s.inDegree v - l.count v
  | [], s, v => by simp
  | a :: l, s, v => by
    rw [List.foldl_cons, foldl_visitDependent_inDegree l, visitDependent_inDegree_apply,
      count_cons_ite]
    split <;> omega

/-- The queue gets each dependent whose counter the occurrences in the list use up, once. -/
theorem foldl_visitDependent_q :
    ∀ (l : List String) (s : SortState), (∀ v, (l.count v : Int) ≤ s.inDegree v) →
      ∃ new, (l.foldl visitDependent s).q = s.q ++ new ∧ new.Nodup ∧
        ∀ v, v ∈ new ↔ v ∈ l ∧ s.inDegree v = l.count v
  | [], s, _ => ⟨[], by simp, List.nodup_nil, fun v => by simp⟩
  | a :: l, s, h => by
    have hleft : ∀ v, (l.count v : Int) ≤ (visitDependent s a).inDegree v := by
      intro v
      have := h v
      rw [count_cons_ite] at this
      rw [visitDependent_inDegree_apply]
      split at this <;> rename_i hav <;> simp only [hav, if_true, if_false] <;> omega
    obtain ⟨new, hq, hnd, hnew⟩ := foldl_visitDependent_q l (visitDependent s a) hleft
    have hdeg := visitDependent_inDegree_apply s a
    have hcount := fun v => count_cons_ite a v l
    rw [List.foldl_cons]
    have ha := h a
    rw [hcount, if_pos rfl] at ha
    by_cases hz : s.inDegree a - 1 = 0
    · -- `a` enters the queue here, and only here: no occurrence is left
      have hal : l.count a = 0 := by omega
      refine ⟨a :: new, ?_, List.nodup_cons.mpr ⟨fun hm => ?_, hnd⟩, fun v => ?_⟩
      · rw [hq, visitDependent_q, if_pos hz, List.append_assoc, List.singleton_append]
      · exact List.count_eq_zero.mp hal ((hnew a).mp hm).1
      · rw [List.mem_cons, List.mem_cons, hnew, hdeg, hcount]
        by_cases hv : a = v
        · subst hv
          simp only [if_true, true_or, true_and, true_iff]
          omega
        · simp only [hv, Ne.symm hv, if_false, false_or]
          exact and_congr_right fun _ => by omega
    · refine ⟨new, ?_, hnd, fun v => ?_⟩
      · rw [hq, visitDependent_q, if_neg hz]
      · rw [hnew, List.mem_cons, hdeg, hcount]
        by_cases hv : a = v
        · subst hv
          simp only [if_true, true_or, true_and]
          constructor
          · intro h'
            omega
          · intro h'
            exact ⟨List.count_pos_iff.mp (by omega), by omega⟩
        · simp only [hv, Ne.symm hv, if_false, false_or]
          exact and_congr_right fun _ => by omega

/-- Visiting the dependents `l` lowers each counter by the dependent's occurrences and queues those
whose counter these occurrences use up. -/
theorem foldl_visitDependent (l : List String) (s : SortState)
    (h : ∀ v, (l.count v : Int) ≤ s.inDegree v) :
    (l.foldl visitDependent s).result = s.result ∧
      (∀ v, (l.foldl visitDependent s).inDegree v = s.inDegree v - l.count v) ∧
      ∃ new, (l.foldl visitDependent s).q = s.q ++ new ∧ new.Nodup ∧
        ∀ v, v ∈ new ↔ v ∈ l ∧ s.inDegree v = l.count v :=
  ⟨foldl_visitDependent_result l s, foldl_visitDependent_inDegree l s, foldl_visitDependent_q l s h⟩

/-! ## The loop's invariant -/

/-- The invariant of `while (!q.empty())` (module doc). -/
structure SortInv (m : PassMap σ) (s : SortState) : Prop where
  nodup : (s.result ++ s.q).Nodup
  registered : ∀ v ∈ s.result ++ s.q, v ∈ m.keys
  inDegree : ∀ v, s.inDegree v = openDeps m (buildGraph m).adj s.result v
  ready : ∀ v ∈ m.keys, (v ∈ s.result ++ s.q ↔ s.inDegree v = 0)
  order : ∀ l₁ v l₂, s.result = l₁ ++ v :: l₂ → ∀ d, m.DependsOn v d → d ∈ l₁

/-- A pass without open dependencies has all its registered dependencies in the result. -/
theorem openDeps_eq_zero {result : List String} {v : String}
    (h : openDeps m (buildGraph m).adj result v = 0) {d : String} (hd : m.DependsOn v d) :
    d ∈ result := by
  by_contra hc
  have hmem : d ∈ m.keys.toFinset \ result.toFinset := by
    simpa [hd.registered.2] using hc
  have := Finset.sum_eq_zero_iff.mp h d hmem
  exact List.count_eq_zero.mp this (mem_adj.mpr hd)

theorem exists_openDep {result : List String} {v : String}
    (h : openDeps m (buildGraph m).adj result v ≠ 0) : ∃ d, m.DependsOn v d ∧ d ∉ result := by
  obtain ⟨d, hd, hne⟩ := Finset.exists_ne_zero_of_sum_ne_zero h
  refine ⟨d, mem_adj.mp (List.count_pos_iff.mp (Nat.pos_of_ne_zero hne)), ?_⟩
  simpa using (Finset.mem_sdiff.mp hd).2

/-- Moving `name` to the result takes its edges off every counter. -/
theorem openDeps_append {result : List String} {name : String} (hk : name ∈ m.keys)
    (hr : name ∉ result) (v : String) :
    openDeps m (buildGraph m).adj result v =
      openDeps m (buildGraph m).adj (result ++ [name]) v + ((buildGraph m).adj name).count v := by
  have hmem : name ∈ m.keys.toFinset \ result.toFinset := by simpa [hk] using hr
  have hset : m.keys.toFinset \ (result ++ [name]).toFinset =
      (m.keys.toFinset \ result.toFinset).erase name := by
    ext u
    simp only [List.toFinset_append, List.toFinset_cons, List.toFinset_nil, Finset.mem_sdiff,
      Finset.mem_union, Finset.mem_insert, Finset.notMem_empty, or_false, Finset.mem_erase]
    tauto
  unfold openDeps
  rw [hset, Finset.sum_erase_add _ _ hmem]

theorem sortInit_inv (m : PassMap σ) (order : HashOrder m) : SortInv m (sortInit m order) where
  nodup := ((order.2.nodup_iff.mpr m.keys_nodup).filter _)
  registered v hv := order.2.mem_iff.mp (List.mem_filter.mp hv).1
  inDegree := (buildGraph_inv m).inDegree
  ready v hv := by
    have : v ∈ order.1 := order.2.mem_iff.mpr hv
    simp [sortInit, this]
  order l₁ v l₂ h := by simp [sortInit] at h

/-! ## One pass through the loop -/

/-- What one pass does: `name` moves from the queue to the result, its edges come off the counters,
and the dependents whose last edge that was are queued. -/
structure SortPass (m : PassMap σ) (s s' : SortState) (name : String) (q new : List String) :
    Prop where
  head : s.q = name :: q
  result : s'.result = s.result ++ [name]
  queue : s'.q = q ++ new
  inDegree : ∀ v, s'.inDegree v = s.inDegree v - ((buildGraph m).adj name).count v
  nodup : new.Nodup
  mem : ∀ v, v ∈ new ↔
    v ∈ (buildGraph m).adj name ∧ s.inDegree v = ((buildGraph m).adj name).count v

namespace SortPass

variable {s s' : SortState} {name : String} {q new : List String}

theorem name_mem (hp : SortPass m s s' name q new) : name ∈ s.result ++ s.q := by
  simp [hp.head]

theorem name_not_mem (h : SortInv m s) (hp : SortPass m s s' name q new) : name ∉ s.result := by
  have hnd := h.nodup
  rw [hp.head] at hnd
  intro hc
  exact (List.nodup_append.mp hnd).2.2 name hc name List.mem_cons_self rfl

/-- The edges of `name` leave the sum with it. -/
theorem openDeps_split (h : SortInv m s) (hp : SortPass m s s' name q new) (v : String) :
    openDeps m (buildGraph m).adj s.result v =
      openDeps m (buildGraph m).adj s'.result v + ((buildGraph m).adj name).count v := by
  rw [hp.result]
  exact openDeps_append (h.registered name hp.name_mem) (hp.name_not_mem h) v

theorem inDegree_eq (h : SortInv m s) (hp : SortPass m s s' name q new) (v : String) :
    s'.inDegree v = openDeps m (buildGraph m).adj s'.result v := by
  have hdeg := h.inDegree v
  have hopen := hp.openDeps_split h v
  rw [hp.inDegree]
  omega

theorem new_registered (hp : SortPass m s s' name q new) : ∀ v ∈ new, v ∈ m.keys :=
  fun v hv => (mem_adj.mp ((hp.mem v).mp hv).1).registered.1

/-- What enters the queue had an open dependency, so it was in neither list. -/
theorem new_fresh (h : SortInv m s) (hp : SortPass m s s' name q new) :
    ∀ v ∈ new, v ∉ s.result ++ s.q := by
  intro v hv hc
  have hzero := (h.ready v (hp.new_registered v hv)).mp hc
  obtain ⟨hadj, hlast⟩ := (hp.mem v).mp hv
  have hpos := List.count_pos_iff.mpr hadj
  omega

/-- The two lists together: the old ones and what was queued. -/
theorem lists (hp : SortPass m s s' name q new) :
    s'.result ++ s'.q = (s.result ++ s.q) ++ new := by
  rw [hp.result, hp.queue, hp.head]
  simp

theorem nodup_lists (h : SortInv m s) (hp : SortPass m s s' name q new) :
    (s'.result ++ s'.q).Nodup := by
  rw [hp.lists]
  refine List.nodup_append.mpr ⟨h.nodup, hp.nodup, ?_⟩
  intro a ha b hb hab
  exact hp.new_fresh h b hb (hab ▸ ha)

theorem registered (h : SortInv m s) (hp : SortPass m s s' name q new) :
    ∀ v ∈ s'.result ++ s'.q, v ∈ m.keys := by
  intro v hv
  rw [hp.lists] at hv
  rcases List.mem_append.mp hv with hv | hv
  · exact h.registered v hv
  · exact hp.new_registered v hv

theorem ready (h : SortInv m s) (hp : SortPass m s s' name q new) (v : String)
    (hv : v ∈ m.keys) : v ∈ s'.result ++ s'.q ↔ s'.inDegree v = 0 := by
  have hready := h.ready v hv
  have hdeg := h.inDegree v
  have hopen := hp.openDeps_split h v
  rw [hp.lists, List.mem_append, hp.inDegree]
  by_cases hold : v ∈ s.result ++ s.q
  · have hzero := hready.mp hold
    exact iff_of_true (.inl hold) (by omega)
  · have hne : s.inDegree v ≠ 0 := fun hc => hold (hready.mpr hc)
    rw [or_iff_right hold, hp.mem]
    constructor
    · intro ⟨_, hlast⟩
      omega
    · intro hzero
      exact ⟨List.count_pos_iff.mp (by omega), by omega⟩

/-- The pass that moves has no open dependency. -/
theorem order (h : SortInv m s) (hp : SortPass m s s' name q new) (l₁ : List String) (v : String)
    (l₂ : List String) (hl : s'.result = l₁ ++ v :: l₂) (d : String) (hdep : m.DependsOn v d) :
    d ∈ l₁ := by
  rw [hp.result] at hl
  rcases List.eq_nil_or_concat l₂ with rfl | ⟨l₂', z, rfl⟩
  · obtain ⟨rfl, hv⟩ := List.append_inj' hl rfl
    cases hv
    have hzero := (h.ready name (h.registered name hp.name_mem)).mp hp.name_mem
    rw [h.inDegree] at hzero
    exact openDeps_eq_zero (by exact_mod_cast hzero) hdep
  · have hl' : s.result ++ [name] = (l₁ ++ v :: l₂') ++ [z] := by simpa using hl
    obtain ⟨hl'', -⟩ := List.append_inj' hl' rfl
    exact h.order l₁ v l₂' hl'' d hdep

/-- The passes outside the result become fewer. -/
theorem measure (h : SortInv m s) (hp : SortPass m s s' name q new) :
    m.keys.length - s'.result.length < m.keys.length - s.result.length := by
  have hle : (s'.result ++ s'.q).length ≤ m.keys.length :=
    (List.subperm_of_subset (hp.nodup_lists h) (hp.registered h)).length_le
  rw [List.length_append, hp.result, List.length_append, List.length_singleton] at hle
  rw [hp.result, List.length_append, List.length_singleton]
  omega

end SortPass

theorem sortStep_pass {s s' : SortState} (h : SortInv m s)
    (hs : sortStep (buildGraph m).adj s = .next s') : ∃ name q new, SortPass m s s' name q new := by
  obtain ⟨q, deg, result⟩ := s
  unfold sortStep at hs
  cases q with
  | nil => cases hs
  | cons name q =>
    simp only [Loop.Out.next.injEq] at hs
    have hnr : name ∉ result := fun hc =>
      (List.nodup_append.mp h.nodup).2.2 name hc name List.mem_cons_self rfl
    have hopen := openDeps_append (h.registered name (by simp)) hnr
    obtain ⟨hr, hd, new, hq, hnd, hnew⟩ := foldl_visitDependent ((buildGraph m).adj name)
      ⟨q, deg, result ++ [name]⟩ fun v => by
        have := h.inDegree v
        have := hopen v
        simp only at *
        omega
    subst hs
    exact ⟨name, q, new, rfl, hr, hq, hd, hnd, hnew⟩

/-- One pass keeps the invariant and moves one more pass to the result. -/
theorem sortStep_inv {s s' : SortState} (h : SortInv m s)
    (hs : sortStep (buildGraph m).adj s = .next s') :
    SortInv m s' ∧ m.keys.length - s'.result.length < m.keys.length - s.result.length := by
  obtain ⟨name, q, new, hp⟩ := sortStep_pass h hs
  exact ⟨⟨hp.nodup_lists h, hp.registered h, hp.inDegree_eq h, hp.ready h, hp.order h⟩,
    hp.measure h⟩

/-! ## The result -/

/-- The sorting loop is left, in a state with the invariant and an empty queue. -/
theorem topologicalSort_exits (m : PassMap σ) (order : HashOrder m) :
    ∃ s, Loop.Exits (sortStep (buildGraph m).adj) (sortInit m order) s ∧
      topologicalSort m order = s.result ∧ SortInv m s ∧ s.q = [] := by
  have hexit := Loop.exec_exits (I := SortInv m) (fun s => m.keys.length - s.result.length)
    (fun s s' h hs => sortStep_inv h hs) (n := m.keys.length + 1) (sortInit_inv m order)
    (by omega)
  obtain ⟨r, hr, hd⟩ := hexit.inv (sortInit_inv m order) fun s s' h hs => (sortStep_inv h hs).1
  refine ⟨_, hexit, rfl, ?_⟩
  unfold sortStep at hd
  split at hd
  · rename_i hq
    cases hd
    exact ⟨hr, hq⟩
  · cases hd

theorem topologicalSort_nodup (m : PassMap σ) (order : HashOrder m) :
    (topologicalSort m order).Nodup := by
  obtain ⟨s, -, hs, h, -⟩ := topologicalSort_exits m order
  rw [hs]
  exact (List.nodup_append.mp h.nodup).1

/-- Everything in the result comes after its registered dependencies. -/
theorem topologicalSort_ordered {order : HashOrder m} {l₁ l₂ : List String} {p d : String}
    (h : topologicalSort m order = l₁ ++ p :: l₂) (hd : m.DependsOn p d) : d ∈ l₁ := by
  obtain ⟨s, -, hs, hI, -⟩ := topologicalSort_exits m order
  exact hI.order l₁ p l₂ (hs.symm.trans h) d hd

/-- The result: the registered passes that do not reach a dependency cycle. -/
theorem mem_topologicalSort {order : HashOrder m} {p : String} :
    p ∈ topologicalSort m order ↔ p ∈ m.keys ∧ ¬ Cycle.ReachesCycle m.DependsOn p := by
  obtain ⟨s, -, hs, h, hq⟩ := topologicalSort_exits m order
  have hno := Cycle.not_reachesCycle_of_order (r := m.DependsOn) h.order
  rw [hs]
  constructor
  · intro hp
    exact ⟨h.registered p (by simp [hp]), hno p hp⟩
  · intro ⟨hk, hc⟩
    by_contra hp
    -- the passes left out each depend on one that is left out
    refine hc (Cycle.ReachesCycle.of_stuck (S := {v | v ∈ m.keys ∧ v ∉ s.result}) ?_ ?_ p ⟨hk, hp⟩)
    · exact (List.finite_toSet m.keys).subset fun v hv => hv.1
    · intro v ⟨hv, hvr⟩
      have hne : s.inDegree v ≠ 0 := fun h0 => by
        have := (h.ready v hv).mpr h0
        rw [hq, List.append_nil] at this
        exact hvr this
      rw [h.inDegree] at hne
      obtain ⟨d, hd, hdr⟩ := exists_openDep (m := m) (by exact_mod_cast hne)
      exact ⟨d, ⟨hd.registered.2, hdr⟩, hd⟩

/-- **`TopologicalSort` is exact** for every pass map and every iteration order of the hash maps: its
loop is left, each pass is returned at most once and after all its registered dependencies, and the
passes returned are those that do not depend, directly or transitively, on a pass on a cycle. -/
theorem topologicalSort_exact (m : PassMap σ) (order : HashOrder m) :
    (∃ s, Loop.Exits (sortStep (buildGraph m).adj) (sortInit m order) s ∧
      topologicalSort m order = s.result) ∧
    (topologicalSort m order).Nodup ∧
    (∀ l₁ p l₂, topologicalSort m order = l₁ ++ p :: l₂ → ∀ d, m.DependsOn p d → d ∈ l₁) ∧
    ∀ p, p ∈ topologicalSort m order ↔
      p ∈ m.keys ∧ ¬ ∃ c, Relation.TransGen m.DependsOn p c ∧ Relation.TransGen m.DependsOn c c := by
  refine ⟨?_, topologicalSort_nodup m order, fun l₁ p l₂ h d hd => topologicalSort_ordered h hd,
    fun p => mem_topologicalSort⟩
  obtain ⟨s, he, hs, -⟩ := topologicalSort_exits m order
  exact ⟨s, he, hs⟩

end ReWizard
