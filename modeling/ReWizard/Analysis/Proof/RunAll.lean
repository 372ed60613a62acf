import ReWizard.Analysis.Proof.TopologicalSort

/-!
# What `RunAll`'s result says

`runAll_spec`: the driver's result is true exactly when it called a stage and every stage it called
returned true; its log is then, pass by pass in sorted order, the three stages (`passCalls`).
`RanAll` is the promise of a successful run. It rests on the sort returning every pass: a dependency
cycle makes `TopologicalSort` return a part of the passes, and the driver's result does not tell.
-/

namespace ReWizard

variable {σ : Type _} {m : PassMap σ}

/-- The calls of a pass whose three stages succeed. -/
def passCalls (name : String) : List StageCall :=
  [⟨name, .preRun, true⟩, ⟨name, .run, true⟩, ⟨name, .postRun, true⟩]

/-- Every registered pass had each stage called once, returning true, and after all three stages of
each of its registered dependencies. -/
structure RanAll (m : PassMap σ) (log : List StageCall) : Prop where
  once : ∀ p ∈ m.keys, ∀ st,
    (log.filter fun c => decide (c.pass = p ∧ c.stage = st)) = [⟨p, st, true⟩]
  after : ∀ l₁ c l₂, log = l₁ ++ c :: l₂ → ∀ d, m.DependsOn c.pass d → ∀ st,
    (⟨d, st, true⟩ : StageCall) ∈ l₁

/-! ## The driver loop -/

/-- The driver over `names`: it either calls all stages of all of them with success, or ends with a
call that returned false. -/
theorem runPasses_spec :
    ∀ (names : List String) (r : RunResult σ), (∀ p ∈ names, p ∈ m.keys) →
      ((runPasses m names r).log = r.log ++ names.flatMap passCalls ∧
        (runPasses m names r).ok = (r.ok || !names.isEmpty)) ∨
      ((runPasses m names r).ok = false ∧
        ∃ pre p st, (runPasses m names r).log = r.log ++ pre ++ [⟨p, st, false⟩])
  | [], r, _ => .inl ⟨by simp [runPasses], by simp [runPasses]⟩
  | name :: rest, r, h => by
    obtain ⟨pass, hp⟩ := Option.isSome_iff_exists.mp
      (OrdMap.mem_keys_iff.mp (h name List.mem_cons_self))
    simp only [runPasses, hp]
    cases h1 : (pass.preRun r.ctx).1 with
    | false => exact .inr ⟨by simp, [], name, .preRun, by simp⟩
    | true =>
      cases h2 : (pass.run (pass.preRun r.ctx).2).1 with
      | false => exact .inr ⟨by simp, [⟨name, .preRun, true⟩], name, .run, by simp⟩
      | true =>
        cases h3 : (pass.postRun (pass.run (pass.preRun r.ctx).2).2).1 with
        | false =>
          exact .inr ⟨by simp, [⟨name, .preRun, true⟩, ⟨name, .run, true⟩], name, .postRun, by simp⟩
        | true =>
          simp only [Bool.not_true, Bool.false_eq_true, if_false]
          have ih := runPasses_spec rest
            ⟨true, (pass.postRun (pass.run (pass.preRun r.ctx).2).2).2, r.log ++ [⟨name, .preRun, true⟩] ++
              [⟨name, .run, true⟩] ++ [⟨name, .postRun, true⟩]⟩
            fun p hp => h p (List.mem_cons_of_mem _ hp)
          rcases ih with ⟨hlog, hok⟩ | ⟨hok, pre, p, st, hlog⟩
          · refine .inl ⟨?_, hok.trans (by simp)⟩
            rw [hlog]
            simp [passCalls]
          · refine .inr ⟨hok, passCalls name ++ pre, p, st, ?_⟩
            rw [hlog]
            simp [passCalls]

/-- `RunAll` either calls every stage of every sorted pass with success, and returns true when there
is such a pass, or stops at a stage that returned false, and returns false. -/
theorem runAll_spec (m : PassMap σ) (order : HashOrder m) (ctx : σ) :
    ((runAll m order ctx).log = (topologicalSort m order).flatMap passCalls ∧
      (runAll m order ctx).ok = !(topologicalSort m order).isEmpty) ∨
    ((runAll m order ctx).ok = false ∧ ∃ c ∈ (runAll m order ctx).log, c.ok = false) := by
  rcases runPasses_spec (m := m) (topologicalSort m order) ⟨false, ctx, []⟩
    fun p hp => (mem_topologicalSort.mp hp).1 with ⟨hlog, hok⟩ | ⟨hok, pre, p, st, hlog⟩
  · exact .inl ⟨by simpa [runAll] using hlog, by simpa [runAll] using hok⟩
  · refine .inr ⟨hok, ⟨p, st, false⟩, ?_, rfl⟩
    unfold runAll
    rw [hlog]
    simp

/-! ## The log of a successful run -/

theorem mem_flatMap_passCalls {names : List String} {c : StageCall} :
    c ∈ names.flatMap passCalls ↔ c.pass ∈ names ∧ c.ok = true := by
  obtain ⟨p, st, ok⟩ := c
  rw [List.mem_flatMap]
  constructor
  · intro ⟨q, hq, hc⟩
    simp only [passCalls, List.mem_cons, List.not_mem_nil, or_false, StageCall.mk.injEq] at hc
    rcases hc with ⟨rfl, -, rfl⟩ | ⟨rfl, -, rfl⟩ | ⟨rfl, -, rfl⟩ <;> exact ⟨hq, rfl⟩
  · intro ⟨hp, hok⟩
    simp only at hp hok
    subst hok
    refine ⟨p, hp, ?_⟩
    cases st <;> simp [passCalls]

/-- Each stage of a pass listed once appears once. -/
theorem filter_flatMap_passCalls {p : String} (st : Stage) :
    ∀ {names : List String}, names.Nodup → p ∈ names →
      ((names.flatMap passCalls).filter fun c => decide (c.pass = p ∧ c.stage = st)) =
        [⟨p, st, true⟩]
  | name :: rest, hnd, hp => by
    obtain ⟨hn, hnd'⟩ := List.nodup_cons.mp hnd
    rw [List.flatMap_cons, List.filter_append]
    by_cases hname : p = name
    · subst hname
      have hrest : ((rest.flatMap passCalls).filter
          fun c => decide (c.pass = p ∧ c.stage = st)) = [] := by
        rw [List.filter_eq_nil_iff]
        intro c hc
        have := (mem_flatMap_passCalls.mp hc).1
        simp only [decide_eq_true_eq, not_and]
        exact fun hcp => absurd (hcp ▸ this) hn
      rw [hrest]
      cases st <;> simp [passCalls]
    · rw [filter_flatMap_passCalls st hnd' ((List.mem_cons.mp hp).resolve_left hname)]
      simp [passCalls, Ne.symm hname]

/-- A call before which the calls of all names left of its pass lie. -/
theorem split_flatMap_passCalls :
    ∀ {names : List String} {l₁ l₂ : List StageCall} {c : StageCall},
      names.flatMap passCalls = l₁ ++ c :: l₂ →
      ∃ n₁ n₂, names = n₁ ++ c.pass :: n₂ ∧ ∃ l, l₁ = n₁.flatMap passCalls ++ l
  | [], l₁, l₂, c, h => by simp at h
  | name :: rest, l₁, l₂, c, h => by
    rw [List.flatMap_cons, List.append_eq_append_iff] at h
    rcases h with ⟨as, hl₁, hrest⟩ | ⟨cs, hname, hcs⟩
    · obtain ⟨n₁, n₂, hn, l, hl⟩ := split_flatMap_passCalls hrest
      refine ⟨name :: n₁, n₂, by rw [hn]; rfl, l, ?_⟩
      rw [hl₁, hl, List.flatMap_cons, List.append_assoc]
    · cases cs with
      | nil =>
        -- `c` opens the calls of the rest
        rw [List.append_nil] at hname
        have hfirst : rest.flatMap passCalls = [] ++ c :: l₂ := hcs.symm
        obtain ⟨n₁, n₂, hn, l, hl⟩ := split_flatMap_passCalls hfirst
        have hn₁ : n₁ = [] := by
          cases n₁ with
          | nil => rfl
          | cons a n₁ => simp [passCalls] at hl
        subst hn₁
        exact ⟨[name], n₂, by rw [hn]; rfl, [], by simp [hname]⟩
      | cons b cs =>
        have hb : c = b := by simpa using (List.cons.inj hcs).1
        subst hb
        have hc : c ∈ passCalls name := by rw [hname]; simp
        have hp : c.pass = name := by
          simp only [passCalls, List.mem_cons, List.not_mem_nil, or_false] at hc
          rcases hc with rfl | rfl | rfl <;> rfl
        exact ⟨[], rest, by rw [hp]; rfl, l₁, by simp⟩

/-- The log of a successful run over an acyclic dependency graph. -/
theorem ranAll_of_acyclic {order : HashOrder m}
    (h : ∀ p ∈ m.keys, ¬ Cycle.OnCycle m.DependsOn p) :
    RanAll m ((topologicalSort m order).flatMap passCalls) := by
  have hall : ∀ p ∈ m.keys, p ∈ topologicalSort m order := by
    intro p hp
    refine mem_topologicalSort.mpr ⟨hp, fun ⟨c, hpc, hc⟩ => ?_⟩
    obtain ⟨q, hqc, -⟩ := Relation.TransGen.tail'_iff.mp hpc
    exact h c (Relation.TransGen.head'_iff.mp hc).choose_spec.1.registered.1 hc
  refine ⟨fun p hp st => filter_flatMap_passCalls st (topologicalSort_nodup m order) (hall p hp), ?_⟩
  intro l₁ c l₂ hl d hd st
  obtain ⟨n₁, n₂, hn, l, rfl⟩ := split_flatMap_passCalls hl
  have hdn : d ∈ n₁ := topologicalSort_ordered hn hd
  exact List.mem_append_left _ (mem_flatMap_passCalls.mpr ⟨hdn, rfl⟩)

/-- **When a true result means that everything ran**: exactly when no registered pass lies on a
dependency cycle, or every registered pass depends on one (nothing runs, the result is false), or a
stage that was called returned false. -/
theorem runAll_ranAll_iff (m : PassMap σ) (order : HashOrder m) (ctx : σ) :
    ((runAll m order ctx).ok = true → RanAll m (runAll m order ctx).log) ↔
      (∀ p ∈ m.keys, ¬ Cycle.OnCycle m.DependsOn p) ∨
      (∀ p ∈ m.keys, Cycle.ReachesCycle m.DependsOn p) ∨
      ∃ c ∈ (runAll m order ctx).log, c.ok = false := by
  constructor
  · intro h
    by_contra hcon
    simp only [not_or, not_forall, not_not] at hcon
    obtain ⟨⟨p, hp, hcyc⟩, ⟨q, hq, hfree⟩, hlog⟩ := hcon
    rcases runAll_spec m order ctx with ⟨hl, hok⟩ | ⟨-, hc⟩
    · have hqs : q ∈ topologicalSort m order := mem_topologicalSort.mpr ⟨hq, hfree⟩
      have hne : (topologicalSort m order).isEmpty = false := by
        cases hs : topologicalSort m order with
        | nil => rw [hs] at hqs; cases hqs
        | cons _ _ => rfl
      have hran := h (by rw [hok, hne]; rfl)
      -- `p`, on a cycle, was never called
      have hcall : (⟨p, .run, true⟩ : StageCall) ∈ (runAll m order ctx).log := by
        have := hran.once p hp .run
        have hmem := List.mem_singleton_self (⟨p, .run, true⟩ : StageCall)
        rw [← this] at hmem
        exact (List.mem_filter.mp hmem).1
      rw [hl] at hcall
      exact (mem_topologicalSort.mp (mem_flatMap_passCalls.mp hcall).1).2 hcyc.reachesCycle
    · exact hlog hc
  · intro h hok
    rcases runAll_spec m order ctx with ⟨hl, hok'⟩ | ⟨hf, -⟩
    · rw [hl]
      rcases h with h | h | ⟨c, hc, hcf⟩
      · exact ranAll_of_acyclic h
      · cases hs : topologicalSort m order with
        | nil => rw [hok', hs] at hok; cases hok
        | cons p l =>
          have hp : p ∈ topologicalSort m order := by rw [hs]; exact List.mem_cons_self
          exact absurd (h p (mem_topologicalSort.mp hp).1) (mem_topologicalSort.mp hp).2
      · rw [hl] at hc
        rw [(mem_flatMap_passCalls.mp hc).2] at hcf
        cases hcf
    · rw [hf] at hok
      cases hok

/-! ## A cycle that goes unnoticed -/

/-- A pass whose stages succeed and change nothing. -/
def idlePass (dependencies : List String) : BaseAnalysisPass Unit where
  dependencies
  preRun ctx := (true, ctx)
  run ctx := (true, ctx)
  postRun ctx := (true, ctx)

/-- `A` depends on nothing, `B` on itself. -/
def cyclicPasses : PassMap Unit :=
  (OrdMap.empty.insert "A" (idlePass [])).insert "B" (idlePass ["B"])

/-- `RunAll` returns true though the registered pass `B` was never run. -/
theorem runAll_skips_cycle :
    (runAll cyclicPasses ⟨cyclicPasses.keys, List.Perm.refl _⟩ ()).ok = true ∧
      ¬ RanAll cyclicPasses (runAll cyclicPasses ⟨cyclicPasses.keys, List.Perm.refl _⟩ ()).log := by
  refine ⟨by decide +kernel, fun h => ?_⟩
  have hrun := h.once "B" (by decide +kernel) .run
  revert hrun
  decide +kernel

end ReWizard
