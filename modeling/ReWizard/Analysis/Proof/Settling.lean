import ReWizard.Analysis.Proof.AddedFunctions
import ReWizard.Analysis.Proof.SharedState

/-!
# Repeated runs

A run can find what an earlier one did not: the candidates of the sweep are explored after it, and
what they visit changes where the next sweep decodes. But a run that changes anything visits a new
address, or adds the first functions. So the runs settle (`runs_settle`): from some run on they
change nothing, and no sweep finds a candidate any more.
-/

namespace ReWizard

variable {t : Target}

namespace RebuilderCall

/-- A call changes the context exactly when it takes up an address. -/
theorem apply_eq_self_iff (call : RebuilderCall) (ctx : AnalysisContext) :
    call.apply t ctx = ctx ↔ ¬ ∃ s pc rest, call.TakesUp t ctx s pc rest := by
  refine ⟨fun h => ?_, fun h => ?_⟩
  · rintro ⟨s, pc, rest, ht⟩
    obtain ⟨new, hnew, -, hall⟩ := takesUp_functions t call ctx
    obtain ⟨mark, hmem⟩ := hall s pc rest ht
    rw [h] at hnew
    rw [List.self_eq_append_right.mp hnew] at hmem
    cases hmem
  · exact call.takesUp_inv (I := fun c => c = ctx) rfl
      fun mark s pc rest ht _ => absurd ⟨s, pc, rest, ht⟩ h

/-- A call that takes up an address leaves a function. -/
theorem TakesUp.functions_ne_nil {call : RebuilderCall} {ctx : AnalysisContext} {s : ExploreState}
    {pc : Nat} {rest : List Nat} (h : call.TakesUp t ctx s pc rest) :
    (call.apply t ctx).module.functions ≠ [] := by
  obtain ⟨new, hnew, -, hall⟩ := takesUp_functions t call ctx
  obtain ⟨mark, hmem⟩ := hall s pc rest h
  rw [hnew]
  exact List.append_ne_nil_of_right_ne_nil _ (List.ne_nil_of_mem hmem)

/-- A call visits what it takes up, if it decodes. -/
theorem TakesUp.visits {call : RebuilderCall} {ctx : AnalysisContext} {s : ExploreState}
    {pc : Nat} {rest : List Nat} (h : call.TakesUp t ctx s pc rest) (hm : t.Mapped pc)
    (hdec : t.disassemble pc ≠ none) : pc ∈ (call.apply t ctx).visited := by
  obtain ⟨mark, hextends⟩ := takesUp_after (R := AnalysisContext.Extends) .refl
    (fun h h' => h.trans h') (discoverFunction_extends t) h
  obtain ⟨r, hd⟩ := discoverFunction_discovery (t := t) mark pc rest s
  refine hextends.visited ?_
  rw [hd.visited]
  rcases hd.explored.start hm with hst | hst | hst | hst
  · exact hst
  · rw [hd.work] at hst
    cases hst
  · exact hst.elim
  · exact absurd hst hdec

end RebuilderCall

/-! ## Runs -/

/-- The first candidate of the sweep is taken up. -/
theorem run_takesUp {ctx : AnalysisContext} {s₀ : ExploreState}
    (hs : RebuilderCall.run.start t ctx = some s₀) (hd : descended t false s₀ = ⟨ctx, []⟩)
    {a : Nat} {rest : List Nat} (hq : (swept t ⟨ctx, []⟩).functionWork = a :: rest) :
    t.Candidate ctx a ∧ RebuilderCall.run.TakesUp t ctx (swept t ⟨ctx, []⟩) a rest := by
  have hc : t.Candidate ctx a := by
    have hmem : a ∈ (swept t ⟨ctx, []⟩).functionWork := hq ▸ List.mem_cons_self
    rcases swept_candidate hmem with h | h
    · cases h
    · exact h
  refine ⟨hc, .inr ⟨hs, ?_, hq, hc.unvisited, hc.unknown, trivial⟩⟩
  rw [hd]
  exact .refl

/-- After a run that changed nothing the sweep finds nothing. -/
theorem swept_of_run_eq {ctx : AnalysisContext} (h : rebuildControlFlow t ctx = ctx) :
    (swept t ⟨ctx, []⟩).functionWork = [] := by
  have hno := (RebuilderCall.apply_eq_self_iff .run ctx).mp h
  have hs : RebuilderCall.run.start t ctx = some ⟨ctx, RebuilderCall.queue t ctx 0⟩ := rfl
  have hl := exploreStep_loop t false
  have he := descended_exits t false ⟨ctx, RebuilderCall.queue t ctx 0⟩
  have hcontext : (descended t false ⟨ctx, RebuilderCall.queue t ctx 0⟩).context = ctx :=
    hl.inv (I := fun c => c = ctx) rfl
      (fun u pc rest hu ht _ => absurd ⟨u, pc, rest, .inl ⟨hs, hu, ht⟩⟩ hno) (hl.reached he)
  have hwork : (descended t false ⟨ctx, RebuilderCall.queue t ctx 0⟩).functionWork = [] :=
    hl.exits_queue he
  have hd : descended t false ⟨ctx, RebuilderCall.queue t ctx 0⟩ = ⟨ctx, []⟩ := by
    generalize descended t false ⟨ctx, RebuilderCall.queue t ctx 0⟩ = u at hcontext hwork ⊢
    cases u
    dsimp only at hcontext hwork
    rw [hcontext, hwork]
  cases hq : (swept t ⟨ctx, []⟩).functionWork with
  | nil => rfl
  | cons a rest => exact absurd ⟨_, a, rest, (run_takesUp hs hd hq).2⟩ hno

/-- How much runs can still find: addresses, and the first functions. -/
def runMeasure (t : Target) (ctx : AnalysisContext) : Nat :=
  unvisited t ctx.visited + if ctx.module.functions = [] then 1 else 0

section

variable (hsections : ∀ r ∈ t.loader.executableSections,
  t.loader.currentImageBase ≤ r.1 ∧ r.2 ≤ t.loader.imageEnd)

include hsections

theorem Target.Candidate.mapped {ctx : AnalysisContext} {a : Nat} (h : t.Candidate ctx a) :
    t.Mapped a := by
  have hx := h.prologue.1
  unfold FileLoader.isExecutableAddress at hx
  obtain ⟨r, hr, hin⟩ := List.any_eq_true.mp hx
  have hin := of_decide_eq_true hin
  obtain ⟨hlo, hhi⟩ := hsections r hr
  exact ⟨hlo.trans hin.1, hin.2.trans_le hhi⟩

/-- When there are functions, a run that changes anything visits a new address. -/
theorem run_visits {ctx : AnalysisContext} (hf : ctx.module.functions ≠ [])
    (h : rebuildControlFlow t ctx ≠ ctx) :
    ∃ a, t.Mapped a ∧ a ∉ ctx.visited ∧ a ∈ (rebuildControlFlow t ctx).visited := by
  have hs := RebuilderCall.run_start_of_functions t hf
  have hd : descended t false ⟨ctx, []⟩ = ⟨ctx, []⟩ :=
    (exploreStep_loop t false).exits_nil (descended_exits t false ⟨ctx, []⟩) rfl
  cases hq : (swept t ⟨ctx, []⟩).functionWork with
  | nil =>
    have hsame := (drainStep_loop t).exits_nil (linearSweepFallback_exits t ⟨ctx, []⟩) hq
    have hrun := RebuilderCall.apply_eq t .run ctx
    rw [hs] at hrun
    simp only [hd, hsame] at hrun
    exact absurd hrun h
  | cons a rest =>
    obtain ⟨hc, ht⟩ := run_takesUp hs hd hq
    obtain ⟨-, i, hi, -⟩ := hc.prologue
    have hm := hc.mapped hsections
    have hdec : t.disassemble a ≠ none := hi ▸ Option.some_ne_none i
    exact ⟨a, hm, hc.unvisited, ht.visits hm hdec⟩

theorem runMeasure_lt (ctx : AnalysisContext) (h : rebuildControlFlow t ctx ≠ ctx) :
    runMeasure t (rebuildControlFlow t ctx) < runMeasure t ctx := by
  have hfunctions : (rebuildControlFlow t ctx).module.functions ≠ [] := by
    obtain ⟨s, pc, rest, ht⟩ : ∃ s pc rest, RebuilderCall.run.TakesUp t ctx s pc rest := by
      by_contra hno
      exact h ((RebuilderCall.apply_eq_self_iff .run ctx).mpr hno)
    exact ht.functions_ne_nil
  have hmono : ctx.visited ⊆ (rebuildControlFlow t ctx).visited :=
    (RebuilderCall.extends t .run ctx).visited
  unfold runMeasure unvisited
  by_cases hf : ctx.module.functions = []
  · have hle := Finset.card_le_card (Finset.sdiff_subset_sdiff
      (Finset.Subset.refl (Finset.Ico t.loader.currentImageBase t.loader.imageEnd)) hmono)
    rw [if_neg hfunctions, if_pos hf]
    omega
  · obtain ⟨a, hm, hold, hnew⟩ := run_visits hsections hf h
    rw [if_neg hfunctions, if_neg hf]
    refine Finset.card_lt_card (Finset.ssubset_iff_of_subset
      (Finset.sdiff_subset_sdiff (Finset.Subset.refl _) hmono) |>.mpr ⟨a, ?_, ?_⟩)
    · exact Finset.mem_sdiff.mpr ⟨Finset.mem_Ico.mpr hm, hold⟩
    · exact fun hmem => (Finset.mem_sdiff.mp hmem).2 hnew

/-- **Repeated runs settle.** From some run on, which comes after at most one more run than there
are unvisited bytes, and from none before it, a run changes nothing and its sweep finds nothing. -/
theorem runs_settle (ctx : AnalysisContext) : ∃ n ≤ unvisited t ctx.visited + 1, ∀ k,
    (rebuildControlFlow t ((rebuildControlFlow t)^[k] ctx) = (rebuildControlFlow t)^[k] ctx ↔
      n ≤ k) ∧
    (n ≤ k → (swept t ⟨(rebuildControlFlow t)^[k] ctx, []⟩).functionWork = []) := by
  obtain ⟨n, hn, hk⟩ := Loop.iterate_settles (runMeasure t) (runMeasure_lt hsections) ctx
  refine ⟨n, hn.trans ?_, fun k => ⟨hk k, fun hle => swept_of_run_eq ((hk k).mpr hle)⟩⟩
  unfold runMeasure
  split <;> omega

end

/-- `ret`, an unreached `jz` and `ret`, and then `push rbp; jz` back to the first `jz`, whose
displacement reads as a prologue. -/
def hiddenPrologue : Target := sampleTarget [0xC3, 0x74, 0x55, 0xC3, 0x55, 0x74, 0xFA, 0xC3]

/-- The second run finds the displacement, because the first one has visited the `jz`. -/
theorem hiddenPrologue_settles :
    (∃ n ≤ unvisited hiddenPrologue ∅ + 1, ∀ k,
      (rebuildControlFlow hiddenPrologue ((rebuildControlFlow hiddenPrologue)^[k]
        (freshContext {})) = (rebuildControlFlow hiddenPrologue)^[k] (freshContext {}) ↔ n ≤ k) ∧
      (n ≤ k → (swept hiddenPrologue ⟨(rebuildControlFlow hiddenPrologue)^[k] (freshContext {}),
        []⟩).functionWork = [])) ∧
    ([1, 2, 3].map fun k => ((rebuildControlFlow hiddenPrologue)^[k]
      (freshContext {})).module.functions.map (·.startAddress)) =
        [[0x1000, 0x1004], [0x1000, 0x1004, 0x1002], [0x1000, 0x1004, 0x1002]] :=
  ⟨runs_settle (by decide) (freshContext {}), by decide +kernel⟩

end ReWizard
