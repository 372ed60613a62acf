import ReWizard.Analysis.AnalyzePointers
import ReWizard.Analysis.Proof.SharedState

/-!
# The pointers of `AnalyzeFunction` are sound

While the visited addresses are the ones with records, a decoded instruction is always a new one, so
its record belongs to the module and `lastInsn` stays valid. A block is only open behind an
instruction. So no pass reads through a null or dangling pointer, and the pass with pointers does
what the pass without them does:

* `decodeStepPtr_eq`, `workStepPtr_eq`: the passes of the two loops;
* `discoverFunctionPtr_eq`, `RebuilderCall.applyPtr_eq`: discoveries and calls;
* `session_inStep`: every sequence of calls on an empty context.
-/

namespace ReWizard

/-- Before a pass of the inner loop: the visited addresses are those with records, and behind an
instruction `lastInsn` points to its record. -/
structure PtrInv (c : PtrState) : Prop where
  keys : ∀ a, a ∈ c.state.visited ↔ c.state.module.instructions.contains a = true
  last : c.state.bb ≠ none → ∃ a i, c.lastInsn = .owned a ∧
    c.state.lastInsn.map (·.address) = some a ∧ c.state.module.getInstruction a = some i

/-- After a pass only the records count. -/
def PtrDone (c : PtrState) : Prop :=
  ∀ a, a ∈ c.state.visited ↔ c.state.module.instructions.contains a = true

theorem Grows.keys_eq {t : Target} {s s' : AnalyzeState} (h : Grows t s s')
    (hs : ∀ a, a ∈ s.visited ↔ s.module.instructions.contains a = true) (a : Nat) :
    a ∈ s'.visited ↔ s'.module.instructions.contains a = true := by
  rw [h.keys, ← hs]
  constructor
  · intro ha
    by_cases hold : a ∈ s.visited
    · exact .inl hold
    · exact .inr ⟨ha, hold⟩
  · rintro (ha | ha)
    · exact h.visited ha
    · exact ha.1

theorem openedBlock_eq (s : AnalyzeState) : openedBlock s = some s.currentBlock := by
  unfold openedBlock AnalyzeState.currentBlock
  cases s.bb <;> rfl

section

variable {t : Target}

/-- A pass that decodes an instruction. -/
theorem decodeInsnPtr_eq {c : PtrState} (h : PtrInv c) {insn : ExtendedInstruction}
    (hd : t.disassemble c.state.pc = some insn) (hpc : c.state.pc ∉ c.state.visited) :
    ∃ o, decodeInsnPtr t insn c = some o ∧ o.map (·.state) = decodeInsn t insn c.state ∧
      (∀ c', o = .next c' → PtrInv c') ∧ ∀ c', o = .done c' → PtrDone c' := by
  obtain ⟨haddr, -⟩ := Target.disassemble_eq_some hd
  have hnew : c.state.module.instructions.contains insn.address = false := by
    rw [haddr, Bool.eq_false_iff]
    exact fun hc => hpc ((h.keys _).mpr hc)
  have heffect : DecodeEffect t insn c.state (decodeInsn t insn c.state) := decodeInsn_effect
  -- whatever the pass does, the module has a record of the instruction afterwards
  have hgrows : ∀ s', decodeInsn t insn c.state = .next s' ∨ decodeInsn t insn c.state = .done s' →
      (∀ a, a ∈ s'.visited ↔ s'.module.instructions.contains a = true) ∧ insn.address ∈ s'.visited := by
    intro s' hs'
    refine ⟨(decodeInsn_grows hd hpc hs').keys_eq h.keys, ?_⟩
    rw [(heffect.hasBlock hs').2]
    exact Finset.mem_insert_self _ _
  have hout : ∃ o, decodeInsnPtr t insn c = some o ∧ o.map (·.state) = decodeInsn t insn c.state ∧
      ∀ c', o = .next c' → c'.lastInsn = .owned insn.address ∧ c'.state.lastInsn = some insn := by
    unfold decodeInsnPtr decodeInsn
    dsimp only
    rw [openedBlock_eq, hnew]
    dsimp only [Bool.not_false, Option.map_some]
    split
    · exact ⟨_, rfl, rfl, fun c' h => by cases h⟩
    · cases insn.instruction.category with
      | call => exact ⟨_, rfl, rfl, fun c' h => by cases h; exact ⟨rfl, rfl⟩⟩
      | condBr => exact ⟨_, rfl, rfl, fun c' h => by cases h; exact ⟨rfl, rfl⟩⟩
      | uncondBr => exact ⟨_, rfl, rfl, fun c' h => by cases h⟩
      | ret => exact ⟨_, rfl, rfl, fun c' h => by cases h⟩
      | other => exact ⟨_, rfl, rfl, fun c' h => by cases h; exact ⟨rfl, rfl⟩⟩
  obtain ⟨o, ho, hmap, hlast⟩ := hout
  refine ⟨o, ho, hmap, fun c' hc' => ?_, fun c' hc' => ?_⟩
  · rw [hc'] at hmap
    obtain ⟨hkeys, hvis⟩ := hgrows c'.state (.inl hmap.symm)
    obtain ⟨hptr, hinsn⟩ := hlast c' hc'
    obtain ⟨i, hi⟩ := Option.isSome_iff_exists.mp ((hkeys _).mp hvis)
    exact ⟨hkeys, fun _ => ⟨insn.address, i, hptr, by rw [hinsn]; rfl, hi⟩⟩
  · rw [hc'] at hmap
    exact (hgrows c'.state (.inr hmap.symm)).1

/-- **No pass faults**, and each does what the pass without pointers does. -/
theorem decodeStepPtr_eq (c : PtrState) (h : PtrInv c) :
    ∃ o, decodeStepPtr t c = some o ∧ o.map (·.state) = decodeStep t c.state ∧
      (∀ c', o = .next c' → PtrInv c') ∧ ∀ c', o = .done c' → PtrDone c' := by
  have hstay : (∀ c', Loop.Out.done c = .next c' → PtrInv c') ∧
      ∀ c', Loop.Out.done c = .done c' → PtrDone c' :=
    ⟨fun c' hc => (by cases hc), fun c' hc => by cases hc; exact h.keys⟩
  unfold decodeStepPtr decodeStep
  dsimp only
  split
  · exact ⟨_, rfl, rfl, hstay⟩
  · rename_i hpc
    split
    · exact ⟨_, rfl, rfl, hstay⟩
    · cases hd : t.disassemble c.state.pc with
      | none =>
        cases hb : c.state.bb with
        | none => exact ⟨_, rfl, rfl, hstay⟩
        | some bb =>
          -- `lastInsn` is read here
          obtain ⟨a, i, hptr, hlast, hi⟩ := h.last (by rw [hb]; exact Option.some_ne_none bb)
          have haddr : c.lastInsn.address c.state.module = some a := by
            rw [hptr]
            show (c.state.module.getInstruction a).map (·.address) = some a
            rw [hi, Option.map_some, Module.getInstruction_address hi]
          refine ⟨_, by rw [haddr]; rfl, ?_, fun c' hc => (by cases hc), fun c' hc => ?_⟩
          · rw [hlast]
            rfl
          · cases hc
            exact h.keys
      | some insn => exact decodeInsnPtr_eq h hd hpc

theorem decodeFromPtr_eq (pc : Nat) (c : PtrState) (h : PtrDone c) :
    ∃ c', decodeFromPtr t pc c = some c' ∧ c'.state = decodeFrom t pc c.state ∧ PtrDone c' := by
  have h0 : PtrInv { c with state := { c.state with pc := pc, bb := none } } :=
    ⟨h, fun hb => absurd rfl hb⟩
  obtain ⟨r, hr, hstate, hdone⟩ := Loop.runChecked_eq (f := PtrState.state) decodeStepPtr_eq h0
    (decode_run t _)
  have hkeys : PtrDone { r with state := r.state.addBasicBlock } := by
    unfold AnalyzeState.addBasicBlock
    split <;> exact hdone
  unfold decodeFromPtr
  rw [hr]
  refine ⟨_, rfl, ?_, hkeys⟩
  show r.state.addBasicBlock = _
  rw [hstate]
  rfl

theorem workStepPtr_eq (c : PtrState) (h : PtrDone c) :
    ∃ o, workStepPtr t c = some o ∧ o.map (·.state) = workStep t c.state ∧
      (∀ c', o = .next c' → PtrDone c') ∧ ∀ c', o = .done c' → PtrDone c' := by
  unfold workStepPtr workStep
  cases c.state.work with
  | nil => exact ⟨_, rfl, rfl, fun c' hc => (by cases hc), fun c' hc => by cases hc; exact h⟩
  | cons pc rest =>
    dsimp only
    split
    · exact ⟨_, rfl, rfl, fun c' hc => by cases hc; exact h, fun c' hc => by cases hc⟩
    · obtain ⟨c', hc', hstate, hdone⟩ :=
        decodeFromPtr_eq (t := t) pc { c with state := { c.state with work := rest } } h
      refine ⟨.next c', by rw [hc']; rfl, ?_, fun q hq => ?_, fun q hq => by cases hq⟩
      · exact congrArg Loop.Out.next hstate
      · cases hq
        exact hdone

theorem analyzeFunctionPtr_eq {ctx : AnalysisContext}
    (h : ∀ a, a ∈ ctx.visited ↔ ctx.module.instructions.contains a = true) (f : Function)
    (start : Nat) (queue : List Nat) :
    analyzeFunctionPtr t ctx f start queue = some (analyzeFunction t ctx f start queue) := by
  obtain ⟨r, hr, hstate, -⟩ := Loop.runChecked_eq (f := PtrState.state) workStepPtr_eq
    (c := ⟨analyzeInit ctx f start queue, .null⟩) h (analyzeBlocks_run t ctx f start queue)
  unfold analyzeFunctionPtr analyzeFunction
  rw [hr, Option.map_some, hstate]

end

/-! ## Discoveries and calls -/

section

variable (t : Target)

theorem discoverFunctionPtr_eq (mark : AnalyzeState → Bool) (pc : Nat) (s : ExploreState)
    (h : InStep s.context) :
    discoverFunctionPtr t mark pc s = some (discoverFunction t mark pc s) := by
  unfold discoverFunctionPtr discoverFunction
  rw [analyzeFunctionPtr_eq fun a => (h.keys a).trans OrdMap.mem_keys_iff_contains]
  rfl

theorem exploreStepPtr_eq (bypassHeur : Bool) (s : ExploreState) (h : InStep s.context) :
    exploreStepPtr t bypassHeur s = some (exploreStep t bypassHeur s) := by
  unfold exploreStepPtr exploreStep
  cases s.functionWork with
  | nil => rfl
  | cons pc rest =>
    dsimp only
    split
    · rfl
    · split
      · rfl
      · split
        · rfl
        · rw [discoverFunctionPtr_eq t _ pc { s with functionWork := rest } h, Option.map_some]

theorem drainStepPtr_eq (s : ExploreState) (h : InStep s.context) :
    drainStepPtr t s = some (drainStep t s) := by
  unfold drainStepPtr drainStep
  cases s.functionWork with
  | nil => rfl
  | cons pc rest =>
    dsimp only
    split
    · rfl
    · split
      · rfl
      · rw [discoverFunctionPtr_eq t _ pc { s with functionWork := rest } h, Option.map_some]

/-- A loop over functions whose passes do not fault while the collections are in step. -/
theorem DiscoveryLoop.runChecked {t : Target} {filter : Nat → Prop} {mark : AnalyzeState → Bool}
    {body : ExploreState → Loop.Out ExploreState} (hl : DiscoveryLoop t filter mark body)
    {checked : ExploreState → Option (Loop.Out ExploreState)}
    (hc : ∀ s, InStep s.context → checked s = some (body s)) {s : ExploreState}
    (h : InStep s.context) :
    Loop.runChecked checked (exploreFuel t s) s = some (Loop.exec body (exploreFuel t s) s) ∧
      InStep (Loop.exec body (exploreFuel t s) s).context := by
  have hnext : ∀ u u', InStep u.context → body u = .next u' → InStep u'.context := by
    intro u u' hu hn
    obtain ⟨pc, rest, -, ⟨-, rfl⟩ | ⟨-, rfl⟩⟩ := hl.next hn
    · exact hu
    · exact InStep.discover t mark pc { u with functionWork := rest } hu
  obtain ⟨r, hr, heq, hJ⟩ := Loop.runChecked_eq (f := id) (I := fun u => InStep u.context)
    (J := fun u => InStep u.context) (fun u hu => ⟨_, hc u hu, Loop.Out.map_id _,
      fun u' hn => hnext u u' hu hn, fun u' hd => by rw [(hl.done hd).1]; exact hu⟩) h (hl.run s)
  rw [hr]
  cases heq
  exact ⟨rfl, hJ⟩

namespace RebuilderCall

/-- The call with pointers. -/
def applyPtr (call : RebuilderCall) (ctx : AnalysisContext) : Option AnalysisContext :=
  match call with
  | .run => staticPathExplorerPtr t ctx false 0 false
  | .reAnalyzeFrom address =>
    if address = 0 then some ctx else staticPathExplorerPtr t ctx false address false

theorem staticPathExplorerPtr_eq {ctx : AnalysisContext} (h : InStep ctx) (fromAddress : Nat) :
    staticPathExplorerPtr t ctx false fromAddress false =
      some (staticPathExplorer t ctx false fromAddress false) := by
  unfold staticPathExplorerPtr staticPathExplorer
  simp only [Bool.false_eq_true, if_false, false_or]
  generalize (if ctx.module.functions = [] then (collectEntryPoints t ctx).toList
    else if fromAddress ≠ 0 then [fromAddress] else []) = queue
  obtain ⟨h₁, hs₁⟩ := (exploreStep_loop t false).runChecked (exploreStepPtr_eq t false)
    (s := ⟨ctx, queue⟩) h
  rw [h₁]
  obtain ⟨h₂, -⟩ := (drainStep_loop t).runChecked (drainStepPtr_eq t)
    (s := swept t (descended t false ⟨ctx, queue⟩)) hs₁
  show (linearSweepFallbackPtr t (descended t false ⟨ctx, queue⟩)).map (·.context) = _
  unfold linearSweepFallbackPtr
  dsimp only
  unfold swept at h₂
  rw [h₂]
  rfl

theorem applyPtr_eq (call : RebuilderCall) {ctx : AnalysisContext} (h : InStep ctx) :
    call.applyPtr t ctx = some (call.apply t ctx) := by
  cases call with
  | run => exact staticPathExplorerPtr_eq t h 0
  | reAnalyzeFrom a =>
    unfold applyPtr apply ReWizard.reAnalyzeFrom
    dsimp only
    split
    · rfl
    · exact staticPathExplorerPtr_eq t h a

end RebuilderCall

/-- **The exploration state stays in step.** A sequence of calls on an empty context runs to its end
without reading through a null or dangling pointer, and leaves the collections in step. -/
theorem session_inStep (symbolTable : SymbolTable) (calls : List RebuilderCall) :
    ∃ ctx, calls.foldlM (fun ctx call => call.applyPtr t ctx) (freshContext symbolTable) =
        some ctx ∧
      calls.foldl (fun ctx call => call.apply t ctx) (freshContext symbolTable) = ctx ∧
      InStep ctx := by
  have hgen : ∀ (calls : List RebuilderCall) (ctx : AnalysisContext), InStep ctx →
      ∃ ctx', calls.foldlM (fun ctx call => call.applyPtr t ctx) ctx = some ctx' ∧
        calls.foldl (fun ctx call => call.apply t ctx) ctx = ctx' ∧ InStep ctx' := by
    intro calls
    induction calls with
    | nil => exact fun ctx h => ⟨ctx, rfl, rfl, h⟩
    | cons call rest ih =>
      intro ctx h
      obtain ⟨ctx', hptr, hplain, hstep⟩ := ih _ (call.inStep t h)
      refine ⟨ctx', ?_, hplain, hstep⟩
      rw [List.foldlM_cons, call.applyPtr_eq t h]
      exact hptr
  exact hgen calls _ (InStep.fresh symbolTable)

end

end ReWizard
