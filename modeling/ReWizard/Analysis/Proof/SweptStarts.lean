import ReWizard.Analysis.Proof.DecodeWindows
import ReWizard.Analysis.Proof.FunctionBounds
import ReWizard.Analysis.Proof.FunctionLookup
import ReWizard.Analysis.Proof.Provenance
import ReWizard.Analysis.Proof.Termination

/-!
# Where the sweep starts functions

`LinearSweepFallback` goes over the executable ranges byte by byte. It skips an address that is
itself visited or in a known function, but not the other bytes of a visited instruction, and the
functions that it makes lead it to further addresses.

* `Suggests`: how the code of a function leads the sweep to an address;
* `Offered`: where the sweep may make a function, from the image and the state before it;
* `drain_offered`: it makes functions nowhere else;
* `swept_outside`: the sweep keeps out of the instructions visited before when no address in them is
  offered, and goes into one when it meets a prologue there that no code met before covers.
-/

namespace ReWizard

/-- The address is behind the first byte of an instruction at a visited address. -/
def InsideVisited (t : Target) (visited : Finset Nat) (a : Nat) : Prop :=
  ∃ v ∈ visited, v < a ∧ a < t.instrEnd v

instance (t : Target) (visited : Finset Nat) (a : Nat) : Decidable (InsideVisited t visited a) :=
  inferInstanceAs (Decidable (∃ v ∈ visited, _))

/-- No function of the sweep starts inside an instruction that was visited before. -/
def SweepKeepsOut (t : Target) (s : ExploreState) : Prop :=
  ∀ f ∈ (linearSweepFallback t s).context.module.functions.drop s.context.module.functions.length,
    ¬ InsideVisited t s.context.visited f.startAddress

instance (t : Target) (s : ExploreState) : Decidable (SweepKeepsOut t s) :=
  inferInstanceAs (Decidable (∀ f ∈ _, _))

/-! ## What is offered -/

/-- In a function at `b`, the instruction at `v` leads the sweep to `a`: a call to its target or to
the slot it goes through, the one jump of a trampoline, or a jump to code that does not decode. -/
inductive Suggests (t : Target) (b v a : Nat) : Prop
  | call {i : ExtendedInstruction} : t.disassemble v = some i → i.instruction.category = .call →
      i.directTarget = some a ∨ i.slotAddress = some a → Suggests t b v a
  | trampoline {i : ExtendedInstruction} : v = b → t.disassemble v = some i →
      i.instruction.category = .uncondBr → i.directTarget = some a → Suggests t b v a
  | nowhere {i : ExtendedInstruction} : t.disassemble v = some i →
      i.instruction.category = .uncondBr → i.directTarget = some a → t.InCode a →
      ¬ t.Decodes a → Suggests t b v a

/-- The scan of the range comes to a prologue at `a` and enqueues it. -/
structure SweepMeets (t : Target) (ctx : AnalysisContext) (range : Nat × Nat) (a : Nat) : Prop where
  reached : SweepsTo t ctx.visited range a
  inside : a < range.2
  candidate : t.Candidate ctx a

/-- The address is neither visited nor in a known function. -/
structure Untouched (ctx : AnalysisContext) (a : Nat) : Prop where
  unvisited : a ∉ ctx.visited
  unknown : ctx.module.getFunctionForAddress a = none

/-- The addresses where the sweep from `s` may make a function. All conditions are about the image
and `s` itself. -/
inductive Offered (t : Target) (s : ExploreState) : Nat → Prop
  | queued {a : Nat} : a ∈ s.functionWork → Untouched s.context a → Offered t s a
  | prologue {range : Nat × Nat} {a : Nat} : range ∈ t.loader.executableSections →
      SweepMeets t s.context range a → Offered t s a
  | target {b v a : Nat} : Offered t s b → Taken t s.context b v → Suggests t b v a →
      t.loader.isWithinMapping a = true → Untouched s.context a → Offered t s a

theorem Offered.untouched {t : Target} {s : ExploreState} {a : Nat} (h : Offered t s a) :
    Untouched s.context a := by
  cases h with
  | queued _ hu => exact hu
  | prologue _ hm => exact ⟨hm.candidate.unvisited, hm.candidate.unknown⟩
  | target _ _ _ _ hu => exact hu

/-! ## Later contexts -/

/-- In the second context no less is visited, and no less is in known functions. -/
structure Later (ctx ctx' : AnalysisContext) : Prop where
  visited : ctx.visited ⊆ ctx'.visited
  known : ∀ a, (ctx.module.getFunctionForAddress a).isSome = true →
    (ctx'.module.getFunctionForAddress a).isSome = true

namespace Later

variable {t : Target} {ctx ctx' ctx'' : AnalysisContext}

theorem refl (ctx : AnalysisContext) : Later ctx ctx := ⟨Finset.Subset.refl _, fun _ h => h⟩

theorem trans (h : Later ctx ctx') (h' : Later ctx' ctx'') : Later ctx ctx'' :=
  ⟨h.visited.trans h'.visited, fun a ha => h'.known a (h.known a ha)⟩

theorem unknown (h : Later ctx ctx') {a : Nat} (ha : ctx'.module.getFunctionForAddress a = none) :
    ctx.module.getFunctionForAddress a = none := by
  cases hk : ctx.module.getFunctionForAddress a with
  | none => rfl
  | some f =>
    have := h.known a (by rw [hk]; rfl)
    rw [ha] at this
    cases this

theorem untouched (h : Later ctx ctx') {a : Nat} (ha : Untouched ctx' a) : Untouched ctx a :=
  ⟨fun hv => ha.unvisited (h.visited hv), h.unknown ha.unknown⟩

theorem onward (h : Later ctx ctx') {b v u : Nat} (ho : Onward t ctx'.module b v u) :
    Onward t ctx.module b v u := by
  cases ho with
  | fallThrough hd hu hr => exact .fallThrough hd hu hr
  | condTarget hd hcat htarget hcode => exact .condTarget hd hcat htarget hcode
  | jumpTarget hd hne hcat htarget hcode hk =>
    exact .jumpTarget hd hne hcat htarget hcode (h.unknown hk)

/-- A function takes no more code later than it would take now. -/
theorem taken (h : Later ctx ctx') {b a : Nat} (ha : Taken t ctx' b a) : Taken t ctx b a := by
  induction ha with
  | start hv hd => exact .start (fun hold => hv (h.visited hold)) hd
  | onward _ ho hv hd ih => exact .onward ih (h.onward ho) (fun hold => hv (h.visited hold)) hd

end Later

section

variable {t : Target} {mark : AnalyzeState → Bool} {pc : Nat} {s : ExploreState}

theorem discoverFunction_filed (h : s.context.module.StartsFiled) :
    (discoverFunction t mark pc s).context.module.StartsFiled := by
  rw [discoverFunction_module]
  exact (h.congr (analyzeFunction_functions t pc s.context _ _)
    (analyzeFunction_functionByStart t pc s.context _ _)).addFunction _

/-- A discovery at an address that no function has keeps what is known. -/
theorem discoverFunction_later (h : s.context.module.StartsFiled)
    (hpc : s.context.module.getFunctionForAddress pc = none) :
    Later s.context (discoverFunction t mark pc s).context := by
  have hf := analyzeFunction_functions t pc s.context (newFunction pc) s.functionWork
  have hs := analyzeFunction_functionByStart t pc s.context (newFunction pc) s.functionWork
  refine ⟨fun a ha => ?_, fun a ha => ?_⟩
  · rw [discoverFunction_visited]
    exact (analyzeFunction_visited t s.context _ pc s.functionWork a).mpr (.inl ha)
  · rw [discoverFunction_module]
    rw [← Module.getFunctionForAddress_congr hf hs] at ha hpc
    refine (h.congr hf hs).known_addFunction ?_ ha
    rw [discovered_start]
    exact hpc

end

/-! ## What a discovery enqueues -/

section

variable {t : Target}

/-- Behind the first instruction, the call sites of jumps have targets that a function has. -/
theorem handleBranch_jumpSite {insn : ExtendedInstruction} {inserted : Bool} {bb : BasicBlock}
    {s : AnalyzeState} {c d : Nat} (h0 : insn.indirectValue = 0) (hd : d ≠ 0)
    (h : addrPair c d ∈ (handleBranch t insn inserted bb s).function.callSites) :
    addrPair c d ∈ s.function.callSites ∨
      (s.module.getFunctionForAddress d).isSome = true := by
  have hsites : (handleBranch t insn inserted bb s).function.callSites =
      (branchTarget t insn inserted bb s).1.function.callSites := by
    unfold handleBranch
    dsimp only
    split <;> rfl
  rw [hsites] at h
  have hout := branchTarget_out t insn inserted bb s
  generalize branchTarget t insn inserted bb s = r at hout h
  cases hout with
  | known target _ _ _ _ hknown =>
    rcases Function.mem_addCallSite.mp h with ⟨-, rfl⟩ | ⟨h, -⟩
    · exact .inr hknown
    · exact .inl h
  | indirect _ _ =>
    rcases Function.mem_addCallSite.mp h with ⟨-, rfl⟩ | ⟨h, -⟩
    · exact absurd h0 hd
    · exact .inl h
  | outside => exact .inl h
  | enqueued => exact .inl h
  | visited => exact .inl h
  | branch => exact .inl h

/-- The call sites of jumps so far: that of a trampoline, and those whose targets a function has. -/
def JumpSitesKnown (t : Target) (ctx : AnalysisContext) (start : Nat) (s : AnalyzeState) : Prop :=
  ∀ c d i, addrPair c d ∈ s.function.callSites → d ≠ 0 → t.disassemble c = some i →
    i.instruction.category = .uncondBr →
      c = start ∨ (ctx.module.getFunctionForAddress d).isSome = true

theorem JumpSitesKnown.step {ctx : AnalysisContext} {f : Function} {start : Nat} {queue : List Nat}
    {s s' : AnalyzeState} (h : JumpSitesKnown t ctx start s)
    (hp : DecodePass t (analyzeInit ctx f start queue) s)
    (hn : decodeStep t s = .next s' ∨ decodeStep t s = .done s') :
    JumpSitesKnown t ctx start s' := by
  intro c d i hc hd hi hcat
  rcases (decodeStep_sourced hn).sites c d hc with hold | ⟨hnew, -⟩
  · exact h c d i hold hd hi hcat
  -- a new call site is one of the instruction at `pc`
  rcases decodeStep_visited hn with ⟨-, hvis⟩ | ⟨hdec, hvis⟩
  · exact absurd (hvis ▸ hnew.1) hnew.2
  obtain rfl : c = s.pc := by
    have := hnew.1
    rw [hvis] at this
    exact (Finset.mem_insert.mp this).resolve_right hnew.2
  rw [decodeStep_eq_decodeInsn hdec.1 hdec.2.1 hi] at hn
  obtain ⟨inserted, -, hout | hout⟩ := decodeInsn_result hn
  · cases hout with
    | call hcall => rw [hcat] at hcall; cases hcall
    | condBr hcond => rw [hcat] at hcond; cases hcond
    | other hother => rw [hcat] at hother; cases hother
  · cases hout with
    | trampoline hfirst _ => exact .inl ((hp.takenInv.first_iff hdec.1).mp hfirst)
    | ret hret => rw [hcat] at hret; cases hret
    | uncondBr _ _ =>
      obtain ⟨-, -, h0, -⟩ := Target.disassemble_eq_some hi
      rcases handleBranch_jumpSite h0 hd hc with hold | hknown
      · exact h s.pc d i hold hd hi hcat
      · right
        have hfunctions := (addInstruction_functions s.module i).trans hp.takenInv.functions
        have hindex :=
          (addInstruction_functionByStart s.module i).trans hp.takenInv.functionByStart
        rw [← Module.getFunctionForAddress_congr hfunctions hindex]
        exact hknown

theorem analyzeFunction_jumpSites (t : Target) (ctx : AnalysisContext) (start : Nat)
    (queue : List Nat) :
    JumpSitesKnown t ctx start (analyzeFunction t ctx (newFunction start) start queue) := by
  have hinv := analysis_inv (t := t) (I := JumpSitesKnown t ctx start)
    (rfl : (analyzeInit ctx (newFunction start) start queue).bb = none)
    (fun c d i hc => absurd hc (OrdSet.not_mem_empty _)) (fun s rest pc h _ => h)
    (fun s s' hp h hn => h.step hp (.inl hn))
    (fun s s' hp h hn => by
      have := h.step hp (.inr hn)
      unfold AnalyzeState.addBasicBlock
      split <;> exact this)
  exact (hinv.1 _ (analyzeBlocks_reached t ctx (newFunction start) start queue)).1

theorem newly_taken {ctx : AnalysisContext} {f : Function} {start v : Nat} {queue : List Nat}
    (h : Newly (analyzeInit ctx f start queue) (analyzeFunction t ctx f start queue) v) :
    Taken t ctx start v :=
  ((analyzeFunction_visited t ctx f start queue v).mp h.1).resolve_left h.2

/-- **What a discovery enqueues**, and leaves neither visited nor known, its code suggests. -/
theorem discoverFunction_suggests {mark : AnalyzeState → Bool} {pc a : Nat} {s : ExploreState}
    (h : a ∈ (discoverFunction t mark pc s).functionWork)
    (hv : a ∉ (discoverFunction t mark pc s).context.visited)
    (hk : s.context.module.getFunctionForAddress a = none) :
    a ∈ s.functionWork ∨
      ∃ v, Taken t s.context pc v ∧ Suggests t pc v a ∧ t.loader.isWithinMapping a = true := by
  have hsrc := analyzeFunction_sourced t s.context (newFunction pc) pc s.functionWork
  have hvis := analyzeFunction_visited t s.context (newFunction pc) pc s.functionWork
  rcases mem_enqueueCallTargets h with h | ⟨hfresh, c, hc⟩
  · rcases analyzeFunction_queue t s.context (newFunction pc) pc s.functionWork a h with hold | hcode
    · exact .inl hold
    rcases hsrc.queue a h with hold | ⟨v, hnew, ⟨hd, hcat | hcat, htarget⟩⟩
    · exact .inl hold
    · exact .inr ⟨v, newly_taken hnew, .call hd hcat (.inl htarget), hcode.1⟩
    · have ht := newly_taken hnew
      refine .inr ⟨v, ht, ?_, hcode.1⟩
      by_cases hstart : v = pc
      · exact .trampoline hstart hd hcat htarget
      · refine .nowhere hd hcat htarget hcode fun hdec => hv ?_
        -- the function would have taken the target itself
        refine (hvis a).mpr (.inr (.onward ht ?_ (fun hold => hv ((hvis a).mpr (.inl hold))) hdec))
        exact .jumpTarget hd hstart hcat htarget hcode hk
  · have hc : addrPair c a ∈ (discovered t mark pc s).callSites := hc
    rw [discovered_callSites] at hc
    rcases hsrc.sites c a hc with hold | ⟨hnew, i, hd, hsite⟩
    · cases hold
    · refine .inr ⟨c, newly_taken hnew, ?_, hfresh.mapped⟩
      cases hsite with
      | call hcat htarget => exact .call hd hcat (.inl htarget)
      | slot hcat hslot => exact .call hd hcat (.inr hslot)
      | unresolved _ => exact absurd rfl hfresh.resolved
      | jump hcat htarget =>
        rcases analyzeFunction_jumpSites t s.context pc s.functionWork c a i hc hfresh.resolved hd
          hcat with hstart | hknown
        · exact .trampoline hstart hd hcat htarget
        · rw [hk] at hknown
          cases hknown

end

/-! ## The scan -/

section

variable {t : Target} {ctx : AnalysisContext} {range : Nat × Nat} {a : Nat}

theorem sweepRange_append (t : Target) (ctx : AnalysisContext) (queue : List Nat)
    (range : Nat × Nat) : sweepRange t ctx queue range = queue ++ sweepRange t ctx [] range := by
  let f (s : SweepState) : SweepState := { s with functionWork := queue ++ s.functionWork }
  have hbody : ∀ s, sweepStep t ctx range.2 (f s) = (sweepStep t ctx range.2 s).map f := by
    intro s
    unfold sweepStep
    dsimp only [f]
    split
    · rfl
    · split
      · rfl
      · split
        · rfl
        · split
          · rw [List.append_assoc]
            rfl
          · rfl
  have hrun := Loop.exec_map hbody (range.2 - range.1 + 1) ⟨range.1, []⟩
  have hstart : f ⟨range.1, []⟩ = ⟨range.1, queue⟩ := congrArg _ (List.append_nil queue)
  rw [hstart] at hrun
  exact congrArg SweepState.functionWork hrun

theorem sweptWork_eq (t : Target) (s : ExploreState) : (swept t s).functionWork =
    s.functionWork ++ t.loader.executableSections.flatMap (sweepRange t s.context []) := by
  have hranges : ∀ (ranges : List (Nat × Nat)) (queue : List Nat),
      ranges.foldl (sweepRange t s.context) queue =
        queue ++ ranges.flatMap (sweepRange t s.context []) := by
    intro ranges
    induction ranges with
    | nil => exact fun queue => (List.append_nil queue).symm
    | cons range rest ih =>
      intro queue
      rw [List.foldl_cons, ih, sweepRange_append, List.flatMap_cons, List.append_assoc]
  exact hranges _ _

/-- What the scan enqueues it meets. -/
theorem sweepMeets_of_mem (h : a ∈ sweepRange t ctx [] range) : SweepMeets t ctx range a := by
  let I (s : SweepState) : Prop :=
    SweepsTo t ctx.visited range s.addr ∧ ∀ a ∈ s.functionWork, SweepMeets t ctx range a
  have h0 : I ⟨range.1, []⟩ := ⟨.start, fun a ha => by cases ha⟩
  refine (Loop.exec_inv (I := I) h0 (fun s s' hs hn => ⟨?_, fun a ha => ?_⟩)
    (fun s s' hs hn => by rwa [(sweepStep_done hn).1])).2 a h
  · obtain ⟨hlt, ⟨hskip, heq⟩ | ⟨hv, i, hd, heq⟩⟩ := sweepStep_next hn
    · rw [heq]
      exact hs.1.byte hlt hskip
    · rw [heq]
      exact hs.1.insn hlt hv hd
  · rcases sweepStep_queue hn with ⟨hc, heq⟩ | ⟨-, heq⟩
    · rw [heq] at ha
      rcases List.mem_append.mp ha with ha | ha
      · exact hs.2 a ha
      · rw [List.mem_singleton.mp ha]
        exact ⟨hs.1, (sweepStep_next hn).1, hc⟩
    · exact hs.2 a (heq ▸ ha)

theorem sweepStep_queue_grows {stop : Nat} {s s' : SweepState}
    (hn : sweepStep t ctx stop s = .next s') : s.functionWork <+: s'.functionWork := by
  rcases sweepStep_queue hn with ⟨-, heq⟩ | ⟨-, heq⟩
  · rw [heq]
    exact List.prefix_append _ _
  · rw [heq]

/-- What the scan of a mapped range meets it enqueues. -/
theorem SweepMeets.mem (h : SweepMeets t ctx range a) (hstop : range.2 ≤ t.loader.imageEnd) :
    a ∈ sweepRange t ctx [] range := by
  obtain ⟨s, hr, rfl⟩ := (sweep_reaches_iff t ctx range [] a).mpr h.reached
  obtain ⟨s', hn⟩ := sweepStep_goesOn t ctx h.inside
  have hmem : s.addr ∈ s'.functionWork := by
    rcases sweepStep_queue hn with ⟨-, heq⟩ | ⟨hno, -⟩
    · rw [heq]
      exact List.mem_append_right _ List.mem_cons_self
    · exact absurd h.candidate hno
  obtain ⟨r, hpre, hd⟩ := ((hr.tail hn).exits (sweep_exits ctx [] hstop)).inv
    (I := fun r => s'.functionWork <+: r.functionWork) List.prefix_rfl
    fun r r' hpre hn => hpre.trans (sweepStep_queue_grows hn)
  unfold sweepRange
  rw [(sweepStep_done hd).1]
  exact hpre.subset hmem

/-- The scan of a mapped range enqueues in the order of addresses. -/
theorem sweepRange_sorted (hstop : range.2 ≤ t.loader.imageEnd) :
    (sweepRange t ctx [] range).Pairwise (· < ·) := by
  let I (s : SweepState) : Prop :=
    (∀ x ∈ s.functionWork, x < s.addr) ∧ s.functionWork.Pairwise (· < ·)
  have h0 : I ⟨range.1, []⟩ := ⟨fun x hx => absurd hx List.not_mem_nil, .nil⟩
  refine (Loop.exec_inv (I := I) h0 (fun s s' hs hn => ?_)
    (fun s s' hs hn => by rwa [(sweepStep_done hn).1])).2
  have hforward : s.addr < s'.addr := by
    have := sweepStep_forward hstop hn
    omega
  rcases sweepStep_queue hn with ⟨-, heq⟩ | ⟨-, heq⟩
  · refine ⟨fun x hx => ?_, ?_⟩
    · rw [heq] at hx
      rcases List.mem_append.mp hx with hx | hx
      · exact (hs.1 x hx).trans hforward
      · rw [List.mem_singleton.mp hx]
        exact hforward
    · rw [heq]
      refine List.pairwise_append.mpr ⟨hs.2, List.pairwise_singleton _ _, fun x hx y hy => ?_⟩
      rw [List.mem_singleton.mp hy]
      exact hs.1 x hx
  · exact ⟨fun x hx => (hs.1 x (heq ▸ hx)).trans hforward, heq ▸ hs.2⟩

end

/-! ## The drain loop -/

/-- What the drain loop keeps: whatever is left in the queue is offered, visited or known. -/
structure Drained (t : Target) (s r : ExploreState) : Prop where
  filed : r.context.module.StartsFiled
  later : Later s.context r.context
  queue : ∀ a ∈ r.functionWork, Untouched r.context a → Offered t s a

section

variable {t : Target} {s r r' : ExploreState}

theorem Drained.swept (h : s.context.module.StartsFiled) : Drained t s (swept t s) where
  filed := h
  later := .refl _
  queue := fun a ha hu => by
    rw [sweptWork_eq] at ha
    rcases List.mem_append.mp ha with ha | ha
    · exact .queued ha hu
    · obtain ⟨range, hrange, ha⟩ := List.mem_flatMap.mp ha
      exact .prologue hrange (sweepMeets_of_mem ha)

/-- One pass: what it takes up is offered, and so is what the code there suggests. -/
theorem Drained.step (h : Drained t s r) (hn : drainStep t r = .next r') : Drained t s r' := by
  obtain ⟨pc, rest, hwork, ⟨-, rfl⟩ | ⟨ht, rfl⟩⟩ := (drainStep_loop t).next hn
  · exact ⟨h.filed, h.later, fun a ha hu => h.queue a (hwork ▸ List.mem_cons_of_mem pc ha) hu⟩
  · have hpc : Offered t s pc :=
      h.queue pc (hwork ▸ List.mem_cons_self) ⟨ht.unvisited, ht.unknown⟩
    have hlater : Later r.context
        (discoverFunction t (fun _ => false) pc { r with functionWork := rest }).context :=
      discoverFunction_later (s := { r with functionWork := rest }) h.filed ht.unknown
    refine ⟨discoverFunction_filed h.filed, h.later.trans hlater, fun a ha hu => ?_⟩
    have hold := hlater.untouched hu
    rcases discoverFunction_suggests ha hu.unvisited hold.unknown with ha | ⟨v, hv, hsug, hmap⟩
    · exact h.queue a (hwork ▸ List.mem_cons_of_mem pc ha) hold
    · exact .target hpc (h.later.taken hv) hsug hmap (h.later.untouched hold)

theorem drained (h : s.context.module.StartsFiled)
    (hr : Loop.Reaches (drainStep t) (swept t s) r) : Drained t s r :=
  hr.inv (.swept h) fun _ _ _ hu hn => hu.step hn

/-- The functions of the sweep are those that its drain loop takes up. -/
theorem mem_added_iff {f : Function} :
    f ∈ (linearSweepFallback t s).context.module.functions.drop
      s.context.module.functions.length ↔
    ∃ r pc rest, Loop.Reaches (drainStep t) (swept t s) r ∧
      TakesUp (fun _ => True) r pc rest ∧
        f = discovered t (fun _ => false) pc { r with functionWork := rest } := by
  obtain ⟨new, hnew, hall⟩ := (drainStep_loop t).functions (linearSweepFallback_exits t s)
  have hswept : (swept t s).context = s.context := rfl
  rw [hnew, hswept, List.drop_left]
  exact hall f

/-- **Where the sweep makes functions**: at offered addresses. -/
theorem drain_offered (h : s.context.module.StartsFiled) :
    ∀ f ∈ (linearSweepFallback t s).context.module.functions.drop
      s.context.module.functions.length, Offered t s f.startAddress := by
  intro f hf
  obtain ⟨r, pc, rest, hr, ht, rfl⟩ := mem_added_iff.mp hf
  rw [discovered_start]
  exact (drained h hr).queue pc (ht.queue ▸ List.mem_cons_self) ⟨ht.unvisited, ht.unknown⟩

end

/-! ## Prologues that nothing covers -/

/-- The code of a function at `b` neither has an instruction at `a` nor goes over it. -/
def KeepsApart (t : Target) (ctx : AnalysisContext) (b a : Nat) : Prop :=
  ∀ v, Taken t ctx b v → v ≠ a ∧ (b < a → t.instrEnd v ≤ a)

/-- The scan meets a prologue at `a`, and the code at those that it meets before keeps apart. -/
def MetUncovered (t : Target) (s : ExploreState) (a : Nat) : Prop :=
  ∃ before range after, t.loader.executableSections = before ++ range :: after ∧
    SweepMeets t s.context range a ∧
    ∀ b, (∃ r ∈ before, SweepMeets t s.context r b) ∨ (b < a ∧ SweepMeets t s.context range b) →
      KeepsApart t s.context b a

section

variable {t : Target} {s r : ExploreState} {a : Nat}

theorem enqueueCallTargets_grows (t : Target) (ctx : AnalysisContext) (f : Function)
    (queue : List Nat) : queue <+: enqueueCallTargets t ctx f queue := by
  unfold enqueueCallTargets
  refine List.foldlRecOn (motive := fun q => queue <+: q) _ _ List.prefix_rfl fun q hq cs _ => ?_
  dsimp only
  split
  · exact hq.trans (List.prefix_append _ _)
  · exact hq

theorem discoverFunction_queue_prefix (t : Target) (mark : AnalyzeState → Bool) (pc : Nat)
    (s : ExploreState) : s.functionWork <+: (discoverFunction t mark pc s).functionWork :=
  (analyzeBlocks_progress (t := t) s.context (newFunction pc) pc s.functionWork).1.functionWork.trans
    (enqueueCallTargets_grows t _ _ _)

/-- The range of a discovered function ends with an instruction that it takes. -/
theorem discovered_contains {mark : AnalyzeState → Bool} {pc : Nat}
    (h : (discovered t mark pc s).Contains a) :
    pc ≤ a ∧ ∃ v, Taken t s.context pc v ∧ a < t.instrEnd v := by
  obtain ⟨hvisited, hend⟩ := analyzeBlocks_order t s.context pc s.functionWork
  obtain ⟨hle, hlt⟩ := h
  rw [discovered_start] at hle
  have hdisc : (discovered t mark pc s).endAddress =
      lastEnd t s.context.visited pc (decodeOrder t s.context pc) := by
    obtain ⟨b, heq⟩ := discovered_eq t mark pc s
    rw [heq]
    exact hend
  rw [hdisc] at hlt
  unfold lastEnd at hlt
  split at hlt
  · exact absurd hlt (Nat.not_lt.mpr hle)
  · rename_i v hlast
    have hv : v ∈ decodeOrder t s.context pc :=
      List.mem_of_mem_filter (List.mem_of_getLast? hlast)
    have htaken := (analyzeFunction_visited t s.context (newFunction pc) pc s.functionWork v).mp
      ((hvisited v).mpr (.inr hv))
    exact ⟨hle, v, htaken.resolve_left (mem_decodeOrder hv), hlt⟩

/-- A discovery whose code keeps apart from `a` leaves it neither visited nor known. -/
theorem Drained.untouched {pc : Nat} {rest : List Nat} (h : Drained t s r)
    (ht : TakesUp (fun _ => True) r pc rest) (hapart : KeepsApart t s.context pc a)
    (ha : Untouched r.context a) :
    Untouched
      (discoverFunction t (fun _ => false) pc { r with functionWork := rest }).context a := by
  have hf := analyzeFunction_functions t pc r.context (newFunction pc) rest
  have hs := analyzeFunction_functionByStart t pc r.context (newFunction pc) rest
  constructor
  · rw [discoverFunction_visited]
    intro hv
    rcases (analyzeFunction_visited t r.context (newFunction pc) pc rest a).mp hv with hold | htaken
    · exact ha.unvisited hold
    · exact (hapart a (h.later.taken htaken)).1 rfl
  · cases hk : (discoverFunction t (fun _ => false) pc
        { r with functionWork := rest }).context.module.getFunctionForAddress a with
    | none => rfl
    | some g =>
      rw [discoverFunction_module] at hk
      rcases (h.filed.congr hf hs).getFunctionForAddress_addFunction hk with ⟨-, hin⟩ | hold
      · obtain ⟨hle, v, hv, hlt⟩ := discovered_contains hin
        have hne : pc ≠ a := (hapart pc (.start (h.later.untouched
          ⟨ht.unvisited, ht.unknown⟩).unvisited hv.start_decodes)).1
        exact absurd ((hapart v (h.later.taken hv)).2 (Nat.lt_of_le_of_ne hle hne))
          (Nat.not_le.mpr hlt)
      · rw [Module.getFunctionForAddress_congr hf hs, ha.unknown] at hold
        cases hold

/-- The drain loop comes to `a` behind addresses whose code keeps apart from it. -/
theorem Drained.comesTo : ∀ (pre : List Nat) {r : ExploreState} {post : List Nat},
    Drained t s r → r.functionWork = pre ++ a :: post → Untouched r.context a →
    (∀ b ∈ pre, KeepsApart t s.context b a) →
    ∃ r' post', Loop.Reaches (drainStep t) r r' ∧ TakesUp (fun _ => True) r' a post'
  | [], r, post, _, hwork, ha, _ => ⟨r, post, .refl, hwork, ha.unvisited, ha.unknown, trivial⟩
  | b :: pre, r, post, h, hwork, ha, hapart => by
    have hrest := fun x hx => hapart x (List.mem_cons_of_mem b hx)
    by_cases ht : TakesUp (fun _ => True) r b (pre ++ a :: post)
    · have hn := (drainStep_loop t).takes r b _ ht
      obtain ⟨more, hmore⟩ := discoverFunction_queue_prefix t (fun _ => false) b
        { r with functionWork := pre ++ a :: post }
      have hwork' := hmore.symm
      rw [List.append_assoc, List.cons_append] at hwork'
      obtain ⟨r', post', hr, htake⟩ := Drained.comesTo pre (h.step hn) hwork'
        (h.untouched ht (hapart b List.mem_cons_self) ha) hrest
      exact ⟨r', post', .head hn hr, htake⟩
    · have hn := (drainStep_loop t).drop r b _ hwork ht
      obtain ⟨r', post', hr, htake⟩ := Drained.comesTo pre (h.step hn) rfl ha hrest
      exact ⟨r', post', .head hn hr, htake⟩

/-- The sweep makes a function at a prologue that nothing met before covers. -/
theorem metUncovered_function (h : s.context.module.StartsFiled) (hq : s.functionWork = [])
    (hmapped : ∀ range ∈ t.loader.executableSections, range.2 ≤ t.loader.imageEnd)
    (ha : MetUncovered t s a) :
    ∃ f ∈ (linearSweepFallback t s).context.module.functions.drop
      s.context.module.functions.length, f.startAddress = a := by
  obtain ⟨before, range, after, hsections, hmeets, hapart⟩ := ha
  have hstop : range.2 ≤ t.loader.imageEnd := hmapped range (by rw [hsections]; simp)
  obtain ⟨p, q, hsplit⟩ := List.append_of_mem (hmeets.mem hstop)
  have hsorted : (sweepRange t s.context [] range).Pairwise (· < ·) := sweepRange_sorted hstop
  rw [hsplit] at hsorted
  have hwork : (swept t s).functionWork = (before.flatMap (sweepRange t s.context []) ++ p) ++
      a :: (q ++ after.flatMap (sweepRange t s.context [])) := by
    rw [sweptWork_eq, hq, hsections, List.nil_append, List.flatMap_append, List.flatMap_cons, hsplit]
    simp only [List.append_assoc, List.cons_append]
  have hpre : ∀ b ∈ before.flatMap (sweepRange t s.context []) ++ p,
      KeepsApart t s.context b a := by
    intro b hb
    rcases List.mem_append.mp hb with hb | hb
    · obtain ⟨r, hr, hb⟩ := List.mem_flatMap.mp hb
      exact hapart b (.inl ⟨r, hr, sweepMeets_of_mem hb⟩)
    · have hlt := (List.pairwise_append.mp hsorted).2.2 b hb a List.mem_cons_self
      exact hapart b (.inr ⟨hlt, sweepMeets_of_mem (by rw [hsplit]; exact List.mem_append_left _ hb)⟩)
  obtain ⟨r, rest, hr, ht⟩ := (Drained.swept h).comesTo _ hwork
    ⟨hmeets.candidate.unvisited, hmeets.candidate.unknown⟩ hpre
  exact ⟨_, mem_added_iff.mpr ⟨r, a, rest, hr, ht, rfl⟩, discovered_start t _ a _⟩

end

/-! ## The states the sweep starts from -/

/-- A loop over functions keeps the index in order. -/
theorem DiscoveryLoop.filed {t : Target} {filter : Nat → Prop} {mark : AnalyzeState → Bool}
    {body : ExploreState → Loop.Out ExploreState} (hl : DiscoveryLoop t filter mark body)
    {s r : ExploreState} (h : s.context.module.StartsFiled) (he : Loop.Exits body s r) :
    r.context.module.StartsFiled :=
  hl.inv (I := fun ctx => ctx.module.StartsFiled) h (fun _ _ _ _ _ hu => discoverFunction_filed hu)
    (hl.reached he)

theorem descended_filed (t : Target) (bypassHeur : Bool) {s : ExploreState}
    (h : s.context.module.StartsFiled) :
    (descended t bypassHeur s).context.module.StartsFiled :=
  (exploreStep_loop t bypassHeur).filed h (descended_exits t bypassHeur s)

/-- The rebuilder leaves an index in order, also when it analyses everything again. -/
theorem staticPathExplorer_filed (t : Target) {ctx : AnalysisContext} (h : ctx.module.StartsFiled)
    (reAnalyzeAll : Bool) (fromAddress : Nat) (bypassHeur : Bool) :
    (staticPathExplorer t ctx reAnalyzeAll fromAddress bypassHeur).module.StartsFiled := by
  unfold staticPathExplorer
  refine (drainStep_loop t).filed ?_ (linearSweepFallback_exits t _)
  refine descended_filed t bypassHeur ?_
  dsimp only
  split
  · exact ctx.module.startsFiled_clearFunctions
  · exact h

/-! ## The sweep and decoded code -/

/-- `jz +0; ret`, a byte, and a function that only the sweep finds. -/
def hiddenFunction : Target := sampleTarget [0x74, 0x00, 0xC3, 0x90, 0x55, 0xC3]

/-- A function whose last closed block is not its last in memory: it ends before the second `jz`,
whose displacement is a `push rbp`. -/
def displacedPrologue : Target :=
  sampleTarget [0x74, 0x03, 0xC3, 0xC3, 0x90, 0x74, 0x55, 0x74, 0xFA, 0xC3]

/-- The state that the exploration from the entry point leaves. -/
def exploredSample (t : Target) : ExploreState := descended t false ⟨freshContext {}, [0x1000]⟩

end ReWizard
