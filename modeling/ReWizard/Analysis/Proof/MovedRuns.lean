import ReWizard.Analysis.Proof.MovedImage
import ReWizard.Analysis.Proof.RebuilderCalls

/-!
# Exploring a moved image

The exploration of an image that is mapped at another base decodes the same instructions in the same
order, at the moved addresses (`AnalyzeState.Moved`, `ExploreState.Moved`).

* `analyzeFunction_moved`: the two loops over one function;
* `discoverFunction_moved`, `linearSweepFallback_moved`: the loops over functions and the sweep;
* `RebuilderCall.moved`: a call from corresponding contexts ends in corresponding contexts.
-/

namespace ReWizard

/-! ## States of `AnalyzeFunction` -/

/-- The one analysis is where the other one is, in the moved image. -/
structure Target.StateMoved (t t' : Target) (δ : Nat) (s s' : AnalyzeState) : Prop where
  context : t.ContextMoved t' δ s.context s'.context
  function : t.FunctionMoved t' δ s.function s'.function
  work : s'.work = s.work.map (moveAddr δ)
  functionWork : s'.functionWork = s.functionWork.map (moveAddr δ)
  insnCount : s'.localInsnCount = s.localInsnCount
  stackModCount : s'.localStackModCount = s.localStackModCount
  lastInsn : ((s'.lastInsn.map (·.address)).getD 0) =
    moveAddr δ ((s.lastInsn.map (·.address)).getD 0)
  bb : s'.bb = s.bb.map (BasicBlock.relabel (moveAddr δ))
  pc : s'.pc = moveAddr δ s.pc

namespace Target.StateMoved

variable {t t' : Target} {δ : Nat} {s s' : AnalyzeState}

theorem mem_visited (h : t.StateMoved t' δ s s') (a : Nat) :
    moveAddr δ a ∈ s'.visited ↔ a ∈ s.visited := h.context.mem_visited a

theorem addXref (h : t.StateMoved t' δ s s') {d d' : Nat} (hd : t.Refer t' δ d d')
    (kind : String) :
    t.StateMoved t' δ (s.mapModule fun m => m.addXref s.pc d kind)
      (s'.mapModule fun m => m.addXref s'.pc d' kind) :=
  { h with context := ⟨h.pc ▸ h.context.module.addXref hd kind, h.context.visited⟩ }

theorem addCallSite (h : t.StateMoved t' δ s s') {d d' : Nat} (hd : t.Refer t' δ d d')
    (kind : String) : t.StateMoved t' δ (s.addCallSite d kind) (s'.addCallSite d' kind) := by
  have hsite := h.function.addCallSite s.pc hd
  rw [← h.pc] at hsite
  exact { h.addXref hd kind with function := hsite }

theorem markIndirect (h : t.StateMoved t' δ s s') {i i' : ExtendedInstruction}
    (hi : t.Recorded t' δ i i') (inserted : Bool) :
    t.StateMoved t' δ (s.mapModule (ReWizard.markIndirect i inserted))
      (s'.mapModule (ReWizard.markIndirect i' inserted)) :=
  { h with context := ⟨h.context.module.markIndirect hi inserted, h.context.visited⟩ }

theorem addBasicBlock (h : t.StateMoved t' δ s s') :
    t.StateMoved t' δ s.addBasicBlock s'.addBasicBlock := by
  unfold AnalyzeState.addBasicBlock
  rw [h.bb]
  cases s.bb with
  | none => exact h
  | some b => exact { h with function := h.function.addBasicBlock b, bb := rfl }

theorem setBlock (h : t.StateMoved t' δ s s') (b : BasicBlock) : t.StateMoved t' δ
    { s with bb := some b } { s' with bb := some (b.relabel (moveAddr δ)) } :=
  { h with bb := rfl }

theorem enqueue (h : t.StateMoved t' δ s s') (a : Nat) : t.StateMoved t' δ
    { s with functionWork := s.functionWork ++ [a] }
    { s' with functionWork := s'.functionWork ++ [moveAddr δ a] } :=
  { h with functionWork := by simp [h.functionWork] }

theorem indirectCall (h : t.StateMoved t' δ s s') (b : BasicBlock) : t.StateMoved t' δ
    { s with
      bb := some { b with containsIndirectCalls := true }
      function := { s.function with containsIndirectCalls := true } }
    { s' with
      bb := some { b.relabel (moveAddr δ) with containsIndirectCalls := true }
      function := { s'.function with containsIndirectCalls := true } } :=
  { h with bb := rfl, function := h.function.indirectCalls }

theorem indirectJump (h : t.StateMoved t' δ s s') : t.StateMoved t' δ
    { s with function := { s.function with containsIndirectJumps := true } }
    { s' with function := { s'.function with containsIndirectJumps := true } } :=
  { h with function := h.function.indirectJumps }

theorem closeBlock (h : t.StateMoved t' δ s s') (b : BasicBlock) (stop last : Nat) :
    t.StateMoved t' δ (s.closeBlock b stop last)
      (s'.closeBlock (b.relabel (moveAddr δ)) (moveAddr δ stop) (moveAddr δ last)) := by
  refine { h with function := h.function.congr ?_ h.function.name rfl rfl rfl rfl, bb := rfl }
  unfold AnalyzeState.closeBlock
  dsimp only
  rw [h.function.same]
  rfl

theorem enter (h : t.StateMoved t' δ s s') {i i' : ExtendedInstruction}
    (hi : t.Recorded t' δ i i') : t.StateMoved t' δ (s.enter i) (s'.enter i') := by
  refine { h with context := ⟨h.context.module.addInstruction hi, ?_⟩ }
  have haddr : i'.address = moveAddr δ i.address := by
    rw [hi.same]
  dsimp only [AnalyzeState.enter, AnalyzeState.visited]
  rw [haddr, h.context.visited, Finset.image_insert]

end Target.StateMoved

/-! ## One instruction -/

section

variable {t t' : Target} {δ : Nat} {s s' : AnalyzeState} {insn insn' : ExtendedInstruction}
  (h : t.Moved t' δ) (hs : t.StateMoved t' δ s s') (hrec : t.Recorded t' δ insn insn')
  (inserted : Bool) (bb : BasicBlock)

include h hs hrec

theorem handleCall_moved (hcat : insn.instruction.category = .call) :
    t.StateMoved t' δ (handleCall t insn inserted bb s)
      (handleCall t' insn' inserted (bb.relabel (moveAddr δ)) s') := by
  have hindirect :=
    ((hs.addCallSite hrec.value "call").markIndirect hrec inserted).indirectCall bb
  unfold handleCall
  rw [hrec.instruction]
  cases hvalue : (insn.instruction.op 0).value with
  | immediate imm =>
    have hrefer := hrec.refer h (.target hvalue)
    have hcall := (hs.addCallSite hrefer "call").setBlock bb
    dsimp only
    rw [hrefer.within h]
    by_cases hin : t.loader.isWithinMapping (insn.relTarget imm) = true
    · rw [hrefer.eq_move h hin] at hcall ⊢
      simp only [hcall.mem_visited, h.isExecutableAddress]
      split
      · exact hcall.enqueue _
      · exact hcall
    · simp only [hin, Bool.false_eq_true, false_and, if_false]
      exact hcall
  | memory mem =>
    dsimp only
    split
    · rename_i hrip
      exact (hs.addCallSite (hrec.refer h (.slot hcat hvalue hrip)) "call").setBlock bb
    · split
      · rename_i habs
        exact (hs.addCallSite (hrec.referFixed h (.slot hcat hvalue habs.1 habs.2))
          "call").setBlock bb
      · exact hindirect
  | _ => exact hindirect

theorem branchTarget_moved :
    t.StateMoved t' δ (branchTarget t insn inserted bb s).1
        (branchTarget t' insn' inserted (bb.relabel (moveAddr δ)) s').1 ∧
      (branchTarget t' insn' inserted (bb.relabel (moveAddr δ)) s').2 =
        (branchTarget t insn inserted bb s).2.relabel (moveAddr δ) := by
  have hindirect :=
    ((hs.addCallSite hrec.value "jump").markIndirect hrec inserted).indirectJump
  unfold branchTarget
  rw [hrec.instruction]
  cases hvalue : (insn.instruction.op 0).value with
  | immediate imm =>
    have hrefer := hrec.refer h (.target hvalue)
    dsimp only
    rw [hrefer.within h]
    by_cases hin : t.loader.isWithinMapping (insn.relTarget imm) = true
    · have hcall := hs.addCallSite hrefer "jump"
      have hxref := hs.addXref hrefer "jump"
      rw [hrefer.eq_move h hin] at hcall hxref ⊢
      rw [h.isExecutableAddress]
      split
      · refine ⟨?_, BasicBlock.relabel_addSuccessor bb _⟩
        have hknown : (s'.module.getFunctionForAddress
            (moveAddr δ (insn.relTarget imm))).isSome =
              (s.module.getFunctionForAddress (insn.relTarget imm)).isSome :=
          hs.context.module.isSome _
        simp only [hs.mem_visited, hknown]
        split
        · by_cases hk : (s.module.getFunctionForAddress (insn.relTarget imm)).isSome = true
          · rw [if_pos hk, if_pos hk]
            exact hcall
          · rw [if_neg hk, if_neg hk]
            split
            · exact { hxref with
                work := by simp [hs.work]
                functionWork := by simp [hs.functionWork] }
            · exact hs
        · refine { hxref with work := ?_ }
          dsimp only
          split
          · simp [hs.work]
          · exact hs.work
      · exact ⟨hs, rfl⟩
    · simp only [hin, Bool.false_eq_true, false_and, if_false]
      exact ⟨hs, trivial⟩
  | register _ => exact ⟨hindirect, rfl⟩
  | memory _ => exact ⟨hindirect, rfl⟩
  | _ => exact ⟨hs, rfl⟩

theorem handleBranch_moved : t.StateMoved t' δ (handleBranch t insn inserted bb s)
    (handleBranch t' insn' inserted (bb.relabel (moveAddr δ)) s') := by
  obtain ⟨hstate, hbb⟩ := branchTarget_moved h hs hrec inserted bb
  have hnext := (hrec.next h).2.1
  unfold handleBranch
  rw [hrec.instruction]
  generalize branchTarget t insn inserted bb s = r at hstate hbb ⊢
  generalize branchTarget t' insn' inserted (bb.relabel (moveAddr δ)) s' = r'
    at hstate hbb ⊢
  obtain ⟨s₁, b₁⟩ := r
  obtain ⟨s₁', b₁'⟩ := r'
  dsimp only at hstate hbb ⊢
  subst hbb
  split
  · have hxref := hstate.addXref (hrec.referNext h) "jump"
    rw [hnext] at hxref ⊢
    dsimp only
    rw [BasicBlock.relabel_addSuccessor, hxref.pc]
    exact (hxref.closeBlock _ _ _).addBasicBlock
  · dsimp only
    rw [hnext, hstate.pc]
    exact (hstate.closeBlock _ _ _).addBasicBlock

theorem handleTrampoline_moved :
    t.StateMoved t' δ (handleTrampoline t insn inserted bb s)
      (handleTrampoline t' insn' inserted (bb.relabel (moveAddr δ)) s') := by
  have htarget : t.StateMoved t' δ (trampolineTarget insn inserted bb s).1
        (trampolineTarget insn' inserted (bb.relabel (moveAddr δ)) s').1 ∧
      (trampolineTarget insn' inserted (bb.relabel (moveAddr δ)) s').2.1 =
        (trampolineTarget insn inserted bb s).2.1.relabel (moveAddr δ) ∧
      t.Refer t' δ (trampolineTarget insn inserted bb s).2.2
        (trampolineTarget insn' inserted (bb.relabel (moveAddr δ)) s').2.2 := by
    have hindirect := (hs.markIndirect hrec inserted).indirectJump
    unfold trampolineTarget
    rw [hrec.instruction]
    cases hvalue : (insn.instruction.op 0).value with
    | immediate imm =>
      have hrefer := hrec.refer h (.target hvalue)
      have hsite := hs.function.addCallSite insn.address hrefer
      rw [← hrec.address] at hsite
      exact ⟨{ hs with function := hsite }, rfl, hrefer⟩
    | register _ => exact ⟨hindirect, rfl, .null t t' δ⟩
    | memory _ => exact ⟨hindirect, rfl, .null t t' δ⟩
    | _ => exact ⟨hs, rfl, .null t t' δ⟩
  have hnext := (hrec.next h).2.1
  have haddr := hrec.address
  unfold handleTrampoline
  generalize trampolineTarget insn inserted bb s = r at htarget ⊢
  generalize trampolineTarget insn' inserted (bb.relabel (moveAddr δ)) s' = r'
    at htarget ⊢
  obtain ⟨s₁, b₁, target⟩ := r
  obtain ⟨s₁', b₁', target'⟩ := r'
  obtain ⟨hstate, hbb, hrefer⟩ := htarget
  dsimp only at hstate hbb hrefer ⊢
  subst hbb
  rw [hnext, haddr]
  have hclosed := (hstate.closeBlock b₁ insn.next insn.address).addBasicBlock
  generalize (s₁.closeBlock b₁ insn.next insn.address).addBasicBlock = s₂ at hclosed ⊢
  generalize (s₁'.closeBlock (b₁.relabel (moveAddr δ)) (moveAddr δ insn.next)
    (moveAddr δ insn.address)).addBasicBlock = s₂' at hclosed ⊢
  obtain ⟨hname, hname'⟩ := hclosed.function.name.ne_entrypoint
  refine { hclosed with function := hclosed.function.trampoline ?_ }
  simp only [ne_eq, hname, hname', not_false_eq_true, and_true, hrefer.within h]
  split
  · rename_i hin
    rw [hrefer.eq_move h hin]
    exact .jump target
  · exact hclosed.function.name

end

/-! ## The loops over one function -/

section

variable {t t' : Target} {δ : Nat} (h : t.Moved t' δ) {s s' : AnalyzeState}

include h

theorem decodeInsn_moved (hs : t.StateMoved t' δ s s') {insn insn' : ExtendedInstruction}
    (hrec : t.Recorded t' δ insn insn') :
    Loop.Out.Rel (t.StateMoved t' δ) (decodeInsn t insn s) (decodeInsn t' insn' s') := by
  have hnext := (hrec.next h).2.1
  have hinserted : s'.module.instructions.contains insn'.address =
      s.module.instructions.contains insn.address := by
    rw [hrec.address]
    exact hs.context.module.contains _
  have hblock : s'.currentBlock = s.currentBlock.relabel (moveAddr δ) := by
    unfold AnalyzeState.currentBlock
    rw [hs.bb, hs.pc]
    cases s.bb <;> simp [BasicBlock.create, BasicBlock.relabel]
  have hentered : t.StateMoved t' δ ((s.enter insn).countInsn.countStack insn.instruction)
      ((s'.enter insn').countInsn.countStack insn.instruction) :=
    { hs.enter hrec with
      insnCount := congrArg (· + 1) hs.insnCount
      stackModCount := congrArg (· + stackModifications insn.instruction) hs.stackModCount }
  have hadvance : ∀ {r r' : AnalyzeState}, t.StateMoved t' δ r r' →
      t.StateMoved t' δ (r.advance insn) (r'.advance insn') :=
    fun hr => { hr with lastInsn := hrec.address, pc := hnext }
  have hcount : ∀ {r r' : AnalyzeState}, t.StateMoved t' δ r r' →
      t.StateMoved t' δ r.countInsn r'.countInsn :=
    fun hr => { hr with insnCount := congrArg (· + 1) hr.insnCount }
  unfold decodeInsn
  rw [hinserted, hrec.instruction, hs.insnCount, hblock]
  dsimp only
  split
  · exact .done (hcount (handleTrampoline_moved h (hs.enter hrec) hrec _ _))
  · cases hc : insn.instruction.category with
    | call => exact .next (hadvance (handleCall_moved h hentered hrec _ _ hc))
    | condBr => exact .next (hadvance (handleBranch_moved h hentered hrec _ _))
    | uncondBr => exact .done (handleBranch_moved h hentered hrec _ _)
    | ret =>
      rw [hnext, hrec.address]
      exact .done (hentered.closeBlock s.currentBlock insn.next insn.address).addBasicBlock
    | other => exact .next (hadvance (hentered.setBlock s.currentBlock))

theorem decodeStep_moved (hs : t.StateMoved t' δ s s') :
    Loop.Out.Rel (t.StateMoved t' δ) (decodeStep t s) (decodeStep t' s') := by
  have hmono := moveAddr_strictMono δ
  have hpos := t.loader.base_pos
  unfold decodeStep
  rw [hs.pc]
  simp only [hs.mem_visited]
  by_cases hv : s.pc ∈ s.visited
  · rw [if_pos hv, if_pos hv]
    exact .done hs
  rw [if_neg hv, if_neg hv]
  have hbounds : moveAddr δ s.pc < t'.loader.currentImageBase ∨
      t'.loader.imageEnd ≤ moveAddr δ s.pc ↔
        s.pc < t.loader.currentImageBase ∨ t.loader.imageEnd ≤ s.pc := by
    rw [h.base, h.imageEnd]
    have hsize : t.loader.currentImageBase ≤ t.loader.imageEnd := Nat.le_add_right _ _
    unfold moveAddr
    split <;> omega
  simp only [hbounds]
  by_cases hout : s.pc < t.loader.currentImageBase ∨ t.loader.imageEnd ≤ s.pc
  · rw [if_pos hout, if_pos hout]
    exact .done hs
  rw [if_neg hout, if_neg hout]
  have hdis := h.disassemble (a := s.pc) ⟨by omega, by omega⟩
  generalize t.disassemble s.pc = o at hdis ⊢
  generalize t'.disassemble (moveAddr δ s.pc) = o' at hdis ⊢
  cases hdis with
  | none =>
    dsimp only
    rw [hs.bb]
    cases s.bb with
    | none => exact .done hs
    | some b =>
      dsimp only [Option.map_some]
      rw [hs.lastInsn]
      exact .done (hs.closeBlock b s.pc _)
  | some hrec => exact decodeInsn_moved h hs hrec.2

/-- The inner loop, and the block that it leaves. -/
theorem decodeFrom_moved (hs : t.StateMoved t' δ s s') (pc : Nat) :
    t.StateMoved t' δ (decodeFrom t pc s) (decodeFrom t' (moveAddr δ pc) s') := by
  have hstart : t.StateMoved t' δ { s with pc := pc, bb := none }
      { s' with pc := moveAddr δ pc, bb := none } := { hs with bb := rfl, pc := rfl }
  unfold decodeFrom
  rw [h.size]
  refine Target.StateMoved.addBasicBlock ?_
  exact Loop.exec_rel (fun r r' hr => decodeStep_moved h hr) hstart

theorem workStep_moved (hs : t.StateMoved t' δ s s') :
    Loop.Out.Rel (t.StateMoved t' δ) (workStep t s) (workStep t' s') := by
  unfold workStep
  rw [hs.work]
  cases s.work with
  | nil => exact .done hs
  | cons pc rest =>
    have hrest : t.StateMoved t' δ { s with work := rest }
        { s' with work := rest.map (moveAddr δ) } := { hs with work := rfl }
    rw [List.map_cons]
    dsimp only
    simp only [hrest.mem_visited]
    split
    · exact .next hrest
    · exact .next (decodeFrom_moved h hrest pc)

end

/-- **The two loops of `AnalyzeFunction`.** -/
theorem analyzeFunction_moved {t t' : Target} {δ : Nat} (h : t.Moved t' δ)
    {ctx ctx' : AnalysisContext} (hctx : t.ContextMoved t' δ ctx ctx') (pc : Nat)
    (queue : List Nat) :
    t.StateMoved t' δ (analyzeFunction t ctx (newFunction pc) pc queue)
      (analyzeFunction t' ctx' (newFunction (moveAddr δ pc)) (moveAddr δ pc)
        (queue.map (moveAddr δ))) := by
  have hname : ∀ a, "sub_" ++ hex a ≠ "" := fun a heq => by
    have := congrArg String.toList heq
    simp at this
  have hfunction : ∀ a, (newFunction a).setStart a =
      { name := "sub_" ++ hex a, startAddress := a, endAddress := a } := fun a => by
    simp [newFunction, Function.setStart, Function.create, hname]
  have hinit : t.StateMoved t' δ (analyzeInit ctx (newFunction pc) pc queue)
      (analyzeInit ctx' (newFunction (moveAddr δ pc)) (moveAddr δ pc)
        (queue.map (moveAddr δ))) := by
    unfold analyzeInit
    rw [hfunction, hfunction]
    exact ⟨hctx, ⟨rfl, .sub pc, ⟨nofun, nofun⟩, .empty _ _⟩, rfl, rfl, rfl, rfl, rfl, rfl, rfl⟩
  have hloop := Loop.exec_rel (n := t.loader.mappedSize + 2)
    (fun r r' hr => workStep_moved h hr) hinit
  unfold analyzeFunction analyzeBlocks
  rw [h.size]
  exact { hloop with function := hloop.function.normalizeBasicBlocks }

/-! ## The loops over functions -/

/-- Corresponding contexts, with the same queue in the moved image. -/
structure Target.ExploreMoved (t t' : Target) (δ : Nat) (s s' : ExploreState) : Prop where
  context : t.ContextMoved t' δ s.context s'.context
  queue : s'.functionWork = s.functionWork.map (moveAddr δ)

/-- The call sites whose targets are enqueued. -/
def Enqueued (t : Target) (ctx : AnalysisContext) (c : AddrPair) : Bool :=
  t.loader.isWithinMapping (ofLex c).2 && decide ((ofLex c).2 ∉ ctx.visited) &&
    (ctx.module.getFunctionForAddress (ofLex c).2).isNone

theorem enqueueCallTargets_eq (t : Target) (ctx : AnalysisContext) (f : Function)
    (queue : List Nat) : enqueueCallTargets t ctx f queue =
      queue ++ (f.callSites.toList.filter (Enqueued t ctx)).map fun c => (ofLex c).2 := by
  have hlist : ∀ (l : List AddrPair) (queue : List Nat),
      l.foldl (fun queue cs =>
        if (ofLex cs).2 ≠ 0 ∧ (ofLex cs).2 ∉ ctx.visited ∧
            t.loader.isWithinMapping (ofLex cs).2 ∧
            (ctx.module.getFunctionForAddress (ofLex cs).2).isNone then queue ++ [(ofLex cs).2]
        else queue) queue =
      queue ++ (l.filter (Enqueued t ctx)).map fun c => (ofLex c).2 := by
    intro l
    induction l with
    | nil => exact fun queue => (List.append_nil queue).symm
    | cons c l ih =>
      intro queue
      have hiff : (ofLex c).2 ≠ 0 ∧ (ofLex c).2 ∉ ctx.visited ∧
          t.loader.isWithinMapping (ofLex c).2 ∧
          (ctx.module.getFunctionForAddress (ofLex c).2).isNone ↔ Enqueued t ctx c = true := by
        have h0 := t.loader.base_pos
        unfold Enqueued
        simp only [Bool.and_eq_true, decide_eq_true_eq, FileLoader.isWithinMapping_iff]
        constructor
        · rintro ⟨-, hv, hin, hf⟩
          exact ⟨⟨hin, hv⟩, hf⟩
        · rintro ⟨⟨hin, hv⟩, hf⟩
          exact ⟨by omega, hv, hin, hf⟩
      rw [List.foldl_cons, ih, List.filter_cons]
      simp only [hiff]
      split
      · rw [List.map_cons, List.append_assoc]
        rfl
      · rfl
  exact hlist f.callSites.toList queue

section

variable {t t' : Target} {δ : Nat} (h : t.Moved t' δ)

include h

theorem enqueueCallTargets_moved {ctx ctx' : AnalysisContext}
    (hctx : t.ContextMoved t' δ ctx ctx') {f f' : Function} (hf : t.FunctionMoved t' δ f f')
    (queue : List Nat) :
    enqueueCallTargets t' ctx' f' (queue.map (moveAddr δ)) =
      (enqueueCallTargets t ctx f queue).map (moveAddr δ) := by
  have hmono := moveAddr_strictMono δ
  have henq : ∀ {c c' : AddrPair}, t.SiteMoved t' δ c c' →
      Enqueued t' ctx' c' = Enqueued t ctx c ∧
        (Enqueued t ctx c = true → (ofLex c').2 = moveAddr δ (ofLex c).2) := by
    intro c c' hc
    have hin := hc.2.within h
    unfold Enqueued
    rw [hin]
    cases hw : t.loader.isWithinMapping (ofLex c).2 with
    | false => exact ⟨by simp, fun h => by simp at h⟩
    | true =>
      have heq := hc.2.eq_move h hw
      refine ⟨?_, fun _ => heq⟩
      rw [heq, hctx.module.isNone]
      simp only [hctx.mem_visited]
  -- the enqueued call sites come in the same order, since they lie in the image
  have hfilter : f'.callSites.toList.filter (Enqueued t' ctx') =
      (f.callSites.toList.filter (Enqueued t ctx)).map fun c =>
        addrPair (moveAddr δ (ofLex c).1) (moveAddr δ (ofLex c).2) := by
    have hpair : ∀ {c d : AddrPair}, c < d →
        addrPair (moveAddr δ (ofLex c).1) (moveAddr δ (ofLex c).2) <
          addrPair (moveAddr δ (ofLex d).1) (moveAddr δ (ofLex d).2) := by
      intro c d hlt
      unfold addrPair
      rw [Prod.Lex.lt_iff] at hlt ⊢
      exact hlt.imp (fun h1 => hmono h1) fun h2 => ⟨congrArg (moveAddr δ) h2.1, hmono h2.2⟩
    refine List.Pairwise.eq_of_mem_iff (f'.callSites.sorted.filter _)
      (List.pairwise_map.mpr ((f.callSites.sorted.filter _).imp hpair)) fun c' => ?_
    have hmoved : ∀ {c c' : AddrPair}, t.SiteMoved t' δ c c' → Enqueued t ctx c = true →
        addrPair (moveAddr δ (ofLex c).1) (moveAddr δ (ofLex c).2) = c' := by
      intro c c' hc he
      rw [← hc.1, ← (henq hc).2 he]
      rfl
    rw [List.mem_filter, List.mem_map]
    constructor
    · rintro ⟨hmem, he⟩
      obtain ⟨c, hc, hrel⟩ := hf.callSites.right c' hmem
      rw [(henq hrel).1] at he
      exact ⟨c, List.mem_filter.mpr ⟨hc, he⟩, hmoved hrel he⟩
    · rintro ⟨c, hc, rfl⟩
      obtain ⟨hmem, he⟩ := List.mem_filter.mp hc
      obtain ⟨c', hc', hrel⟩ := hf.callSites.left c hmem
      rw [hmoved hrel he]
      exact ⟨hc', (henq hrel).1.trans he⟩
  rw [enqueueCallTargets_eq, enqueueCallTargets_eq, hfilter, List.map_append, List.map_map,
    List.map_map]
  rfl

theorem discoverFunction_moved {s s' : ExploreState} (hs : t.ExploreMoved t' δ s s')
    {mark mark' : AnalyzeState → Bool}
    (hmark : ∀ r r', t.StateMoved t' δ r r' → mark' r' = mark r) (pc : Nat) :
    t.ExploreMoved t' δ (discoverFunction t mark pc s)
      (discoverFunction t' mark' (moveAddr δ pc) s') := by
  have hr := analyzeFunction_moved h hs.context pc s.functionWork
  unfold discoverFunction
  rw [hs.queue]
  generalize analyzeFunction t s.context (newFunction pc) pc s.functionWork = r at hr ⊢
  generalize analyzeFunction t' s'.context (newFunction (moveAddr δ pc)) (moveAddr δ pc)
    (s.functionWork.map (moveAddr δ)) = r' at hr ⊢
  dsimp only
  rw [hmark r r' hr]
  have hf : t.FunctionMoved t' δ
      (if mark r then { r.function with markedForHybridAnalysis := true } else r.function)
      (if mark r then { r'.function with markedForHybridAnalysis := true } else r'.function) := by
    split
    · exact hr.function.mark true
    · exact hr.function
  refine ⟨⟨hr.context.module.addFunction hf, hr.context.visited⟩, ?_⟩
  rw [hr.functionWork]
  exact enqueueCallTargets_moved h hr.context hf _

theorem exploreStep_moved {s s' : ExploreState} (hs : t.ExploreMoved t' δ s s') (bypass : Bool) :
    Loop.Out.Rel (t.ExploreMoved t' δ) (exploreStep t bypass s) (exploreStep t' bypass s') := by
  unfold exploreStep
  rw [hs.queue]
  cases s.functionWork with
  | nil => exact .done hs
  | cons pc rest =>
    have hrest : t.ExploreMoved t' δ { s with functionWork := rest }
        { s' with functionWork := rest.map (moveAddr δ) } := ⟨hs.context, rfl⟩
    rw [List.map_cons]
    dsimp only
    simp only [hs.context.mem_visited, hs.context.module.isSome, h.isExecutableAddress]
    split
    · exact .next hrest
    · split
      · exact .next hrest
      · split
        · exact .next hrest
        · refine .next (discoverFunction_moved h hrest (fun r r' hr => ?_) pc)
          unfold marksForHybrid
          rw [hr.insnCount, hr.function.same]
          rfl

theorem drainStep_moved {s s' : ExploreState} (hs : t.ExploreMoved t' δ s s') :
    Loop.Out.Rel (t.ExploreMoved t' δ) (drainStep t s) (drainStep t' s') := by
  unfold drainStep
  rw [hs.queue]
  cases s.functionWork with
  | nil => exact .done hs
  | cons pc rest =>
    have hrest : t.ExploreMoved t' δ { s with functionWork := rest }
        { s' with functionWork := rest.map (moveAddr δ) } := ⟨hs.context, rfl⟩
    rw [List.map_cons]
    dsimp only
    simp only [hs.context.mem_visited, hs.context.module.isSome]
    split
    · exact .next hrest
    · split
      · exact .next hrest
      · exact .next (discoverFunction_moved h hrest (fun _ _ _ => rfl) pc)

theorem sweepStep_moved {ctx ctx' : AnalysisContext} (hctx : t.ContextMoved t' δ ctx ctx')
    {stop : Nat} (hstop : stop ≤ t.loader.imageEnd) {s s' : SweepState}
    (haddr : s'.addr = moveAddr δ s.addr) (hlo : t.loader.currentImageBase ≤ s.addr)
    (hq : s'.functionWork = s.functionWork.map (moveAddr δ)) :
    Loop.Out.Rel (fun r r' : SweepState => (r'.addr = moveAddr δ r.addr ∧
        t.loader.currentImageBase ≤ r.addr) ∧ r'.functionWork = r.functionWork.map (moveAddr δ))
      (sweepStep t ctx stop s) (sweepStep t' ctx' (stop + δ) s') := by
  have hbase := t.loader.base_pos
  have hroom := h.room
  have hmove : moveAddr δ s.addr = s.addr + δ := moveAddr_of_pos (by omega)
  have hend : stop + δ ≤ moveAddr δ s.addr ↔ stop ≤ s.addr := by
    rw [hmove]
    omega
  unfold sweepStep
  rw [haddr]
  simp only [hend, hctx.mem_visited]
  by_cases hdone : stop ≤ s.addr
  · rw [if_pos hdone, if_pos hdone]
    exact .done ⟨⟨haddr, hlo⟩, hq⟩
  rw [if_neg hdone, if_neg hdone]
  have hstep : addrAdd (moveAddr δ s.addr) 1 = moveAddr δ (addrAdd s.addr 1) := by
    rw [hmove, addrAdd_of_lt (by omega), addrAdd_of_lt (by omega), moveAddr_of_pos (by omega)]
    omega
  have hlo' : t.loader.currentImageBase ≤ addrAdd s.addr 1 := by
    rw [addrAdd_of_lt (by omega)]
    omega
  by_cases hv : s.addr ∈ ctx.visited
  · rw [if_pos hv, if_pos hv]
    exact .next ⟨⟨hstep, hlo'⟩, hq⟩
  rw [if_neg hv, if_neg hv]
  have hdis := h.disassemble (a := s.addr) ⟨hlo, by omega⟩
  generalize t.disassemble s.addr = o at hdis ⊢
  generalize t'.disassemble (moveAddr δ s.addr) = o' at hdis ⊢
  cases hdis with
  | none => exact .next ⟨⟨hstep, hlo'⟩, hq⟩
  | @some insn insn' hrec =>
    obtain ⟨haddr, hrec⟩ := hrec
    obtain ⟨-, hnext, hnext'⟩ := hrec.next h
    have hlonext : t.loader.currentImageBase ≤ insn.next := by omega
    refine .next ⟨⟨hnext, hlonext⟩, ?_⟩
    simp only [hrec.instruction, hctx.module.isNone, h.isExecutableAddress, hq]
    split
    · rw [List.map_append]
      rfl
    · rfl

theorem sweepRange_moved {ctx ctx' : AnalysisContext} (hctx : t.ContextMoved t' δ ctx ctx')
    {range : Nat × Nat} (hr : range ∈ t.loader.executableSections) (queue : List Nat) :
    sweepRange t' ctx' (queue.map (moveAddr δ)) (range.1 + δ, range.2 + δ) =
      (sweepRange t ctx queue range).map (moveAddr δ) := by
  have hbase := t.loader.base_pos
  obtain ⟨hlo, hhi⟩ := h.inside range hr
  unfold sweepRange
  dsimp only
  rw [Nat.add_sub_add_right]
  exact (Loop.exec_rel (fun r r' hr => sweepStep_moved h hctx hhi hr.1.1 hr.1.2 hr.2)
    ⟨⟨(moveAddr_of_pos (by omega)).symm, hlo⟩, rfl⟩).2

theorem linearSweepFallback_moved {s s' : ExploreState} (hs : t.ExploreMoved t' δ s s') :
    t.ExploreMoved t' δ (linearSweepFallback t s) (linearSweepFallback t' s') := by
  have hsweep : ∀ (ranges : List (Nat × Nat)), (∀ r ∈ ranges, r ∈ t.loader.executableSections) →
      ∀ queue : List Nat,
      (ranges.map fun r => (r.1 + δ, r.2 + δ)).foldl (sweepRange t' s'.context)
        (queue.map (moveAddr δ)) =
      (ranges.foldl (sweepRange t s.context) queue).map (moveAddr δ) := by
    intro ranges
    induction ranges with
    | nil => exact fun _ _ => rfl
    | cons r ranges ih =>
      intro hmem queue
      rw [List.map_cons, List.foldl_cons, List.foldl_cons,
        sweepRange_moved h hs.context (hmem r List.mem_cons_self),
        ih fun r hr => hmem r (List.mem_cons_of_mem _ hr)]
  unfold linearSweepFallback exploreFuel
  dsimp only
  rw [h.sections, hs.queue, hsweep _ fun _ hr => hr, List.length_map, h.size]
  exact Loop.exec_rel (fun _ _ hr => drainStep_moved h hr) ⟨hs.context, rfl⟩

/-! ## Entry points and calls -/

theorem collectEntryPoints_moved {ctx ctx' : AnalysisContext}
    (hctx : t.ContextMoved t' δ ctx ctx') :
    collectEntryPoints t' ctx' = (collectEntryPoints t ctx).relabel (moveAddr_strictMono δ) := by
  have hmono := moveAddr_strictMono δ
  have hinsert : ∀ {s : OrdSet Nat} {a : Nat}, a < addrSpace →
      t.loader.isExecutableAddress a = true →
      (s.relabel hmono).insert (addrAdd a δ) = (s.insert a).relabel hmono := by
    intro s a ha hx
    rw [h.addrAdd_of_within (FileLoader.isWithinMapping_iff.mpr (h.mapped hx)),
      OrdSet.relabel_insert]
  have hexports : ∀ {l l' : List ExportedSymbol}, List.Forall₂ (fun e e' =>
      e.address < addrSpace ∧ e' = { e with address := addrAdd e.address δ }) l l' →
      ∀ s : OrdSet Nat,
      l'.foldl (fun entries exp =>
        if exp.address ≠ 0 ∧ t'.loader.isWithinMapping exp.address ∧
            t'.loader.isExecutableAddress exp.address then entries.insert exp.address
        else entries) (s.relabel hmono) =
      (l.foldl (fun entries exp =>
        if exp.address ≠ 0 ∧ t.loader.isWithinMapping exp.address ∧
            t.loader.isExecutableAddress exp.address then entries.insert exp.address
        else entries) s).relabel hmono := by
    intro l l' hl
    induction hl with
    | nil => exact fun _ => rfl
    | @cons e e' _ _ he _ ih =>
      intro s
      obtain ⟨hlt, rfl⟩ := he
      rw [List.foldl_cons, List.foldl_cons, ← ih]
      congr 1
      dsimp only
      rw [h.isWithinMapping_addrAdd hlt, h.isExecutableAddress_addrAdd hlt]
      by_cases hx : t.loader.isExecutableAddress e.address = true
      · have hin := h.mapped hx
        have hpos := hin.pos
        have hpos' : addrAdd e.address δ ≠ 0 := by
          rw [h.addrAdd_of_within (FileLoader.isWithinMapping_iff.mpr hin)]
          exact mt moveAddr_eq_zero.mp hpos
        simp only [hpos, hpos', ne_eq, not_false_eq_true, true_and]
        split
        · exact hinsert hlt hx
        · rfl
      · simp only [hx, Bool.false_eq_true, and_false, if_false]
  have hentry : ∀ {a : Nat}, a < addrSpace →
      (if t'.loader.isExecutableAddress (addrAdd a δ) then OrdSet.empty.insert (addrAdd a δ)
        else OrdSet.empty) =
      (if t.loader.isExecutableAddress a then OrdSet.empty.insert a
        else OrdSet.empty).relabel hmono := by
    intro a ha
    rw [h.isExecutableAddress_addrAdd ha]
    split
    · rename_i hx
      exact hinsert (s := OrdSet.empty) ha hx
    · rfl
  -- on the preferred base the entry point is moved by nothing
  have hep : ∀ {ib e c : Nat}, e < addrSpace → c < addrSpace →
      (if ib ≠ c then addrAdd (addrAdd e (addrSpace - ib % addrSpace)) c else e) =
        addrAdd (addrAdd e (addrSpace - ib % addrSpace)) c := by
    intro ib e c he hc
    split
    · rfl
    · rename_i heq
      rw [not_not.mp heq]
      unfold addrAdd
      rw [Nat.mod_eq_of_lt hc, Nat.mod_add_mod, Nat.add_assoc, Nat.sub_add_cancel (le_of_lt hc),
        Nat.add_mod_right, Nat.mod_eq_of_lt he]
  have hbase := t.loader.belowTop
  have hbase' := t'.loader.belowTop
  have hmove : ∀ x c, addrAdd x (c + δ) = addrAdd (addrAdd x c) δ := by
    intro x c
    unfold addrAdd
    rw [Nat.mod_add_mod, Nat.add_assoc]
  unfold collectEntryPoints
  dsimp only
  rw [h.binary, hep h.entrypoint (by omega), hep h.entrypoint (by omega), h.base, hmove,
    hentry (addrAdd_lt _ _)]
  exact hexports hctx.module.symbols.exports _

/-- The exploration from corresponding queues. -/
theorem explore_moved {s s' : ExploreState} (hs : t.ExploreMoved t' δ s s') (bypass : Bool) :
    t.ContextMoved t' δ (linearSweepFallback t (descended t bypass s)).context
      (linearSweepFallback t' (descended t' bypass s')).context := by
  have hfuel : exploreFuel t' s' = exploreFuel t s := by
    unfold exploreFuel
    rw [hs.queue, List.length_map, h.size]
  unfold descended
  rw [hfuel]
  exact (linearSweepFallback_moved h
    (Loop.exec_rel (fun _ _ hr => exploreStep_moved h hr bypass) hs)).context

end

/-- The same call about the moved image. -/
def RebuilderCall.move (δ : Nat) : RebuilderCall → RebuilderCall
  | .run => .run
  | .reAnalyzeFrom a => .reAnalyzeFrom (moveAddr δ a)

/-- **A call finds in the moved image what it finds in the image.** -/
theorem RebuilderCall.moved {t t' : Target} {δ : Nat} (h : t.Moved t' δ)
    {ctx ctx' : AnalysisContext} (hctx : t.ContextMoved t' δ ctx ctx') (call : RebuilderCall) :
    t.ContextMoved t' δ (call.apply t ctx) ((call.move δ).apply t' ctx') := by
  have hqueue : ∀ a, queue t' ctx' (moveAddr δ a) = (queue t ctx a).map (moveAddr δ) := by
    intro a
    unfold queue
    simp only [hctx.module.functions_nil, ne_eq, moveAddr_eq_zero]
    split
    · rw [collectEntryPoints_moved h hctx]
      rfl
    · split <;> rfl
  rw [apply_eq, apply_eq]
  cases call with
  | run =>
    have hq : queue t' ctx' 0 = (queue t ctx 0).map (moveAddr δ) := hqueue 0
    exact explore_moved h ⟨hctx, hq⟩ false
  | reAnalyzeFrom a =>
    simp only [start, move, moveAddr_eq_zero]
    by_cases ha : a = 0
    · rw [if_pos ha, if_pos ha]
      exact hctx
    · rw [if_neg ha, if_neg ha]
      exact explore_moved h ⟨hctx, hqueue a⟩ false

end ReWizard
