import ReWizard.Analysis.Fragment
import ReWizard.IR.IRPasses
import ReWizard.IR.Proof.LiftBasicBlock

/-!
# References to lifted code

Lifted functions are internal and nothing refers to them (`Isolated`), so the optimizer deletes all
of them, and with them every block that an `IRBlock` points to:

* `liftBlock_lift`: what one block does to the LLVM module and the IR blocks;
* `irReferences_valid_iff`: after `IRLiftingPass` and `ConstantFoldingPass` the references are valid
  exactly when there are none.
-/

namespace ReWizard

variable {R : Remill} {loader : FileLoader} {lifter : Nat} {s : IRLiftState}
  {e : BlockPos × BasicBlock}

/-! ## The shared module -/

/-- Functions outside the semantics are internal and not referred to. -/
structure Isolated (R : Remill) (m : LlvmModule) : Prop where
  internal : ∀ f ∈ m.functions, f.id ∉ R.semantics.ids → f.linkage = .internal
  references : ∀ f ∈ m.functions, ∀ r ∈ f.references, r ∈ R.semantics.ids
  nextId_le : R.semantics.nextId ≤ m.nextId

theorem isolated_semantics (R : Remill) : Isolated R R.semantics :=
  ⟨fun _ hf hnew => absurd (List.mem_map_of_mem hf) hnew, R.semantics_references, le_rfl⟩

namespace Isolated

variable {m : LlvmModule} {insts : List LlvmInst}

theorem addLifted (h : Isolated R m) (name entry : String) (hrefs : SemanticsOnly R insts) :
    Isolated R (ReWizard.addLifted m name entry insts) := by
  refine ⟨fun f hf hnew => ?_, fun f hf => ?_, h.nextId_le.trans (Nat.le_succ _)⟩
  · rcases List.mem_append.mp hf with hf | hf
    · exact h.internal f hf hnew
    · rw [List.mem_singleton.mp hf]
  · rcases List.mem_append.mp hf with hf | hf
    · exact h.references f hf
    · intro r hr
      rw [List.mem_singleton.mp hf] at hr
      obtain ⟨b, hb, hr⟩ := List.mem_flatMap.mp hr
      rw [List.mem_singleton.mp hb] at hr
      exact hrefs r hr

/-- The next function is not one of the semantics. -/
theorem nextId_notMem (h : Isolated R m) : m.nextId ∉ R.semantics.ids :=
  fun hmem => absurd (LlvmModule.lt_of_mem_ids hmem) (Nat.not_lt.mpr h.nextId_le)

/-- The optimizer has no reason to keep a lifted function. -/
theorem dead (h : Isolated R m) {id : Nat} (hmem : id ∈ m.ids) (hnew : id ∉ R.semantics.ids) :
    LLVMOptimizer.Dead m id := by
  obtain ⟨f, hf, rfl⟩ := LlvmModule.mem_ids.mp hmem
  refine ⟨⟨f, hf, rfl, h.internal f hf hnew⟩, ?_⟩
  rintro ⟨g, hg, href⟩
  exact hnew (h.references g hg _ href)

end Isolated

/-! ## One block -/

/-- The block is not empty, lies in the mapping, and its bytes lift. -/
def Liftable (R : Remill) (loader : FileLoader) (b : BasicBlock) : Prop :=
  b.startAddress < b.endAddress ∧ loader.currentImageBase ≤ b.startAddress ∧
    b.endAddress ≤ loader.imageEnd ∧
    Lifts R (loader.bytes b.startAddress b.endAddress) b.startAddress

/-- What `liftBlock` does. -/
inductive BlockLift (R : Remill) (loader : FileLoader) (lifter : Nat) (s : IRLiftState)
    (e : BlockPos × BasicBlock) : IRLiftState → Prop
  | skipped (h : ¬ Liftable R loader e.2) : BlockLift R loader lifter s e s
  | broken (name entry : String) {insts : List LlvmInst} (h : ¬ Liftable R loader e.2)
    (hrefs : SemanticsOnly R insts) : BlockLift R loader lifter s e
      { s with llvmModule := addLifted s.llvmModule name entry insts }
  | lifted (name entry : String) {insts : List LlvmInst} (ir : IRBlock)
    (h : Liftable R loader e.2) (hrefs : SemanticsOnly R insts)
    (hblock : ir.block = some ⟨lifter, s.llvmModule.nextId⟩) : BlockLift R loader lifter s e
      (IRLiftState.setIRBlock ⟨addLifted s.llvmModule name entry insts, s.irBlocks⟩ e.1 ir)

theorem bytes_ne_nil {start stop : Nat} (h : start < stop) : loader.bytes start stop ≠ [] := by
  intro hnil
  have hlength := congrArg List.length hnil
  unfold FileLoader.bytes at hlength
  simp only [List.length_map, List.length_range, List.length_nil] at hlength
  omega

theorem liftBlock_lift (R : Remill) (loader : FileLoader) (lifter : Nat) (s : IRLiftState)
    (e : BlockPos × BasicBlock) :
    BlockLift R loader lifter s e (liftBlock R loader lifter s e) := by
  unfold liftBlock
  dsimp only
  split
  · rename_i hempty
    exact .skipped fun h => absurd h.1 (Nat.not_lt.mpr hempty)
  · rename_i hstart
    have hlt := Nat.lt_of_not_le hstart
    split
    · rename_i hout
      refine .skipped fun h => ?_
      obtain ⟨-, hbase, hend, -⟩ := h
      omega
    · rename_i hin
      have houtcome := liftBasicBlock_outcome R s.llvmModule
        (loader.bytes e.2.startAddress e.2.endAddress) e.2.startAddress
      generalize liftBasicBlock R s.llvmModule (loader.bytes e.2.startAddress e.2.endAddress)
        e.2.startAddress = r at houtcome ⊢
      cases houtcome with
      | empty result hnil => exact absurd hnil (bytes_ne_nil hlt)
      | broken result name entry _ hlifts hfails hrefs =>
        rw [hfails]
        exact .broken name entry (fun h => hlifts h.2.2.2) hrefs
      | lifted result name entry _ hlifts hsucceeds hfunc hentry hrefs =>
        rw [hsucceeds, hfunc, hentry]
        refine .lifted name entry _ ⟨hlt, ?_, ?_, hlifts⟩ hrefs rfl <;> omega

/-! ## All blocks -/

/-- The IR block at `pos` points to a function that `lifter` lifted. -/
def Pointed (R : Remill) (lifter : Nat) (s : IRLiftState) (pos : BlockPos) : Prop :=
  ∃ ir ∈ s.irBlocks pos, ∃ id, ir.block = some ⟨lifter, id⟩ ∧ id ∈ s.llvmModule.ids ∧
    id ∉ R.semantics.ids

theorem Pointed.addLifted {pos : BlockPos} (h : Pointed R lifter s pos) (name entry : String)
    (insts : List LlvmInst) : Pointed R lifter
      { s with llvmModule := ReWizard.addLifted s.llvmModule name entry insts } pos := by
  obtain ⟨ir, hir, id, hblock, hmem, hnew⟩ := h
  refine ⟨ir, hir, id, hblock, ?_, hnew⟩
  unfold ReWizard.addLifted
  rw [LlvmModule.addFunction_ids]
  exact List.mem_append_left _ hmem

/-- The new function is pointed to, at any position that gets its block. -/
theorem pointed_setIRBlock (h : Isolated R s.llvmModule) {ir : IRBlock} (pos : BlockPos)
    (hblock : ir.block = some ⟨lifter, s.llvmModule.nextId⟩) (name entry : String)
    (insts : List LlvmInst) : Pointed R lifter
      (IRLiftState.setIRBlock ⟨addLifted s.llvmModule name entry insts, s.irBlocks⟩ pos ir) pos := by
  refine ⟨ir, if_pos rfl, s.llvmModule.nextId, hblock, ?_, h.nextId_notMem⟩
  unfold addLifted IRLiftState.setIRBlock
  rw [LlvmModule.addFunction_ids]
  exact List.mem_append_right _ (List.mem_singleton_self _)

theorem liftBlock_pointed (h : Isolated R s.llvmModule) {pos : BlockPos}
    (hpos : Pointed R lifter s pos) : Pointed R lifter (liftBlock R loader lifter s e) pos := by
  have hlift := liftBlock_lift R loader lifter s e
  generalize liftBlock R loader lifter s e = s' at hlift ⊢
  cases hlift with
  | skipped => exact hpos
  | broken name entry => exact hpos.addLifted name entry _
  | @lifted name entry insts ir _ _ hblock =>
    by_cases hsame : pos = e.1
    · subst hsame
      exact pointed_setIRBlock h e.1 hblock name entry insts
    · obtain ⟨ir', hir', hrest⟩ := hpos.addLifted name entry insts
      exact ⟨ir', (if_neg hsame).trans hir', hrest⟩

/-- The loop over the blocks: the LLVM module stays isolated, and an IR block is the old one or
points into the new module. -/
structure LiftInv (R : Remill) (ctx : IRContext) (s : IRLiftState) : Prop where
  isolated : Isolated R s.llvmModule
  irBlocks : ∀ pos, s.irBlocks pos = ctx.irBlocks pos ∨ Pointed R ctx.lifters s pos

theorem LiftInv.step {ctx : IRContext} (h : LiftInv R ctx s) (loader : FileLoader)
    (e : BlockPos × BasicBlock) :
    LiftInv R ctx (liftBlock R loader ctx.lifters s e) := by
  have hkeeps : ∀ pos, Pointed R ctx.lifters s pos →
      Pointed R ctx.lifters (liftBlock R loader ctx.lifters s e) pos :=
    fun pos hpos => liftBlock_pointed h.isolated hpos
  have hlift := liftBlock_lift R loader ctx.lifters s e
  generalize liftBlock R loader ctx.lifters s e = s' at hlift hkeeps ⊢
  cases hlift with
  | skipped => exact h
  | broken name entry _ hrefs =>
    exact ⟨h.isolated.addLifted name entry hrefs, fun pos => (h.irBlocks pos).imp_right (hkeeps pos)⟩
  | @lifted name entry insts ir _ hrefs hblock =>
    refine ⟨h.isolated.addLifted name entry hrefs, fun pos => ?_⟩
    by_cases hsame : pos = e.1
    · subst hsame
      exact .inr (pointed_setIRBlock h.isolated e.1 hblock name entry insts)
    · exact (h.irBlocks pos).imp ((if_neg hsame).trans ·) (hkeeps pos)

/-- The invariant after the loop has gone over `blocks`. -/
theorem liftInv_foldl (R : Remill) (loader : FileLoader) (ctx : IRContext)
    (blocks : List (BlockPos × BasicBlock)) : LiftInv R ctx
      (blocks.foldl (liftBlock R loader ctx.lifters) ⟨R.semantics, ctx.irBlocks⟩) :=
  List.foldlRecOn (motive := LiftInv R ctx) _ _
    ⟨isolated_semantics R, fun _ => .inl rfl⟩ fun _ hs e _ => hs.step loader e

theorem liftBlocks_inv (R : Remill) (loader : FileLoader) (ctx : IRContext) :
    LiftInv R ctx (liftBlocks R loader ctx) := liftInv_foldl R loader ctx ctx.module.blocks

/-- A block that lifts ends up pointed. -/
theorem pointed_of_liftable {ctx : IRContext} (he : e ∈ ctx.module.blocks)
    (hlift : Liftable R loader e.2) :
    Pointed R ctx.lifters (liftBlocks R loader ctx) e.1 := by
  obtain ⟨before, after, hblocks⟩ := List.append_of_mem he
  unfold liftBlocks
  rw [hblocks, List.foldl_append, List.foldl_cons]
  have hbefore := liftInv_foldl R loader ctx before
  generalize before.foldl (liftBlock R loader ctx.lifters) _ = s at hbefore ⊢
  have hat : Pointed R ctx.lifters (liftBlock R loader ctx.lifters s e) e.1 := by
    have hstep := liftBlock_lift R loader ctx.lifters s e
    generalize liftBlock R loader ctx.lifters s e = s' at hstep ⊢
    cases hstep with
    | skipped hnot => exact absurd hlift hnot
    | broken _ _ hnot => exact absurd hlift hnot
    | @lifted name entry insts ir _ _ hblock =>
      exact pointed_setIRBlock hbefore.isolated e.1 hblock name entry insts
  have hafter := hbefore.step loader e
  generalize liftBlock R loader ctx.lifters s e = s' at hat hafter ⊢
  refine (List.foldlRecOn (motive := fun s => LiftInv R ctx s ∧ Pointed R ctx.lifters s e.1) _ _
    ⟨hafter, hat⟩ fun s hs e' _ => ⟨hs.1.step loader e', ?_⟩).2
  exact liftBlock_pointed hs.1.isolated hs.2

/-- When no block lifts, the IR blocks stay as they were. -/
theorem irBlocks_of_not_liftable {ctx : IRContext}
    (h : ∀ e ∈ ctx.module.blocks, ¬ Liftable R loader e.2) :
    (liftBlocks R loader ctx).irBlocks = ctx.irBlocks := by
  refine List.foldlRecOn (motive := fun s : IRLiftState => s.irBlocks = ctx.irBlocks) _ _ rfl
    fun s hs e he => ?_
  have hstep := liftBlock_lift R loader ctx.lifters s e
  generalize liftBlock R loader ctx.lifters s e = s' at hstep ⊢
  cases hstep with
  | skipped => exact hs
  | broken => exact hs
  | lifted _ _ _ hlift => exact absurd hlift (h e he)

/-! ## Both passes -/

namespace IRContext

/-- The basic block at `pos` has a valid IR block. -/
def HasIR (ctx : IRContext) (pos : BlockPos) : Prop :=
  ∃ ir ∈ ctx.irBlocks pos, ir.isValid = true

/-- Every basic block that has a valid IR block refers to a block of a function that is present in
the shared LLVM module. -/
def ReferencesValid (ctx : IRContext) : Prop :=
  ∀ e ∈ ctx.module.blocks, ∀ bb ∈ ctx.llvmBlock e.1, ctx.Live bb

instance (ctx : IRContext) : Decidable ctx.ReferencesValid :=
  inferInstanceAs (Decidable (∀ e ∈ ctx.module.blocks, ∀ bb ∈ ctx.llvmBlock e.1, ctx.Live bb))

variable {ctx : IRContext} {pos : BlockPos} {bb : LlvmBlockPtr}

theorem hasIR_iff : ctx.HasIR pos ↔ ∃ bb, ctx.llvmBlock pos = some bb := by
  unfold HasIR llvmBlock IRBlock.isValid
  cases ctx.irBlocks pos with
  | none => simp
  | some ir => simp [Option.isSome_iff_exists]

theorem parentModule_eq_some {m : LlvmModule} (h : ctx.parentModule bb = some m) :
    ctx.llvmModule = some m ∧ bb.lifter + 1 = ctx.lifters ∧ bb.function ∈ m.ids := by
  obtain ⟨hm, hkept⟩ := Option.filter_eq_some_iff.mp h
  exact ⟨hm, of_decide_eq_true hkept⟩

theorem not_live_of_parentModule (h : ctx.parentModule bb = none) : ¬ ctx.Live bb := by
  rintro ⟨hlifter, m, hm, hmem⟩
  have hsome : ctx.parentModule bb = some m :=
    Option.filter_eq_some_iff.mpr ⟨hm, decide_eq_true ⟨hlifter, hmem⟩⟩
  rw [h] at hsome
  cases hsome

end IRContext

/-- A pointer of the last lifter was set by the last run of `IRLiftingPass`. -/
theorem llvmBlock_new {ctx : IRContext} {pos : BlockPos} {bb : LlvmBlockPtr}
    (h : (irLiftingPass R loader ctx).llvmBlock pos = some bb)
    (hlifter : bb.lifter + 1 = ctx.lifters + 1) :
    bb.function ∈ (liftBlocks R loader ctx).llvmModule.ids ∧ bb.function ∉ R.semantics.ids := by
  obtain ⟨ir, hir, hblock⟩ := Option.bind_eq_some_iff.mp h
  rcases (liftBlocks_inv R loader ctx).irBlocks pos with
    hold | ⟨ir', hir', id, hblock', hmem, hnew⟩
  · have hlt := ctx.lifter_lt pos ir (hold.symm.trans hir) bb hblock
    omega
  · cases hir.symm.trans hir'
    cases hblock.symm.trans hblock'
    exact ⟨hmem, hnew⟩

/-- A module with IR after `IRLiftingPass` has a reference that folding leaves dangling. -/
theorem dangles_of_hasIR {ctx : IRContext} (passes : LlvmPasses) (he : e ∈ ctx.module.blocks)
    (hir : (irLiftingPass R loader ctx).HasIR e.1) :
    ¬ (constantFoldingPass passes (irLiftingPass R loader ctx)).ReferencesValid := by
  intro hvalid
  -- the pass follows the first pointer that it finds
  have hfirst : (irLiftingPass R loader ctx).firstLlvmBlock.isSome = true := by
    obtain ⟨bb, hbb⟩ := IRContext.hasIR_iff.mp hir
    exact List.findSome?_isSome_iff.mpr ⟨e, he, by rw [hbb]; rfl⟩
  obtain ⟨bb, hbb⟩ := Option.isSome_iff_exists.mp hfirst
  obtain ⟨e', he', hptr⟩ := List.exists_of_findSome?_eq_some hbb
  unfold constantFoldingPass at hvalid
  rw [hbb, Option.bind_some] at hvalid
  split at hvalid
  · rename_i hnone
    exact IRContext.not_live_of_parentModule hnone (hvalid e' he' bb hptr)
  · rename_i m hm
    obtain ⟨hmod, hlifter, -⟩ := IRContext.parentModule_eq_some hm
    cases hmod
    obtain ⟨hmem, hnew⟩ := llvmBlock_new hptr hlifter
    have hdead := (liftBlocks_inv R loader ctx).isolated.dead hmem hnew
    obtain ⟨-, m, hm, hpresent⟩ := hvalid e' he' bb hptr
    cases hm
    exact hdead.notMem_run passes (by decide) hpresent

/-- **References to lifted code are valid** after both passes exactly when there are none: no block
had IR before, and none can be lifted. -/
theorem irReferences_valid_iff (R : Remill) (passes : LlvmPasses) (loader : FileLoader)
    (ctx : IRContext) :
    (constantFoldingPass passes (irLiftingPass R loader ctx)).ReferencesValid ↔
      ∀ e ∈ ctx.module.blocks, ¬ ctx.HasIR e.1 ∧ ¬ Liftable R loader e.2 := by
  constructor
  · intro hvalid e he
    have hnone : ¬ (irLiftingPass R loader ctx).HasIR e.1 :=
      fun hir => dangles_of_hasIR passes he hir hvalid
    have hpointed : ¬ Pointed R ctx.lifters (liftBlocks R loader ctx) e.1 := by
      rintro ⟨ir, hir, id, hblock, -⟩
      refine hnone ⟨ir, hir, ?_⟩
      unfold IRBlock.isValid
      rw [hblock]
      rfl
    refine ⟨fun hir => ?_, fun hlift => hpointed (pointed_of_liftable he hlift)⟩
    rcases (liftBlocks_inv R loader ctx).irBlocks e.1 with hold | hnew
    · obtain ⟨ir, hmem, hvalid⟩ := hir
      exact hnone ⟨ir, hold.trans hmem, hvalid⟩
    · exact hpointed hnew
  · intro h e he bb hbb
    have hsame : (constantFoldingPass passes (irLiftingPass R loader ctx)).irBlocks =
        ctx.irBlocks := by
      unfold constantFoldingPass
      split <;> exact irBlocks_of_not_liftable fun e he => (h e he).2
    have hmodule : (constantFoldingPass passes (irLiftingPass R loader ctx)).module =
        ctx.module := by
      unfold constantFoldingPass
      split <;> rfl
    rw [hmodule] at he
    unfold IRContext.llvmBlock at hbb
    rw [hsame] at hbb
    exact absurd (IRContext.hasIR_iff.mpr ⟨bb, hbb⟩) (h e he).1

/-- `ret`: its function has one block, which both passes leave with a pointer to a function that was
deleted. -/
theorem ret_reference_dangles :
    let t := sampleTarget [0xC3]
    let m := (rebuildControlFlow t { module := {} }).module
    ¬ (constantFoldingPass samplePasses (irLiftingPass sampleRemill t.loader
      (IRContext.unlifted m))).ReferencesValid := by
  decide +kernel

end ReWizard
