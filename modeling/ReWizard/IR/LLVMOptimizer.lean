import ReWizard.IR.LlvmModule

/-!
# The optimizer

`LLVMOptimizer::Run`: four passes over every function with a body and one over the module
(`LLVMOptimizer.run`). The passes themselves are LLVM's, a parameter (`LlvmPasses`). The module's
verification, before and after, is only logged, and so is left out.
-/

namespace ReWizard

/-- The function passes of the pipeline. -/
inductive FunctionPass
  | sccp
  | dce
  | simplifyCFG
  | instCombine
  deriving DecidableEq, Repr

/-- What the optimizer uses of LLVM. Function passes change bodies: functions stay, with their
linkage, and none begins to refer to an internal function that nothing referred to. -/
structure LlvmPasses where
  /-- A pass over the function of this number. -/
  runPass : FunctionPass → Nat → LlvmModule → LlvmModule
  globalDCE : LlvmModule → LlvmModule
  runPass_keeps : ∀ pass id m, ∀ f ∈ m.functions,
    ∃ f' ∈ (runPass pass id m).functions, f'.id = f.id ∧ f'.linkage = f.linkage
  runPass_unreferenced : ∀ pass id m, ∀ f ∈ m.functions, f.linkage = .internal →
    ¬ m.Referenced f.id → ¬ (runPass pass id m).Referenced f.id
  globalDCE_deletes : ∀ m, ∀ f ∈ m.functions, f.linkage = .internal → ¬ m.Referenced f.id →
    f.id ∉ (globalDCE m).ids

namespace LLVMOptimizer

inductive Level
  | O0
  | O1
  | O2
  | O3
  deriving DecidableEq, Repr

/-- The function pass manager, in order. -/
def functionPasses : List FunctionPass := [.sccp, .dce, .simplifyCFG, .instCombine]

/-- The function passes over one function after the other; declarations have nothing to optimize. -/
def runFunctionPasses (passes : LlvmPasses) (m : LlvmModule) : LlvmModule :=
  (m.functions.filter fun f => !f.blocks.isEmpty).foldl
    (fun m f => functionPasses.foldl (fun m pass => passes.runPass pass f.id m) m) m

/-- `Run`. -/
def run (passes : LlvmPasses) (m : LlvmModule) (level : Level) : LlvmModule :=
  if level ≠ .O0 then passes.globalDCE (runFunctionPasses passes m) else m

/-! ## Functions that nothing refers to -/

/-- `id` is an internal function that nothing refers to. -/
def Dead (m : LlvmModule) (id : Nat) : Prop :=
  (∃ f ∈ m.functions, f.id = id ∧ f.linkage = .internal) ∧ ¬ m.Referenced id

variable {m : LlvmModule} {id : Nat}

theorem Dead.runPass (h : Dead m id) (passes : LlvmPasses) (pass : FunctionPass) (func : Nat) :
    Dead (passes.runPass pass func m) id := by
  obtain ⟨⟨f, hf, rfl, hlinkage⟩, hunref⟩ := h
  obtain ⟨f', hf', hid, hlinkage'⟩ := passes.runPass_keeps pass func m f hf
  exact ⟨⟨f', hf', hid, hlinkage'.trans hlinkage⟩,
    passes.runPass_unreferenced pass func m f hf hlinkage hunref⟩

theorem Dead.runFunctionPasses (h : Dead m id) (passes : LlvmPasses) :
    Dead (LLVMOptimizer.runFunctionPasses passes m) id :=
  List.foldlRecOn (motive := fun m => Dead m id) _ _ h fun _ hm f _ =>
    List.foldlRecOn (motive := fun m => Dead m id) _ _ hm fun _ hm pass _ => hm.runPass passes pass f.id

/-- The optimizer deletes the internal functions that nothing refers to. -/
theorem Dead.notMem_run (h : Dead m id) (passes : LlvmPasses) {level : Level}
    (hlevel : level ≠ .O0) : id ∉ (run passes m level).ids := by
  obtain ⟨⟨f, hf, rfl, hlinkage⟩, hunref⟩ := h.runFunctionPasses passes
  unfold run
  rw [if_pos hlevel]
  exact passes.globalDCE_deletes _ f hf hlinkage hunref

end LLVMOptimizer

/-! ## Sample -/

namespace Sample

theorem id_lt_globalDCE (m : LlvmModule) : ∀ f ∈ m.functions.filter
    (fun f => decide (f.linkage = .external ∨ m.Referenced f.id)), f.id < m.nextId :=
  fun f hf => m.id_lt f (List.mem_of_mem_filter hf)

theorem nodup_globalDCE (m : LlvmModule) : ((m.functions.filter
    fun f => decide (f.linkage = .external ∨ m.Referenced f.id)).map LlvmFunction.id).Nodup :=
  m.nodup.sublist (List.filter_sublist.map _)

/-- One round of `GlobalDCE`. -/
def globalDCE (m : LlvmModule) : LlvmModule :=
  ⟨m.functions.filter fun f => decide (f.linkage = .external ∨ m.Referenced f.id), m.nextId,
    id_lt_globalDCE m, nodup_globalDCE m⟩

theorem globalDCE_deletes (m : LlvmModule) (f : LlvmFunction) (hf : f ∈ m.functions)
    (hlinkage : f.linkage = .internal) (hunref : ¬ m.Referenced f.id) :
    f.id ∉ (globalDCE m).ids := by
  intro h
  obtain ⟨g, hg, hid⟩ := LlvmModule.mem_ids.mp h
  obtain ⟨hg, hkept⟩ := List.mem_filter.mp hg
  have hsame := LlvmModule.eq_of_id_eq hg hf hid
  subst hsame
  rcases of_decide_eq_true hkept with hext | href
  · rw [hlinkage] at hext
    cases hext
  · exact hunref href

end Sample

/-- Passes for examples: the function passes find nothing to do. -/
def samplePasses : LlvmPasses where
  runPass _ _ m := m
  globalDCE := Sample.globalDCE
  runPass_keeps _ _ _ f hf := ⟨f, hf, rfl, rfl⟩
  runPass_unreferenced _ _ _ _ _ _ h := h
  globalDCE_deletes := Sample.globalDCE_deletes

end ReWizard
