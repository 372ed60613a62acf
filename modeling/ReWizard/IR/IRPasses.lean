import ReWizard.Analysis.Module
import ReWizard.IR.Lifter
import ReWizard.IR.LLVMOptimizer

/-!
# Lifting and folding a module

`IRLiftingPass` lifts every block of the module (`irLiftingPass`) and `ConstantFoldingPass` runs the
optimizer over the LLVM module that the blocks point into (`constantFoldingPass`).

An `IRBlock` holds a pointer to an `llvm::BasicBlock`, here the number of the lifter whose module the
block is in and the function it is the entry block of. Every run of `IRLiftingPass` makes a new
lifter and destroys the one before, with its module. As for functions and blocks elsewhere, a block
is known by its position.
-/

namespace ReWizard

/-- A pointer to the entry block of a lifted function. -/
structure LlvmBlockPtr where
  lifter : Nat
  function : Nat
  deriving DecidableEq, Repr

/-- `block` is `none` for a null pointer. -/
structure IRBlock where
  block : Option LlvmBlockPtr := none
  nativeAddr : Nat := 0
  name : String := ""
  deriving DecidableEq, Repr

namespace IRBlock

def wrap (bb : LlvmBlockPtr) (name : String) : IRBlock := { block := some bb, name := name }

def isValid (ir : IRBlock) : Bool := ir.block.isSome

end IRBlock

/-- Position of a function in the module and of a block in the function. -/
abbrev BlockPos := Nat × Nat

/-- The module with the IR blocks of its basic blocks, the number of lifters made so far and the
LLVM module of the last one. -/
structure IRContext where
  module : Module
  irBlocks : BlockPos → Option IRBlock
  lifters : Nat
  llvmModule : Option LlvmModule
  lifter_lt : ∀ pos, ∀ ir ∈ irBlocks pos, ∀ bb ∈ ir.block, bb.lifter < lifters

/-- The blocks of all functions in order. -/
def Module.blocks (m : Module) : List (BlockPos × BasicBlock) :=
  m.functions.zipIdx.flatMap fun f => f.1.basicBlocks.zipIdx.map fun b => ((f.2, b.2), b.1)

/-! ## IRLiftingPass -/

/-- The bytes of `start .. stop` in the mapping. -/
def FileLoader.bytes (l : FileLoader) (start stop : Nat) : List UInt8 :=
  (List.range (stop - start)).map fun i => l.memory (start + i)

/-- The name of the entry block of `func`. -/
def LlvmModule.entryName (m : LlvmModule) (func : Nat) : String :=
  match (m.functions.find? fun f => f.id = func).bind fun f => f.blocks.head? with
  | some entry => entry.name
  | none => ""

section

variable (R : Remill) (loader : FileLoader)

/-- What the loop over the blocks changes. -/
structure IRLiftState where
  llvmModule : LlvmModule
  irBlocks : BlockPos → Option IRBlock

/-- `SetIRBlock`. -/
def IRLiftState.setIRBlock (s : IRLiftState) (pos : BlockPos) (ir : IRBlock) : IRLiftState :=
  { s with irBlocks := fun p => if p = pos then some ir else s.irBlocks p }

/-- One block: lifted if it is not empty and lies in the mapping. -/
def liftBlock (lifter : Nat) (s : IRLiftState) (e : BlockPos × BasicBlock) : IRLiftState :=
  let start := e.2.startAddress
  let stop := e.2.endAddress
  if stop ≤ start then s
  else
    let len := stop - start
    if start < loader.currentImageBase ∨ start + len > loader.imageEnd then s
    else
      let r := liftBasicBlock R s.llvmModule (loader.bytes start stop) start
      let s := { s with llvmModule := r.2 }
      match r.1.success, r.1.function, r.1.entryBlock with
      | true, some _, some entry =>
        let ir := IRBlock.wrap ⟨lifter, entry⟩ (s.llvmModule.entryName entry)
        s.setIRBlock e.1 { ir with nativeAddr := start, name := e.2.name }
      | _, _, _ => s

/-- The loop of `IRLiftingPass::Run` with a new lifter. -/
def liftBlocks (ctx : IRContext) : IRLiftState :=
  ctx.module.blocks.foldl (liftBlock R loader ctx.lifters) ⟨R.semantics, ctx.irBlocks⟩

end

/-- What a block changes of the IR blocks: at most its own, which then points into the new module. -/
theorem liftBlock_irBlocks (R : Remill) (loader : FileLoader) (lifter : Nat) (s : IRLiftState)
    (e : BlockPos × BasicBlock) :
    (liftBlock R loader lifter s e).irBlocks = s.irBlocks ∨
      ∃ ir entry, ir.block = some ⟨lifter, entry⟩ ∧
        liftBlock R loader lifter s e =
          IRLiftState.setIRBlock ⟨(liftBlock R loader lifter s e).llvmModule, s.irBlocks⟩ e.1 ir := by
  unfold liftBlock
  dsimp only
  split
  · exact .inl rfl
  · split
    · exact .inl rfl
    · split
      · exact .inr ⟨_, _, rfl, rfl⟩
      · exact .inl rfl

theorem liftBlocks_lifter_lt (R : Remill) (loader : FileLoader) (ctx : IRContext) :
    ∀ pos, ∀ ir ∈ (liftBlocks R loader ctx).irBlocks pos, ∀ bb ∈ ir.block,
      bb.lifter < ctx.lifters + 1 := by
  refine List.foldlRecOn (motive := fun s : IRLiftState => ∀ pos, ∀ ir ∈ s.irBlocks pos,
    ∀ bb ∈ ir.block, bb.lifter < ctx.lifters + 1) _ _
    (fun pos ir hir bb hbb => Nat.lt_succ_of_lt (ctx.lifter_lt pos ir hir bb hbb))
    fun s hs e _ pos ir hir bb hbb => ?_
  rcases liftBlock_irBlocks R loader ctx.lifters s e with hsame | ⟨ir', entry, hptr, hset⟩
  · rw [hsame] at hir
    exact hs pos ir hir bb hbb
  · rw [hset] at hir
    unfold IRLiftState.setIRBlock at hir
    dsimp only at hir
    split at hir
    · cases hir
      rw [hptr] at hbb
      cases hbb
      exact Nat.lt_succ_self _
    · exact hs pos ir hir bb hbb

/-- `IRLiftingPass::Run`. -/
def irLiftingPass (R : Remill) (loader : FileLoader) (ctx : IRContext) : IRContext :=
  { module := ctx.module
    irBlocks := (liftBlocks R loader ctx).irBlocks
    lifters := ctx.lifters + 1
    llvmModule := some (liftBlocks R loader ctx).llvmModule
    lifter_lt := liftBlocks_lifter_lt R loader ctx }

/-! ## ConstantFoldingPass -/

namespace IRContext

/-- What the basic block at `pos` points to, if it has a valid IR block. -/
def llvmBlock (ctx : IRContext) (pos : BlockPos) : Option LlvmBlockPtr :=
  (ctx.irBlocks pos).bind IRBlock.block

/-- The first block that a basic block of the module points to. -/
def firstLlvmBlock (ctx : IRContext) : Option LlvmBlockPtr :=
  ctx.module.blocks.findSome? fun e => ctx.llvmBlock e.1

/-- The pointer is to a block of a function that is present in the module of the last lifter. -/
def Live (ctx : IRContext) (bb : LlvmBlockPtr) : Prop :=
  bb.lifter + 1 = ctx.lifters ∧ ∃ m ∈ ctx.llvmModule, bb.function ∈ m.ids

instance (ctx : IRContext) (bb : LlvmBlockPtr) : Decidable (ctx.Live bb) :=
  inferInstanceAs (Decidable (_ ∧ ∃ m ∈ ctx.llvmModule, bb.function ∈ m.ids))

/-- The module of the block's function. There is none at a pointer to a destroyed block, which must
not be followed. -/
def parentModule (ctx : IRContext) (bb : LlvmBlockPtr) : Option LlvmModule :=
  ctx.llvmModule.filter fun m => decide (bb.lifter + 1 = ctx.lifters ∧ bb.function ∈ m.ids)

/-- A module without IR. -/
def unlifted (m : Module) : IRContext where
  module := m
  irBlocks _ := none
  lifters := 0
  llvmModule := none
  lifter_lt := fun _ _ h => nomatch h

end IRContext

/-- `ConstantFoldingPass::Run`. -/
def constantFoldingPass (passes : LlvmPasses) (ctx : IRContext) : IRContext :=
  match ctx.firstLlvmBlock.bind ctx.parentModule with
  | none => ctx
  | some m => { ctx with llvmModule := some (LLVMOptimizer.run passes m .O2) }

end ReWizard
