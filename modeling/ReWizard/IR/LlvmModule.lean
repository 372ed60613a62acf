import Mathlib.Data.List.Nodup
import Mathlib.Order.Nat

/-!
# LLVM modules

`llvm::Module` as a list of functions, with what the lifter and the optimizer look at: linkage, the
blocks, where a block ends and which functions a function refers to. A function is known by a number
that is never given out twice, which stands for the address of the `llvm::Function`.
-/

namespace ReWizard

inductive Linkage
  | internal
  | external
  deriving DecidableEq, Repr

/-- An instruction of a block: stores, which the lifter looks through (`pointer` is the name of the
alloca that is stored to), calls, and whether it ends the block. -/
inductive LlvmInst
  | store (pointer : Option String) (value : Option Nat)
  | call (callee : Nat)
  | ret
  | other (terminator : Bool)
  deriving DecidableEq, Repr

namespace LlvmInst

def isTerminator : LlvmInst → Bool
  | ret => true
  | other terminator => terminator
  | _ => false

/-- The functions an instruction refers to. -/
def references : LlvmInst → List Nat
  | call callee => [callee]
  | _ => []

end LlvmInst

structure LlvmBlock where
  name : String := ""
  instructions : List LlvmInst
  deriving DecidableEq, Repr

namespace LlvmBlock

def references (b : LlvmBlock) : List Nat := b.instructions.flatMap LlvmInst.references

/-- The block ends with a terminator. -/
def Terminated (b : LlvmBlock) : Prop :=
  b.instructions.getLast?.map LlvmInst.isTerminator = some true

instance (b : LlvmBlock) : Decidable b.Terminated := inferInstanceAs (Decidable (_ = _))

end LlvmBlock

/-- A function without blocks is a declaration; the entry block is the first. -/
structure LlvmFunction where
  id : Nat
  name : String
  linkage : Linkage
  blocks : List LlvmBlock
  deriving DecidableEq, Repr

namespace LlvmFunction

def references (f : LlvmFunction) : List Nat := f.blocks.flatMap LlvmBlock.references

/-- The entry block, if there is one, ends with a terminator. -/
def Terminated (f : LlvmFunction) : Prop :=
  match f.blocks with
  | [] => True
  | entry :: _ => entry.Terminated

instance : ∀ f : LlvmFunction, Decidable f.Terminated
  | ⟨_, _, _, []⟩ => inferInstanceAs (Decidable True)
  | ⟨_, _, _, entry :: _⟩ => inferInstanceAs (Decidable entry.Terminated)

end LlvmFunction

/-- The functions in the order in which they were made, and the next number. -/
structure LlvmModule where
  functions : List LlvmFunction
  nextId : Nat
  id_lt : ∀ f ∈ functions, f.id < nextId
  nodup : (functions.map LlvmFunction.id).Nodup

namespace LlvmModule

variable {m : LlvmModule}

def ids (m : LlvmModule) : List Nat := m.functions.map LlvmFunction.id

/-- Some function of the module refers to `id`. -/
def Referenced (m : LlvmModule) (id : Nat) : Prop := ∃ f ∈ m.functions, id ∈ f.references

instance (m : LlvmModule) (id : Nat) : Decidable (m.Referenced id) :=
  inferInstanceAs (Decidable (∃ f ∈ m.functions, id ∈ f.references))

theorem mem_ids {id : Nat} : id ∈ m.ids ↔ ∃ f ∈ m.functions, f.id = id := List.mem_map

/-- A number belongs to one function. -/
theorem eq_of_id_eq {f g : LlvmFunction} (hf : f ∈ m.functions) (hg : g ∈ m.functions)
    (h : f.id = g.id) : f = g := List.inj_on_of_nodup_map m.nodup hf hg h

theorem lt_of_mem_ids {id : Nat} (h : id ∈ m.ids) : id < m.nextId := by
  obtain ⟨f, hf, rfl⟩ := mem_ids.mp h
  exact m.id_lt f hf

theorem nextId_notMem (m : LlvmModule) : m.nextId ∉ m.ids :=
  fun h => Nat.lt_irrefl _ (lt_of_mem_ids h)

/-! ## New functions -/

theorem id_lt_addFunction (m : LlvmModule) (name : String) (linkage : Linkage)
    (blocks : List LlvmBlock) :
    ∀ f ∈ m.functions ++ [⟨m.nextId, name, linkage, blocks⟩], f.id < m.nextId + 1 := by
  intro f hf
  rcases List.mem_append.mp hf with hf | hf
  · exact Nat.lt_succ_of_lt (m.id_lt f hf)
  · rw [List.mem_singleton.mp hf]
    exact Nat.lt_succ_self _

theorem nodup_addFunction (m : LlvmModule) (name : String) (linkage : Linkage)
    (blocks : List LlvmBlock) : (List.map LlvmFunction.id
      (m.functions ++ [⟨m.nextId, name, linkage, blocks⟩])).Nodup := by
  rw [List.map_append, List.map_singleton]
  refine m.nodup.append (List.nodup_singleton _) (List.disjoint_singleton.mpr ?_)
  exact nextId_notMem m

def addFunction (m : LlvmModule) (name : String) (linkage : Linkage) (blocks : List LlvmBlock) :
    LlvmModule :=
  ⟨m.functions ++ [⟨m.nextId, name, linkage, blocks⟩], m.nextId + 1,
    id_lt_addFunction m name linkage blocks, nodup_addFunction m name linkage blocks⟩

@[simp] theorem addFunction_functions (m : LlvmModule) (name : String) (linkage : Linkage)
    (blocks : List LlvmBlock) : (m.addFunction name linkage blocks).functions =
      m.functions ++ [⟨m.nextId, name, linkage, blocks⟩] := rfl

@[simp] theorem addFunction_ids (m : LlvmModule) (name : String) (linkage : Linkage)
    (blocks : List LlvmBlock) : (m.addFunction name linkage blocks).ids = m.ids ++ [m.nextId] := by
  simp [ids]

/-! ## Changing a function -/

/-- `f` with `linkage` and `blocks` changed if it is the function `id`. -/
def modifyFunction (id : Nat) (linkage : Linkage → Linkage)
    (blocks : List LlvmBlock → List LlvmBlock) (f : LlvmFunction) : LlvmFunction :=
  if f.id = id then { f with linkage := linkage f.linkage, blocks := blocks f.blocks } else f

@[simp] theorem modifyFunction_id (id : Nat) (linkage : Linkage → Linkage)
    (blocks : List LlvmBlock → List LlvmBlock) (f : LlvmFunction) :
    (modifyFunction id linkage blocks f).id = f.id := by
  unfold modifyFunction
  split <;> rfl

theorem id_lt_modify (m : LlvmModule) (id : Nat) (linkage : Linkage → Linkage)
    (blocks : List LlvmBlock → List LlvmBlock) :
    ∀ f ∈ m.functions.map (modifyFunction id linkage blocks), f.id < m.nextId := by
  intro f hf
  obtain ⟨g, hg, rfl⟩ := List.mem_map.mp hf
  rw [modifyFunction_id]
  exact m.id_lt g hg

theorem nodup_modify (m : LlvmModule) (id : Nat) (linkage : Linkage → Linkage)
    (blocks : List LlvmBlock → List LlvmBlock) :
    ((m.functions.map (modifyFunction id linkage blocks)).map LlvmFunction.id).Nodup := by
  have hids : LlvmFunction.id ∘ modifyFunction id linkage blocks = LlvmFunction.id :=
    funext (modifyFunction_id id linkage blocks)
  rw [List.map_map, hids]
  exact m.nodup

/-- The function `id` changed in place. -/
def modify (m : LlvmModule) (id : Nat) (linkage : Linkage → Linkage)
    (blocks : List LlvmBlock → List LlvmBlock) : LlvmModule :=
  ⟨m.functions.map (modifyFunction id linkage blocks), m.nextId,
    id_lt_modify m id linkage blocks, nodup_modify m id linkage blocks⟩

/-- A change to the newest function leaves the others alone. -/
theorem modify_addFunction (m : LlvmModule) (name : String) (linkage : Linkage)
    (blocks : List LlvmBlock) (linkage' : Linkage → Linkage)
    (blocks' : List LlvmBlock → List LlvmBlock) :
    (m.addFunction name linkage blocks).modify m.nextId linkage' blocks' =
      m.addFunction name (linkage' linkage) (blocks' blocks) := by
  have hold : m.functions.map (modifyFunction m.nextId linkage' blocks') = m.functions := by
    refine (List.map_congr_left fun f hf => ?_).trans (List.map_id m.functions)
    exact if_neg (m.id_lt f hf).ne
  have hnew : modifyFunction m.nextId linkage' blocks' ⟨m.nextId, name, linkage, blocks⟩ =
      ⟨m.nextId, name, linkage' linkage, blocks' blocks⟩ := if_pos rfl
  unfold modify addFunction
  congr 1
  rw [List.map_append, hold, List.map_singleton, hnew]

def setLinkage (m : LlvmModule) (id : Nat) (linkage : Linkage) : LlvmModule :=
  m.modify id (fun _ => linkage) fun blocks => blocks

/-- Blocks with the instructions of the entry block changed. -/
def mapEntry (change : List LlvmInst → List LlvmInst) : List LlvmBlock → List LlvmBlock
  | [] => []
  | entry :: rest => { entry with instructions := change entry.instructions } :: rest

/-- The entry block of the function `id` changed in place. -/
def modifyEntry (m : LlvmModule) (id : Nat) (change : List LlvmInst → List LlvmInst) :
    LlvmModule :=
  m.modify id (fun linkage => linkage) (mapEntry change)

end LlvmModule

end ReWizard
