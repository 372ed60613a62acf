import ReWizard.Analysis.Disassembler
import ReWizard.Analysis.Units
import ReWizard.IR.LlvmModule

/-!
# Lifting basic blocks to LLVM IR

`Lifter::LiftBasicBlock` as it is built with remill (`liftBasicBlock`). remill itself is a parameter
(`Remill`): the module of instruction semantics that a lifter starts with, the decoder, and what
lifting appends to a block. The function is in the shared module from where it is defined, and no
way out of `LiftBasicBlock` takes it out again.
-/

namespace ReWizard

/-- `remill::LiftStatus`. The lifter tells two of its values from the rest. -/
inductive LiftStatus
  | liftedInstruction
  | liftedUnsupportedInstruction
  | failed
  deriving DecidableEq, Repr

/-- What the lifter uses of remill for one architecture. Lifted code refers to functions of the
semantics only. -/
structure Remill where
  /-- What `LoadArchSemantics` and `PrepareModule` leave in the module of a new lifter. -/
  semantics : LlvmModule
  DecodingContext : Type
  Instruction : Type
  numBytes : Instruction → Nat
  isControlFlow : Instruction → Bool
  createInitialContext : DecodingContext
  /-- `DecodeInstruction` at an address, with the bytes from there on. -/
  decodeInstruction : Nat → List UInt8 → DecodingContext → Option (Instruction × DecodingContext)
  /-- The entry block of the function that `DefineLiftedFunction` adds. -/
  defineLiftedFunction : String → LlvmModule → Option LlvmBlock
  liftStatus : Instruction → LiftStatus
  /-- The instructions of a block after `LiftIntoBlock`. -/
  liftIntoBlock : Instruction → List LlvmInst → List LlvmInst
  /-- The instructions of a block after `LoadMemoryPointer`. -/
  loadMemoryPointer : List LlvmInst → List LlvmInst
  numBytes_pos : ∀ {address bytes context inst context'},
    decodeInstruction address bytes context = some (inst, context') → 0 < numBytes inst
  defineLiftedFunction_isSome : ∀ name m, (defineLiftedFunction name m).isSome = true
  semantics_references : ∀ f ∈ semantics.functions, ∀ r ∈ f.references, r ∈ semantics.ids
  defineLiftedFunction_references : ∀ {name m entry}, defineLiftedFunction name m = some entry →
    ∀ r ∈ entry.references, r ∈ semantics.ids
  liftIntoBlock_references : ∀ inst insts, ∀ r ∈ (liftIntoBlock inst insts).flatMap
    LlvmInst.references, r ∈ insts.flatMap LlvmInst.references ∨ r ∈ semantics.ids
  loadMemoryPointer_references : ∀ insts, ∀ r ∈ (loadMemoryPointer insts).flatMap
    LlvmInst.references, r ∈ insts.flatMap LlvmInst.references ∨ r ∈ semantics.ids

/-- `Lifter::LiftResult`; a function and its entry block are known by the function's number. -/
structure LiftResult where
  function : Option Nat := none
  entryBlock : Option Nat := none
  bytesConsumed : Nat := 0
  success : Bool := false
  errorMessage : String := ""
  deriving DecidableEq, Repr

/-- The store to `NEXT_PC`, the first if there are several, stores the block's address. -/
def setNextPc (baseAddress : Nat) : List LlvmInst → List LlvmInst
  | [] => []
  | .store (some "NEXT_PC") _ :: rest => .store (some "NEXT_PC") (some baseAddress) :: rest
  | i :: rest => i :: setNextPc baseAddress rest

/-- The function of a block as it enters the module: internal, and with its address in `NEXT_PC`. -/
def defineFunction (m : LlvmModule) (funcName : String) (entry : LlvmBlock) (baseAddress : Nat) :
    LlvmModule :=
  let func := m.nextId
  let m := m.addFunction funcName .external [entry]
  let m := m.setLinkage func .internal
  m.modifyEntry func (setNextPc baseAddress)

section

variable (R : Remill)

/-- The locals of `LiftBasicBlock` and the shared module. -/
structure LiftState where
  module : LlvmModule
  context : R.DecodingContext
  offset : Nat := 0
  errorMessage : Option String := none

/-- A decoded instruction lifted into the entry block of `func`. -/
def LiftState.lift {R : Remill} (s : LiftState R) (func : Nat) (inst : R.Instruction)
    (context : R.DecodingContext) : LiftState R :=
  { s with context := context, module := s.module.modifyEntry func (R.liftIntoBlock inst) }

/-- One instruction. A function that is left half-way stays in the module as it is. -/
def liftStep (baseAddress : Nat) (bytes : List UInt8) (func : Nat) (s : LiftState R) :
    Loop.Out (LiftState R) :=
  if ¬ s.offset < bytes.length then .done s
  else
    match R.decodeInstruction (addrAdd baseAddress s.offset) (bytes.drop s.offset) s.context with
    | none =>
      .done { s with
        errorMessage := some ("Failed to decode instruction at offset " ++ toString s.offset) }
    | some (inst, context) =>
      let s := s.lift func inst context
      if R.liftStatus inst = .failed then
        .done { s with
          errorMessage := some ("Failed to lift instruction at offset " ++ toString s.offset) }
      else
        let s := { s with offset := s.offset + R.numBytes inst }
        if R.isControlFlow inst then .done s else .next s

/-- `LiftBasicBlock`. A null pointer is the empty list, as the length counts for nothing then. -/
def liftBasicBlock (m : LlvmModule) (bytes : List UInt8) (baseAddress : Nat) :
    LiftResult × LlvmModule :=
  if bytes = [] then ({ errorMessage := "Empty input bytes" }, m)
  else
    let funcName := "bb_" ++ hex baseAddress
    match R.defineLiftedFunction funcName m with
    | none => ({ errorMessage := "Failed to define lifted function" }, m)
    | some entry =>
      let func := m.nextId
      let s := Loop.exec (liftStep R baseAddress bytes func) (bytes.length + 1)
        ⟨defineFunction m funcName entry baseAddress, R.createInitialContext, 0, none⟩
      match s.errorMessage with
      | some message => ({ errorMessage := message }, s.module)
      | none =>
        ({ success := true, bytesConsumed := s.offset, function := some func,
           entryBlock := some func },
          s.module.modifyEntry func fun insts => R.loadMemoryPointer insts ++ [.ret])

end

/-! ## Sample -/

namespace Sample

/-- `nop` and `ret`. -/
def decodeInstruction (_ : Nat) (bytes : List UInt8) (_ : Unit) : Option (UInt8 × Unit) :=
  match bytes with
  | 0x90 :: _ => some (0x90, ())
  | 0xC3 :: _ => some (0xC3, ())
  | _ => none

def intrinsics : LlvmFunction := ⟨0, "__remill_intrinsics", .external, [{ instructions := [.ret] }]⟩

theorem intrinsics_id_lt : ∀ f ∈ [intrinsics], f.id < 1 := by decide

def semantics : LlvmModule := ⟨[intrinsics], 1, intrinsics_id_lt, List.nodup_singleton _⟩

def entryBlock : LlvmBlock :=
  { instructions := [.other false, .store (some "NEXT_PC") none] }

def liftIntoBlock (_ : UInt8) (insts : List LlvmInst) : List LlvmInst := insts ++ [.call 0]

def loadMemoryPointer (insts : List LlvmInst) : List LlvmInst := insts ++ [.other false]

theorem numBytes_pos {address : Nat} {bytes : List UInt8} {context : Unit} {inst : UInt8}
    {context' : Unit} (_ : decodeInstruction address bytes context = some (inst, context')) :
    0 < 1 := Nat.one_pos

theorem semantics_references : ∀ f ∈ semantics.functions, ∀ r ∈ f.references, r ∈ semantics.ids := by
  decide

theorem entryBlock_references : ∀ r ∈ entryBlock.references, r ∈ semantics.ids := by decide

theorem liftIntoBlock_references (inst : UInt8) (insts : List LlvmInst) :
    ∀ r ∈ (liftIntoBlock inst insts).flatMap LlvmInst.references,
      r ∈ insts.flatMap LlvmInst.references ∨ r ∈ semantics.ids := by
  intro r hr
  unfold liftIntoBlock at hr
  rw [List.flatMap_append] at hr
  refine (List.mem_append.mp hr).imp_right fun hcall => ?_
  rw [List.mem_singleton.mp hcall]
  decide

theorem loadMemoryPointer_references (insts : List LlvmInst) :
    ∀ r ∈ (loadMemoryPointer insts).flatMap LlvmInst.references,
      r ∈ insts.flatMap LlvmInst.references ∨ r ∈ semantics.ids := by
  intro r hr
  unfold loadMemoryPointer at hr
  rw [List.flatMap_append] at hr
  exact (List.mem_append.mp hr).imp_right fun hother => nomatch hother

theorem defineLiftedFunction_references {entry : LlvmBlock} (h : some entryBlock = some entry) :
    ∀ r ∈ entry.references, r ∈ semantics.ids := by
  cases h
  exact entryBlock_references

end Sample

/-- A small remill for examples: it decodes `nop` and `ret`, and the semantics are one function that
lifted instructions call. -/
def sampleRemill : Remill where
  semantics := Sample.semantics
  DecodingContext := Unit
  Instruction := UInt8
  numBytes _ := 1
  isControlFlow inst := decide (inst = 0xC3)
  createInitialContext := ()
  decodeInstruction := Sample.decodeInstruction
  defineLiftedFunction _ _ := some Sample.entryBlock
  liftStatus _ := .liftedInstruction
  liftIntoBlock := Sample.liftIntoBlock
  loadMemoryPointer := Sample.loadMemoryPointer
  numBytes_pos := Sample.numBytes_pos
  defineLiftedFunction_isSome _ _ := rfl
  semantics_references := Sample.semantics_references
  defineLiftedFunction_references := Sample.defineLiftedFunction_references
  liftIntoBlock_references := Sample.liftIntoBlock_references
  loadMemoryPointer_references := Sample.loadMemoryPointer_references

end ReWizard
