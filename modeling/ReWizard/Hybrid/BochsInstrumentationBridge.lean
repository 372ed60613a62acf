import ReWizard.Analysis.HybridAnalysis

/-!
# Records from Bochs

The instrumentation callback that Bochs makes before each instruction, with the two globals that
decide whether there is a record and who gets it. Bochs itself is not part of the repository: of its
state only `gen_reg` is read here, and the rest of the machine is a type `M`.
-/

namespace ReWizard

/-- An index of `gen_reg` that the sources name. -/
inductive BochsReg
  | gpr (g : Gpr)
  | rip
  deriving DecidableEq, Repr

/-- The one CPU, and the machine around it. -/
structure BochsCore (M : Type) where
  genReg : BochsReg → Nat
  machine : M

namespace BochsCore

variable {M : Type}

def setReg (core : BochsCore M) (r : BochsReg) (value : Nat) : BochsCore M :=
  { core with genReg := fun r' => if r' = r then value else core.genReg r' }

@[simp] theorem setReg_self (core : BochsCore M) (r : BochsReg) (value : Nat) :
    (core.setReg r value).genReg r = value := if_pos rfl

theorem setReg_other (core : BochsCore M) {r r' : BochsReg} (h : r' ≠ r) (value : Nat) :
    (core.setReg r value).genReg r' = core.genReg r' := if_neg h

@[simp] theorem setReg_machine (core : BochsCore M) (r : BochsReg) (value : Nat) :
    (core.setReg r value).machine = core.machine := rfl

/-- The record of the callback: the sixteen general registers, under their 64-bit names. The
instruction pointer is the `pc` of the record and not one of its registers. -/
def traceRecord (core : BochsCore M) : TraceRecord where
  pc := core.genReg .rip
  registers
    | .gpr64 g => some (core.genReg (.gpr g))
    | _ => none

end BochsCore

/-- `g_traceProducer` and `g_traceActive`, and what the producers were given so far. -/
structure TraceBridge (P : Type) where
  traceProducer : Option P := none
  traceActive : Bool := false
  records : List (P × TraceRecord) := []

namespace TraceBridge

variable {M P : Type}

/-- `ReWizard_SetBochsTraceProducer`. -/
def setTraceProducer (b : TraceBridge P) (producer : Option P) : TraceBridge P :=
  { b with traceProducer := producer }

/-- `ReWizard_SetBochsTraceActive`. -/
def setTraceActive (b : TraceBridge P) (active : Bool) : TraceBridge P :=
  { b with traceActive := active }

/-- `bx_instr_before_execution`. -/
def beforeExecution (b : TraceBridge P) (core : BochsCore M) : TraceBridge P :=
  if b.traceActive then
    match b.traceProducer with
    | none => b
    | some p => { b with records := b.records ++ [(p, core.traceRecord)] }
  else b

/-- The records that one producer was given. -/
def recordsOf [DecidableEq P] (b : TraceBridge P) (p : P) : List TraceRecord :=
  (b.records.filter fun r => decide (r.1 = p)).map (·.2)

end TraceBridge

end ReWizard
