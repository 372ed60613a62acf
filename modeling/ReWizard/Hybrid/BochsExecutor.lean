import ReWizard.Hybrid.BochsInstrumentationBridge

/-!
# The executor

`BochsExecutor`: its own fields (`Executor`), and the Bochs instance that all executors of the
process share (`Emulator`). `LoadBinary` is the calls of `writePhysicalPage` that put a binary into
the physical memory of the guest; physical addresses are 64 bits. Bochs itself is a parameter
(`Bochs`).
-/

namespace ReWizard

/-- The size of a physical page, in `LoadBinary` and in Bochs. -/
def pageSize : Nat := 4096

/-- A call of `writePhysicalPage`. -/
structure PageWrite where
  addr : Nat
  bytes : List UInt8
  deriving DecidableEq, Repr

/-- Every byte that a call writes, with its address. -/
def PageWrite.stores (w : PageWrite) : List (Nat × UInt8) :=
  w.bytes.mapIdx fun i b => (addrAdd w.addr i, b)

namespace BochsExecutor

/-- The loop of `LoadBinary`, from `offset` on. -/
def writePages (data : List UInt8) (baseAddress offset : Nat) : List PageWrite :=
  if offset < data.length then
    let chunk := min pageSize (data.length - offset)
    ⟨addrAdd baseAddress offset, (data.drop offset).take chunk⟩ ::
      writePages data baseAddress (offset + pageSize)
  else []
  termination_by data.length - offset
  decreasing_by
    unfold pageSize
    omega

/-- `LoadBinary`: what it reports, and its calls. A null pointer is data without bytes here. -/
def loadBinary (coreInitialized : Bool) (data : List UInt8) (baseAddress : Nat) :
    Bool × List PageWrite :=
  if data = [] then (false, [])
  else if coreInitialized = false then (false, [])
  else (true, writePages data baseAddress 0)

end BochsExecutor

/-! ## Bochs -/

/-- What the executor uses of Bochs. -/
structure Bochs (M : Type) where
  /-- `bx_init_hardware`, configured with the image of a floppy disk, if the path is not empty. -/
  initHardware : String → BochsCore M
  /-- `bx_pc_system.Reset(BX_RESET_HARDWARE)`. -/
  reset : BochsCore M → BochsCore M
  writePhysicalPage : PageWrite → M → M
  /-- What is in the physical memory. -/
  physicalMemory : M → Nat → UInt8
  /-- `cpu_loop_debugger` up to a count of instructions: the states of the CPU before each
  instruction, and the one in which it stops. Other guards may stop it before the count does. -/
  cpuLoop : Nat → BochsCore M → List (BochsCore M) × BochsCore M

/-- The globals of the process: `SIM`, whether it has got through `bx_init_hardware`,
`g_bochsCoreInitialized`, the core and the bridge. -/
structure Emulator (M P : Type) where
  simInterface : Bool
  hardwareReady : Bool
  coreInitialized : Bool
  core : BochsCore M
  bridge : TraceBridge P

/-- The fields of an executor. The parsed images of system files are loaded and never read. -/
structure Executor (P : Type) where
  traceProducer : Option P := none
  initialized : Bool := false
  diskImagePath : String := ""

/-- `ZydisToBochsReg`. -/
def zydisToBochsReg : ZydisRegister → Option BochsReg
  | .gpr64 g => some (.gpr g)
  | .rip => some .rip
  | _ => none

namespace BochsExecutor

variable {M P : Type} (B : Bochs M)

/-- `Initialize`. `configures` is whether the configuration is read and the display library loaded;
`SIM` is set before that. -/
def initializeExecutor (configures : Bool) (x : Executor P) (s : Emulator M P) :
    Bool × Executor P × Emulator M P :=
  if s.coreInitialized then (true, { x with initialized := true }, s)
  else if s.simInterface then
    (true, { x with initialized := true },
      { s with core := B.reset s.core, coreInitialized := true })
  else if configures then
    (true, { x with initialized := true },
      { s with
        simInterface := true
        hardwareReady := true
        coreInitialized := true
        core := B.initHardware x.diskImagePath })
  else (false, x, { s with simInterface := true })

/-- `Shutdown`. -/
def shutdown (x : Executor P) : Executor P := { x with initialized := false }

/-- `LoadBinary` on the guest. -/
def loadGuest (data : List UInt8) (baseAddress : Nat) (s : Emulator M P) : Bool × Emulator M P :=
  let r := loadBinary s.coreInitialized data baseAddress
  (r.1, { s with core := { s.core with
    machine := r.2.foldl (fun m w => B.writePhysicalPage w m) s.core.machine } })

/-- `SetRegister`. -/
def setRegister (reg : ZydisRegister) (value : Nat) (s : Emulator M P) : Bool × Emulator M P :=
  match zydisToBochsReg reg with
  | none => (false, s)
  | some r =>
    if s.coreInitialized then (true, { s with core := s.core.setReg r value }) else (false, s)

/-- `GetRegister`: the value, if it succeeds. -/
def getRegister (reg : ZydisRegister) (s : Emulator M P) : Option Nat :=
  match zydisToBochsReg reg with
  | none => none
  | some r => if s.coreInitialized then some (s.core.genReg r) else none

/-- `cpu_loop_debugger`, with the callback before each instruction. -/
def runCpu (maxInstructions : Nat) (s : Emulator M P) : Emulator M P :=
  let r := B.cpuLoop maxInstructions s.core
  { s with core := r.2, bridge := r.1.foldl TraceBridge.beforeExecution s.bridge }

/-- `Execute`. -/
def execute (start maxInstructions : Nat) (x : Executor P) (s : Emulator M P) :
    Bool × Emulator M P :=
  if ¬ x.initialized then (false, s)
  else if ¬ s.coreInitialized then (false, s)
  else
    let s := if start ≠ 0 then { s with core := s.core.setReg .rip start } else s
    if maxInstructions = 0 then (true, s) else (true, runCpu B maxInstructions s)

/-- `SetTraceProducer`: the producer is that of the whole process. -/
def setTraceProducer (producer : Option P) (x : Executor P) (s : Emulator M P) :
    Executor P × Emulator M P :=
  ({ x with traceProducer := producer }, { s with bridge := s.bridge.setTraceProducer producer })

/-- `SetDiskImage`. -/
def setDiskImage (path : String) (x : Executor P) : Executor P := { x with diskImagePath := path }

/-- `BootFromDisk`. -/
def bootFromDisk (maxInstructions : Nat) (x : Executor P) (s : Emulator M P) :
    Bool × Emulator M P :=
  if ¬ x.initialized then (false, s)
  else if ¬ s.coreInitialized then (false, s)
  else if x.diskImagePath = "" then (false, s)
  else if maxInstructions = 0 then (true, s)
  else (true, runCpu B maxInstructions s)

end BochsExecutor

/-! ## Sessions -/

/-- A call on an executor. -/
inductive ExecutorCall (P : Type)
  | initializeExecutor (configures : Bool)
  | shutdown
  | loadBinary (data : List UInt8) (baseAddress : Nat)
  | setRegister (reg : ZydisRegister) (value : Nat)
  | getRegister (reg : ZydisRegister)
  | snapshot (name : String)
  | restore (name : String)
  | execute (start maxInstructions : Nat)
  | setTraceProducer (producer : Option P)
  | setDiskImage (path : String)
  | bootFromDisk (maxInstructions : Nat)

/-- What a call returns: nothing, success or failure, or the value of a register. -/
inductive ExecutorReply
  | void
  | ok (success : Bool)
  | register (value : Option Nat)
  deriving DecidableEq, Repr

/-- The calls, dispatched. `Snapshot` and `Restore` are not implemented and say so. -/
def ExecutorCall.apply {M P : Type} (B : Bochs M) (c : ExecutorCall P) (x : Executor P)
    (s : Emulator M P) : ExecutorReply × Executor P × Emulator M P :=
  match c with
  | .initializeExecutor configures =>
    let r := BochsExecutor.initializeExecutor B configures x s
    (.ok r.1, r.2)
  | .shutdown => (.void, BochsExecutor.shutdown x, s)
  | .loadBinary data baseAddress =>
    let r := BochsExecutor.loadGuest B data baseAddress s
    (.ok r.1, x, r.2)
  | .setRegister reg value =>
    let r := BochsExecutor.setRegister reg value s
    (.ok r.1, x, r.2)
  | .getRegister reg => (.register (BochsExecutor.getRegister reg s), x, s)
  | .snapshot _ => (.ok false, x, s)
  | .restore _ => (.ok false, x, s)
  | .execute start maxInstructions =>
    let r := BochsExecutor.execute B start maxInstructions x s
    (.ok r.1, x, r.2)
  | .setTraceProducer producer => (.void, BochsExecutor.setTraceProducer producer x s)
  | .setDiskImage path => (.void, BochsExecutor.setDiskImage path x, s)
  | .bootFromDisk maxInstructions =>
    let r := BochsExecutor.bootFromDisk B maxInstructions x s
    (.ok r.1, x, r.2)

/-- A call in a process with several executors, or on the bridge. -/
inductive ProcessCall (ι P : Type)
  | create (e : ι)
  | destroy (e : ι)
  | on (e : ι) (c : ExecutorCall P)
  | setTraceActive (active : Bool)

/-- The executors that exist, and the globals. -/
structure EmulatorProcess (M P ι : Type) where
  executors : ι → Option (Executor P)
  emulator : Emulator M P

namespace EmulatorProcess

variable {M P ι : Type} [DecidableEq ι]

def put (s : EmulatorProcess M P ι) (e : ι) (x : Option (Executor P)) : EmulatorProcess M P ι :=
  { s with executors := fun e' => if e' = e then x else s.executors e' }

@[simp] theorem put_self (s : EmulatorProcess M P ι) (e : ι) (x : Option (Executor P)) :
    (s.put e x).executors e = x := if_pos rfl

theorem put_other (s : EmulatorProcess M P ι) {e e' : ι} (h : e' ≠ e) (x : Option (Executor P)) :
    (s.put e x).executors e' = s.executors e' := if_neg h

@[simp] theorem put_emulator (s : EmulatorProcess M P ι) (e : ι) (x : Option (Executor P)) :
    (s.put e x).emulator = s.emulator := rfl

/-- A call that can be made: an executor is created once, and is there until it is destroyed. -/
def step (B : Bochs M) (s : EmulatorProcess M P ι) :
    ProcessCall ι P → Option (ExecutorReply × EmulatorProcess M P ι)
  | .create e =>
    match s.executors e with
    | none => some (.void, s.put e (some {}))
    | some _ => none
  | .destroy e => (s.executors e).map fun _ => (.void, s.put e none)
  | .on e c => (s.executors e).map fun x =>
    let r := c.apply B x s.emulator
    (r.1, { s.put e (some r.2.1) with emulator := r.2.2 })
  | .setTraceActive active =>
    some (.void, { s with
      emulator := { s.emulator with bridge := s.emulator.bridge.setTraceActive active } })

end EmulatorProcess

end ReWizard
