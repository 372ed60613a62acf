import ReWizard.Lib.History
import ReWizard.Lib.Overlay
import ReWizard.Hybrid.BochsExecutor
import Mathlib.Logic.Function.Basic

/-!
# Sessions with executors

Any number of executors, created and destroyed in any order, share one Bochs core. What their calls
reply, and what it takes for the core to be there:

* `replies_of_history`: every reply is decided by the calls and replies before it. The check of the
  core in `Execute` and `BootFromDisk` never fails where the check of the executor passes;
* `initializedOverNothing_iff`: the core counts as initialised without its hardware exactly when the
  first `Initialize` failed and there was another one.
-/

namespace ReWizard

open History

variable {M P ι : Type} {B : Bochs M}

/-- Before the first call. `SIM` is set if another component has brought Bochs up. -/
def EmulatorProcess.start (sim : Bool) (core : BochsCore M) : EmulatorProcess M P ι where
  executors := fun _ => none
  emulator := ⟨sim, sim, false, core, {}⟩

/-! ## What each call does -/

/-- The flags of the process are the same. -/
structure Emulator.SameFlags (s s' : Emulator M P) : Prop where
  simInterface : s'.simInterface = s.simInterface
  hardwareReady : s'.hardwareReady = s.hardwareReady
  coreInitialized : s'.coreInitialized = s.coreInitialized

theorem Emulator.SameFlags.refl (s : Emulator M P) : s.SameFlags s := ⟨rfl, rfl, rfl⟩

namespace BochsExecutor

variable (x : Executor P) (s : Emulator M P)

/-- The ways an `Initialize` goes: the core is up, it is taken over from whoever made the interface,
it is brought up, or that fails. -/
inductive InitializeOut (B : Bochs M) (x : Executor P) (s : Emulator M P) (configures : Bool) :
    Bool × Executor P × Emulator M P → Prop
  | again (hcore : s.coreInitialized = true) :
    InitializeOut B x s configures (true, { x with initialized := true }, s)
  | taken (hcore : s.coreInitialized = false) (hsim : s.simInterface = true) :
    InitializeOut B x s configures (true, { x with initialized := true },
      { s with core := B.reset s.core, coreInitialized := true })
  | brought (hcore : s.coreInitialized = false) (hsim : s.simInterface = false)
    (hconf : configures = true) :
    InitializeOut B x s configures (true, { x with initialized := true },
      { s with
        simInterface := true
        hardwareReady := true
        coreInitialized := true
        core := B.initHardware x.diskImagePath })
  | failed (hcore : s.coreInitialized = false) (hsim : s.simInterface = false)
    (hconf : configures = false) :
    InitializeOut B x s configures (false, x, { s with simInterface := true })

theorem initializeExecutor_out (configures : Bool) :
    InitializeOut B x s configures (initializeExecutor B configures x s) := by
  unfold initializeExecutor
  split
  · rename_i hcore
    exact .again hcore
  · rename_i hcore
    rw [Bool.not_eq_true] at hcore
    split
    · rename_i hsim
      exact .taken hcore hsim
    · rename_i hsim
      rw [Bool.not_eq_true] at hsim
      split
      · rename_i hconf
        exact .brought hcore hsim hconf
      · rename_i hconf
        exact .failed hcore hsim (Bool.eq_false_iff.mpr hconf)

/-- An `Initialize` as the flags see it. -/
structure InitializeFlags (x : Executor P) (s : Emulator M P) (configures : Bool)
    (r : Bool × Executor P × Emulator M P) : Prop where
  reply : r.1 = (s.simInterface || configures)
  simInterface : r.2.2.simInterface = true
  coreInitialized : r.2.2.coreInitialized = (s.coreInitialized || r.1)
  initialized : r.2.1.initialized = (x.initialized || r.1)
  diskImagePath : r.2.1.diskImagePath = x.diskImagePath

theorem InitializeOut.flags {x : Executor P} {s : Emulator M P} {configures : Bool}
    {r : Bool × Executor P × Emulator M P} (h : InitializeOut B x s configures r)
    (hcore : s.coreInitialized = true → s.simInterface = true) :
    InitializeFlags x s configures r := by
  cases h with
  | again hup =>
    have hsim := hcore hup
    exact ⟨by simp [hsim], hsim, by simp [hup], by simp, rfl⟩
  | taken hup hsim => exact ⟨by simp [hsim], hsim, by simp, by simp, rfl⟩
  | brought hup hsim hconf => exact ⟨by simp [hconf], rfl, by simp, by simp, rfl⟩
  | failed hup hsim hconf => exact ⟨by simp [hsim, hconf], rfl, by simp, by simp, rfl⟩

theorem setRegister_flags (reg : ZydisRegister) (value : Nat) :
    s.SameFlags (setRegister reg value s).2 := by
  unfold setRegister
  cases zydisToBochsReg reg with
  | none => exact .refl s
  | some r =>
    dsimp only
    split
    · exact ⟨rfl, rfl, rfl⟩
    · exact .refl s

/-- What `Execute` does when it is let through. -/
def started (B : Bochs M) (start maxInstructions : Nat) (s : Emulator M P) : Emulator M P :=
  let s := if start ≠ 0 then { s with core := s.core.setReg .rip start } else s
  if maxInstructions = 0 then s else runCpu B maxInstructions s

theorem execute_eq (start maxInstructions : Nat) :
    execute B start maxInstructions x s =
      if x.initialized ∧ s.coreInitialized then (true, started B start maxInstructions s)
      else (false, s) := by
  unfold execute started
  cases x.initialized with
  | false => rfl
  | true =>
    cases s.coreInitialized with
    | false => rfl
    | true =>
      simp only [not_true, if_false, and_self, if_true]
      exact (apply_ite (Prod.mk true) _ _ _).symm

theorem bootFromDisk_eq (maxInstructions : Nat) :
    bootFromDisk B maxInstructions x s =
      if x.initialized ∧ s.coreInitialized ∧ x.diskImagePath ≠ "" then
        (true, started B 0 maxInstructions s)
      else (false, s) := by
  unfold bootFromDisk started
  cases x.initialized with
  | false => rfl
  | true =>
    cases s.coreInitialized with
    | false => rfl
    | true =>
      by_cases hdisk : x.diskImagePath = ""
      · simp [hdisk]
      · simp only [not_true, if_false, hdisk, ne_eq, not_false_eq_true, and_self, if_true]
        exact (apply_ite (Prod.mk true) _ _ _).symm

theorem started_flags (start maxInstructions : Nat) :
    s.SameFlags (started B start maxInstructions s) := by
  unfold started
  by_cases hstart : start ≠ 0
  · by_cases hmax : maxInstructions = 0
    · simp only [if_pos hstart, if_pos hmax]
      exact ⟨rfl, rfl, rfl⟩
    · simp only [if_pos hstart, if_neg hmax]
      exact ⟨rfl, rfl, rfl⟩
  · by_cases hmax : maxInstructions = 0
    · simp only [if_neg hstart, if_pos hmax]
      exact .refl s
    · simp only [if_neg hstart, if_neg hmax]
      exact ⟨rfl, rfl, rfl⟩

theorem execute_flags (start maxInstructions : Nat) :
    s.SameFlags (execute B start maxInstructions x s).2 := by
  rw [execute_eq]
  split
  · exact started_flags s start maxInstructions
  · exact .refl s

theorem bootFromDisk_flags (maxInstructions : Nat) :
    s.SameFlags (bootFromDisk B maxInstructions x s).2 := by
  rw [bootFromDisk_eq]
  split
  · exact started_flags s 0 maxInstructions
  · exact .refl s

end BochsExecutor

open BochsExecutor

/-- Only `Initialize` changes a flag of the process. -/
theorem ExecutorCall.apply_flags {c : ExecutorCall P} (x : Executor P) (s : Emulator M P)
    (h : ∀ configures, c ≠ .initializeExecutor configures) :
    s.SameFlags (c.apply B x s).2.2 := by
  cases c with
  | initializeExecutor configures => exact absurd rfl (h configures)
  | loadBinary data baseAddress => exact ⟨rfl, rfl, rfl⟩
  | setRegister reg value => exact setRegister_flags s reg value
  | execute start maxInstructions => exact execute_flags x s start maxInstructions
  | bootFromDisk maxInstructions => exact bootFromDisk_flags x s maxInstructions
  | setTraceProducer producer => exact ⟨rfl, rfl, rfl⟩
  | shutdown => exact .refl s
  | getRegister reg => exact .refl s
  | snapshot name => exact .refl s
  | restore name => exact .refl s
  | setDiskImage path => exact .refl s

/-- Only `Initialize` and `Shutdown` change whether an executor is initialised. -/
theorem ExecutorCall.apply_initialized {c : ExecutorCall P} (x : Executor P) (s : Emulator M P)
    (h : ∀ configures, c ≠ .initializeExecutor configures) (h' : c ≠ .shutdown) :
    (c.apply B x s).2.1.initialized = x.initialized := by
  cases c with
  | initializeExecutor configures => exact absurd rfl (h configures)
  | shutdown => exact absurd rfl h'
  | _ => rfl

/-! ## What a history says -/

/-- What the calls and replies so far say: whether there is an interface and a core, which executors
are initialised, and the disk image that each was given. -/
structure Seen (ι : Type) where
  interface : Bool
  core : Bool := false
  up : ι → Bool := fun _ => false
  disk : ι → String := fun _ => ""

def Seen.next [DecidableEq ι] (k : Seen ι) : ProcessCall ι P × ExecutorReply → Seen ι
  | (.create e, _) =>
    { k with up := Function.update k.up e false, disk := Function.update k.disk e "" }
  | (.on e (.initializeExecutor _), .ok success) =>
    { k with
      interface := true
      core := k.core || success
      up := Function.update k.up e (k.up e || success) }
  | (.on e .shutdown, _) => { k with up := Function.update k.up e false }
  | (.on e (.setDiskImage path), _) => { k with disk := Function.update k.disk e path }
  | _ => k

/-- The reply that is due to a call. -/
def Seen.Due (k : Seen ι) : ProcessCall ι P → ExecutorReply → Prop
  | .on _ (.initializeExecutor configures), r => r = .ok (k.interface || configures)
  | .on _ (.loadBinary data _), r => r = .ok (decide (data ≠ []) && k.core)
  | .on _ (.setRegister reg _), r => r = .ok ((zydisToBochsReg reg).isSome && k.core)
  | .on _ (.getRegister reg), r =>
    ∃ v : Option Nat, r = .register v ∧ v.isSome = ((zydisToBochsReg reg).isSome && k.core)
  | .on _ (.snapshot _), r | .on _ (.restore _), r => r = .ok false
  | .on e (.execute _ _), r => r = .ok (k.up e)
  | .on e (.bootFromDisk _), r => r = .ok (k.up e && decide (k.disk e ≠ ""))
  | .on _ .shutdown, r | .on _ (.setTraceProducer _), r | .on _ (.setDiskImage _), r
  | .create _, r | .destroy _, r | .setTraceActive _, r => r = .void

/-- What was seen is so. An executor is initialised only once the core is. -/
structure Seen.Of (k : Seen ι) (s : EmulatorProcess M P ι) : Prop where
  interface : s.emulator.simInterface = k.interface
  core : s.emulator.coreInitialized = k.core
  coreInterface : k.core = true → k.interface = true
  upCore : ∀ e, k.up e = true → k.core = true
  executors : ∀ e x, s.executors e = some x → x.initialized = k.up e ∧ x.diskImagePath = k.disk e

namespace Seen.Of

theorem start (sim : Bool) (core : BochsCore M) :
    Seen.Of (ι := ι) { interface := sim } (EmulatorProcess.start (P := P) sim core) where
  interface := rfl
  core := rfl
  coreInterface := fun h => (by cases h)
  upCore := fun _ h => (by cases h)
  executors := fun _ _ h => (by cases h)

variable {k k' : Seen ι} {s s' : EmulatorProcess M P ι}

/-- What concerns one executor only. -/
theorem change (h : k.Of s) (e : ι)
    (hother : ∀ e', e' ≠ e → s'.executors e' = s.executors e' ∧ k'.up e' = k.up e' ∧
      k'.disk e' = k.disk e')
    (hself : ∀ x, s'.executors e = some x → x.initialized = k'.up e ∧ x.diskImagePath = k'.disk e)
    (hup : k'.up e = true → k'.core = true)
    (hinterface : s'.emulator.simInterface = k'.interface)
    (hcore : s'.emulator.coreInitialized = k'.core) (hmono : k.core = true → k'.core = true)
    (hcoreInterface : k'.core = true → k'.interface = true) : k'.Of s' where
  interface := hinterface
  core := hcore
  coreInterface := hcoreInterface
  upCore := fun e' h' => by
    by_cases he : e' = e
    · subst he
      exact hup h'
    · rw [(hother e' he).2.1] at h'
      exact hmono (h.upCore e' h')
  executors := fun e' x hx => by
    by_cases he : e' = e
    · subst he
      exact hself x hx
    · obtain ⟨hs, hup', hdisk⟩ := hother e' he
      rw [hup', hdisk]
      exact h.executors e' x (hs.symm.trans hx)

variable [DecidableEq ι]

/-- Of an executor that there is, other things are known. -/
theorem put (h : k.Of s) (e : ι) (x : Option (Executor P)) (b : Bool) (path : String)
    (hx : ∀ y, x = some y → y.initialized = b ∧ y.diskImagePath = path)
    (hb : b = true → k.core = true) :
    Seen.Of ⟨k.interface, k.core, Function.update k.up e b, Function.update k.disk e path⟩
      (s.put e x) := by
  refine h.change e (fun e' he => ⟨s.put_other he x, Function.update_of_ne he _ _,
    Function.update_of_ne he _ _⟩) (fun y hy => ?_) (fun hup => ?_) h.interface h.core id
    h.coreInterface
  · simp only [Function.update_self]
    exact hx y ((s.put_self e x).symm.trans hy)
  · simp only [Function.update_self] at hup
    exact hb hup

/-- Of no executor other things are known. -/
theorem same (h : k.Of s) {e : ι} {x x' : Executor P} {emulator : Emulator M P}
    (hx : s.executors e = some x) (hflags : s.emulator.SameFlags emulator)
    (hup : x'.initialized = x.initialized) (hdisk : x'.diskImagePath = x.diskImagePath) :
    k.Of { s.put e (some x') with emulator := emulator } := by
  refine h.change e (fun e' he => ⟨s.put_other he _, rfl, rfl⟩) (fun y hy => ?_) (h.upCore e)
    (hflags.simInterface.trans h.interface) (hflags.coreInitialized.trans h.core) id
    h.coreInterface
  cases (s.put_self e (some x')).symm.trans hy
  obtain ⟨hinit, hpath⟩ := h.executors e x hx
  exact ⟨hup.trans hinit, hdisk.trans hpath⟩

/-- After an `Initialize` there is an interface, and a core if it succeeded. -/
theorem initializeExecutor (h : k.Of s) {e : ι} {x : Executor P} {configures : Bool}
    (hx : s.executors e = some x) {r : Bool × Executor P × Emulator M P}
    (hr : InitializeFlags x s.emulator configures r) :
    Seen.Of ⟨true, k.core || r.1, Function.update k.up e (k.up e || r.1), k.disk⟩
      { s.put e (some r.2.1) with emulator := r.2.2 } := by
  obtain ⟨hinit, hpath⟩ := h.executors e x hx
  refine h.change e (fun e' he => ⟨s.put_other he _, Function.update_of_ne he _ _, rfl⟩)
    (fun y hy => ?_) (fun hup => ?_) hr.simInterface ?_ (fun hcore => by simp [hcore])
    fun _ => rfl
  · cases (s.put_self e (some r.2.1)).symm.trans hy
    simp only [Function.update_self]
    exact ⟨by rw [hr.initialized, hinit], hr.diskImagePath.trans hpath⟩
  · simp only [Function.update_self, Bool.or_eq_true] at hup ⊢
    exact hup.imp (h.upCore e) id
  · show r.2.2.coreInitialized = (k.core || r.1)
    rw [hr.coreInitialized, h.core]

end Seen.Of

/-! ## Replies -/

variable [DecidableEq ι]

theorem setRegister_reply (reg : ZydisRegister) (value : Nat) (s : Emulator M P) :
    (setRegister reg value s).1 = ((zydisToBochsReg reg).isSome && s.coreInitialized) := by
  unfold setRegister
  cases zydisToBochsReg reg with
  | none => rfl
  | some r => cases s.coreInitialized <;> rfl

theorem getRegister_isSome (reg : ZydisRegister) (s : Emulator M P) :
    (getRegister reg s).isSome = ((zydisToBochsReg reg).isSome && s.coreInitialized) := by
  unfold getRegister
  cases zydisToBochsReg reg with
  | none => rfl
  | some r => cases s.coreInitialized <;> rfl

theorem loadGuest_reply (data : List UInt8) (baseAddress : Nat) (s : Emulator M P) :
    (loadGuest B data baseAddress s).1 = (decide (data ≠ []) && s.coreInitialized) := by
  show (loadBinary s.coreInitialized data baseAddress).1 = _
  unfold loadBinary
  by_cases hdata : data = []
  · simp [hdata]
  · cases s.coreInitialized <;> simp [hdata]

/-- The flags of a call on one executor, and its reply. -/
theorem Seen.Of.on {k : Seen ι} {s : EmulatorProcess M P ι} (h : k.Of s) {e : ι} {x : Executor P}
    (hx : s.executors e = some x) (c : ExecutorCall P) :
    k.Due (.on e c) (c.apply B x s.emulator).1 ∧
      (k.next (.on e c, (c.apply B x s.emulator).1)).Of
        { s.put e (some (c.apply B x s.emulator).2.1) with
          emulator := (c.apply B x s.emulator).2.2 } := by
  obtain ⟨hinit, hpath⟩ := h.executors e x hx
  have hquiet (hc : ∀ configures, c ≠ .initializeExecutor configures) (hs : c ≠ .shutdown)
      (hdisk : (c.apply B x s.emulator).2.1.diskImagePath = x.diskImagePath) :=
    h.same hx (ExecutorCall.apply_flags (B := B) x s.emulator hc)
      (ExecutorCall.apply_initialized x s.emulator hc hs) hdisk
  cases c with
  | initializeExecutor configures =>
    have hr := (initializeExecutor_out (B := B) x s.emulator configures).flags fun hcore => by
      rw [h.interface]
      exact h.coreInterface (h.core.symm.trans hcore)
    refine ⟨?_, h.initializeExecutor hx hr⟩
    show ExecutorReply.ok _ = .ok _
    rw [hr.reply, h.interface]
  | shutdown =>
    have hput := h.put e (some (shutdown x)) false (k.disk e)
      (fun y hy => by cases hy; exact ⟨rfl, hpath⟩) (fun hb => by cases hb)
    rw [Function.update_eq_self] at hput
    exact ⟨rfl, hput⟩
  | setDiskImage path =>
    have hput := h.put e (some (setDiskImage path x)) (k.up e) path
      (fun y hy => by cases hy; exact ⟨hinit, rfl⟩) (h.upCore e)
    rw [Function.update_eq_self] at hput
    exact ⟨rfl, hput⟩
  | loadBinary data baseAddress =>
    refine ⟨?_, hquiet (by simp) (by simp) rfl⟩
    show ExecutorReply.ok _ = .ok _
    rw [loadGuest_reply, h.core]
  | setRegister reg value =>
    refine ⟨?_, hquiet (by simp) (by simp) rfl⟩
    show ExecutorReply.ok _ = .ok _
    rw [setRegister_reply, h.core]
  | getRegister reg =>
    refine ⟨⟨_, rfl, ?_⟩, hquiet (by simp) (by simp) rfl⟩
    rw [getRegister_isSome, h.core]
  | execute start maxInstructions =>
    refine ⟨?_, hquiet (by simp) (by simp) rfl⟩
    show ExecutorReply.ok (execute B start maxInstructions x s.emulator).1 = .ok _
    rw [execute_eq, hinit, h.core]
    cases hup : k.up e with
    | false => rfl
    | true => rw [h.upCore e hup]; rfl
  | bootFromDisk maxInstructions =>
    refine ⟨?_, hquiet (by simp) (by simp) rfl⟩
    show ExecutorReply.ok (bootFromDisk B maxInstructions x s.emulator).1 = .ok _
    rw [bootFromDisk_eq, hinit, h.core, hpath]
    cases hup : k.up e with
    | false => rfl
    | true =>
      rw [h.upCore e hup]
      by_cases hdisk : k.disk e = "" <;> simp [hdisk]
  | setTraceProducer producer => exact ⟨rfl, hquiet (by simp) (by simp) rfl⟩
  | snapshot name => exact ⟨rfl, hquiet (by simp) (by simp) rfl⟩
  | restore name => exact ⟨rfl, hquiet (by simp) (by simp) rfl⟩

/-- One call, by what was seen before it. -/
theorem Seen.Of.step {k : Seen ι} {s s' : EmulatorProcess M P ι} (h : k.Of s)
    {c : ProcessCall ι P} {r : ExecutorReply} (hs : s.step B c = some (r, s')) :
    k.Due c r ∧ (k.next (c, r)).Of s' := by
  cases c with
  | create e =>
    simp only [EmulatorProcess.step] at hs
    split at hs
    · cases hs
      exact ⟨rfl, h.put e (some {}) false "" (fun y hy => by cases hy; exact ⟨rfl, rfl⟩)
        fun hb => by cases hb⟩
    · cases hs
  | destroy e =>
    obtain ⟨x, hx, heq⟩ := Option.map_eq_some_iff.mp hs
    cases heq
    refine ⟨rfl, h.change e (fun e' he => ⟨s.put_other he none, rfl, rfl⟩) (fun y hy => ?_)
      (h.upCore e) h.interface h.core id h.coreInterface⟩
    rw [EmulatorProcess.put_self] at hy
    cases hy
  | on e c =>
    obtain ⟨x, hx, heq⟩ := Option.map_eq_some_iff.mp hs
    cases heq
    exact h.on hx c
  | setTraceActive active =>
    cases hs
    exact ⟨rfl, h.interface, h.core, h.coreInterface, h.upCore, h.executors⟩

/-- **Replies**: in every session, a call replies what is due after the calls and replies before
it. -/
theorem replies_of_history {sim : Bool} {core : BochsCore M}
    {h : List (ProcessCall ι P × ExecutorReply)} {s s' : EmulatorProcess M P ι}
    (hrun : Run (EmulatorProcess.step B) (.start sim core) h s) {c : ProcessCall ι P}
    {r : ExecutorReply} (hs : s.step B c = some (r, s')) :
    (h.foldl Seen.next ({ interface := sim } : Seen ι)).Due c r :=
  ((hrun.tracks Seen.Of (fun _ => True) Seen.next (Seen.Of.start sim core) (fun _ _ => trivial)
    fun _ _ _ _ _ hu _ hu' => (hu.step hu').2).step hs).1

/-- A Bochs whose instructions are a byte long and do nothing. -/
def nopBochs : Bochs (Nat → UInt8) where
  initHardware := fun _ => ⟨fun _ => 0, fun _ => 0⟩
  reset := id
  writePhysicalPage := fun w m => Overlay.patch m (Overlay.range w.addr w.bytes)
  physicalMemory := id
  cpuLoop := fun n core =>
    ((List.range n).map fun i => core.setReg .rip (core.genReg .rip + i),
      core.setReg .rip (core.genReg .rip + n))

/-- A process that has no Bochs yet. -/
def nopStart : EmulatorProcess (Nat → UInt8) Unit Nat := .start false ⟨fun _ => 0, fun _ => 0⟩

/-- The first of two executors is initialised. -/
def oneOfTwo : List (ProcessCall Nat Unit × ExecutorReply) :=
  [(.create 0, .void), (.create 1, .void), (.on 0 (.initializeExecutor true), .ok true)]

/-- The second one does not execute. -/
theorem oneOfTwo_due : ∃ s s', Run (EmulatorProcess.step nopBochs) nopStart oneOfTwo s ∧
    s.step nopBochs (.on 1 (.execute 0 1)) = some (.ok false, s') ∧
    (oneOfTwo.foldl Seen.next ({ interface := false } : Seen Nat)).Due
      (.on 1 (.execute 0 1) : ProcessCall Nat Unit) (.ok false) := by
  have hrun : Run (EmulatorProcess.step nopBochs) nopStart oneOfTwo _ :=
    .cons rfl (.cons rfl (.single rfl))
  exact ⟨_, _, hrun, rfl, replies_of_history hrun rfl⟩

/-! ## A core without its hardware -/

/-- What an `Initialize` replied. -/
def initializeReply : ProcessCall ι P × ExecutorReply → Option Bool
  | (.on _ (.initializeExecutor _), .ok success) => some success
  | _ => none

/-- A call is an `Initialize`, or leaves the flags of the process. -/
theorem step_flags {s s' : EmulatorProcess M P ι} {c : ProcessCall ι P} {r : ExecutorReply}
    (hs : s.step B c = some (r, s')) :
    (initializeReply (c, r) = none ∧ s.emulator.SameFlags s'.emulator) ∨
      ∃ x configures ρ, InitializeOut B x s.emulator configures ρ ∧
        initializeReply (c, r) = some ρ.1 ∧ s'.emulator = ρ.2.2 := by
  cases c with
  | create e =>
    simp only [EmulatorProcess.step] at hs
    split at hs
    · cases hs
      exact .inl ⟨rfl, .refl _⟩
    · cases hs
  | destroy e =>
    obtain ⟨x, -, heq⟩ := Option.map_eq_some_iff.mp hs
    cases heq
    exact .inl ⟨rfl, .refl _⟩
  | setTraceActive active =>
    cases hs
    exact .inl ⟨rfl, rfl, rfl, rfl⟩
  | on e c =>
    obtain ⟨x, -, heq⟩ := Option.map_eq_some_iff.mp hs
    cases heq
    by_cases hc : ∃ configures, c = .initializeExecutor configures
    · obtain ⟨configures, rfl⟩ := hc
      exact .inr ⟨x, configures, _, initializeExecutor_out x s.emulator configures, rfl, rfl⟩
    · have hne : ∀ configures, c ≠ .initializeExecutor configures := fun b hb => hc ⟨b, hb⟩
      refine .inl ⟨?_, ExecutorCall.apply_flags x s.emulator hne⟩
      unfold initializeReply
      split
      · rename_i heq
        cases heq
        exact absurd rfl (hne _)
      · rfl

/-- The flags after the `Initialize` calls with these replies. -/
def FlagsAfter (s : Emulator M P) : List Bool → Prop
  | [] => s.coreInitialized = false ∧ s.simInterface = s.hardwareReady
  | true :: _ => s.coreInitialized = true ∧ s.hardwareReady = true
  | [false] => s.coreInitialized = false ∧ s.simInterface = true ∧ s.hardwareReady = false
  | false :: _ :: _ => s.coreInitialized = true ∧ s.hardwareReady = false

theorem FlagsAfter.same {s s' : Emulator M P} {l : List Bool} (h : FlagsAfter s l)
    (hsame : s.SameFlags s') : FlagsAfter s' l := by
  obtain ⟨hsim, hhard, hcore⟩ := hsame
  unfold FlagsAfter at h ⊢
  rw [hsim, hhard, hcore]
  exact h

theorem FlagsAfter.initializeExecutor {s : Emulator M P} {l : List Bool} (h : FlagsAfter s l)
    {x : Executor P} {configures : Bool} {ρ : Bool × Executor P × Emulator M P}
    (hout : InitializeOut B x s configures ρ) : FlagsAfter ρ.2.2 (l ++ [ρ.1]) := by
  match l, h with
  | [], ⟨hcore, hsim⟩ =>
    cases hout with
    | again hup => rw [hcore] at hup; cases hup
    | taken _ htaken => exact ⟨rfl, hsim.symm.trans htaken⟩
    | brought => exact ⟨rfl, rfl⟩
    | failed _ hnone _ => exact ⟨hcore, rfl, hsim.symm.trans hnone⟩
  | true :: rest, ⟨hcore, hhard⟩ =>
    cases hout with
    | again => exact ⟨hcore, hhard⟩
    | taken hdown => rw [hcore] at hdown; cases hdown
    | brought hdown => rw [hcore] at hdown; cases hdown
    | failed hdown => rw [hcore] at hdown; cases hdown
  | [false], ⟨hcore, hsim, hhard⟩ =>
    cases hout with
    | again hup => rw [hcore] at hup; cases hup
    | taken => exact ⟨rfl, hhard⟩
    | brought _ hnone => rw [hsim] at hnone; cases hnone
    | failed _ hnone => rw [hsim] at hnone; cases hnone
  | false :: b :: rest, ⟨hcore, hhard⟩ =>
    cases hout with
    | again => exact ⟨hcore, hhard⟩
    | taken hdown => rw [hcore] at hdown; cases hdown
    | brought hdown => rw [hcore] at hdown; cases hdown
    | failed hdown => rw [hcore] at hdown; cases hdown

/-- **A core without its hardware**: `Initialize` sets `SIM` before the configuration is read, and
takes a set `SIM` for a core that is up. So after a failed `Initialize` the next one succeeds, and
in no other case does the core count as initialised before `bx_init_hardware`. -/
theorem initializedOverNothing_iff {sim : Bool} {core : BochsCore M}
    {h : List (ProcessCall ι P × ExecutorReply)} {s : EmulatorProcess M P ι}
    (hrun : Run (EmulatorProcess.step B) (.start sim core) h s) :
    (s.emulator.coreInitialized = true ∧ s.emulator.hardwareReady = false) ↔
      ∃ b rest, h.filterMap initializeReply = false :: b :: rest := by
  have hflags : FlagsAfter s.emulator (h.filterMap initializeReply) := by
    induction hrun with
    | nil => exact ⟨rfl, rfl⟩
    | snoc _ hs ih =>
      rw [List.filterMap_append]
      rcases step_flags hs with ⟨hnone, hsame⟩ | ⟨x, configures, ρ, hout, hsome, hemu⟩
      · rw [List.filterMap_cons_none hnone, List.filterMap_nil, List.append_nil]
        exact ih.same hsame
      · rw [List.filterMap_cons_some hsome, List.filterMap_nil, hemu]
        exact ih.initializeExecutor hout
  generalize h.filterMap initializeReply = l at hflags ⊢
  match l, hflags with
  | [], ⟨hcore, _⟩ => simp [hcore]
  | true :: rest, ⟨_, hhard⟩ => simp [hhard]
  | [false], ⟨hcore, _, _⟩ => simp [hcore]
  | false :: b :: rest, ⟨hcore, hhard⟩ => simp [hcore, hhard]

/-- The configuration cannot be read, and the user tries again. -/
def triedAgain : List (ProcessCall Nat Unit × ExecutorReply) :=
  [(.create 0, .void), (.on 0 (.initializeExecutor false), .ok false),
    (.on 0 (.initializeExecutor true), .ok true)]

theorem triedAgain_overNothing : ∃ s, Run (EmulatorProcess.step nopBochs) nopStart triedAgain s ∧
    ((s.emulator.coreInitialized = true ∧ s.emulator.hardwareReady = false) ↔
      ∃ b rest, triedAgain.filterMap initializeReply = false :: b :: rest) := by
  have hrun : Run (EmulatorProcess.step nopBochs) nopStart triedAgain _ :=
    .cons rfl (.cons rfl (.single rfl))
  exact ⟨_, hrun, initializedOverNothing_iff hrun⟩

end ReWizard
