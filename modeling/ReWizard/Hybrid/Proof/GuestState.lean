import ReWizard.Lib.Overlay
import ReWizard.Hybrid.Proof.EmulatorSession
import ReWizard.Hybrid.Proof.PageWrites

/-!
# What the guest holds

The registers and the memory of the guest as a reader of the calls knows them (`GuestNotes`): what
was set or loaded last, until the CPU runs.

* `getRegister_of_notes`: a register that is noted reads as noted, by whichever executor;
* `memory_of_notes`: so does a byte of the memory, when every load fits the pages of the guest.
-/

namespace ReWizard

open History BochsExecutor

variable {M P ι : Type} {B : Bochs M}

/-- The values that are known. -/
structure GuestNotes where
  reg : BochsReg → Option Nat := fun _ => none
  byte : Nat → Option UInt8 := fun _ => none

namespace GuestNotes

def setReg (n : GuestNotes) (r : BochsReg) (value : Nat) : GuestNotes :=
  { n with reg := Function.update n.reg r (some value) }

def load (n : GuestNotes) (data : List UInt8) (baseAddress : Nat) : GuestNotes :=
  { n with byte := fun a => (Overlay.range baseAddress data a).or (n.byte a) }

/-- An execution that is let through. Once the CPU has run, nothing is known. -/
def started (n : GuestNotes) (start maxInstructions : Nat) : GuestNotes :=
  if maxInstructions ≠ 0 then {}
  else if start ≠ 0 then n.setReg .rip start
  else n

/-- What a call and its reply tell. -/
def next (n : GuestNotes) : ProcessCall ι P × ExecutorReply → GuestNotes
  | (.on _ (.setRegister reg value), .ok true) =>
    match zydisToBochsReg reg with
    | none => n
    | some r => n.setReg r value
  | (.on _ (.loadBinary data baseAddress), .ok true) => n.load data baseAddress
  | (.on _ (.execute start maxInstructions), .ok true) => n.started start maxInstructions
  | (.on _ (.bootFromDisk maxInstructions), .ok true) => n.started 0 maxInstructions
  | _ => n

end GuestNotes

/-! ## Effects -/

/-- What a call does to the core, and to the notes. -/
inductive CoreEffect (B : Bochs M) (c : ProcessCall ι P) (s : Emulator M P) :
    (GuestNotes → GuestNotes) → Emulator M P → Prop
  | kept {s' : Emulator M P} (hkept : s.coreInitialized = true →
      s'.core = s.core ∧ s'.coreInitialized = true) : CoreEffect B c s id s'
  | set (r : BochsReg) (value : Nat) (hcore : s.coreInitialized = true) :
    CoreEffect B c s (·.setReg r value) { s with core := s.core.setReg r value }
  | loaded (e : ι) (data : List UInt8) (baseAddress : Nat)
    (hcall : c = .on e (.loadBinary data baseAddress)) (hcore : s.coreInitialized = true) :
    CoreEffect B c s (·.load data baseAddress) { s with core := { s.core with
      machine := (writePages data baseAddress 0).foldl (fun m w => B.writePhysicalPage w m)
        s.core.machine } }
  | started (start maxInstructions : Nat) (hcore : s.coreInitialized = true) :
    CoreEffect B c s (·.started start maxInstructions)
      (BochsExecutor.started B start maxInstructions s)

theorem CoreEffect.same {c : ProcessCall ι P} (s : Emulator M P) : CoreEffect B c s id s :=
  .kept fun h => ⟨rfl, h⟩

theorem apply_effect (e : ι) (c : ExecutorCall P) (x : Executor P)
    (s : Emulator M P) : ∃ f, CoreEffect B (.on e c) s f (c.apply B x s).2.2 ∧
      ∀ n : GuestNotes, n.next (.on e c, (c.apply B x s).1) = f n := by
  cases c with
  | initializeExecutor configures =>
    refine ⟨id, ?_, fun _ => rfl⟩
    have hout := initializeExecutor_out (B := B) x s configures
    show CoreEffect B _ s id (initializeExecutor B configures x s).2.2
    generalize initializeExecutor B configures x s = ρ at hout ⊢
    cases hout with
    | again => exact .same s
    | taken hdown => exact .kept fun hup => absurd hup (by simp [hdown])
    | brought hdown => exact .kept fun hup => absurd hup (by simp [hdown])
    | failed hdown => exact .kept fun hup => absurd hup (by simp [hdown])
  | loadBinary data baseAddress =>
    show ∃ f, CoreEffect B _ s f (loadGuest B data baseAddress s).2 ∧
      ∀ n : GuestNotes, n.next (_, .ok (loadGuest B data baseAddress s).1) = f n
    unfold loadGuest loadBinary
    by_cases hdata : data = []
    · simp only [hdata, if_true]
      exact ⟨id, .same s, fun _ => rfl⟩
    · rw [if_neg hdata]
      by_cases hcore : s.coreInitialized = false
      · rw [if_pos hcore]
        exact ⟨id, .same s, fun _ => rfl⟩
      · rw [if_neg hcore]
        rw [Bool.not_eq_false] at hcore
        exact ⟨_, .loaded e data baseAddress rfl hcore, fun _ => rfl⟩
  | setRegister reg value =>
    show ∃ f, CoreEffect B _ s f (setRegister reg value s).2 ∧
      ∀ n : GuestNotes, n.next (_, .ok (setRegister reg value s).1) = f n
    unfold setRegister
    cases hreg : zydisToBochsReg reg with
    | none => exact ⟨id, .same s, fun _ => rfl⟩
    | some r =>
      dsimp only
      split
      · rename_i hcore
        refine ⟨_, .set r value hcore, fun n => ?_⟩
        simp only [GuestNotes.next, hreg]
      · exact ⟨id, .same s, fun _ => rfl⟩
  | execute start maxInstructions =>
    show ∃ f, CoreEffect B _ s f (execute B start maxInstructions x s).2 ∧
      ∀ n : GuestNotes, n.next (_, .ok (execute B start maxInstructions x s).1) = f n
    rw [execute_eq]
    split
    · rename_i hup
      exact ⟨_, .started start maxInstructions hup.2, fun _ => rfl⟩
    · exact ⟨id, .same s, fun _ => rfl⟩
  | bootFromDisk maxInstructions =>
    show ∃ f, CoreEffect B _ s f (bootFromDisk B maxInstructions x s).2 ∧
      ∀ n : GuestNotes, n.next (_, .ok (bootFromDisk B maxInstructions x s).1) = f n
    rw [bootFromDisk_eq]
    split
    · rename_i hup
      exact ⟨_, .started 0 maxInstructions hup.2.1, fun _ => rfl⟩
    · exact ⟨id, .same s, fun _ => rfl⟩
  | setTraceProducer producer => exact ⟨id, .kept fun h => ⟨rfl, h⟩, fun _ => rfl⟩
  | shutdown => exact ⟨id, .same s, fun _ => rfl⟩
  | getRegister reg => exact ⟨id, .same s, fun _ => rfl⟩
  | snapshot name => exact ⟨id, .same s, fun _ => rfl⟩
  | restore name => exact ⟨id, .same s, fun _ => rfl⟩
  | setDiskImage path => exact ⟨id, .same s, fun _ => rfl⟩

/-- The effect of a call, with what it tells. -/
theorem step_effect [DecidableEq ι] {s s' : EmulatorProcess M P ι} {c : ProcessCall ι P} {r : ExecutorReply}
    (hs : s.step B c = some (r, s')) : ∃ f, CoreEffect B c s.emulator f s'.emulator ∧
      ∀ n : GuestNotes, n.next (c, r) = f n := by
  cases c with
  | create e =>
    simp only [EmulatorProcess.step] at hs
    split at hs
    · cases hs
      exact ⟨id, .same _, fun _ => rfl⟩
    · cases hs
  | destroy e =>
    obtain ⟨x, -, heq⟩ := Option.map_eq_some_iff.mp hs
    cases heq
    exact ⟨id, .same _, fun _ => rfl⟩
  | setTraceActive active =>
    cases hs
    exact ⟨id, .kept fun h => ⟨rfl, h⟩, fun _ => rfl⟩
  | on e c =>
    obtain ⟨x, -, heq⟩ := Option.map_eq_some_iff.mp hs
    cases heq
    exact apply_effect e c x s.emulator

/-! ## Registers -/

/-- What the notes say of the registers is so. Nothing is noted before there is a core. -/
structure GuestNotes.RegsOf (n : GuestNotes) (s : Emulator M P) : Prop where
  value : ∀ r v, n.reg r = some v → s.core.genReg r = v
  core : ∀ r v, n.reg r = some v → s.coreInitialized = true

namespace GuestNotes.RegsOf

variable {n : GuestNotes} {s s' : Emulator M P}

theorem setReg (h : n.RegsOf s) (r : BochsReg) (value : Nat) (hcore : s.coreInitialized = true) :
    (n.setReg r value).RegsOf { s with core := s.core.setReg r value } where
  value := fun r' v hr => by
    by_cases hr' : r' = r
    · subst hr'
      simp only [GuestNotes.setReg, Function.update_self, Option.some.injEq] at hr
      simp [hr]
    · simp only [GuestNotes.setReg, Function.update_of_ne hr'] at hr
      exact (BochsCore.setReg_other _ hr' _).trans (h.value r' v hr)
  core := fun _ _ _ => hcore

theorem empty (s : Emulator M P) : ({} : GuestNotes).RegsOf s where
  value := fun _ _ h => (by cases h)
  core := fun _ _ h => (by cases h)

theorem started (h : n.RegsOf s) (start maxInstructions : Nat) (hcore : s.coreInitialized = true) :
    (n.started start maxInstructions).RegsOf (BochsExecutor.started B start maxInstructions s) := by
  unfold GuestNotes.started BochsExecutor.started
  by_cases hmax : maxInstructions = 0
  · by_cases hstart : start = 0
    · simp only [hmax, hstart, ne_eq, not_true, if_false, if_true]
      exact h
    · simp only [hmax, hstart, ne_eq, not_true, not_false_eq_true, if_false, if_true]
      exact h.setReg .rip start hcore
  · simp only [hmax, ne_eq, not_false_eq_true, if_true]
    exact empty _

theorem effect (h : n.RegsOf s) {c : ProcessCall ι P} {f : GuestNotes → GuestNotes}
    (he : CoreEffect B c s f s') : (f n).RegsOf s' := by
  cases he with
  | kept hkept =>
    refine ⟨fun r v hr => ?_, fun r v hr => (hkept (h.core r v hr)).2⟩
    rw [(hkept (h.core r v hr)).1]
    exact h.value r v hr
  | set r value hcore => exact h.setReg r value hcore
  | loaded e data baseAddress _ hcore => exact ⟨h.value, h.core⟩
  | started start maxInstructions hcore => exact h.started start maxInstructions hcore

end GuestNotes.RegsOf

/-- **Registers**: in every session with any number of executors, a register of which the calls and
replies say what was set last is read so. -/
theorem getRegister_of_notes [DecidableEq ι] {sim : Bool} {core : BochsCore M}
    {h : List (ProcessCall ι P × ExecutorReply)} {s s' : EmulatorProcess M P ι}
    (hrun : Run (EmulatorProcess.step B) (.start sim core) h s) {e : ι} {reg : ZydisRegister}
    {reply : ExecutorReply} (hs : s.step B (.on e (.getRegister reg)) = some (reply, s'))
    {r : BochsReg} (hreg : zydisToBochsReg reg = some r) {v : Nat}
    (hnoted : (h.foldl GuestNotes.next {}).reg r = some v) : reply = .register (some v) := by
  have hnotes : (h.foldl GuestNotes.next {}).RegsOf s.emulator :=
    hrun.tracks (fun n s => GuestNotes.RegsOf n s.emulator) (fun _ => True) GuestNotes.next
      (.empty _) (fun _ _ => trivial) fun n u c r u' hu _ hstep => by
        obtain ⟨f, he, hf⟩ := step_effect hstep
        rw [hf]
        exact hu.effect he
  obtain ⟨x, -, heq⟩ := Option.map_eq_some_iff.mp hs
  cases heq
  show ExecutorReply.register (getRegister reg s.emulator) = _
  unfold getRegister
  rw [hreg]
  dsimp only
  rw [if_pos (hnotes.core r v hnoted), hnotes.value r v hnoted]

/-- The second executor, which is not initialised, sets a register for the first one. -/
def setForOther : List (ProcessCall Nat Unit × ExecutorReply) :=
  oneOfTwo ++ [(.on 1 (.setRegister (.gpr64 .rax) 5), .ok true), (.on 1 .shutdown, .void)]

theorem setForOther_read : ∃ s s', Run (EmulatorProcess.step nopBochs) nopStart setForOther s ∧
    ∃ reply, s.step nopBochs (.on 0 (.getRegister (.gpr64 .rax))) = some (reply, s') ∧
      reply = .register (some 5) := by
  have hrun : Run (EmulatorProcess.step nopBochs) nopStart setForOther _ :=
    .cons rfl (.cons rfl (.cons rfl (.cons rfl (.single rfl))))
  refine ⟨_, _, hrun, _, rfl, ?_⟩
  have hreg : zydisToBochsReg (.gpr64 .rax) = some (.gpr .rax) := rfl
  exact getRegister_of_notes hrun (e := 0) rfl hreg rfl

/-! ## Memory -/

/-- What `writePhysicalPage` does with a call that stays in one page of the memory of the guest. -/
structure Bochs.StoresPages (B : Bochs M) (ram : Nat → Prop) : Prop where
  stores : ∀ (w : PageWrite) (m : M), w.addr % pageSize + w.bytes.length ≤ pageSize →
    (∀ a, w.addr ≤ a → a < w.addr + w.bytes.length → ram a) →
    B.physicalMemory (B.writePhysicalPage w m) =
      Overlay.patch (B.physicalMemory m) (Overlay.range w.addr w.bytes)

/-- The data fit the pages of the guest and lie in its memory. -/
structure LoadFits (ram : Nat → Prop) (data : List UInt8) (baseAddress : Nat) : Prop where
  pages : FitsPages data baseAddress
  below : baseAddress + data.length ≤ addrSpace
  inRam : ∀ a, baseAddress ≤ a → a < baseAddress + data.length → ram a

/-- Every load of the call fits. -/
def ProcessCall.Fits (ram : Nat → Prop) : ProcessCall ι P → Prop
  | .on _ (.loadBinary data baseAddress) => LoadFits ram data baseAddress
  | _ => True

section

variable {ram : Nat → Prop} {data : List UInt8} {baseAddress : Nat}

/-- Calls that each stay in one page put their bytes over the memory. -/
theorem writePages_patch (hB : B.StoresPages ram) (hbelow : baseAddress + data.length ≤ addrSpace)
    (hram : ∀ a, baseAddress ≤ a → a < baseAddress + data.length → ram a) (offset : Nat)
    (hpages : ∀ w ∈ writePages data baseAddress offset,
      w.addr % pageSize + w.bytes.length ≤ pageSize) (m : M) :
    B.physicalMemory
        ((writePages data baseAddress offset).foldl (fun m w => B.writePhysicalPage w m) m) =
      Overlay.patch (B.physicalMemory m)
        (Overlay.range (baseAddress + offset) (data.drop offset)) := by
  induction offset using writePages.induct data generalizing m with
  | case1 offset hlt ih =>
    let chunk := min pageSize (data.length - offset)
    have haddr : addrAdd baseAddress offset = baseAddress + offset := addrAdd_of_lt (by omega)
    have hlength : ((data.drop offset).take chunk).length = chunk := by
      rw [List.length_take, List.length_drop]
      exact Nat.min_eq_left (Nat.min_le_right _ _)
    rw [writePages, if_pos hlt] at hpages ⊢
    rw [List.foldl_cons, ih fun w hw => hpages w (List.mem_cons_of_mem _ hw)]
    have hstores := hB.stores ⟨addrAdd baseAddress offset, (data.drop offset).take chunk⟩ m
      (hpages _ List.mem_cons_self) (fun a h1 h2 => by
        have : chunk ≤ data.length - offset := Nat.min_le_right _ _
        simp only [haddr, hlength] at h1 h2
        exact hram a (by omega) (by omega))
    rw [hstores, haddr]
    conv_rhs => rw [← List.take_append_drop chunk (data.drop offset)]
    rw [← Overlay.stack_range, hlength, List.drop_drop]
    by_cases hlast : data.length - offset ≤ pageSize
    · -- nothing is left for the later calls
      have hnil : data.drop (offset + pageSize) = [] := List.drop_eq_nil_of_le (by omega)
      have hnil' : data.drop (offset + chunk) = [] := List.drop_eq_nil_of_le (by
        have : chunk = data.length - offset := Nat.min_eq_right hlast
        omega)
      rw [hnil, hnil']
      funext a
      simp [Overlay.stack, Overlay.patch, Overlay.range]
    · have hchunk : chunk = pageSize := Nat.min_eq_left (by omega)
      rw [hchunk, Nat.add_assoc]
      rfl
  | case2 offset hend =>
    rw [writePages, if_neg hend, List.drop_eq_nil_of_le (Nat.not_lt.mp hend)]
    funext a
    simp [Overlay.patch, Overlay.range]

theorem LoadFits.loaded (h : LoadFits ram data baseAddress) (hB : B.StoresPages ram) (m : M) :
    B.physicalMemory
        ((writePages data baseAddress 0).foldl (fun m w => B.writePhysicalPage w m) m) =
      Overlay.patch (B.physicalMemory m) (Overlay.range baseAddress data) := by
  by_cases hdata : data = []
  · rw [writePages, if_neg (by simp [hdata]), hdata]
    funext a
    simp [Overlay.patch, Overlay.range]
  · have hpages := (writePages_inPage_iff data baseAddress hdata).mpr h.pages
    exact writePages_patch hB h.below h.inRam 0 hpages m

end

/-- What the notes say of the memory is so. Nothing is noted before there is a core. -/
structure GuestNotes.BytesOf (B : Bochs M) (n : GuestNotes) (s : Emulator M P) : Prop where
  value : ∀ a b, n.byte a = some b → B.physicalMemory s.core.machine a = b
  core : ∀ a b, n.byte a = some b → s.coreInitialized = true

namespace GuestNotes.BytesOf

variable {n : GuestNotes} {s s' : Emulator M P}

theorem empty (s : Emulator M P) : BytesOf B ({} : GuestNotes) s where
  value := fun _ _ h => (by cases h)
  core := fun _ _ h => (by cases h)

theorem started (h : n.BytesOf B s) (start maxInstructions : Nat) :
    (n.started start maxInstructions).BytesOf B
      (BochsExecutor.started B start maxInstructions s) := by
  unfold GuestNotes.started BochsExecutor.started
  by_cases hmax : maxInstructions = 0
  · by_cases hstart : start = 0
    · simp only [hmax, hstart, ne_eq, not_true, if_false, if_true]
      exact h
    · simp only [hmax, hstart, ne_eq, not_true, not_false_eq_true, if_false, if_true]
      exact ⟨h.value, h.core⟩
  · simp only [hmax, ne_eq, not_false_eq_true, if_true]
    exact empty _

theorem effect {ram : Nat → Prop} (hB : B.StoresPages ram) (h : n.BytesOf B s)
    {c : ProcessCall ι P} (hfits : c.Fits ram) {f : GuestNotes → GuestNotes}
    (he : CoreEffect B c s f s') : (f n).BytesOf B s' := by
  cases he with
  | kept hkept =>
    refine ⟨fun a b hb => ?_, fun a b hb => (hkept (h.core a b hb)).2⟩
    rw [(hkept (h.core a b hb)).1]
    exact h.value a b hb
  | set r value hcore => exact ⟨h.value, h.core⟩
  | loaded e data baseAddress hcall hcore =>
    refine ⟨fun a b hb => ?_, fun _ _ _ => hcore⟩
    subst hcall
    have hloaded := LoadFits.loaded hfits hB s.core.machine
    show B.physicalMemory (List.foldl _ s.core.machine _) a = b
    rw [hloaded]
    unfold Overlay.patch
    simp only [GuestNotes.load] at hb
    cases hrange : Overlay.range baseAddress data a with
    | some b' =>
      rw [hrange] at hb
      exact Option.some.inj hb
    | none =>
      rw [hrange] at hb
      exact h.value a b hb
  | started start maxInstructions hcore => exact h.started start maxInstructions

end GuestNotes.BytesOf

/-- **Memory**: in every session whose loads fit the guest, a byte of which the calls and replies say
what was loaded last is in the physical memory. -/
theorem memory_of_notes [DecidableEq ι] {ram : Nat → Prop} (hB : B.StoresPages ram) {sim : Bool}
    {core : BochsCore M} {h : List (ProcessCall ι P × ExecutorReply)} {s : EmulatorProcess M P ι}
    (hrun : Run (EmulatorProcess.step B) (.start sim core) h s) (hfits : ∀ x ∈ h, x.1.Fits ram)
    {a : Nat} {b : UInt8} (hnoted : (h.foldl GuestNotes.next {}).byte a = some b) :
    B.physicalMemory s.emulator.core.machine a = b := by
  have hnotes : (h.foldl GuestNotes.next {}).BytesOf B s.emulator :=
    hrun.tracks (fun n s => GuestNotes.BytesOf B n s.emulator) _ GuestNotes.next (.empty _) hfits
      fun n u c r u' hu hc hstep => by
        obtain ⟨f, he, hf⟩ := step_effect hstep
        rw [hf]
        exact hu.effect hB hc he
  exact hnotes.value a b hnoted

theorem nopBochs_storesPages : nopBochs.StoresPages fun _ => True where
  stores := fun _ _ _ _ => rfl

/-- Two loads, the second one over the end of the first. -/
def loadedTwice : List (ProcessCall Nat Unit × ExecutorReply) :=
  oneOfTwo ++ [(.on 0 (.loadBinary [0x90, 0x90] 0x1000), .ok true),
    (.on 1 (.loadBinary [0xC3] 0x1001), .ok true)]

theorem loadedTwice_bytes : ∃ s, Run (EmulatorProcess.step nopBochs) nopStart loadedTwice s ∧
    nopBochs.physicalMemory s.emulator.core.machine 0x1001 = 0xC3 := by
  have hrun : Run (EmulatorProcess.step nopBochs) nopStart loadedTwice _ :=
    .cons rfl (.cons rfl (.cons rfl (.cons rfl (.single rfl))))
  refine ⟨_, hrun, memory_of_notes nopBochs_storesPages hrun ?_ rfl⟩
  intro x hx
  simp only [loadedTwice, oneOfTwo, List.cons_append, List.nil_append, List.mem_cons,
    List.not_mem_nil, or_false] at hx
  rcases hx with rfl | rfl | rfl | rfl | rfl
  · trivial
  · trivial
  · trivial
  · exact ⟨.inl (by decide), by decide, fun _ _ _ => trivial⟩
  · exact ⟨.inr (by decide), by decide, fun _ _ _ => trivial⟩

end ReWizard
