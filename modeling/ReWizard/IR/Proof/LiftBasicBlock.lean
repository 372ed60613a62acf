import ReWizard.IR.Lifter

/-!
# What a call of `LiftBasicBlock` leaves in the module

The function that a call defines is the newest of the module, and only its entry block changes
(`Lifting`). The loop ends without an error message exactly when every instruction it comes to
decodes and lifts (`LiftsFrom`), so a call has one of three outcomes (`LiftOutcome`): no bytes and
no new function; a function that ends with `ret`; or a function that was left half-way and stays.

* `liftBasicBlock_outcome`: what a call leaves, by the bytes alone;
* `liftCalls_wellFormed_iff`: a sequence of calls keeps the module well formed exactly when none of
  them is left half-way.
-/

namespace ReWizard

variable {R : Remill}

/-! ## Byte strings that lift -/

/-- From `offset` on, every instruction up to the end of `bytes`, or to the first that transfers
control, decodes and lifts. -/
inductive LiftsFrom (R : Remill) (baseAddress : Nat) (bytes : List UInt8) :
    Nat → R.DecodingContext → Prop
  | past {offset : Nat} {context : R.DecodingContext} (h : bytes.length ≤ offset) :
    LiftsFrom R baseAddress bytes offset context
  | last {offset : Nat} {context context' : R.DecodingContext} {inst : R.Instruction}
    (hdecode : R.decodeInstruction (addrAdd baseAddress offset) (bytes.drop offset) context =
      some (inst, context'))
    (hlift : R.liftStatus inst ≠ .failed) (hcontrol : R.isControlFlow inst = true) :
    LiftsFrom R baseAddress bytes offset context
  | next {offset : Nat} {context context' : R.DecodingContext} {inst : R.Instruction}
    (hdecode : R.decodeInstruction (addrAdd baseAddress offset) (bytes.drop offset) context =
      some (inst, context'))
    (hlift : R.liftStatus inst ≠ .failed) (hcontrol : R.isControlFlow inst = false)
    (h : LiftsFrom R baseAddress bytes (offset + R.numBytes inst) context') :
    LiftsFrom R baseAddress bytes offset context

/-- Lifting `bytes` at `baseAddress` comes to an end. -/
def Lifts (R : Remill) (bytes : List UInt8) (baseAddress : Nat) : Prop :=
  LiftsFrom R baseAddress bytes 0 R.createInitialContext

/-! ## The loop -/

/-- What one pass of the loop does. -/
inductive LiftPass (baseAddress : Nat) (bytes : List UInt8) (func : Nat) (s : LiftState R) :
    Loop.Out (LiftState R) → Prop
  | past (h : bytes.length ≤ s.offset) : LiftPass baseAddress bytes func s (.done s)
  | undecoded (message : String) (h : s.offset < bytes.length)
    (hdecode : R.decodeInstruction (addrAdd baseAddress s.offset) (bytes.drop s.offset) s.context =
      none) :
    LiftPass baseAddress bytes func s (.done { s with errorMessage := some message })
  | failed (message : String) {inst : R.Instruction} {context : R.DecodingContext}
    (h : s.offset < bytes.length)
    (hdecode : R.decodeInstruction (addrAdd baseAddress s.offset) (bytes.drop s.offset) s.context =
      some (inst, context))
    (hlift : R.liftStatus inst = .failed) :
    LiftPass baseAddress bytes func s
      (.done { s.lift func inst context with errorMessage := some message })
  | last {inst : R.Instruction} {context : R.DecodingContext} (h : s.offset < bytes.length)
    (hdecode : R.decodeInstruction (addrAdd baseAddress s.offset) (bytes.drop s.offset) s.context =
      some (inst, context))
    (hlift : R.liftStatus inst ≠ .failed) (hcontrol : R.isControlFlow inst = true) :
    LiftPass baseAddress bytes func s
      (.done { s.lift func inst context with offset := s.offset + R.numBytes inst })
  | next {inst : R.Instruction} {context : R.DecodingContext} (h : s.offset < bytes.length)
    (hdecode : R.decodeInstruction (addrAdd baseAddress s.offset) (bytes.drop s.offset) s.context =
      some (inst, context))
    (hlift : R.liftStatus inst ≠ .failed) (hcontrol : R.isControlFlow inst = false) :
    LiftPass baseAddress bytes func s
      (.next { s.lift func inst context with offset := s.offset + R.numBytes inst })

theorem liftStep_pass (baseAddress : Nat) (bytes : List UInt8) (func : Nat) (s : LiftState R) :
    LiftPass baseAddress bytes func s (liftStep R baseAddress bytes func s) := by
  unfold liftStep
  split
  · rename_i h
    exact .past (Nat.le_of_not_lt h)
  · rename_i h
    have hlt := not_not.mp h
    split
    · rename_i hdecode
      exact .undecoded _ hlt hdecode
    · rename_i inst context hdecode
      dsimp only
      split
      · rename_i hlift
        exact .failed _ hlt hdecode hlift
      · rename_i hlift
        split
        · rename_i hcontrol
          exact .last hlt hdecode hlift hcontrol
        · rename_i hcontrol
          exact .next hlt hdecode hlift (Bool.eq_false_iff.mpr hcontrol)

variable {baseAddress func : Nat} {bytes : List UInt8} {s t : LiftState R}

/-- Every pass but the last gets further into the bytes. -/
theorem liftStep_offset {s s' : LiftState R}
    (h : liftStep R baseAddress bytes func s = .next s') :
    bytes.length - s'.offset < bytes.length - s.offset := by
  have hpass := liftStep_pass baseAddress bytes func s
  rw [h] at hpass
  cases hpass with
  | next hlt hdecode =>
    have hpos := R.numBytes_pos hdecode
    dsimp only
    omega

theorem liftExec_exits (hs : s.offset = 0) : Loop.Exits (liftStep R baseAddress bytes func) s
    (Loop.exec (liftStep R baseAddress bytes func) (bytes.length + 1) s) :=
  Loop.exec_exits (I := fun _ => True) (fun s => bytes.length - s.offset)
    (fun _ _ _ h => ⟨trivial, liftStep_offset h⟩) trivial (by rw [hs]; omega)

/-- The loop ends without a message exactly when the rest of the bytes lifts. -/
theorem liftsFrom_iff (h : Loop.Exits (liftStep R baseAddress bytes func) s t)
    (hs : s.errorMessage = none) :
    t.errorMessage = none ↔ LiftsFrom R baseAddress bytes s.offset s.context := by
  induction h with
  | @done s t hdone =>
    have hpass := liftStep_pass baseAddress bytes func s
    rw [hdone] at hpass
    cases hpass with
    | past hle => exact iff_of_true hs (.past hle)
    | undecoded message hlt hdecode =>
      refine iff_of_false (Option.some_ne_none _) fun hlifts => ?_
      cases hlifts with
      | past hle => omega
      | last hdecode' => simp [hdecode] at hdecode'
      | next hdecode' => simp [hdecode] at hdecode'
    | failed message hlt hdecode hlift =>
      refine iff_of_false (Option.some_ne_none _) fun hlifts => ?_
      cases hlifts with
      | past hle => omega
      | last hdecode' hlift' =>
        rw [hdecode] at hdecode'
        cases hdecode'
        exact hlift' hlift
      | next hdecode' hlift' =>
        rw [hdecode] at hdecode'
        cases hdecode'
        exact hlift' hlift
    | last hlt hdecode hlift hcontrol => exact iff_of_true hs (.last hdecode hlift hcontrol)
  | @next s s' t hnext _ ih =>
    have hpass := liftStep_pass baseAddress bytes func s
    rw [hnext] at hpass
    cases hpass with
    | next hlt hdecode hlift hcontrol =>
      refine (ih hs).trans ⟨fun hlifts => .next hdecode hlift hcontrol hlifts, fun hlifts => ?_⟩
      cases hlifts with
      | past hle => omega
      | last hdecode' _ hcontrol' =>
        rw [hdecode] at hdecode'
        cases hdecode'
        rw [hcontrol] at hcontrol'
        cases hcontrol'
      | next hdecode' _ _ hlifts =>
        rw [hdecode] at hdecode'
        cases hdecode'
        exact hlifts

/-! ## The shared module -/

/-- The functions that `insts` refer to belong to the semantics. -/
def SemanticsOnly (R : Remill) (insts : List LlvmInst) : Prop :=
  ∀ r ∈ insts.flatMap LlvmInst.references, r ∈ R.semantics.ids

theorem setNextPc_references (baseAddress : Nat) (insts : List LlvmInst) :
    (setNextPc baseAddress insts).flatMap LlvmInst.references =
      insts.flatMap LlvmInst.references := by
  fun_induction setNextPc baseAddress insts with
  | case1 => rfl
  | case2 => rfl
  | case3 i rest _ ih => rw [List.flatMap_cons, List.flatMap_cons, ih]

theorem semanticsOnly_setNextPc {insts : List LlvmInst} (baseAddress : Nat)
    (h : SemanticsOnly R insts) : SemanticsOnly R (setNextPc baseAddress insts) := by
  unfold SemanticsOnly
  rw [setNextPc_references]
  exact h

theorem semanticsOnly_liftIntoBlock {insts : List LlvmInst} (inst : R.Instruction)
    (h : SemanticsOnly R insts) : SemanticsOnly R (R.liftIntoBlock inst insts) :=
  fun r hr => (R.liftIntoBlock_references inst insts r hr).elim (h r) id

theorem semanticsOnly_ret {insts : List LlvmInst} (h : SemanticsOnly R insts) :
    SemanticsOnly R (R.loadMemoryPointer insts ++ [.ret]) := by
  intro r hr
  rw [List.flatMap_append] at hr
  rcases List.mem_append.mp hr with hr | hr
  · exact (R.loadMemoryPointer_references insts r hr).elim (h r) id
  · cases hr

/-- `m` with one more function, which has an entry block only and internal linkage. -/
def addLifted (m : LlvmModule) (name entry : String) (insts : List LlvmInst) : LlvmModule :=
  m.addFunction name .internal [⟨entry, insts⟩]

theorem modifyEntry_addLifted (m : LlvmModule) (name entry : String) (insts : List LlvmInst)
    (change : List LlvmInst → List LlvmInst) :
    (addLifted m name entry insts).modifyEntry m.nextId change =
      addLifted m name entry (change insts) :=
  LlvmModule.modify_addFunction m name .internal [⟨entry, insts⟩] _ _

theorem defineFunction_eq (m : LlvmModule) (funcName : String) (entry : LlvmBlock)
    (baseAddress : Nat) : defineFunction m funcName entry baseAddress =
      addLifted m funcName entry.name (setNextPc baseAddress entry.instructions) := by
  unfold defineFunction LlvmModule.setLinkage
  dsimp only
  rw [LlvmModule.modify_addFunction]
  exact modifyEntry_addLifted m funcName entry.name entry.instructions _

/-- While a block is lifted, the module has gained the block's function and nothing else. -/
def Lifting (R : Remill) (m : LlvmModule) (name entry : String) (s : LiftState R) : Prop :=
  ∃ insts, s.module = addLifted m name entry insts ∧ SemanticsOnly R insts

theorem Lifting.lift {m : LlvmModule} {name entry : String} (h : Lifting R m name entry s)
    (inst : R.Instruction) (context : R.DecodingContext) :
    Lifting R m name entry (s.lift m.nextId inst context) := by
  obtain ⟨insts, hmod, hrefs⟩ := h
  refine ⟨R.liftIntoBlock inst insts, ?_, semanticsOnly_liftIntoBlock inst hrefs⟩
  unfold LiftState.lift
  dsimp only
  rw [hmod, modifyEntry_addLifted]

theorem Lifting.step {m : LlvmModule} {name entry : String} (h : Lifting R m name entry s)
    {s' : LiftState R} (hstep : liftStep R baseAddress bytes m.nextId s = .next s' ∨
      liftStep R baseAddress bytes m.nextId s = .done s') : Lifting R m name entry s' := by
  have hpass := liftStep_pass baseAddress bytes m.nextId s
  rcases hstep with hstep | hstep
  · rw [hstep] at hpass
    cases hpass with
    | @next inst context => exact h.lift inst context
  · rw [hstep] at hpass
    cases hpass with
    | past => exact h
    | undecoded => exact h
    | @failed _ inst context => exact h.lift inst context
    | @last inst context => exact h.lift inst context

/-- The loop over the bytes from where nothing was decoded yet. -/
theorem Lifting.exec {m : LlvmModule} {name entry : String} (h : Lifting R m name entry s)
    (baseAddress : Nat) (bytes : List UInt8) (hoffset : s.offset = 0)
    (hcontext : s.context = R.createInitialContext) (herror : s.errorMessage = none) :
    Lifting R m name entry
        (Loop.exec (liftStep R baseAddress bytes m.nextId) (bytes.length + 1) s) ∧
      ((Loop.exec (liftStep R baseAddress bytes m.nextId) (bytes.length + 1) s).errorMessage =
        none ↔ Lifts R bytes baseAddress) := by
  refine ⟨Loop.exec_inv h (fun _ _ hs hn => hs.step (.inl hn)) fun _ _ hs hd => hs.step (.inr hd),
    ?_⟩
  rw [liftsFrom_iff (liftExec_exits hoffset) herror, hoffset, hcontext]
  rfl

/-! ## The outcomes of a call -/

/-- The three outcomes of lifting `bytes` into `m`. -/
inductive LiftOutcome (R : Remill) (m : LlvmModule) (bytes : List UInt8) (baseAddress : Nat) :
    LiftResult × LlvmModule → Prop
  | empty (result : LiftResult) (hbytes : bytes = []) (hfails : result.success = false) :
    LiftOutcome R m bytes baseAddress (result, m)
  | broken (result : LiftResult) (name entry : String) {insts : List LlvmInst}
    (hbytes : bytes ≠ []) (hlifts : ¬ Lifts R bytes baseAddress)
    (hfails : result.success = false) (hrefs : SemanticsOnly R insts) :
    LiftOutcome R m bytes baseAddress (result, addLifted m name entry insts)
  | lifted (result : LiftResult) (name entry : String) {insts : List LlvmInst}
    (hbytes : bytes ≠ []) (hlifts : Lifts R bytes baseAddress) (hsucceeds : result.success = true)
    (hfunc : result.function = some m.nextId) (hentry : result.entryBlock = some m.nextId)
    (hrefs : SemanticsOnly R (insts ++ [.ret])) :
    LiftOutcome R m bytes baseAddress (result, addLifted m name entry (insts ++ [.ret]))

/-- **Every call has one of the three outcomes.** -/
theorem liftBasicBlock_outcome (R : Remill) (m : LlvmModule) (bytes : List UInt8)
    (baseAddress : Nat) :
    LiftOutcome R m bytes baseAddress (liftBasicBlock R m bytes baseAddress) := by
  unfold liftBasicBlock
  split
  · rename_i hbytes
    exact .empty _ hbytes rfl
  · rename_i hbytes
    dsimp only
    split
    · rename_i hnone
      have hsome := R.defineLiftedFunction_isSome ("bb_" ++ hex baseAddress) m
      rw [hnone] at hsome
      cases hsome
    · rename_i entry hentry
      have hstart : Lifting R m ("bb_" ++ hex baseAddress) entry.name
          ⟨defineFunction m ("bb_" ++ hex baseAddress) entry baseAddress,
            R.createInitialContext, 0, none⟩ :=
        ⟨_, defineFunction_eq m _ entry baseAddress,
          semanticsOnly_setNextPc baseAddress (R.defineLiftedFunction_references hentry)⟩
      obtain ⟨hend, hlifts⟩ := hstart.exec baseAddress bytes rfl rfl rfl
      generalize Loop.exec _ _ _ = s at hend hlifts ⊢
      obtain ⟨insts, hmod, hrefs⟩ := hend
      split
      · rename_i message hmessage
        rw [hmod]
        refine .broken _ _ _ hbytes (fun h => ?_) rfl hrefs
        have hnone := hlifts.mpr h
        rw [hmessage] at hnone
        cases hnone
      · rename_i hnone
        rw [hmod, modifyEntry_addLifted]
        exact .lifted _ _ _ hbytes (hlifts.mp hnone) rfl rfl rfl (semanticsOnly_ret hrefs)

/-! ## Sequences of calls -/

/-- The arguments of a call on a lifter. -/
structure LiftCall where
  bytes : List UInt8
  baseAddress : Nat

/-- The call defines a function and leaves it half-way. -/
def LiftCall.Breaks (R : Remill) (c : LiftCall) : Prop :=
  c.bytes ≠ [] ∧ ¬ Lifts R c.bytes c.baseAddress

/-- The module after a sequence of calls. -/
def liftCalls (R : Remill) (m : LlvmModule) (calls : List LiftCall) : LlvmModule :=
  calls.foldl (fun m c => (liftBasicBlock R m c.bytes c.baseAddress).2) m

/-- Every function that was lifted has a terminated entry block. -/
def LiftedTerminated (R : Remill) (m : LlvmModule) : Prop :=
  ∀ f ∈ m.functions, f.id ∉ R.semantics.ids → f.Terminated

instance (R : Remill) (m : LlvmModule) : Decidable (LiftedTerminated R m) :=
  inferInstanceAs (Decidable (∀ f ∈ m.functions, f.id ∉ R.semantics.ids → f.Terminated))

/-- The call `c` on the module `m` keeps it well formed. -/
structure KeepsWellFormed (R : Remill) (m : LlvmModule) (c : LiftCall) : Prop where
  terminated : LiftedTerminated R (liftBasicBlock R m c.bytes c.baseAddress).2
  unchanged : (liftBasicBlock R m c.bytes c.baseAddress).1.success = false →
    (liftBasicBlock R m c.bytes c.baseAddress).2.functions = m.functions

theorem liftedTerminated_addLifted {m : LlvmModule} (h : LiftedTerminated R m)
    (name entry : String) (insts : List LlvmInst) :
    LiftedTerminated R (addLifted m name entry (insts ++ [.ret])) := by
  intro f hf hnew
  rcases List.mem_append.mp hf with hf | hf
  · exact h f hf hnew
  · rw [List.mem_singleton.mp hf]
    unfold LlvmFunction.Terminated LlvmBlock.Terminated
    simp [LlvmInst.isTerminator]

theorem addLifted_functions_ne (m : LlvmModule) (name entry : String) (insts : List LlvmInst) :
    (addLifted m name entry insts).functions ≠ m.functions := by
  intro h
  have hlength := congrArg List.length h
  unfold addLifted at hlength
  simp at hlength

/-- A call that is not left half-way keeps the module well formed. -/
theorem keepsWellFormed_of_not_breaks {m : LlvmModule} {c : LiftCall}
    (hm : LiftedTerminated R m) (h : ¬ c.Breaks R) : KeepsWellFormed R m c := by
  have houtcome := liftBasicBlock_outcome R m c.bytes c.baseAddress
  generalize hr : liftBasicBlock R m c.bytes c.baseAddress = r at houtcome
  cases houtcome with
  | empty result _ hfails => exact ⟨by rw [hr]; exact hm, fun _ => by rw [hr]⟩
  | broken _ _ _ hbytes hlifts => exact absurd ⟨hbytes, hlifts⟩ h
  | lifted result name entry _ _ hsucceeds =>
    refine ⟨by rw [hr]; exact liftedTerminated_addLifted hm name entry _, fun hfails => ?_⟩
    rw [hr, hsucceeds] at hfails
    cases hfails

theorem not_keepsWellFormed_of_breaks {m : LlvmModule} {c : LiftCall} (h : c.Breaks R) :
    ¬ KeepsWellFormed R m c := by
  intro hkeeps
  have houtcome := liftBasicBlock_outcome R m c.bytes c.baseAddress
  have hunchanged := hkeeps.unchanged
  generalize liftBasicBlock R m c.bytes c.baseAddress = r at houtcome hunchanged
  cases houtcome with
  | empty _ hbytes => exact h.1 hbytes
  | broken _ name entry _ _ hfails => exact addLifted_functions_ne m name entry _ (hunchanged hfails)
  | lifted _ _ _ _ hlifts => exact h.2 hlifts

theorem liftedTerminated_liftCalls {m : LlvmModule} {calls : List LiftCall}
    (hm : LiftedTerminated R m) (h : ∀ c ∈ calls, ¬ c.Breaks R) :
    LiftedTerminated R (liftCalls R m calls) := by
  induction calls generalizing m with
  | nil => exact hm
  | cons c rest ih =>
    refine ih ?_ fun c' hc' => h c' (List.mem_cons_of_mem c hc')
    exact (keepsWellFormed_of_not_breaks hm (h c List.mem_cons_self)).terminated

theorem liftedTerminated_semantics (R : Remill) : LiftedTerminated R R.semantics :=
  fun _ hf hnew => absurd (List.mem_map_of_mem hf) hnew

/-- **Every call on a lifter keeps the shared module well formed** exactly when no call of the
sequence is left half-way. -/
theorem liftCalls_wellFormed_iff (R : Remill) (calls : List LiftCall) :
    (∀ before c after, calls = before ++ c :: after →
      KeepsWellFormed R (liftCalls R R.semantics before) c) ↔ ∀ c ∈ calls, ¬ c.Breaks R := by
  constructor
  · intro h c hc hbreaks
    obtain ⟨before, after, rfl⟩ := List.append_of_mem hc
    exact not_keepsWellFormed_of_breaks hbreaks (h before c after rfl)
  · rintro h before c after rfl
    have hbefore : LiftedTerminated R (liftCalls R R.semantics before) :=
      liftedTerminated_liftCalls (liftedTerminated_semantics R) fun c' hc' =>
        h c' (List.mem_append_left _ hc')
    exact keepsWellFormed_of_not_breaks hbefore
      (h c (List.mem_append_right _ List.mem_cons_self))

/-- `nop` and a byte that does not decode: the call fails, and the function that it leaves behind has
no terminator. -/
theorem liftBasicBlock_leaves_function :
    let r := liftBasicBlock sampleRemill sampleRemill.semantics [0x90, 0x06] 0x401000
    ¬ LiftedTerminated sampleRemill r.2 ∧
      ¬ (r.1.success = false → r.2.functions = sampleRemill.semantics.functions) := by
  decide +kernel

end ReWizard
