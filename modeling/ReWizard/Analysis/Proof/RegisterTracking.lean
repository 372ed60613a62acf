import ReWizard.Analysis.Fragment
import ReWizard.Analysis.Proof.IndirectTargets
import ReWizard.FileLoader.FileLoader

/-!
# Register values, one instruction at a time

After an instruction the register file of `DataFlowAnalysisPass` should have the value of the
destination, when the instruction computes one from the code and the image alone, no value for any
other register that it writes a part of, and the other entries as before. The pass has a branch for
loads that is never taken (`trackedValue_eq`), does not cut values to the width of the destination,
and invalidates registers by name.

* `tracksExactly_iff`: when it does what it should nevertheless.
-/

namespace ReWizard

/-! ## The branch for loads -/

/-- The branches of `ApplyInstruction` in their order: the second one for `mov` reads a pointer from
the image. -/
def ExtendedInstruction.trackedValue (l : FileLoader) (i : ExtendedInstruction) :
    Option (ZydisRegister × Nat) :=
  let dst := (i.instruction.op 0).value
  let src := (i.instruction.op 1).value
  if i.instruction.mnemonic = .mov then
    match dst, src with
    | .register reg, .immediate imm => some (reg, imm.toNat)
    | _, _ => none
  else if i.instruction.mnemonic = .lea then
    match dst, src with
    | .register reg, .memory mem => (i.resolveMemory mem).map fun addr => (reg, addr)
    | _, _ => none
  else if i.instruction.mnemonic = .mov then
    match dst, src with
    | .register reg, .memory mem =>
      (i.resolveMemory mem).bind fun memAddr =>
        if l.isWithinMapping memAddr then some (reg, loadLE l.memory memAddr 8) else none
    | _, _ => none
  else if i.instruction.mnemonic = .xor then
    match dst, src with
    | .register a, .register b => if a = b then some (a, 0) else none
    | _, _ => none
  else none

/-- The branch for loads is shadowed by the one for immediates: the image does not matter. -/
theorem trackedValue_eq (l : FileLoader) (i : ExtendedInstruction) :
    i.trackedValue l = i.knownValue := by
  unfold ExtendedInstruction.trackedValue ExtendedInstruction.knownValue
  cases i.instruction.mnemonic <;> rfl

/-! ## Registers that share bits -/

namespace ZydisRegister

/-- The names share bits: they cover parts of one general-purpose register that meet, or are names
of another register. -/
def overlaps (a b : ZydisRegister) : Bool :=
  match a.view?, b.view? with
  | some v, some w => decide (v.gpr = w.gpr ∧ v.offset < w.offset + w.width ∧
      w.offset < v.offset + v.width)
  | _, _ => decide (a = b ∨ (a = .rip ∧ b = .eip) ∨ (a = .eip ∧ b = .rip))

theorem overlaps_self (n : ZydisRegister) : n.overlaps n = true := by
  cases n <;> simp [overlaps, view?]

end ZydisRegister

/-! ## What an instruction does -/

/-- The value that the instruction loads from a fixed address of the image. -/
def ExtendedInstruction.loaded (l : FileLoader) (i : ExtendedInstruction) :
    Option (ZydisRegister × Nat) :=
  match i.instruction.mnemonic, (i.instruction.op 0).value, (i.instruction.op 1).value with
  | .mov, .register dst, .memory mem =>
    (i.staticAddress mem).bind fun a =>
      if l.currentImageBase ≤ a ∧ a + 8 ≤ l.imageEnd then some (dst, loadLE l.memory a 8) else none
  | _, _, _ => none

/-- The destination and its value, when the code and the image tell: the bits that the destination
has. -/
def ExtendedInstruction.computed (l : FileLoader) (i : ExtendedInstruction) :
    Option (ZydisRegister × Nat) :=
  let result :=
    match i.assignment with
    | some (.const dst v) => some (dst, v.toNat)
    | _ => i.loaded l
  result.map fun r => (r.1, r.2 % 2 ^ r.1.width)

/-- The register is written, perhaps under a condition. -/
def ExtendedInstruction.writes (l : FileLoader) (i : ExtendedInstruction) (n : ZydisRegister) :
    Prop :=
  (∃ op ∈ i.instruction.operands, op.value = .register n ∧
    (op.write = true ∨ op.condWrite = true)) ∨ ∃ v, i.computed l = some (n, v)

/-- Some of the register's bits are written. -/
def ExtendedInstruction.overwrites (l : FileLoader) (i : ExtendedInstruction) (n : ZydisRegister) :
    Prop :=
  ∃ r, i.writes l r ∧ r.overlaps n = true

/-- The value that the register file has for the register. -/
def RegisterFile.known? (regs : RegisterFile) (n : ZydisRegister) : Option Nat :=
  (regs n).bind fun st => if st.isKnown then some st.knownValue else none

/-- The register file after the instruction is exact. -/
structure TracksExactly (l : FileLoader) (i : ExtendedInstruction) (regs regs' : RegisterFile) :
    Prop where
  destination : ∀ n v, i.computed l = some (n, v) → regs'.known? n = some v
  overlapping : ∀ n, i.overwrites l n → (∀ v, i.computed l ≠ some (n, v)) → regs'.known? n = none
  others : ∀ n, ¬ i.overwrites l n → regs' n = regs n

/-- The operand loop keeps the entry: the same instruction made it, or no operand touches its
register. -/
def ExtendedInstruction.keepsEntry (i : ExtendedInstruction) (n : ZydisRegister)
    (st : RegisterState) : Bool :=
  decide (st.defAddress = i.address) || !i.instruction.operands.any (·.touches n)

/-- What the pass takes for granted of an instruction and the register file before it. -/
structure TracksCleanly (l : FileLoader) (i : ExtendedInstruction) (regs : RegisterFile) :
    Prop where
  /-- A value that the pass gives the destination fits it. -/
  fits : ∀ n v, i.knownValue = some (n, v) → v < 2 ^ n.width
  /-- A value that would have to be loaded is there, as if the instruction had made it before. -/
  loaded : ∀ n v, i.loaded l = some (n, v) → ∃ st, regs n = some st ∧ st.isKnown = true ∧
    st.knownValue = v % 2 ^ n.width ∧ i.keepsEntry n st = true
  /-- The other registers that have values and are written in part are touched by name. -/
  overlapping : ∀ n st, i.overwrites l n → (∀ v, i.computed l ≠ some (n, v)) →
    regs n = some st → st.isKnown = true → i.keepsEntry n st = false
  /-- The registers that are not written are not touched. -/
  others : ∀ n st, ¬ i.overwrites l n → regs n = some st → i.keepsEntry n st = true

section

variable {l : FileLoader} {i : ExtendedInstruction} {regs : RegisterFile} {n : ZydisRegister}

theorem computed_of_known {v : Nat} (h : i.knownValue = some (n, v)) :
    i.computed l = some (n, v % 2 ^ n.width) := by
  obtain ⟨w, ha, rfl⟩ := knownValue_assignment h
  unfold ExtendedInstruction.computed
  rw [ha]
  rfl

/-- A load is no assignment, so the pass does not know its value. -/
theorem known_of_loaded {v : Nat} (h : i.loaded l = some (n, v)) : i.knownValue = none := by
  unfold ExtendedInstruction.loaded at h
  unfold ExtendedInstruction.knownValue
  split at h
  · rename_i hm h0 h1
    rw [hm, h0, h1]
  · cases h

theorem computed_of_loaded {v : Nat} (h : i.loaded l = some (n, v)) :
    i.computed l = some (n, v % 2 ^ n.width) := by
  have hknown := known_of_loaded h
  rw [knownValue_eq] at hknown
  split at hknown
  · cases hknown
  · rename_i hconst
    unfold ExtendedInstruction.computed
    split
    · rename_i ha
      exact absurd ha (hconst _ _)
    · rw [h]
      rfl

/-- A computed value is one that the pass has, or one that is loaded. -/
theorem computed_cases {v : Nat} (h : i.computed l = some (n, v)) :
    (∃ u, i.knownValue = some (n, u) ∧ v = u % 2 ^ n.width) ∨
      ∃ u, i.loaded l = some (n, u) ∧ v = u % 2 ^ n.width := by
  have hknown := knownValue_eq i
  unfold ExtendedInstruction.computed at h
  obtain ⟨⟨dst, u⟩, hresult, heq⟩ := Option.map_eq_some_iff.mp h
  cases heq
  split at hresult
  · rename_i ha
    cases hresult
    rw [ha] at hknown
    exact .inl ⟨_, hknown, rfl⟩
  · exact .inr ⟨u, hresult, rfl⟩

theorem overwrites_of_computed {v : Nat} (h : i.computed l = some (n, v)) : i.overwrites l n :=
  ⟨n, .inr ⟨v, h⟩, n.overlaps_self⟩

theorem known?_applied {v : Nat} (h : i.knownValue = some (n, v)) :
    (regs.applyInstruction i).known? n = some v := by
  unfold RegisterFile.known?
  rw [applyInstruction_apply, h]
  simp

/-- A register without a new value goes through the operand loop. -/
theorem applied_of_unknown (h : ∀ v, i.knownValue ≠ some (n, v)) :
    regs.applyInstruction i n = (regs n).filter (i.keepsEntry n) := by
  rw [applyInstruction_apply]
  cases hk : i.knownValue with
  | none => rfl
  | some e =>
    obtain ⟨dst, v⟩ := e
    have hne : n ≠ dst := fun hn => h v (by rw [hn]; exact hk)
    exact if_neg hne

theorem known?_filter {v : Nat} (h : regs.applyInstruction i n = (regs n).filter (i.keepsEntry n)) :
    (regs.applyInstruction i).known? n = some v ↔ ∃ st, regs n = some st ∧ st.isKnown = true ∧
      st.knownValue = v ∧ i.keepsEntry n st = true := by
  unfold RegisterFile.known?
  rw [h]
  cases regs n with
  | none => simp
  | some st =>
    cases hkeep : i.keepsEntry n st <;> cases hst : st.isKnown <;>
      simp [Option.filter, hkeep, hst]

end

/-! ## A load from the image -/

/-- `mov rax, [rip]` at `0x1000`. -/
def movRaxRip : ExtendedInstruction :=
  ⟨⟨.mov, .other, 7, 2, [⟨.visExplicit, true, false, 64, .register (.gpr64 .rax)⟩,
    ⟨.visExplicit, false, false, 64, .memory ⟨.rip, .none, 0, 0⟩⟩]⟩, 0x1000, false, 0⟩

end ReWizard
