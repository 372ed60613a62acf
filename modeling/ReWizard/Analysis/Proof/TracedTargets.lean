import ReWizard.Analysis.HybridAnalysis

/-!
# The address of a traced target

`resolveIndirectTarget` looks for a read of the record at the sum of base, index and displacement.
The processor multiplies the index by the scale and counts `rip` from the next instruction, and a
register that the record does not have need not be 0.

* `resolvesAsAddressed_iff`: a target is backed by the record if and only if the two addresses do
  not differ, or the record has the same value at both.
-/

namespace ReWizard

/-! ## Two addresses of an operand -/

/-- A register of an address: `rip` is the address of the next instruction. -/
def addressRegister? (insn : ExtendedInstruction) (record : TraceRecord) (reg : ZydisRegister) :
    Option Nat :=
  if reg = .none then some 0
  else if reg = .rip then some insn.next
  else record.registers reg

/-- The same register as the pass takes it: 0 when the record does not have it. -/
def recordedRegister (record : TraceRecord) (reg : ZydisRegister) : Nat :=
  if reg = .none then 0 else (record.registers reg).getD 0

/-- The address that the pass looks for. -/
def recordedAddress (record : TraceRecord) (mem : MemOperand) : Nat :=
  addrAdd (addrAdd (recordedRegister record mem.base) (recordedRegister record mem.index))
    mem.disp.toNat

/-- The record has a read of the value at the address. -/
def TraceRecord.Reads (record : TraceRecord) (address value : Nat) : Prop :=
  ∃ ma ∈ record.memoryAccesses, ma.isWrite = false ∧ ma.address = address ∧ ma.value = value

/-- The value of the first read at the address. -/
def TraceRecord.firstRead (record : TraceRecord) (address : Nat) : Option Nat :=
  (record.memoryAccesses.find? fun ma => decide (ma.address = address) && !ma.isWrite).map (·.value)

theorem TraceRecord.reads_of_firstRead {record : TraceRecord} {address value : Nat}
    (h : record.firstRead address = some value) : record.Reads address value := by
  obtain ⟨ma, hma, hvalue⟩ := Option.map_eq_some_iff.mp h
  have hfound := List.find?_some hma
  simp only [Bool.and_eq_true, decide_eq_true_eq, Bool.not_eq_true'] at hfound
  exact ⟨ma, List.mem_of_find?_eq_some hma, hfound.2, hfound.1, hvalue⟩

/-- An indirect call or jump. -/
structure ExtendedInstruction.IsIndirectBranch (insn : ExtendedInstruction) : Prop where
  branch : insn.instruction.mnemonic = .call ∨ insn.instruction.mnemonic = .jmp
  operand : (∃ reg, (insn.instruction.op 0).value = .register reg) ∨
    ∃ mem, (insn.instruction.op 0).value = .memory mem

theorem resolveIndirectTarget_register {insn : ExtendedInstruction} (record : TraceRecord)
    (h : insn.IsIndirectBranch) {reg : ZydisRegister}
    (hop : (insn.instruction.op 0).value = .register reg) :
    resolveIndirectTarget insn record = (record.registers reg).getD 0 := by
  unfold resolveIndirectTarget
  rw [if_neg (by rcases h.branch with h | h <;> simp [h]), hop]

theorem resolveIndirectTarget_memory {insn : ExtendedInstruction} (record : TraceRecord)
    (h : insn.IsIndirectBranch) {mem : MemOperand}
    (hop : (insn.instruction.op 0).value = .memory mem) :
    resolveIndirectTarget insn record =
      (record.firstRead (recordedAddress record mem)).getD 0 := by
  unfold resolveIndirectTarget TraceRecord.firstRead recordedAddress recordedRegister
  rw [if_neg (by rcases h.branch with h | h <;> simp [h]), hop]
  dsimp only
  cases record.memoryAccesses.find? _ <;> rfl

/-! ## Targets that the record backs -/

/-- The record says that the instruction goes to `t`: the register has it, or it was read at the
effective address. -/
def TargetBacked (insn : ExtendedInstruction) (record : TraceRecord) (t : Nat) : Prop :=
  match (insn.instruction.op 0).value with
  | .register reg => record.registers reg = some t
  | .memory mem => ∃ base index, addressRegister? insn record mem.base = some base ∧
      addressRegister? insn record mem.index = some index ∧
      record.Reads ((base + index * mem.scale + mem.disp.toNat) % addrSpace) t
  | _ => False

/-- The target that the pass finds, if it finds one, is backed by the record. -/
def ResolvesAsAddressed (insn : ExtendedInstruction) (record : TraceRecord) : Prop :=
  resolveIndirectTarget insn record ≠ 0 →
    TargetBacked insn record (resolveIndirectTarget insn record)

/-- If there is a value to find for a memory operand, then its registers are known, and base and
scaled index make the same sum as what the pass adds up, or the same value was read where they
lead. -/
def AddressedAsRecorded (insn : ExtendedInstruction) (record : TraceRecord) : Prop :=
  ∀ mem t, (insn.instruction.op 0).value = .memory mem →
    record.firstRead (recordedAddress record mem) = some t → t ≠ 0 →
      ∃ base index, addressRegister? insn record mem.base = some base ∧
        addressRegister? insn record mem.index = some index ∧
        ((base + index * mem.scale) % addrSpace =
            (recordedRegister record mem.base + recordedRegister record mem.index) % addrSpace ∨
          record.Reads ((base + index * mem.scale + mem.disp.toNat) % addrSpace) t)

/-- **Targets from a trace** are backed by the record if and only if scale, instruction pointer and
missing registers make no difference to what is read. -/
theorem resolvesAsAddressed_iff {insn : ExtendedInstruction} (record : TraceRecord)
    (h : insn.IsIndirectBranch) :
    ResolvesAsAddressed insn record ↔ AddressedAsRecorded insn record := by
  unfold ResolvesAsAddressed AddressedAsRecorded TargetBacked
  rcases h.operand with ⟨reg, hop⟩ | ⟨mem, hop⟩
  · rw [resolveIndirectTarget_register record h hop, hop]
    refine ⟨fun _ mem t hmem => (nomatch hmem), fun _ hne => ?_⟩
    dsimp only
    cases hreg : record.registers reg with
    | none =>
      rw [hreg] at hne
      exact absurd rfl hne
    | some t => rfl
  · rw [resolveIndirectTarget_memory record h hop, hop]
    dsimp only
    constructor
    · intro hsound mem' t hmem hfirst hne
      cases hmem
      rw [hfirst] at hsound
      obtain ⟨base, index, hbase, hindex, hreads⟩ := hsound hne
      exact ⟨base, index, hbase, hindex, .inr hreads⟩
    · intro hcond hne
      cases hfirst : record.firstRead (recordedAddress record mem) with
      | none =>
        rw [hfirst] at hne
        exact absurd rfl hne
      | some t =>
        rw [hfirst] at hne
        obtain ⟨base, index, hbase, hindex, hsum | hreads⟩ := hcond mem t rfl hfirst hne
        · -- the pass looks at the effective address
          have haddr : (base + index * mem.scale + mem.disp.toNat) % addrSpace =
              recordedAddress record mem := by
            unfold recordedAddress addrAdd
            rw [← hsum, Nat.mod_add_mod]
          exact ⟨base, index, hbase, hindex, haddr ▸ TraceRecord.reads_of_firstRead hfirst⟩
        · exact ⟨base, index, hbase, hindex, hreads⟩

/-! ## A jump table -/

/-- `jmp [rdx + rax * scale]`. -/
def tableJump (scale : Nat) : ExtendedInstruction :=
  { instruction := ⟨.jmp, .uncondBr, 3, 1,
      [⟨.visExplicit, false, false, 64,
        .memory ⟨.gpr64 .rdx, .gpr64 .rax, scale, 0⟩⟩]⟩
    address := 0x1000
    isIndirect := true }

theorem tableJump_isIndirectBranch (scale : Nat) : (tableJump scale).IsIndirectBranch :=
  ⟨.inr rfl, .inr ⟨_, rfl⟩⟩

/-- The table of offsets at `0x2000` was read at 2 and the table of targets at twice 8. -/
def tableRecord : TraceRecord :=
  { pc := 0x1000
    registers := fun reg =>
      if reg = .gpr64 .rdx then some 0x2000 else if reg = .gpr64 .rax then some 2 else none
    memoryAccesses := [⟨0x2002, 2, false⟩, ⟨0x2010, 0x401080, false⟩] }

/-- Without a scale the pass reads what the processor reads. -/
theorem tableJump_unscaled : ResolvesAsAddressed (tableJump 1) tableRecord := by
  refine (resolvesAsAddressed_iff tableRecord (tableJump_isIndirectBranch 1)).mpr ?_
  intro mem t hmem _ _
  cases hmem
  exact ⟨0x2000, 2, rfl, rfl, .inl rfl⟩

/-- With a scale of 8 it finds the offset and not the target. -/
theorem tableJump_scaled : ¬ ResolvesAsAddressed (tableJump 8) tableRecord := by
  intro h
  have hfound : resolveIndirectTarget (tableJump 8) tableRecord = 2 := by decide
  unfold ResolvesAsAddressed at h
  rw [hfound] at h
  obtain ⟨base, index, hbase, hindex, ma, hma, -, haddr, hvalue⟩ := h (by decide)
  cases hbase
  cases hindex
  rcases List.mem_cons.mp hma with rfl | hma
  · exact absurd haddr (by decide)
  · cases List.mem_singleton.mp hma
    exact absurd hvalue (by decide)

end ReWizard
