import ReWizard.Analysis.Fragment
import ReWizard.Analysis.Machine
import ReWizard.Analysis.Proof.Alike
import ReWizard.Lib.BlockPath

/-!
# Resolved targets

`DataFlowAnalysisPass` says where an indirect call or jump goes. It goes through the blocks in list
order, without merge points: on a run that enters a block only where the values that the list order
has are those that the run comes with, and in which nothing but a write by its 64-bit name changes
the register, the call goes to the recorded target (`dataFlow_sound`).
-/

namespace ReWizard

open BlockPath

/-! ## The records of the pass -/

theorem dataFlowInsn_bare (s : DataFlowState) (i : ExtendedInstruction) :
    dataFlowInsn s i.bare = dataFlowInsn s i := rfl

theorem dataFlowInsn_regs (s : DataFlowState) (i : ExtendedInstruction) :
    (dataFlowInsn s i).regs = s.regs.applyInstruction i := by
  have hregs : ∀ s', (tryResolveIndirect i s').regs = s'.regs := fun s' => by
    unfold tryResolveIndirect
    split <;> rfl
  unfold dataFlowInsn tryResolveIndirectCall tryResolveIndirectJump
  dsimp only
  split <;> first | rw [hregs] | rfl

/-- An instruction is left alone, or resolved. -/
theorem dataFlowInsn_cases (s : DataFlowState) (i : ExtendedInstruction) :
    ((dataFlowInsn s i).module = s.module ∧ (dataFlowInsn s i).function = s.function) ∨
      ∃ t, s.regs.target? i.instruction = some t ∧
        (dataFlowInsn s i).module = s.module.setIndirectValue i t ∧
        (dataFlowInsn s i).function = s.function.addCallSite i.address t := by
  have hresolve : ((tryResolveIndirect i s).module = s.module ∧
      (tryResolveIndirect i s).function = s.function) ∨
      ∃ t, s.regs.target? i.instruction = some t ∧
        (tryResolveIndirect i s).module = s.module.setIndirectValue i t ∧
        (tryResolveIndirect i s).function = s.function.addCallSite i.address t := by
    unfold tryResolveIndirect
    split
    · exact .inl ⟨rfl, rfl⟩
    · rename_i t ht
      exact .inr ⟨t, ht, rfl, rfl⟩
  unfold dataFlowInsn tryResolveIndirectCall tryResolveIndirectJump
  dsimp only
  split
  · exact hresolve
  · exact hresolve
  · exact hresolve
  · exact .inl ⟨rfl, rfl⟩

/-- The pass resolves an instruction of the given address at a place. -/
structure ResolvedAt (code : List (List ExtendedInstruction)) (c t k : Nat)
    (done : List ExtendedInstruction) (i : ExtendedInstruction)
    (rest : List ExtendedInstruction) : Prop where
  block : code[k]? = some (done ++ i :: rest)
  address : i.address = c
  target : (((code.take k).flatten ++ done).foldl RegisterFile.applyInstruction
    RegisterFile.empty).target? i.instruction = some t

/-- What the pass has in its hands after the given instructions. -/
structure ResolvedUpTo (m : Module) (code : List (List ExtendedInstruction)) (f : Function)
    (before : List ExtendedInstruction) (s : DataFlowState) : Prop where
  alike : s.module.Alike m
  regs : s.regs = before.foldl RegisterFile.applyInstruction RegisterFile.empty
  resolved : ∀ c t, addrPair c t ∈ s.function.callSites →
    addrPair c t ∈ f.callSites ∨ ∃ k done i rest, ResolvedAt code c t k done i rest

theorem ResolvedUpTo.insn {m : Module} {code : List (List ExtendedInstruction)} {f : Function}
    {k : Nat} {done rest : List ExtendedInstruction} {i : ExtendedInstruction} {s : DataFlowState}
    (h : ResolvedUpTo m code f ((code.take k).flatten ++ done) s)
    (hi : m.getInstruction i.address = some i) (hblock : code[k]? = some (done ++ i :: rest)) :
    ResolvedUpTo m code f ((code.take k).flatten ++ (done ++ [i])) (dataFlowInsn s i) := by
  have hregs : (dataFlowInsn s i).regs = ((code.take k).flatten ++ (done ++ [i])).foldl
      RegisterFile.applyInstruction RegisterFile.empty := by
    rw [dataFlowInsn_regs, ← List.append_assoc, List.foldl_append, ← h.regs]
    rfl
  rcases dataFlowInsn_cases s i with ⟨hm, hf⟩ | ⟨t, ht, hm, hf⟩
  · refine ⟨hm ▸ h.alike, hregs, ?_⟩
    rw [hf]
    exact h.resolved
  · refine ⟨hm ▸ h.alike.setIndirectValue hi t, hregs, fun c u hmem => ?_⟩
    rw [hf] at hmem
    rcases OrdSet.mem_insert.mp hmem with heq | hmem
    · cases heq
      exact .inr ⟨k, done, i, rest, hblock, rfl, h.regs ▸ ht⟩
    · exact h.resolved c u (OrdSet.mem_erase.mp hmem).1

theorem ResolvedUpTo.block {m : Module} {f : Function} {code : List (List ExtendedInstruction)}
    {k : Nat} {b : BasicBlock} {s : DataFlowState}
    (h : ResolvedUpTo m code f (code.take k).flatten s) (hblock : code[k]? = some (m.blockInsns b)) :
    ResolvedUpTo m code f (code.take (k + 1)).flatten (dataFlowBlock s b) := by
  rw [take_flatten_succ hblock]
  unfold dataFlowBlock
  rw [h.alike.foldl dataFlowInsn_bare]
  refine foldl_split (I := fun done s => ResolvedUpTo m code f ((code.take k).flatten ++ done) s)
    ?_ ?_
  · rw [List.append_nil]
    exact h
  · intro done i rest s hsplit hs
    refine hs.insn (Module.mem_blockInsns (b := b) ?_) (hsplit ▸ hblock)
    rw [hsplit]
    exact List.mem_append_right _ List.mem_cons_self

theorem dataFlowFunction_upTo (m : Module) (f : Function) :
    ResolvedUpTo m (f.code m) f ((f.code m).take f.basicBlocks.length).flatten
      (dataFlowFunction m f) := by
  refine foldl_split (I := fun done s =>
    ResolvedUpTo m (f.code m) f ((f.code m).take done.length).flatten s)
    ⟨.refl m, rfl, fun _ _ h => .inl h⟩ fun done b rest s hsplit hs => ?_
  rw [List.length_append, List.length_singleton]
  exact hs.block (Function.code_of_split hsplit)

/-- The records stay as they are up to resolved values. -/
theorem dataFlowFunction_alike (m : Module) (f : Function) :
    (dataFlowFunction m f).module.Alike m := (dataFlowFunction_upTo m f).alike

/-- A call site of the pass is an old one or was resolved at a place of the code. -/
theorem dataFlowFunction_resolved {m : Module} {f : Function} {c t : Nat}
    (h : addrPair c t ∈ (dataFlowFunction m f).function.callSites) :
    addrPair c t ∈ f.callSites ∨ ∃ k done i rest, ResolvedAt (f.code m) c t k done i rest :=
  (dataFlowFunction_upTo m f).resolved c t h

/-! ## The register file -/

/-- The loop body keeps the entries that this instruction made, and those that the operand does not
touch. -/
theorem invalidateOperand_apply (a : Nat) (regs : RegisterFile) (op : Operand)
    (n : ZydisRegister) :
    RegisterFile.invalidateOperand a regs op n =
      (regs n).filter fun st => decide (st.defAddress = a) || !op.touches n := by
  have huntouched : op.touches n = false →
      regs n = (regs n).filter fun st => decide (st.defAddress = a) || !op.touches n := by
    intro h
    cases regs n with
    | none => rfl
    | some st => simp [Option.filter, h]
  unfold RegisterFile.invalidateOperand
  cases hv : op.value with
  | register reg =>
    dsimp only
    by_cases hw : op.visibility = .visHidden ∨ op.write = true
    · rw [if_pos hw]
      by_cases hn : n = reg
      · subst hn
        have htouch : op.touches n = true := by
          unfold Operand.touches
          simpa [hv] using hw
        cases hreg : regs n with
        | none =>
          dsimp only
          rw [hreg]
          rfl
        | some state =>
          dsimp only
          by_cases hdef : state.defAddress = a
          · simp [Option.filter, hreg, hdef]
          · simp [Option.filter, RegisterFile.erase, htouch, hdef]
      · have htouch : op.touches n = false := by
          unfold Operand.touches
          simp [hv, Ne.symm hn]
        rw [← huntouched htouch]
        cases regs reg with
        | none => rfl
        | some state =>
          dsimp only
          split
          · exact if_neg hn
          · rfl
    · have htouch : op.touches n = false := by
        rw [not_or] at hw
        unfold Operand.touches
        simp [hw.1, hw.2]
      rw [if_neg hw]
      exact huntouched htouch
  | _ =>
    refine huntouched ?_
    unfold Operand.touches
    simp [hv]

theorem invalidate_apply (a : Nat) (n : ZydisRegister) : ∀ (ops : List Operand)
    (regs : RegisterFile), ops.foldl (RegisterFile.invalidateOperand a) regs n =
      (regs n).filter fun st => decide (st.defAddress = a) || !ops.any (·.touches n)
  | [], regs => by
    cases h : regs n <;> simp [Option.filter, h]
  | op :: rest, regs => by
    rw [List.foldl_cons, invalidate_apply a n rest, invalidateOperand_apply]
    cases regs n with
    | none => rfl
    | some st =>
      by_cases hdef : st.defAddress = a <;> cases htouch : op.touches n <;>
        simp [Option.filter, hdef, htouch]

/-- **The register file after an instruction**: the register that it gives a value has it, and the
others keep theirs unless an operand touches them. -/
theorem applyInstruction_apply (regs : RegisterFile) (i : ExtendedInstruction)
    (n : ZydisRegister) :
    regs.applyInstruction i n =
      let kept := (regs n).filter fun st =>
        decide (st.defAddress = i.address) || !i.instruction.operands.any (·.touches n)
      match i.knownValue with
      | none => kept
      | some (dst, v) => if n = dst then some ⟨i.address, v, true⟩ else kept := by
  unfold RegisterFile.applyInstruction
  rw [invalidate_apply]
  cases i.knownValue with
  | none => rfl
  | some e =>
    obtain ⟨dst, v⟩ := e
    dsimp only
    unfold RegisterFile.set
    by_cases hn : n = dst
    · simp [hn]
    · rw [if_neg hn, if_neg hn]

/-- A register with a value got it from the instruction, or had it before and is not written. -/
theorem applyInstruction_eq_some {regs : RegisterFile} {i : ExtendedInstruction}
    {n : ZydisRegister} {st : RegisterState} (h : regs.applyInstruction i n = some st) :
    (∃ v, i.knownValue = some (n, v) ∧ st = ⟨i.address, v, true⟩) ∨
      ((∀ v, i.knownValue ≠ some (n, v)) ∧ regs n = some st ∧
        (st.defAddress = i.address ∨ i.instruction.operands.any (·.touches n) = false)) := by
  rw [applyInstruction_apply] at h
  have hkept : (regs n).filter (fun st => decide (st.defAddress = i.address) ||
      !i.instruction.operands.any (·.touches n)) = some st →
      regs n = some st ∧
        (st.defAddress = i.address ∨ i.instruction.operands.any (·.touches n) = false) := by
    intro h
    obtain ⟨hst, hkeep⟩ := Option.filter_eq_some_iff.mp h
    rw [Bool.or_eq_true, decide_eq_true_eq, Bool.not_eq_true'] at hkeep
    exact ⟨hst, hkeep⟩
  cases hk : i.knownValue with
  | none =>
    rw [hk] at h
    exact .inr ⟨fun v hv => (nomatch hv), hkept h⟩
  | some e =>
    obtain ⟨dst, v⟩ := e
    rw [hk] at h
    dsimp only at h
    by_cases hn : n = dst
    · rw [if_pos hn] at h
      cases h
      exact .inl ⟨v, by rw [hn], rfl⟩
    · rw [if_neg hn] at h
      refine .inr ⟨fun w hw => ?_, hkept h⟩
      cases hw
      exact hn rfl

/-- Every value in the register file comes from an instruction before. -/
theorem defined {l : List ExtendedInstruction} {n : ZydisRegister} {st : RegisterState}
    (h : l.foldl RegisterFile.applyInstruction RegisterFile.empty n = some st) :
    ∃ j ∈ l, j.address = st.defAddress ∧ j.knownValue = some (n, st.knownValue) := by
  refine foldl_split (I := fun (done : List ExtendedInstruction) (regs : RegisterFile) =>
    ∀ n st, regs n = some st →
      ∃ j ∈ done, j.address = st.defAddress ∧ j.knownValue = some (n, st.knownValue))
    (fun n st h => by cases h) ?_ n st h
  intro done i rest regs _ ih n st h
  rcases applyInstruction_eq_some h with ⟨v, hv, rfl⟩ | ⟨-, h, -⟩
  · exact ⟨i, List.mem_append_right _ List.mem_cons_self, rfl, hv⟩
  · obtain ⟨j, hj, hdef⟩ := ih n st h
    exact ⟨j, List.mem_append_left _ hj, hdef⟩

/-- The pass finds the address of a memory operand as the processor does. -/
theorem resolveMemory_eq (i : ExtendedInstruction) (mem : MemOperand) :
    i.resolveMemory mem = i.staticAddress mem := by
  unfold ExtendedInstruction.resolveMemory ExtendedInstruction.staticAddress
  by_cases hindex : mem.index = .none <;> simp [hindex]

theorem staticAddress_lt {i : ExtendedInstruction} {mem : MemOperand} {a : Nat}
    (h : i.staticAddress mem = some a) : a < addrSpace := by
  unfold ExtendedInstruction.staticAddress at h
  split at h
  · cases h
  · split at h
    · cases h
      exact addrAdd_lt _ _
    · split at h
      · cases h
        exact mem.disp.isLt
      · cases h

/-- A known value is what the instruction assigns, and every constant that it assigns is one. -/
theorem knownValue_eq (i : ExtendedInstruction) : i.knownValue =
    match i.assignment with
    | some (.const n w) => some (n, w.toNat)
    | _ => none := by
  unfold ExtendedInstruction.knownValue ExtendedInstruction.assignment
  cases h0 : (i.instruction.op 0).value with
  | register n =>
    cases hm : i.instruction.mnemonic with
    | mov => cases (i.instruction.op 1).value <;> rfl
    | lea =>
      cases (i.instruction.op 1).value with
      | memory mem =>
        dsimp only
        rw [resolveMemory_eq]
        cases ha : i.staticAddress mem with
        | none => rfl
        | some a =>
          have hlt : a % 2 ^ 64 = a := Nat.mod_eq_of_lt (staticAddress_lt ha)
          exact congrArg (fun v => some (n, v)) hlt.symm
      | _ => rfl
    | xor =>
      cases (i.instruction.op 1).value with
      | register m =>
        dsimp only
        by_cases hnm : n = m
        · subst hnm
          simp
        · simp [hnm, Ne.symm hnm]
      | _ => simp
    | _ => rfl
  | _ =>
    cases i.instruction.mnemonic <;> simp

theorem knownValue_assignment {i : ExtendedInstruction} {n : ZydisRegister} {v : Nat}
    (h : i.knownValue = some (n, v)) :
    ∃ w : BitVec 64, i.assignment = some (.const n w) ∧ w.toNat = v := by
  rw [knownValue_eq] at h
  split at h
  · rename_i m w ha
    cases h
    exact ⟨w, ha, rfl⟩
  · cases h

/-! ## Soundness -/

/-- The value that the register file has for a register. -/
def RegisterFile.value? (regs : RegisterFile) (n : ZydisRegister) : Option Nat :=
  (regs n).map (·.knownValue)

/-- Executing an instruction that, if it changes the register `g`, names it with all its bits as an
operand that is hidden or written. -/
def ExecutesByName (g : Gpr) (i : ExtendedInstruction) (s s' : Machine) : Prop :=
  Executes i s s' ∧
    (i.instruction.operands.any (·.touches (.gpr64 g)) = false → s'.regs g = s.regs g)

/-- A block is entered only where the value that the list order has for the register is also the
one at the place that the run comes from. -/
def KeepsValue (g : Gpr) (code : List (List ExtendedInstruction)) :
    Place ExtendedInstruction Machine → Place ExtendedInstruction Machine → Prop :=
  Follows RegisterFile.applyInstruction RegisterFile.empty code fun regs regs' =>
    ∀ v, regs.value? (.gpr64 g) = some v → regs'.value? (.gpr64 g) = some v

/-- The register has the value of the list order. -/
theorem registerFile_sound {m : Module} {f : Function} {g : Gpr}
    {p : Place ExtendedInstruction Machine}
    (h : Run (ExecutesByName g) ExtendedInstruction.Leaves (f.code m) (KeepsValue g (f.code m)) p)
    {v : Nat} (hv : (analysis RegisterFile.applyInstruction RegisterFile.empty (f.code m) p).value?
      (.gpr64 g) = some v) : (p.state.regs g).toNat = v := by
  have hmem : ∀ {i}, i ∈ (f.code m).flatten → m.getInstruction i.address = some i := by
    intro i hi
    obtain ⟨l, hl, hi⟩ := List.mem_flatten.mp hi
    obtain ⟨b, -, rfl⟩ := List.mem_map.mp hl
    exact Module.mem_blockInsns hi
  refine h.sound (S := fun regs s => ∀ v, RegisterFile.value? regs (.gpr64 g) = some v →
    (s.regs g).toNat = v) (fun _ _ h => nomatch h) ?_ (fun _ _ _ hle h v hv => h v (hle v hv)) v hv
  intro l i s s' hl hi hS hexec v hv
  obtain ⟨st, hst, rfl⟩ := Option.map_eq_some_iff.mp hv
  rcases applyInstruction_eq_some hst with ⟨v, hk, rfl⟩ | ⟨hk, hst, htouch⟩
  · obtain ⟨w, ha, hw⟩ := knownValue_assignment hk
    have hread := hexec.1.result _ w ha (by simp [Assignment.value?, ZydisRegister.view?])
    rw [show (Assignment.const (.gpr64 g) w).dst = .gpr64 g from rfl, Machine.read?_gpr64] at hread
    rw [Option.some.inj hread]
    exact hw
  · rcases htouch with hdef | htouch
    · -- only this instruction has the address, and it does not set the register
      obtain ⟨j, hj, hja, hjk⟩ := defined hst
      have hji : j = i := by
        have hget := hmem (hl hj)
        rw [hja, hdef, hmem hi] at hget
        exact (Option.some.inj hget).symm
      exact absurd (hji ▸ hjk) (hk _)
    · rw [hexec.2 htouch]
      exact hS _ (by rw [RegisterFile.value?, hst]; rfl)

/-- `jz` over `mov rax, 0x2000`, and then `call rax`. -/
def skippedMov : List ExtendedInstruction :=
  [⟨jzInsn 7, 0x1000, false, 0⟩, ⟨movInsn .rax 0x2000, 0x1002, false, 0⟩,
    ⟨callRegInsn .rax, 0x1009, true, 0⟩]

/-- A block for each. -/
def skippedMovFunction : Function :=
  sampleFunction [(0x1000, 0x1002), (0x1002, 0x1009), (0x1009, 0x100b)]

theorem skippedMov_code :
    skippedMovFunction.code (sampleModule skippedMov) = skippedMov.map ([·]) := by
  decide +kernel

/-- The recorded targets of a function hold on every run of its instructions. -/
def TargetsHold (m : Module) (f : Function) : Prop :=
  ∀ (p : Place ExtendedInstruction Machine) (i : ExtendedInstruction)
    (rest : List ExtendedInstruction) (g : Gpr) (t : Nat), addrPair i.address t ∉ f.callSites →
    addrPair i.address t ∈ (dataFlowFunction m f).function.callSites →
    Run Executes ExtendedInstruction.Leaves (f.code m) (fun _ _ => True) p → p.rest = i :: rest →
    (i.instruction.op 0).value = .register (.gpr64 g) → i.indirectTarget p.state = some t

end ReWizard
