import ReWizard.Analysis.Machine

/-!
# Writes to registers

One instruction in more detail than `Executes` has it: what it does to the registers is a list of
writes to register names. A write of 32 bits clears the upper half of the register, one of 8 or 16
bits leaves the rest of the register as it is. Which value is written is said of the instructions
that assign a register a value, and of `mov` and `xor` to a register (`Effect`). The other written
names may get any value: it comes from memory, from a function that is called, or from an operation
that is not modelled.

`Machine` has the general-purpose registers. Here a register of another kind has a value of 64 bits
of its own (the low ones, when it is longer). An instruction may change some of them without naming
them in an operand, and which ones is a parameter.
-/

namespace ReWizard

/-! ## Parts of a register -/

/-- The bits of the full register that the view covers. -/
def RegisterView.mask (w : RegisterView) : BitVec 64 :=
  (BitVec.allOnes w.width).setWidth 64 <<< w.offset

/-- The full register after a write of `v` to the part. -/
def RegisterView.put (w : RegisterView) (v old : BitVec 64) : BitVec 64 :=
  let kept := if 32 ≤ w.width then 0 else old &&& ~~~w.mask
  kept ||| (v <<< w.offset &&& w.mask)

/-- A write to the part `v` changes bits of the part `w`. -/
def RegisterView.disturbs (v w : RegisterView) : Bool :=
  decide (v.gpr = w.gpr) &&
    (decide (32 ≤ v.width) ||
      (decide (v.offset < w.offset + w.width) && decide (w.offset < v.offset + v.width)))

namespace ZydisRegister

/-- A write to the name `m` changes bits that the name `n` reads. -/
def disturbs (m n : ZydisRegister) : Bool :=
  match m.view?, n.view? with
  | some v, some w => v.disturbs w
  | Option.none, Option.none => decide (m = n)
  | _, _ => false

end ZydisRegister

/-! ## Registers -/

structure ProcessorState extends Machine where
  others : ZydisRegister → BitVec 64

namespace ProcessorState

/-- What the name reads, sign-extended. -/
def read (s : ProcessorState) (n : ZydisRegister) : BitVec 64 :=
  (s.toMachine.read? n).getD (s.others n)

/-- Write `v` to the register by the name. -/
def write (s : ProcessorState) (n : ZydisRegister) (v : BitVec 64) : ProcessorState :=
  match n.view? with
  | none => { s with others := fun m => if m = n then v else s.others m }
  | some w => { s with regs := fun g => if g = w.gpr then w.put v (s.regs g) else s.regs g }

def writeAll (s : ProcessorState) (writes : List (ZydisRegister × BitVec 64)) : ProcessorState :=
  writes.foldl (fun s p => s.write p.1 p.2) s

end ProcessorState

/-! ## Instructions -/

/-- The names of general-purpose registers that the instruction may write: those it names as an
operand that is written, perhaps under a condition, the one that it assigns, and for a call what
the callee may change. -/
def ExtendedInstruction.writtenNames (i : ExtendedInstruction) : List ZydisRegister :=
  (i.instruction.operands.filterMap fun op =>
    match op.value with
    | .register n => if op.write || op.condWrite then some n else none
    | _ => none) ++
  i.assignment.toList.map (·.dst) ++
  if i.instruction.category = .call then
    ([.rax, .rcx, .rdx, .rsi, .rdi, .r8, .r9, .r10, .r11] : List Gpr).map .gpr64
  else []

/-- The operands name the register as one that is written, on no condition. -/
def ExtendedInstruction.MustWrite (i : ExtendedInstruction) (n : ZydisRegister) : Prop :=
  ∃ op ∈ i.instruction.operands, op.value = .register n ∧ op.write = true

/-- The instruction may change what the name reads; `unnamed` are the registers of other kinds that
it may change without naming them. -/
def ExtendedInstruction.disturbs (unnamed : ZydisRegister → Bool) (i : ExtendedInstruction)
    (n : ZydisRegister) : Bool :=
  (n.view?.isNone && unnamed n) || i.writtenNames.any (·.disturbs n)

/-- The operand has the value `b`, sign-extended; memory may have any. -/
def OperandValue.Gives (s : ProcessorState) (b : BitVec 64) : OperandValue → Prop
  | .immediate imm => b = imm
  | .register n => b = s.read n
  | _ => True

/-- The value that the destination is given, when the second operand has the value `b`. -/
def Assignment.result (s : ProcessorState) (b : BitVec 64) : Assignment → BitVec 64
  | .const n v => signExtendFrom n.width v
  | .arith op n _ => op.result n.width (s.read n) b

/-- What an instruction does to a register, where that is determined by the operands. -/
inductive Effect
  | assign (a : Assignment)
  | move (dst : ZydisRegister)
  | xor (dst : ZydisRegister)
  deriving DecidableEq, Repr

def Effect.dst : Effect → ZydisRegister
  | .assign a => a.dst
  | .move n => n
  | .xor n => n

/-- The value that the destination is given, when the second operand has the value `b`. -/
def Effect.result (s : ProcessorState) (b : BitVec 64) : Effect → BitVec 64
  | .assign a => a.result s b
  | .move n => signExtendFrom n.width b
  | .xor n => signExtendFrom n.width (s.read n ^^^ b)

/-- A `mov` or `xor` to a general-purpose register has an effect also when it assigns no value that
the analyses could compute. -/
def ExtendedInstruction.effect (i : ExtendedInstruction) : Option Effect :=
  match i.assignment with
  | some a => some (.assign a)
  | none =>
    match (i.instruction.op 0).value with
    | .register n =>
      if (i.instruction.op 0).write && n.view?.isSome then
        match i.instruction.mnemonic with
        | .mov => some (.move n)
        | .xor => some (.xor n)
        | _ => none
      else none
    | _ => none

/-- What is looked at of the second operand. -/
def ArithOp.source : ArithOp → OperandValue → ArithSource
  | .add | .sub | .and => arithSource
  | .shl | .shr => shiftSource

/-- The instruction is executed in `s`, where its second operand has the value `b`. It makes the
writes one after the other and leaves `s'`. -/
structure Runs (unnamed : ZydisRegister → Bool) (i : ExtendedInstruction) (s : ProcessorState)
    (b : BitVec 64) (writes : List (ZydisRegister × BitVec 64)) (s' : ProcessorState) : Prop where
  second : (i.instruction.op 1).value.Gives s b
  names : ∀ p ∈ writes, p.1 ∈ i.writtenNames ∨ (p.1.view? = none ∧ unnamed p.1 = true)
  operands : ∀ n, i.MustWrite n → ∃ v, (n, v) ∈ writes
  effect : ∀ e, i.effect = some e → (e.dst, e.result s b) ∈ writes ∧
    ∀ p ∈ writes, p.1.disturbs e.dst = true → p = (e.dst, e.result s b)
  regs : s'.regs = (s.writeAll writes).regs
  others : s'.others = (s.writeAll writes).others
  flags : ∀ z n, i.flags s.toMachine = some (z, n) → s'.zf = z ∧ s'.sf = n

/-! ## Reading what was written -/

/-- A name that is not one of the general-purpose registers reads its own value. -/
theorem ProcessorState.read_of_none {s : ProcessorState} {n : ZydisRegister} (h : n.view? = none) :
    s.read n = s.others n := by
  unfold read Machine.read?
  rw [h]
  rfl

theorem ProcessorState.read_of_some {s : ProcessorState} {n : ZydisRegister} {w : RegisterView}
    (h : n.view? = some w) :
    s.read n = signExtendFrom w.width (s.regs w.gpr >>> w.offset) := by
  unfold read Machine.read?
  rw [h]
  rfl

theorem ProcessorState.read?_eq {s : ProcessorState} {n : ZydisRegister} {v : BitVec 64}
    (h : s.toMachine.read? n = some v) : s.read n = v := by
  unfold read
  rw [h]
  rfl

theorem ProcessorState.read?_of_some {s : ProcessorState} {n : ZydisRegister} {w : RegisterView}
    (h : n.view? = some w) : s.toMachine.read? n = some (s.read n) := by
  rw [read_of_some h]
  unfold Machine.read?
  rw [h]
  rfl

theorem ZydisRegister.width_of_some {n : ZydisRegister} {w : RegisterView}
    (h : n.view? = some w) : n.width = w.width := by
  unfold width
  rw [h]

theorem ZydisRegister.width_of_none {n : ZydisRegister} (h : n.view? = Option.none) :
    n.width = 64 := by
  unfold width
  rw [h]

/-- The parts that have a name. -/
theorem ZydisRegister.view?_bounds {n : ZydisRegister} {w : RegisterView}
    (h : n.view? = some w) :
    w.offset + w.width ≤ 64 ∧ (32 ≤ w.width → w.offset = 0) ∧ (w.width ≤ 32 ∨ w.width = 64) := by
  cases n <;> cases h <;> simp

/-- Counts are taken modulo 32 where a register has at most 32 bits. -/
theorem ZydisRegister.width_cases (n : ZydisRegister) : n.width ≤ 32 ∨ n.width = 64 := by
  cases h : n.view? with
  | none => exact .inr (width_of_none h)
  | some w =>
    rw [width_of_some h]
    exact (view?_bounds h).2.2

theorem ZydisRegister.width_le (n : ZydisRegister) : n.width ≤ 64 := by
  have := n.width_cases
  omega

theorem signExtendFrom_congr {width : Nat} {x y : BitVec 64}
    (h : ∀ k < width, x.getLsbD k = y.getLsbD k) :
    signExtendFrom width x = signExtendFrom width y := by
  unfold signExtendFrom
  congr 1
  refine BitVec.eq_of_getLsbD_eq fun k hk => ?_
  rw [BitVec.getLsbD_setWidth, BitVec.getLsbD_setWidth, h k hk]

theorem RegisterView.getLsbD_mask (w : RegisterView) {k : Nat} (hk : k < 64) :
    w.mask.getLsbD k = decide (w.offset ≤ k ∧ k < w.offset + w.width) := by
  unfold mask
  simp only [BitVec.getLsbD_shiftLeft, BitVec.getLsbD_setWidth, BitVec.getLsbD_allOnes]
  rw [Bool.eq_iff_iff]
  simp only [Bool.and_eq_true, decide_eq_true_eq, Bool.not_eq_true', decide_eq_false_iff_not]
  omega

theorem RegisterView.getLsbD_put (w : RegisterView) (v old : BitVec 64) {k : Nat} (hk : k < 64) :
    (w.put v old).getLsbD k =
      if w.offset ≤ k ∧ k < w.offset + w.width then v.getLsbD (k - w.offset)
      else !decide (32 ≤ w.width) && old.getLsbD k := by
  unfold put
  simp only [BitVec.getLsbD_or, BitVec.getLsbD_and, BitVec.getLsbD_shiftLeft, w.getLsbD_mask hk]
  by_cases hin : w.offset ≤ k ∧ k < w.offset + w.width
  · have hkeep : (if 32 ≤ w.width then 0 else old &&& ~~~w.mask).getLsbD k = false := by
      split
      · exact BitVec.getLsbD_zero
      · rw [BitVec.getLsbD_and, BitVec.getLsbD_not, w.getLsbD_mask hk, decide_eq_true hin]
        simp
    rw [hkeep, if_pos hin, decide_eq_true hin, decide_eq_true hk,
      decide_eq_false (Nat.not_lt.mpr hin.1)]
    simp
  · rw [if_neg hin, decide_eq_false hin, Bool.and_false, Bool.or_false]
    split
    · rename_i hwide
      rw [decide_eq_true hwide]
      exact BitVec.getLsbD_zero
    · rename_i hwide
      rw [decide_eq_false hwide, BitVec.getLsbD_and, BitVec.getLsbD_not, w.getLsbD_mask hk,
        decide_eq_false hin, decide_eq_true hk]
      simp

namespace ProcessorState

/-- A name reads back what was written by it. -/
theorem read_write_self (s : ProcessorState) (n : ZydisRegister) (v : BitVec 64) :
    (s.write n v).read n = signExtendFrom n.width v := by
  unfold write
  cases h : n.view? with
  | none =>
    rw [read_of_none h, ZydisRegister.width_of_none h, signExtendFrom_64]
    exact if_pos rfl
  | some w =>
    rw [read_of_some h, ZydisRegister.width_of_some h]
    refine signExtendFrom_congr fun k hk => ?_
    obtain ⟨hbound, -, -⟩ := ZydisRegister.view?_bounds h
    dsimp only
    rw [if_pos rfl, BitVec.getLsbD_ushiftRight, w.getLsbD_put _ _ (by omega),
      if_pos (by omega), Nat.add_sub_cancel_left]

/-- A write leaves the names that it does not disturb. -/
theorem read_write_of_not_disturbs (s : ProcessorState) {m n : ZydisRegister} (v : BitVec 64)
    (h : m.disturbs n = false) : (s.write m v).read n = s.read n := by
  unfold ZydisRegister.disturbs at h
  unfold write
  cases hm : m.view? with
  | none =>
    cases hn : n.view? with
    | none =>
      rw [hm, hn] at h
      rw [read_of_none hn, read_of_none hn]
      exact if_neg fun hnm => of_decide_eq_false h hnm.symm
    | some w => rw [read_of_some hn, read_of_some hn]
  | some u =>
    cases hn : n.view? with
    | none => rw [read_of_none hn, read_of_none hn]
    | some w =>
      rw [hm, hn] at h
      rw [read_of_some hn, read_of_some hn]
      dsimp only
      by_cases hgpr : u.gpr = w.gpr
      · refine signExtendFrom_congr fun k hk => ?_
        obtain ⟨hbound, -, -⟩ := ZydisRegister.view?_bounds hn
        unfold RegisterView.disturbs at h
        simp only [hgpr, decide_true, Bool.true_and, Bool.or_eq_false_iff,
          Bool.and_eq_false_iff, decide_eq_false_iff_not] at h
        rw [if_pos hgpr.symm, BitVec.getLsbD_ushiftRight, BitVec.getLsbD_ushiftRight,
          u.getLsbD_put _ _ (by omega), if_neg (by omega), decide_eq_false h.1]
        rfl
      · rw [if_neg fun hwu => hgpr hwu.symm]

theorem read_writeAll_of_not_disturbs {n : ZydisRegister} :
    ∀ {writes : List (ZydisRegister × BitVec 64)} {s : ProcessorState},
      (∀ p ∈ writes, p.1.disturbs n = false) → (s.writeAll writes).read n = s.read n
  | [], _, _ => rfl
  | p :: rest, s, h => by
    have hrest := read_writeAll_of_not_disturbs (s := s.write p.1 p.2)
      fun q hq => h q (List.mem_cons_of_mem p hq)
    exact hrest.trans (read_write_of_not_disturbs s p.2 (h p List.mem_cons_self))

/-- A name reads back the only value that was written to its bits, if it was written by it. -/
theorem read_writeAll_of_mem {n : ZydisRegister} {v : BitVec 64} :
    ∀ {writes : List (ZydisRegister × BitVec 64)} {s : ProcessorState}, (n, v) ∈ writes →
      (∀ p ∈ writes, p.1.disturbs n = true → p = (n, v)) →
      (s.writeAll writes).read n = signExtendFrom n.width v
  | p :: rest, s, hmem, honly => by
    have honly' : ∀ q ∈ rest, q.1.disturbs n = true → q = (n, v) :=
      fun q hq => honly q (List.mem_cons_of_mem p hq)
    by_cases hrest : (n, v) ∈ rest
    · exact read_writeAll_of_mem (s := s.write p.1 p.2) hrest honly'
    · -- the first write is the only one
      have hp : p = (n, v) := ((List.mem_cons.mp hmem).resolve_right hrest).symm
      have hquiet : ∀ q ∈ rest, q.1.disturbs n = false := fun q hq =>
        Bool.eq_false_iff.mpr fun hd => hrest (honly' q hq hd ▸ hq)
      subst hp
      have hkeep := read_writeAll_of_not_disturbs (s := s.write n v) hquiet
      exact hkeep.trans (read_write_self s n v)

end ProcessorState

/-! ## What an execution leaves -/

/-- A second operand that is known from the registers is the one that is used. -/
theorem ArithOp.eq_of_gives {op : ArithOp} {v : OperandValue} {s : ProcessorState} {b y : BitVec 64}
    (hy : (op.source v).value? s.toMachine.read? = some y) (h : v.Gives s b) : y = b := by
  cases v with
  | immediate imm =>
    have himm : y = imm := by
      cases op <;> cases hy <;> rfl
    exact himm.trans h.symm
  | register n =>
    have hread : s.toMachine.read? n = some y := by
      cases op <;> first | exact hy | cases hy
    exact (ProcessorState.read?_eq hread).symm.trans h.symm
  | _ => cases op <;> cases hy

theorem ExtendedInstruction.arith_source {i : ExtendedInstruction} {op : ArithOp}
    {n : ZydisRegister} {src : ArithSource} (h : i.assignment = some (.arith op n src)) :
    src = op.source (i.instruction.op 1).value := by
  unfold assignment at h
  split at h
  · dsimp only at h
    split at h
    · split at h <;> cases h
    · split at h <;> cases h
    · split at h
      · obtain ⟨a, -, ha⟩ := Option.map_eq_some_iff.mp h
        cases ha
      · cases h
    all_goals
      cases h
      try rfl
  · cases h

theorem ExtendedInstruction.effect_of_assignment {i : ExtendedInstruction} {a : Assignment}
    (h : i.assignment = some a) : i.effect = some (.assign a) := by
  unfold effect
  rw [h]

theorem Effect.signExtendFrom_result (s : ProcessorState) (b : BitVec 64) (e : Effect) :
    signExtendFrom e.dst.width (e.result s b) = e.result s b := by
  cases e with
  | assign a =>
    cases a with
    | const n v => exact signExtendFrom_idem n.width_le v
    | arith op n src => cases op <;> exact signExtendFrom_idem n.width_le _
  | move n => exact signExtendFrom_idem n.width_le b
  | xor n => exact signExtendFrom_idem n.width_le _

namespace Runs

variable {unnamed : ZydisRegister → Bool} {i : ExtendedInstruction} {s s' : ProcessorState}
  {b : BitVec 64} {writes : List (ZydisRegister × BitVec 64)}

theorem read_eq (h : Runs unnamed i s b writes s') (n : ZydisRegister) :
    s'.read n = (s.writeAll writes).read n := by
  cases hv : n.view? with
  | none => rw [ProcessorState.read_of_none hv, ProcessorState.read_of_none hv, h.others]
  | some w => rw [ProcessorState.read_of_some hv, ProcessorState.read_of_some hv, h.regs]

/-- A name whose bits the instruction does not write reads the same. -/
theorem read_of_not_disturbs (h : Runs unnamed i s b writes s') {n : ZydisRegister}
    (hn : i.disturbs unnamed n = false) : s'.read n = s.read n := by
  unfold ExtendedInstruction.disturbs at hn
  obtain ⟨hview, hnames⟩ := Bool.or_eq_false_iff.mp hn
  rw [h.read_eq]
  refine ProcessorState.read_writeAll_of_not_disturbs fun p hp => ?_
  rcases h.names p hp with hmem | ⟨hnone, hunnamed⟩
  · exact Bool.eq_false_iff.mpr (List.any_eq_false.mp hnames p.1 hmem)
  · unfold ZydisRegister.disturbs
    rw [hnone]
    cases hw : n.view? with
    | none =>
      refine decide_eq_false fun heq => ?_
      rw [hw, ← heq, hunnamed] at hview
      cases hview
    | some w => rfl

/-- The destination has the result. -/
theorem read_dst (h : Runs unnamed i s b writes s') {e : Effect} (he : i.effect = some e) :
    s'.read e.dst = e.result s b := by
  obtain ⟨hmem, honly⟩ := h.effect e he
  rw [h.read_eq, ProcessorState.read_writeAll_of_mem hmem honly, e.signExtendFrom_result]

theorem read_assigned (h : Runs unnamed i s b writes s') {a : Assignment}
    (ha : i.assignment = some a) : s'.read a.dst = a.result s b :=
  h.read_dst (ExtendedInstruction.effect_of_assignment ha)

/-- The instruction names or assigns the register, or is a call that may change it. -/
theorem mayChange_of_mem {m : ZydisRegister} {v : RegisterView} (hm : m ∈ i.writtenNames)
    (hv : m.view? = some v) : i.mayChange v.gpr = true := by
  have hnames : m.names v.gpr = true := by
    unfold ZydisRegister.names
    rw [hv]
    exact decide_eq_true rfl
  unfold ExtendedInstruction.mayChange
  rw [Bool.or_eq_true, Bool.or_eq_true]
  rcases List.mem_append.mp hm with hm | hm
  · rcases List.mem_append.mp hm with hm | hm
    · obtain ⟨op, hop, hname⟩ := List.mem_filterMap.mp hm
      refine .inl (.inl (List.any_eq_true.mpr ⟨op, hop, ?_⟩))
      cases hval : op.value with
      | register n =>
        rw [hval] at hname
        dsimp only at hname ⊢
        split at hname
        · rename_i hwrite
          cases hname
          rw [hnames, hwrite]
          rfl
        · cases hname
      | _ =>
        rw [hval] at hname
        cases hname
    · obtain ⟨a, ha, rfl⟩ := List.mem_map.mp hm
      rw [Option.mem_toList.mp ha]
      exact .inl (.inr hnames)
  · split at hm
    · rename_i hcall
      obtain ⟨g, hg, rfl⟩ := List.mem_map.mp hm
      cases hv
      have hvolatile : ∀ g ∈ ([.rax, .rcx, .rdx, .rsi, .rdi, .r8, .r9, .r10, .r11] : List Gpr),
          g.volatile = true := by decide
      exact .inr (Bool.and_eq_true_iff.mpr ⟨decide_eq_true hcall, hvolatile g hg⟩)
    · cases hm

/-- It is an execution of the instruction. -/
theorem executes (h : Runs unnamed i s b writes s') : Executes i s.toMachine s'.toMachine where
  frame g hg := by
    have hquiet : i.disturbs unnamed (.gpr64 g) = false := by
      unfold ExtendedInstruction.disturbs
      refine Bool.or_eq_false_iff.mpr ⟨rfl, List.any_eq_false.mpr fun m hm hd => ?_⟩
      unfold ZydisRegister.disturbs at hd
      cases hv : m.view? with
      | none =>
        rw [hv] at hd
        cases hd
      | some v =>
        rw [hv] at hd
        have hgpr : v.gpr = g := of_decide_eq_true (Bool.and_eq_true_iff.mp hd).1
        have := mayChange_of_mem hm hv
        rw [hgpr, hg] at this
        cases this
    have hread := h.read_of_not_disturbs hquiet
    rw [ProcessorState.read?_eq (s'.toMachine.read?_gpr64 g),
      ProcessorState.read?_eq (s.toMachine.read?_gpr64 g)] at hread
    exact hread
  result a v ha hv := by
    have hread := h.read_assigned ha
    cases a with
    | const n x =>
      obtain ⟨w, hw, rfl⟩ := Option.map_eq_some_iff.mp hv
      refine (ProcessorState.read?_of_some hw).trans (congrArg some (hread.trans ?_))
      show signExtendFrom n.width x = _
      rw [ZydisRegister.width_of_some hw]
    | arith op n src =>
      obtain ⟨w, hw, hv⟩ := Option.bind_eq_some_iff.mp hv
      obtain ⟨x, hx, hv⟩ := Option.bind_eq_some_iff.mp hv
      obtain ⟨y, hy, hv⟩ := Option.bind_eq_some_iff.mp hv
      cases hv
      have hb : y = b := by
        rw [ExtendedInstruction.arith_source ha] at hy
        exact ArithOp.eq_of_gives hy h.second
      refine (ProcessorState.read?_of_some hw).trans (congrArg some (hread.trans ?_))
      show op.result n.width (s.read n) b = _
      rw [ZydisRegister.width_of_some hw, ProcessorState.read?_eq hx, hb]
  flags := h.flags

end Runs

end ReWizard
