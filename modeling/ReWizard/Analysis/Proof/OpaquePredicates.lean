import ReWizard.Analysis.AbstractInterpretation
import ReWizard.Analysis.Fragment
import ReWizard.Analysis.Machine
import ReWizard.Lib.BlockPath

/-!
# Opaque predicates

What `AbstractInterpretationPass` records of a branch can be wrong in many ways: the domain follows
the list of blocks and not the paths, `cmp` compares with zero whatever its immediate is, and the
interval of a register survives calls, writes by another name of the register, conditional moves
and moves from memory.

`constsStep` follows the same instructions and keeps a constant only as long as the processor
agrees with the pass. A branch that tests a register with such a constant, or one that the pass
never gave an interval, is judged correctly on every run in list order (`opaquePredicates_sound`).
-/

namespace ReWizard

open BlockPath

/-! ## Intervals of registers -/

theorem IntervalDomain.getRegisterInterval_of_some {d : IntervalDomain} {n : ZydisRegister}
    {iv : Interval} (h : d n = some iv) : d.getRegisterInterval n = iv := by
  unfold getRegisterInterval
  rw [h]
  rfl

/-! ## The transfer function on constants -/

/-- The assignment of an instruction whose destination gets an interval. -/
def ExtendedInstruction.tracked (i : ExtendedInstruction) : Option Assignment :=
  if isTracked i.instruction.mnemonic then i.assignment else none

theorem ExtendedInstruction.assignment_of_tracked {i : ExtendedInstruction} {a : Assignment}
    (h : i.tracked = some a) : i.assignment = some a := by
  unfold tracked at h
  split at h
  · exact h
  · cases h

theorem ExtendedInstruction.isTracked_of_tracked {i : ExtendedInstruction} {a : Assignment}
    (h : i.tracked = some a) : isTracked i.instruction.mnemonic = true := by
  unfold tracked at h
  split at h
  · assumption
  · cases h

def ArithOp.interval : ArithOp → Interval → Interval → Interval
  | .add => Interval.add
  | .sub => Interval.sub
  | .and => Interval.and
  | .shl => Interval.shl
  | .shr => Interval.shr

/-- The result of the 64-bit operation of the pass. -/
def ArithOp.wrapped (a b : BitVec 64) : ArithOp → BitVec 64
  | .add => a + b
  | .sub => a - b
  | .and => a &&& b
  | .shl => a <<< (b.toNat % 64)
  | .shr => a.sshiftRight (b.toNat % 64)

theorem interval_constant (op : ArithOp) (a b : BitVec 64) :
    op.interval (Interval.constant a) (Interval.constant b) =
      Interval.constant (op.wrapped a b) := by
  have ha := Interval.isConstant_constant a
  have hb := Interval.isConstant_constant b
  cases op with
  | add => rfl
  | sub => rfl
  | and => exact Interval.and_of_isConstant ha hb
  | shl => exact Interval.shl_of_isConstant ha hb
  | shr => exact Interval.shr_of_isConstant ha hb

def ArithSource.interval (d : IntervalDomain) : ArithSource → Interval
  | .immediate imm => Interval.constant imm
  | .register n => d.getRegisterInterval n
  | .unknown => Interval.top

/-- The interval that the pass gives the destination. -/
def Assignment.interval (d : IntervalDomain) : Assignment → Interval
  | .const _ v => Interval.constant v
  | .arith op n src => op.interval (d.getRegisterInterval n) (src.interval d)

/-- The arithmetic branches of `ApplyInstruction` in terms of the assignment. -/
theorem applyArith_eq (op : ArithOp) (registers : Bool) (i : Instruction) (d : IntervalDomain)
    (source : OperandValue → ArithSource)
    (hsource : ∀ v, (source v).interval d =
      match v with
      | .immediate imm => Interval.constant imm
      | .register src => if registers then d.getRegisterInterval src else Interval.top
      | _ => Interval.top) :
    applyArith op.interval registers i d =
      match (i.op 0).value with
      | .register n => d.setRegisterInterval n
          ((Assignment.arith op n (source (i.op 1).value)).interval d)
      | _ => d := by
  unfold applyArith
  cases (i.op 0).value with
  | register n =>
    dsimp only
    have hop : (Assignment.arith op n (source (i.op 1).value)).interval d =
      op.interval (d.getRegisterInterval n) ((source (i.op 1).value).interval d) := rfl
    rewrite [hop, hsource]
    cases (i.op 1).value <;> rfl
  | _ => rfl

/-- The first part of `ApplyInstruction` is the tracked assignment. -/
theorem applyResult_eq (i : ExtendedInstruction) (d : IntervalDomain) :
    applyResult i.instruction d =
      match i.tracked with
      | none => d
      | some a => d.setRegisterInterval a.dst (a.interval d) := by
  have harith : ∀ v, (arithSource v).interval d =
      match v with
      | .immediate imm => Interval.constant imm
      | .register src => if true then d.getRegisterInterval src else Interval.top
      | _ => Interval.top := fun v => by cases v <;> rfl
  have hshift : ∀ v, (shiftSource v).interval d =
      match v with
      | .immediate imm => Interval.constant imm
      | .register src => if false then d.getRegisterInterval src else Interval.top
      | _ => Interval.top := fun v => by cases v <;> rfl
  unfold applyResult ExtendedInstruction.tracked ExtendedInstruction.assignment
  cases hm : i.instruction.mnemonic with
  | mov =>
    cases (i.instruction.op 0).value <;> cases (i.instruction.op 1).value <;> rfl
  | xor =>
    cases h0 : (i.instruction.op 0).value with
    | register a =>
      cases h1 : (i.instruction.op 1).value with
      | register b =>
        by_cases hab : a = b
        · subst hab
          simp only [if_pos]
          rfl
        · have hne : ¬ OperandValue.register b = OperandValue.register a := fun h => by
            cases h
            exact hab rfl
          simp only [hab, hne, if_false]
          rfl
      | _ => simp [isTracked]
    | _ => simp [isTracked]
  | add =>
    refine (applyArith_eq .add true i.instruction d arithSource harith).trans ?_
    cases (i.instruction.op 0).value <;> rfl
  | sub =>
    refine (applyArith_eq .sub true i.instruction d arithSource harith).trans ?_
    cases (i.instruction.op 0).value <;> rfl
  | and =>
    refine (applyArith_eq .and true i.instruction d arithSource harith).trans ?_
    cases (i.instruction.op 0).value <;> rfl
  | shl =>
    refine (applyArith_eq .shl false i.instruction d shiftSource hshift).trans ?_
    cases (i.instruction.op 0).value <;> rfl
  | shr =>
    refine (applyArith_eq .shr false i.instruction d shiftSource hshift).trans ?_
    cases (i.instruction.op 0).value <;> rfl
  | _ => rfl

/-! ## Invalidation -/

/-- An operand only ever makes the domain forget a name that it touches, and not a zero that is
kept. -/
theorem invalidateOperand_cases (mnemonic : ZydisMnemonic) (d : IntervalDomain) (op : Operand)
    (n : ZydisRegister) :
    invalidateOperand mnemonic d op n = d n ∨
      (isTracked mnemonic = false ∧ op.touches n = true ∧
        ¬ (keepsZero n = true ∧ d n = some (Interval.constant 0))) := by
  unfold invalidateOperand
  cases hv : op.value with
  | register reg =>
    dsimp only
    by_cases hw : op.visibility = .visHidden ∨ op.write = true
    · rw [if_pos hw]
      cases hd : d reg with
      | none => exact .inl rfl
      | some iv =>
        dsimp only
        split
        · exact .inl rfl
        · rename_i hzero
          split
          · exact .inl rfl
          · rename_i ht
            by_cases hn : n = reg
            · subst hn
              refine .inr ⟨by simpa using ht, ?_, ?_⟩
              · unfold Operand.touches
                rw [hv]
                simpa using hw
              · rintro ⟨hkeep, hconst⟩
                rw [hd] at hconst
                cases hconst
                exact hzero ⟨rfl, rfl, hkeep⟩
            · exact .inl (if_neg hn)
    · rw [if_neg hw]
      exact .inl rfl
  | _ => exact .inl rfl

theorem invalidate_keeps {mnemonic : ZydisMnemonic} {n : ZydisRegister} :
    ∀ {ops : List Operand} {d : IntervalDomain},
      (isTracked mnemonic = true ∨ ops.any (·.touches n) = false ∨
        (keepsZero n = true ∧ d n = some (Interval.constant 0))) →
      ops.foldl (invalidateOperand mnemonic) d n = d n
  | [], _, _ => rfl
  | op :: rest, d, h => by
    rw [List.any_cons, Bool.or_eq_false_iff] at h
    have hop : invalidateOperand mnemonic d op n = d n := by
      rcases invalidateOperand_cases mnemonic d op n with h' | ⟨ht, htouch, hzero⟩
      · exact h'
      · rcases h with h | h | h
        · rw [ht] at h
          cases h
        · rw [h.1] at htouch
          cases htouch
        · exact absurd h hzero
    rw [List.foldl_cons, invalidate_keeps, hop]
    rw [hop]
    exact h.imp id (Or.imp And.right id)

/-! ## Constants that the processor agrees with -/

/-- What is known of register names. -/
def Consts := ZydisRegister → Option (BitVec 64)

def Consts.empty : Consts := fun _ => none

/-- The instruction may change what the name reads. -/
def ExtendedInstruction.changes (i : ExtendedInstruction) (n : ZydisRegister) : Bool :=
  match n.view? with
  | none => true
  | some w => i.mayChange w.gpr

/-- The operand loop of the pass forgets the constant of a name. -/
def ExtendedInstruction.forgets (i : ExtendedInstruction) (n : ZydisRegister) (v : BitVec 64) :
    Bool :=
  !isTracked i.instruction.mnemonic && i.instruction.operands.any (·.touches n) &&
    !(keepsZero n && decide (v = 0))

/-- The value that the pass computes. -/
def Assignment.wrapped? (K : Consts) : Assignment → Option (BitVec 64)
  | .const _ v => some v
  | .arith op n src => do
    let a ← K n
    let b ← src.value? K
    some (op.wrapped a b)

/-- Among the given names, the constants after an instruction: the pass and the processor agree on
the value assigned, or neither changes the name. -/
def constsStep (names : ZydisRegister → Bool) (K : Consts) (i : ExtendedInstruction) : Consts :=
  fun n =>
    if names n = true then
      let kept := (K n).filter fun v => !i.changes n && !i.forgets n v
      match i.tracked with
      | none => kept
      | some a =>
        if n = a.dst then if a.wrapped? K = a.value? K then a.value? K else none
        else kept
    else none

/-- A constant after an instruction was assigned or kept. -/
theorem constsStep_cases {names : ZydisRegister → Bool} {K : Consts} {i : ExtendedInstruction}
    {n : ZydisRegister} {v : BitVec 64} (h : constsStep names K i n = some v) :
    (∃ a, i.tracked = some a ∧ a.dst = n ∧ a.wrapped? K = some v ∧ a.value? K = some v) ∨
      ((∀ a, i.tracked = some a → a.dst ≠ n) ∧ K n = some v ∧ i.changes n = false ∧
        i.forgets n v = false) := by
  have hkept : (K n).filter (fun v => !i.changes n && !i.forgets n v) = some v →
      K n = some v ∧ i.changes n = false ∧ i.forgets n v = false := fun h => by
    obtain ⟨hK, hv⟩ := Option.filter_eq_some_iff.mp h
    simpa [hK] using hv
  unfold constsStep at h
  split at h
  · dsimp only at h
    cases ht : i.tracked with
    | none =>
      rw [ht] at h
      exact .inr ⟨fun a ha => (nomatch ha), hkept h⟩
    | some a =>
      rw [ht] at h
      dsimp only at h
      split at h
      · rename_i hn
        split at h
        · rename_i heq
          exact .inl ⟨a, rfl, hn.symm, heq.trans h, h⟩
        · cases h
      · rename_i hn
        refine .inr ⟨fun a' ha hdst => ?_, hkept h⟩
        cases ha
        exact hn hdst.symm
  · cases h

/-- The pass has the constants. -/
def Agrees (K : Consts) (d : IntervalDomain) : Prop :=
  ∀ n v, K n = some v → d n = some (Interval.constant v)

/-- The registers have the constants. -/
def Holds (K : Consts) (s : Machine) : Prop := ∀ n v, K n = some v → s.read? n = some v

theorem Agrees.interval {K : Consts} {d : IntervalDomain} (h : Agrees K d) {a : Assignment}
    {v : BitVec 64} (ha : a.wrapped? K = some v) : a.interval d = Interval.constant v := by
  have hreg : ∀ {n v}, K n = some v → d.getRegisterInterval n = Interval.constant v :=
    fun hn => IntervalDomain.getRegisterInterval_of_some (h _ _ hn)
  cases a with
  | const n w =>
    cases ha
    rfl
  | arith op n src =>
    obtain ⟨x, hx, ha⟩ := Option.bind_eq_some_iff.mp ha
    obtain ⟨y, hy, ha⟩ := Option.bind_eq_some_iff.mp ha
    cases ha
    have hsrc : src.interval d = Interval.constant y := by
      cases src with
      | immediate imm =>
        cases hy
        rfl
      | register r => exact hreg hy
      | unknown => cases hy
    unfold Assignment.interval
    dsimp only
    rw [hreg hx, hsrc, interval_constant]

/-- An instruction keeps the pass in agreement. -/
theorem Agrees.step {names : ZydisRegister → Bool} {K : Consts} {d : IntervalDomain}
    (h : Agrees K d) (i : ExtendedInstruction) :
    Agrees (constsStep names K i) (applyInstruction i.instruction d) := by
  intro n v hn
  unfold applyInstruction
  rw [applyResult_eq]
  rcases constsStep_cases hn with ⟨a, ht, hdst, hv, -⟩ | ⟨hdst, hK, -, hforgets⟩
  · rw [ht]
    dsimp only
    rw [invalidate_keeps (.inl (ExtendedInstruction.isTracked_of_tracked ht)), h.interval hv, ← hdst]
    exact if_pos rfl
  · have hd : (match i.tracked with
        | none => d
        | some a => d.setRegisterInterval a.dst (a.interval d)) n = d n := by
      cases ht : i.tracked with
      | none => rfl
      | some a => exact if_neg fun hn => hdst a ht hn.symm
    rw [invalidate_keeps, hd]
    · exact h n v hK
    · rw [hd, h n v hK]
      unfold ExtendedInstruction.forgets at hforgets
      simp only [Bool.and_eq_false_iff, Bool.not_eq_false', Bool.and_eq_true,
        decide_eq_true_eq] at hforgets
      rcases hforgets with (ht | ht) | ⟨hkeep, rfl⟩
      · exact .inl ht
      · exact .inr (.inl ht)
      · exact .inr (.inr ⟨hkeep, rfl⟩)

/-- What an assignment computes from the constants it computes from the registers. -/
theorem Holds.value? {K : Consts} {s : Machine} (h : Holds K s) {a : Assignment} {v : BitVec 64}
    (ha : a.value? K = some v) : a.value? s.read? = some v := by
  cases a with
  | const n w => exact ha
  | arith op n src =>
    obtain ⟨w, hw, ha⟩ := Option.bind_eq_some_iff.mp ha
    obtain ⟨x, hx, ha⟩ := Option.bind_eq_some_iff.mp ha
    obtain ⟨y, hy, ha⟩ := Option.bind_eq_some_iff.mp ha
    have hsrc : src.value? s.read? = some y := by
      cases src with
      | register r => exact h r y hy
      | _ => exact hy
    exact Option.bind_eq_some_iff.mpr ⟨w, hw, Option.bind_eq_some_iff.mpr
      ⟨x, h n x hx, Option.bind_eq_some_iff.mpr ⟨y, hsrc, ha⟩⟩⟩

/-- A name that an instruction does not change reads the same. -/
theorem Executes.read?_eq {i : ExtendedInstruction} {s s' : Machine} (h : Executes i s s')
    {n : ZydisRegister} (hn : i.changes n = false) : s'.read? n = s.read? n := by
  refine Machine.read?_congr fun g hg => h.frame g ?_
  unfold ExtendedInstruction.changes at hn
  unfold ZydisRegister.names at hg
  cases hv : n.view? with
  | none =>
    rw [hv] at hn
    cases hn
  | some w =>
    rw [hv] at hn hg
    have hg : w.gpr = g := of_decide_eq_true hg
    rw [← hg]
    exact hn

/-- Executing an instruction keeps the constants true. -/
theorem Holds.step {names : ZydisRegister → Bool} {K : Consts} {s s' : Machine}
    {i : ExtendedInstruction} (h : Holds K s) (hexec : Executes i s s') :
    Holds (constsStep names K i) s' := by
  intro n v hn
  rcases constsStep_cases hn with ⟨a, ht, rfl, -, hv⟩ | ⟨-, hK, hchanges, -⟩
  · exact hexec.result a v (ExtendedInstruction.assignment_of_tracked ht) (h.value? hv)
  · rw [hexec.read?_eq hchanges]
    exact h n v hK

/-! ## The records of the pass -/

/-- The transfer function of the pass. -/
def intervalStep (d : IntervalDomain) (i : ExtendedInstruction) : IntervalDomain :=
  applyInstruction i.instruction d

/-- The pass records the verdict at a place with a branch of the given address. -/
structure RecordedAt (code : List (List ExtendedInstruction)) (c : Nat) (b : Bool) (k : Nat)
    (done : List ExtendedInstruction) (i : ExtendedInstruction)
    (rest : List ExtendedInstruction) : Prop where
  block : code[k]? = some (done ++ i :: rest)
  address : i.address = c
  verdict : evaluateBranch i.instruction (done.getLast?.map (·.instruction))
    (((code.take k).flatten ++ done).foldl intervalStep IntervalDomain.empty) =
      if b then .alwaysTrue else .alwaysFalse

/-- What the pass has in its hands after the given instructions of block `k`. -/
structure RecordsUpTo (code : List (List ExtendedInstruction)) (f : Function)
    (before : List ExtendedInstruction) (s : IntervalState) : Prop where
  domain : s.domain = before.foldl intervalStep IntervalDomain.empty
  recorded : ∀ c b, s.function.opaquePredicateResults.get? c = some b →
    f.opaquePredicateResults.get? c = some b ∨ ∃ k done i rest, RecordedAt code c b k done i rest

theorem RecordsUpTo.insn {code : List (List ExtendedInstruction)} {f : Function} {k : Nat}
    {done rest : List ExtendedInstruction} {i : ExtendedInstruction} {s : IntervalState}
    (h : RecordsUpTo code f ((code.take k).flatten ++ done) s)
    (hprev : s.prevInsn = done.getLast?.map (·.instruction))
    (hblock : code[k]? = some (done ++ i :: rest)) :
    RecordsUpTo code f ((code.take k).flatten ++ (done ++ [i])) (intervalInsn s i) := by
  constructor
  · rw [← List.append_assoc, List.foldl_append, ← h.domain]
    rfl
  · intro c b hrec
    unfold intervalInsn at hrec
    dsimp only at hrec
    by_cases hcat : i.instruction.category = .condBr
    · rw [if_pos hcat, hprev, h.domain] at hrec
      cases hv : evaluateBranch i.instruction (done.getLast?.map (·.instruction))
        (((code.take k).flatten ++ done).foldl intervalStep IntervalDomain.empty) with
      | unknown =>
        rw [hv, if_pos rfl] at hrec
        exact h.recorded c b hrec
      | alwaysTrue | alwaysFalse =>
        rw [hv, if_neg (by decide)] at hrec
        unfold Function.recordOpaquePredicate at hrec
        dsimp only at hrec
        rw [OrdMap.get?_insert] at hrec
        split at hrec
        · rename_i hc
          cases hrec
          exact .inr ⟨k, done, i, rest, hblock, hc.symm, hv⟩
        · exact h.recorded c b hrec
    · rw [if_neg hcat, if_pos rfl] at hrec
      exact h.recorded c b hrec

theorem RecordsUpTo.block {m : Module} {f : Function} {code : List (List ExtendedInstruction)}
    {k : Nat} {b : BasicBlock} {s : IntervalState}
    (h : RecordsUpTo code f (code.take k).flatten s) (hblock : code[k]? = some (m.blockInsns b)) :
    RecordsUpTo code f (code.take (k + 1)).flatten (intervalBlock m s b) := by
  rw [take_flatten_succ hblock]
  unfold intervalBlock
  refine (foldl_split (I := fun done s =>
    RecordsUpTo code f ((code.take k).flatten ++ done) s ∧
      s.prevInsn = done.getLast?.map (·.instruction)) ⟨?_, rfl⟩ ?_).1
  · rw [List.append_nil]
    exact ⟨h.domain, h.recorded⟩
  · rintro done i rest s hsplit ⟨hs, hprev⟩
    refine ⟨hs.insn hprev (hsplit ▸ hblock), ?_⟩
    rw [List.getLast?_concat]
    rfl

/-- A verdict of the pass is an old one or was recorded at a place of the code. -/
theorem intervalFunction_recorded {m : Module} {f : Function} {c : Nat} {b : Bool}
    (h : (intervalFunction m f).opaquePredicateResults.get? c = some b) :
    f.opaquePredicateResults.get? c = some b ∨
      ∃ k done i rest, RecordedAt (f.code m) c b k done i rest := by
  have hall : RecordsUpTo (f.code m) f ((f.code m).take f.basicBlocks.length).flatten
      (f.basicBlocks.foldl (intervalBlock m) ⟨IntervalDomain.empty, none, f⟩) := by
    refine foldl_split (I := fun done s =>
      RecordsUpTo (f.code m) f ((f.code m).take done.length).flatten s)
      ⟨rfl, fun _ _ h => .inl h⟩ fun done b rest s hsplit hs => ?_
    rw [List.length_append, List.length_singleton]
    exact hs.block (Function.code_of_split hsplit)
  exact hall.recorded c b h

/-! ## Soundness -/

/-- The constants of the list order at a place. -/
def constsAt (names : ZydisRegister → Bool) (code : List (List ExtendedInstruction))
    (p : Place ExtendedInstruction Machine) : Consts :=
  analysis (constsStep names) Consts.empty code p

/-- A block is entered only where the constants of the list order, among the given names, are also
those of the place that the run comes from. -/
def KeepsConstants (names : ZydisRegister → Bool) (code : List (List ExtendedInstruction)) :
    Place ExtendedInstruction Machine → Place ExtendedInstruction Machine → Prop :=
  Follows (constsStep names) Consts.empty code fun K K' => ∀ n v, K n = some v → K' n = some v

/-- The branch at the place is in one block only and tests a register whose value is such a
constant, against zero. -/
structure TestsConstant (names : ZydisRegister → Bool) (code : List (List ExtendedInstruction))
    (p : Place ExtendedInstruction Machine) (c : Nat) : Prop where
  once : OnlyAt (·.address = c) code p
  tested : ∃ prev n, p.done.getLast? = some prev ∧ testedRegister prev.instruction = some n ∧
    (constsAt names code p n).isSome = true ∧
      (prev.instruction.mnemonic = .cmp → (prev.instruction.op 1).value = .immediate 0)

theorem tested_untracked {i : ExtendedInstruction} {n : ZydisRegister}
    (h : testedRegister i.instruction = some n) : i.tracked = none := by
  unfold testedRegister at h
  unfold ExtendedInstruction.tracked
  split at h
  · rename_i hm _ _
    rw [hm]
    rfl
  · rename_i hm _ _
    rw [hm]
    rfl
  · cases h

/-- What the comparison takes off the register. -/
def Instruction.subtrahend (i : Instruction) : BitVec 64 :=
  match i.mnemonic, (i.op 1).value with
  | .cmp, .immediate imm => imm
  | _, _ => 0

/-- The flags tell of the difference at the width of the register. -/
theorem flags_tested {prev : ExtendedInstruction} {n : ZydisRegister} {w : RegisterView}
    {s : Machine} {val : BitVec 64} (ht : testedRegister prev.instruction = some n)
    (hw : n.view? = some w) (hread : s.read? n = some (signExtendFrom w.width val)) :
    let r := signExtendFrom w.width (val - prev.instruction.subtrahend)
    prev.flags s = some (decide (r = 0), r.msb) := by
  unfold testedRegister at ht
  split at ht
  · rename_i a b hm h0 h1
    unfold ExtendedInstruction.flags Instruction.subtrahend
    rw [hm, h0, h1]
    split at ht
    · rename_i hab
      cases ht
      subst hab
      simp only [hread, Option.bind_eq_bind, Option.bind_some, BitVec.and_self,
        BitVec.ofNat_eq_ofNat, BitVec.sub_zero]
    · cases ht
  · rename_i a imm hm h0 h1
    cases ht
    unfold ExtendedInstruction.flags Instruction.subtrahend
    rw [hm, h0, h1]
    simp only [hw, hread, Option.bind_eq_bind, Option.bind_some,
      signExtendFrom_sub (ZydisRegister.view?_width hw)]
  · cases ht

/-- The flags after a test of a register against zero. -/
theorem flags_eq {prev : ExtendedInstruction} {n : ZydisRegister} {s : Machine} {v : BitVec 64}
    (ht : testedRegister prev.instruction = some n) (hv : s.read? n = some v)
    (hcmp : prev.instruction.mnemonic = .cmp → (prev.instruction.op 1).value = .immediate 0) :
    prev.flags s = some (decide (v = 0), v.msb) := by
  obtain ⟨w, hw, hread⟩ := Option.map_eq_some_iff.mp hv
  have hself : signExtendFrom w.width v = v := by
    rw [← hread, signExtendFrom_idem (ZydisRegister.view?_width hw)]
  have hzero : prev.instruction.subtrahend = 0 := by
    unfold Instruction.subtrahend
    split
    · rename_i imm hm h1
      cases h1.symm.trans (hcmp hm)
      rfl
    · rfl
  have hflags := flags_tested ht hw (hv.trans (congrArg some hself.symm))
  dsimp only at hflags
  rwa [hzero, BitVec.ofNat_eq_ofNat, BitVec.sub_zero, hself] at hflags

/-- Whether a conditional branch is taken with the given zero and sign flag. -/
def ExtendedInstruction.outcome (i : ExtendedInstruction) (zf sf : Bool) : Option Bool :=
  i.branchTaken ⟨fun _ => 0, zf, sf⟩

/-- The verdict that says what the outcome is. -/
def PredicateResult.ofOutcome : Option Bool → PredicateResult
  | some true => .alwaysTrue
  | some false => .alwaysFalse
  | none => .unknown

theorem ExtendedInstruction.outcome_eq_none (i : ExtendedInstruction) (zf sf zf' sf' : Bool) :
    i.outcome zf sf = none ↔ i.outcome zf' sf' = none := by
  unfold outcome branchTaken
  split <;> simp

/-- The verdict on a constant is the outcome with its own flags. -/
theorem evaluateBranch_constant {i : ExtendedInstruction} {prev : Instruction} {n : ZydisRegister}
    {d : IntervalDomain} (ht : testedRegister prev = some n)
    (hconst : (d.getRegisterInterval n).isConstant = true) :
    evaluateBranch i.instruction (some prev) d = .ofOutcome
      (i.outcome (decide ((d.getRegisterInterval n).lo = 0)) (d.getRegisterInterval n).lo.msb) := by
  have hverdict : ∀ x : Bool,
      (if x then PredicateResult.alwaysTrue else .alwaysFalse) = .ofOutcome (some x) := by
    decide
  unfold evaluateBranch
  rw [Option.bind_some, ht]
  dsimp only
  rw [if_pos hconst]
  unfold ExtendedInstruction.outcome ExtendedInstruction.branchTaken
  cases i.instruction.mnemonic with
  | jz => exact hverdict _
  | jnz =>
    rw [← decide_not]
    exact hverdict _
  | js =>
    rw [← BitVec.slt_zero_eq_msb]
    exact hverdict _
  | jns =>
    rw [← BitVec.slt_zero_eq_msb]
    exact hverdict _
  | _ => rfl

/-- The verdict on a branch that tests a constant is what the flags say. -/
theorem branchTaken_of_verdict {i : ExtendedInstruction} {prev : Instruction} {n : ZydisRegister}
    {d : IntervalDomain} {v : BitVec 64} {b : Bool} {s : Machine}
    (ht : testedRegister prev = some n) (hd : d n = some (Interval.constant v))
    (hverdict : evaluateBranch i.instruction (some prev) d = if b then .alwaysTrue else .alwaysFalse)
    (hzf : s.zf = decide (v = 0)) (hsf : s.sf = v.msb) : i.branchTaken s = some b := by
  have hreg := IntervalDomain.getRegisterInterval_of_some hd
  rw [evaluateBranch_constant ht (hreg ▸ Interval.isConstant_constant v), hreg] at hverdict
  have hsame : i.branchTaken s = i.outcome (decide (v = 0)) v.msb := by
    unfold ExtendedInstruction.outcome ExtendedInstruction.branchTaken
    rw [hzf, hsf]
  rw [hsame]
  show i.outcome (decide ((Interval.constant v).lo = 0)) (Interval.constant v).lo.msb = some b
  cases houtcome : i.outcome (decide ((Interval.constant v).lo = 0)) (Interval.constant v).lo.msb with
  | none =>
    rw [houtcome] at hverdict
    cases b <;> cases hverdict
  | some x =>
    rw [houtcome] at hverdict
    cases x <;> cases b <;> first | rfl | cases hverdict

/-- **Opaque predicates**: on runs that keep the constants, a branch that tests one goes the way
that was recorded, every time. -/
theorem opaquePredicates_sound {m : Module} {f : Function} {names : ZydisRegister → Bool}
    {p : Place ExtendedInstruction Machine} {i : ExtendedInstruction}
    {rest : List ExtendedInstruction} {b : Bool}
    (hnew : f.opaquePredicateResults.get? i.address ≠ some b)
    (hrec : (intervalFunction m f).opaquePredicateResults.get? i.address = some b)
    (hrun : Run Executes ExtendedInstruction.Leaves (f.code m) (KeepsConstants names (f.code m)) p)
    (hrest : p.rest = i :: rest) (htests : TestsConstant names (f.code m) p i.address) :
    i.branchTaken p.state = some b := by
  obtain ⟨prev, n, hlast, ht, hsome, hcmp⟩ := htests.tested
  obtain ⟨v, hv⟩ := Option.isSome_iff_exists.mp hsome
  obtain ⟨done, hdone⟩ : ∃ done, p.done = done ++ [prev] := List.getLast?_eq_some_iff.mp hlast
  -- the verdict was recorded here
  obtain h | ⟨k, done', j, rest', hrecorded⟩ := intervalFunction_recorded hrec
  · exact absurd h hnew
  obtain ⟨rfl, rfl⟩ := htests.once _ _ _ _ hrecorded.block hrecorded.address
  have hj : j = i := by
    have hsame := hrecorded.block.symm.trans hrun.block
    rw [hrest, Option.some.injEq, List.append_cancel_left_eq] at hsame
    cases hsame
    rfl
  subst hj
  have hagrees : Agrees (constsAt names (f.code m) p)
      ((before (f.code m) p).foldl intervalStep IntervalDomain.empty) := by
    exact List.foldl_rel (fun _ _ h => nomatch h) fun i _ _ _ h => h.step i
  -- the test left the flags
  obtain ⟨s, hprev, hexec⟩ := hrun.last hdone
  have hholds : Holds (constsAt names (f.code m) ⟨p.index, done, prev :: p.rest, s⟩) s :=
    hprev.sound (S := Holds) (fun _ _ _ h => nomatch h)
      (fun _ _ _ _ _ _ h hexec => h.step hexec) fun _ _ _ hle h n v hn => h n v (hle n v hn)
  have hread : s.read? n = some v := by
    have hstep : constsAt names (f.code m) p =
        constsStep names (constsAt names (f.code m) ⟨p.index, done, prev :: p.rest, s⟩) prev := by
      rw [← show (⟨p.index, done ++ [prev], p.rest, p.state⟩ : Place _ _) = p from by rw [← hdone]]
      exact analysis_insn
    rw [hstep] at hv
    rcases constsStep_cases hv with ⟨a, htracked, -⟩ | ⟨-, hK, -, -⟩
    · exact absurd htracked (by simp [tested_untracked ht])
    · exact hholds n v hK
  obtain ⟨hzf, hsf⟩ := hexec.flags _ _ (flags_eq ht hread hcmp)
  have hverdict := hrecorded.verdict
  rw [hlast] at hverdict
  exact branchTaken_of_verdict ht (hagrees n v hv) hverdict hzf hsf

/-! ## Two functions of one block -/

def eaxOperand (write : Bool) : Operand := ⟨.visExplicit, write, false, 32, .register (.gpr32 .rax)⟩

def hiddenFlags : Operand := ⟨.visHidden, true, false, 64, .register .rflags⟩

/-- `xor eax, eax; test eax, eax; jz`. -/
def zeroTest : List ExtendedInstruction :=
  [⟨⟨.xor, .other, 2, 2, [eaxOperand true, eaxOperand false, hiddenFlags]⟩, 0x1000, false, 0⟩,
    ⟨⟨.test, .other, 2, 2, [eaxOperand false, eaxOperand false, hiddenFlags]⟩, 0x1002, false, 0⟩,
    ⟨jzInsn 0, 0x1004, false, 0⟩]

/-- `mov eax, 5; cmp eax, 5; jz`. -/
def fiveTest : List ExtendedInstruction :=
  [⟨⟨.mov, .other, 5, 2, [eaxOperand true, immOperand 32 5]⟩, 0x1000, false, 0⟩,
    ⟨⟨.cmp, .other, 3, 2, [eaxOperand false, immOperand 8 5, hiddenFlags]⟩, 0x1005, false, 0⟩,
    ⟨jzInsn 0, 0x1008, false, 0⟩]

theorem zeroTest_code : (sampleFunction [(0x1000, 0x1006)]).code (sampleModule zeroTest) = [zeroTest] := by
  decide +kernel

theorem fiveTest_code : (sampleFunction [(0x1000, 0x100a)]).code (sampleModule fiveTest) = [fiveTest] := by
  decide +kernel

/-- Two instructions that are executed in the state that they leave as it is. -/
theorem run_three {ok : Place ExtendedInstruction Machine → Place ExtendedInstruction Machine → Prop}
    {i j k : ExtendedInstruction} {s : Machine} (hi : Executes i s s) (hj : Executes j s s)
    (hok : ∀ p q, q.done ≠ [] → ok p q) :
    Run Executes ExtendedInstruction.Leaves [[i, j, k]] ok ⟨0, [i, j], [k], s⟩ := by
  refine .step (p := ⟨0, [i], [j, k], s⟩) ?_ (.insn hj) (hok _ _ (List.cons_ne_nil _ _))
  exact .step (p := ⟨0, [], [i, j, k], s⟩) (.start rfl) (.insn hi) (hok _ _ (List.cons_ne_nil _ _))

theorem zeroTest_taken :
    (⟨jzInsn 0, 0x1004, false, 0⟩ : ExtendedInstruction).branchTaken
      ⟨fun _ => 0, true, false⟩ = some true := by
  refine @opaquePredicates_sound (sampleModule zeroTest) (sampleFunction [(0x1000, 0x1006)]) (fun _ => true)
    ⟨0, zeroTest.take 2, zeroTest.drop 2, ⟨fun _ => 0, true, false⟩⟩ _ [] true
    (by decide +kernel) (by decide +kernel) ?_ rfl ?_
  · rw [zeroTest_code]
    refine run_three (.idle ?_ ?_) (.idle ?_ ?_) fun _ _ hq hnil => absurd hnil hq <;>
      decide +kernel
  · rw [zeroTest_code]
    refine ⟨fun k done i rest hblock hc => ?_, _, .gpr32 .rax, rfl, rfl, by decide +kernel,
      by decide⟩
    cases k with
    | succ k => cases hblock
    | zero =>
      rcases done with _ | ⟨a, _ | ⟨b, _ | ⟨c, done⟩⟩⟩
      · cases hblock
        exact absurd hc (by decide)
      · cases hblock
        exact absurd hc (by decide)
      · cases hblock
        exact ⟨rfl, rfl⟩
      · simp [zeroTest] at hblock

/-- The verdicts of a function hold on every run of its instructions. -/
def VerdictsHold (m : Module) (f : Function) : Prop :=
  ∀ (p : Place ExtendedInstruction Machine) (i : ExtendedInstruction)
    (rest : List ExtendedInstruction) (b : Bool),
    f.opaquePredicateResults.get? i.address ≠ some b →
    (intervalFunction m f).opaquePredicateResults.get? i.address = some b →
    Run Executes ExtendedInstruction.Leaves (f.code m) (fun _ _ => True) p →
    p.rest = i :: rest → i.branchTaken p.state = some b

/-- The immediate of `cmp` is ignored: `cmp eax, 5` of a 5 is taken for a comparison with zero. -/
theorem fiveTest_not_verdictsHold :
    ¬ VerdictsHold (sampleModule fiveTest) (sampleFunction [(0x1000, 0x100a)]) := by
  intro h
  have hrun : Run Executes ExtendedInstruction.Leaves
      ((sampleFunction [(0x1000, 0x100a)]).code (sampleModule fiveTest)) (fun _ _ => True)
      ⟨0, fiveTest.take 2, fiveTest.drop 2, ⟨fun _ => 5, true, false⟩⟩ := by
    rw [fiveTest_code]
    refine run_three (.idle ?_ ?_) (.idle ?_ ?_) fun _ _ _ => trivial <;> decide +kernel
  have htaken := h _ _ [] false (by decide +kernel) (by decide +kernel) hrun rfl
  revert htaken
  decide +kernel

end ReWizard
