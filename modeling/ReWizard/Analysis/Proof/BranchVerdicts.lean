import ReWizard.Analysis.Proof.OpaquePredicates

/-!
# Verdicts on single branches

`evaluateBranch` takes every `test` of a register with itself and every `cmp` of a register with an
immediate for a comparison of the 64-bit constant with zero. The processor compares at the width of
the register, and `cmp` takes the immediate off first.

* `verdictHolds_iff`: the verdict is what the flags say if and only if this makes no difference.
-/

namespace ReWizard

/-! ## Registers in their intervals -/

/-- Every register has the bits of a number in its interval. A name of fewer than 64 bits is covered
both when its value as a signed number is in the interval and when its value as an unsigned number
is. -/
def IntervalDomain.Covers (d : IntervalDomain) (s : Machine) : Prop :=
  ∀ n w iv, n.view? = some w → d n = some iv →
    ∃ x, iv.contains x = true ∧ s.read? n = some (signExtendFrom w.width x)

theorem IntervalDomain.Covers.constant {d : IntervalDomain} {s : Machine} (h : d.Covers s)
    {n : ZydisRegister} {w : RegisterView} (hw : n.view? = some w)
    (hconst : (d.getRegisterInterval n).isConstant = true) :
    s.read? n = some (signExtendFrom w.width (d.getRegisterInterval n).lo) := by
  cases hd : d n with
  | none =>
    unfold getRegisterInterval at hconst
    rw [hd] at hconst
    exact absurd hconst (by decide)
  | some iv =>
    obtain ⟨x, hx, hread⟩ := h n w iv hw hd
    rw [getRegisterInterval_of_some hd] at hconst ⊢
    rw [hread, Interval.eq_of_contains hconst hx]

/-! ## Comparisons -/

/-- `test` of two registers, or `cmp` of a register and an immediate. -/
inductive Instruction.Compares (i : Instruction) : Prop
  | test {a b : ZydisRegister} {v w : RegisterView} : i.mnemonic = .test →
      (i.op 0).value = .register a → (i.op 1).value = .register b → a.view? = some v →
      b.view? = some w → Compares i
  | cmp {a : ZydisRegister} {imm : BitVec 64} {w : RegisterView} : i.mnemonic = .cmp →
      (i.op 0).value = .register a → (i.op 1).value = .immediate imm → a.view? = some w →
      Compares i

/-- A comparison sets the flags. -/
theorem Instruction.Compares.flags {i : ExtendedInstruction} (h : i.instruction.Compares)
    (s : Machine) : ∃ z n, i.flags s = some (z, n) := by
  have hread : ∀ {a : ZydisRegister} {w}, a.view? = some w → ∃ x, s.read? a = some x := by
    intro a w ha
    unfold Machine.read?
    rw [ha]
    exact ⟨_, rfl⟩
  unfold ExtendedInstruction.flags
  cases h with
  | test hm h0 h1 ha hb =>
    obtain ⟨x, hx⟩ := hread ha
    obtain ⟨y, hy⟩ := hread hb
    rw [hm, h0, h1]
    simp only [hx, hy, Option.bind_eq_bind, Option.bind_some]
    exact ⟨_, _, rfl⟩
  | cmp hm h0 h1 ha =>
    obtain ⟨x, hx⟩ := hread ha
    rw [hm, h0, h1]
    simp only [ha, hx, Option.bind_eq_bind, Option.bind_some]
    exact ⟨_, _, rfl⟩

/-- The register that the pass looks at has a view. -/
theorem Instruction.Compares.view {i : Instruction} (h : i.Compares) {n : ZydisRegister}
    (ht : testedRegister i = some n) : ∃ w, n.view? = some w := by
  unfold testedRegister at ht
  cases h with
  | test hm h0 h1 ha hb =>
    rw [hm, h0, h1] at ht
    dsimp only at ht
    split at ht
    · cases ht
      exact ⟨_, ha⟩
    · cases ht
  | cmp hm h0 h1 ha =>
    rw [hm, h0, h1] at ht
    cases ht
    exact ⟨_, ha⟩

/-! ## Verdicts -/

/-- The comparison is executed with the registers of `s`. When the pass then says that the branch
is always or never taken, the flags say so too. -/
def VerdictHolds (branch prev : ExtendedInstruction) (d : IntervalDomain) (s : Machine) : Prop :=
  let verdict := evaluateBranch branch.instruction (some prev.instruction) d
  ∃ z n, prev.flags s = some (z, n) ∧
    (verdict = .alwaysTrue → branch.branchTaken { s with zf := z, sf := n } = some true) ∧
    (verdict = .alwaysFalse → branch.branchTaken { s with zf := z, sf := n } = some false)

/-- If the pass knows the register, then the branch cannot tell its constant from what the processor
looks at: the constant less the immediate, at the width of the register. -/
def ComparesLikeZero (branch prev : Instruction) (d : IntervalDomain) : Prop :=
  ∀ n w, testedRegister prev = some n → n.view? = some w →
    (d.getRegisterInterval n).isConstant = true →
    let val := (d.getRegisterInterval n).lo
    let r := signExtendFrom w.width (val - prev.subtrahend)
    match branch.mnemonic with
    | .jz | .jnz => val = 0 ↔ r = 0
    | .js | .jns => val.msb = r.msb
    | _ => True

/-- Verdicts are right when they are the outcome, for branches that have both or neither. -/
theorem verdict_iff {x y : Option Bool} (h : x = none ↔ y = none) :
    ((PredicateResult.ofOutcome x = .alwaysTrue → y = some true) ∧
      (PredicateResult.ofOutcome x = .alwaysFalse → y = some false)) ↔ x = y := by
  cases x with
  | none => simp [h.mp rfl, PredicateResult.ofOutcome]
  | some x =>
    cases y with
    | none => cases h.mpr rfl
    | some y => cases x <;> cases y <;> decide

/-- The verdict on a constant that is known. -/
theorem verdictHolds_constant {branch prev : ExtendedInstruction} {d : IntervalDomain}
    {s : Machine} {reg : ZydisRegister} {r : BitVec 64}
    (ht : testedRegister prev.instruction = some reg)
    (hconst : (d.getRegisterInterval reg).isConstant = true)
    (hflags : prev.flags s = some (decide (r = 0), r.msb)) :
    VerdictHolds branch prev d s ↔
      match branch.instruction.mnemonic with
      | .jz | .jnz => (d.getRegisterInterval reg).lo = 0 ↔ r = 0
      | .js | .jns => (d.getRegisterInterval reg).lo.msb = r.msb
      | _ => True := by
  have hiff : VerdictHolds branch prev d s ↔
      branch.outcome (decide ((d.getRegisterInterval reg).lo = 0))
          (d.getRegisterInterval reg).lo.msb =
        branch.outcome (decide (r = 0)) r.msb := by
    unfold VerdictHolds
    rw [evaluateBranch_constant ht hconst, ← verdict_iff (branch.outcome_eq_none _ _ _ _)]
    constructor
    · rintro ⟨z, n, hzn, h⟩
      cases hflags.symm.trans hzn
      exact h
    · exact fun h => ⟨_, _, hflags, h⟩
  rw [hiff]
  unfold ExtendedInstruction.outcome ExtendedInstruction.branchTaken
  cases branch.instruction.mnemonic with
  | jz => exact Option.some_inj.trans decide_eq_decide
  | jnz => exact Option.some_inj.trans (Bool.not_inj_iff.trans decide_eq_decide)
  | js => exact Option.some_inj
  | jns => exact Option.some_inj.trans Bool.not_inj_iff
  | _ => exact ⟨fun _ => trivial, fun _ => rfl⟩

/-- **Verdicts on branches**: after a comparison, with registers that the domain covers, the verdict
is what the flags say if and only if the branch cannot tell the constant from what was compared. -/
theorem verdictHolds_iff {branch prev : ExtendedInstruction} {d : IntervalDomain} {s : Machine}
    (hprev : prev.instruction.Compares) (hs : d.Covers s) :
    VerdictHolds branch prev d s ↔
      ComparesLikeZero branch.instruction prev.instruction d := by
  by_cases hknown : ∃ reg, testedRegister prev.instruction = some reg ∧
      (d.getRegisterInterval reg).isConstant = true
  · obtain ⟨reg, ht, hconst⟩ := hknown
    obtain ⟨w, hw⟩ := hprev.view ht
    rw [verdictHolds_constant ht hconst (flags_tested ht hw (hs.constant hw hconst))]
    unfold ComparesLikeZero
    constructor
    · intro h n w' hn hw' _
      cases ht.symm.trans hn
      cases hw.symm.trans hw'
      exact h
    · exact fun h => h reg w ht hw hconst
  · -- the pass does not know the register, and says nothing
    have hunknown : evaluateBranch branch.instruction (some prev.instruction) d = .unknown := by
      unfold evaluateBranch
      rw [Option.bind_some]
      cases ht : testedRegister prev.instruction with
      | none => rfl
      | some reg => exact if_neg fun hconst => hknown ⟨reg, ht, hconst⟩
    obtain ⟨z, n, hflags⟩ := hprev.flags s
    unfold VerdictHolds
    rw [hunknown]
    exact ⟨fun _ reg w ht _ hconst => absurd ⟨reg, ht, hconst⟩ hknown, fun _ =>
      ⟨z, n, hflags, fun h => (nomatch h), fun h => (nomatch h)⟩⟩

/-! ## A comparison with five -/

/-- A domain that knows `eax` only. -/
def eaxIs (v : BitVec 64) : IntervalDomain :=
  IntervalDomain.empty.setRegisterInterval (.gpr32 .rax) (Interval.constant v)

/-- All registers and flags from one number. -/
def Machine.all (v : BitVec 64) : Machine := ⟨fun _ => v, false, false⟩

theorem eaxIs_covers (v : BitVec 64) : (eaxIs v).Covers (Machine.all v) := by
  intro n w iv hw hd
  unfold eaxIs IntervalDomain.setRegisterInterval IntervalDomain.empty at hd
  split at hd
  · rename_i hn
    subst hn
    cases hd
    cases hw
    refine ⟨v, Interval.contains_constant v, ?_⟩
    simp [Machine.read?, Machine.all, ZydisRegister.view?]
  · cases hd

/-- `test eax, eax`, `cmp eax, 5` and `jz`. -/
def testEax : ExtendedInstruction :=
  ⟨⟨.test, .other, 2, 2, [eaxOperand false, eaxOperand false, hiddenFlags]⟩, 0x1002, false, 0⟩

def cmpEaxFive : ExtendedInstruction :=
  ⟨⟨.cmp, .other, 3, 2, [eaxOperand false, immOperand 8 5, hiddenFlags]⟩, 0x1005, false, 0⟩

def jzAfter : ExtendedInstruction := ⟨jzInsn 0, 0x1008, false, 0⟩

/-- A test of a five is judged correctly. -/
theorem testEax_verdictHolds : VerdictHolds jzAfter testEax (eaxIs 5) (Machine.all 5) := by
  refine (verdictHolds_iff (.test rfl rfl rfl rfl rfl) (eaxIs_covers 5)).mpr ?_
  intro n w hn hw _
  cases hn
  cases hw
  show (5 : BitVec 64) = 0 ↔ signExtendFrom 32 (5 - 0) = 0
  decide

/-- A five is not equal to zero, so the pass says that `cmp eax, 5; jz` is never taken. -/
theorem cmpEaxFive_not_verdictHolds :
    (eaxIs 5).Covers (Machine.all 5) ∧ cmpEaxFive.instruction.Compares ∧
      ¬ VerdictHolds jzAfter cmpEaxFive (eaxIs 5) (Machine.all 5) := by
  refine ⟨eaxIs_covers 5, .cmp rfl rfl rfl rfl, ?_⟩
  rintro ⟨z, n, hflags, -, hnever⟩
  have hzero : cmpEaxFive.flags (Machine.all 5) = some (true, false) := by decide
  cases hzero.symm.trans hflags
  exact absurd (hnever (by decide)) (by decide)

end ReWizard
