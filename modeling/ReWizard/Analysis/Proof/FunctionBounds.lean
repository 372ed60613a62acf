import ReWizard.Lib.LineOrder
import ReWizard.Analysis.Proof.FunctionReach

/-!
# The end of a function

`AnalyzeFunction` moves the end of the function to the end of every block that it closes, whether that
is further up or not, and a block that it leaves open does not move it. So the function ends where the
block ends that is closed last.

* `Target.line`, `branchTargets`: a call decodes straight on, and goes on at the branch targets;
* `analyzeBlocks_order`: it decodes the lines in breadth-first order (`decodeOrder`), and the end is
  that of the last instruction in this order that ends a block;
* `boundsCover_iff`: the bounds cover what was decoded exactly when that one ends above it all.
-/

namespace ReWizard

open BreadthFirst

section

variable (t : Target)

/-! ## Lines -/

/-- The instructions from `a` straight on: up to a jump, a return, an address that was visited before
the call, the end of the mapping or bytes that do not decode. -/
def Target.lineFrom (old : Finset Nat) : Nat → Nat → List Nat
  | 0, _ => []
  | n + 1, a =>
    if a ∈ old ∨ ¬ t.Mapped a then []
    else
      match t.disassemble a with
      | none => []
      | some i =>
        a :: if i.instruction.category = .uncondBr ∨ i.instruction.category = .ret then []
          else lineFrom old n i.next

def Target.line (old : Finset Nat) (a : Nat) : List Nat :=
  t.lineFrom old (t.loader.imageEnd - a) a

/-- The target that the analysis goes on to from a branch. A jump that is the first instruction is a
trampoline. -/
def branchTargets (m : Module) (first : Bool) (i : ExtendedInstruction) : List Nat :=
  i.directTarget.toList.filter fun u => decide (t.InCode u ∧
    (i.instruction.category = .condBr ∨ (i.instruction.category = .uncondBr ∧ first = false ∧
      m.getFunctionForAddress u = none)))

/-- The targets of the instruction at `v`, in a function at `start`. -/
def Target.targetsAt (m : Module) (start v : Nat) : List Nat :=
  match t.disassemble v with
  | none => []
  | some i => branchTargets t m (decide (v = start)) i

/-- The instructions that a call decodes, in the order in which it comes to them: the lines from the
start and from the branch targets, these in breadth-first order. -/
def decodeOrder (ctx : AnalysisContext) (start : Nat) : List Nat :=
  lineOrder (t.line ctx.visited) (t.targetsAt ctx.module start) start (t.loader.mappedSize + 1)

/-- The instruction at `v` ends a block: it is a branch or a return, or what follows it is mapped, was
not visited before the call and does not decode. -/
def Target.endsBlock (old : Finset Nat) (v : Nat) : Bool :=
  match t.disassemble v with
  | none => false
  | some i =>
    match i.instruction.category with
    | .condBr => true
    | .uncondBr => true
    | .ret => true
    | _ => decide (i.next ∉ old ∧ t.Mapped i.next ∧ t.disassemble i.next = none)

/-- Where the last of the instructions ends that ends a block, or `start` if none does. -/
def lastEnd (old : Finset Nat) (start : Nat) (l : List Nat) : Nat :=
  match (l.filter (t.endsBlock old)).getLast? with
  | none => start
  | some v => t.instrEnd v

end

section

variable {t : Target} {old : Finset Nat} {a v u : Nat} {i : ExtendedInstruction}

theorem lineFrom_stop (h : a ∈ old ∨ ¬ t.Mapped a) : ∀ n, t.lineFrom old n a = []
  | 0 => rfl
  | _ + 1 => if_pos h

theorem lineFrom_none (hd : t.disassemble a = none) : ∀ n, t.lineFrom old n a = []
  | 0 => rfl
  | n + 1 => by
    unfold Target.lineFrom
    rw [hd]
    split <;> rfl

/-- More than the bytes up to the end of the mapping are of no use. -/
theorem lineFrom_eq : ∀ {n m a : Nat}, t.loader.imageEnd ≤ a + n → t.loader.imageEnd ≤ a + m →
    t.lineFrom old n a = t.lineFrom old m a
  | 0, m, a, hn, _ => (lineFrom_stop (.inr fun hm => Nat.not_le.mpr hm.2 hn) m).symm
  | n + 1, 0, a, _, hm => lineFrom_stop (.inr fun hmap => Nat.not_le.mpr hmap.2 hm) _
  | n + 1, m + 1, a, hn, hm => by
    unfold Target.lineFrom
    split
    · rfl
    · rename_i hstop
      split
      · rfl
      · rename_i i hd
        have hmap : t.Mapped a := Classical.byContradiction fun h => hstop (.inr h)
        have hnext := Target.next_eq hd hmap.2
        obtain ⟨-, -, -, hpos, -⟩ := Target.disassemble_eq_some hd
        rw [lineFrom_eq (n := n) (m := m) (a := i.next) (by omega) (by omega)]

theorem line_stop (h : a ∈ old ∨ ¬ t.Mapped a ∨ t.disassemble a = none) : t.line old a = [] := by
  rcases h with h | h | h
  · exact lineFrom_stop (.inl h) _
  · exact lineFrom_stop (.inr h) _
  · exact lineFrom_none h _

/-- A line begins with its instruction, and goes on after it unless that is a jump or a return. -/
theorem line_cons (hv : a ∉ old) (hm : t.Mapped a) (hd : t.disassemble a = some i) :
    t.line old a = a :: if i.instruction.category = .uncondBr ∨ i.instruction.category = .ret then []
      else t.line old i.next := by
  have hnext := Target.next_eq hd hm.2
  obtain ⟨-, -, -, hpos, -⟩ := Target.disassemble_eq_some hd
  have hlt := hm.2
  have hlen : t.loader.imageEnd - a = (t.loader.imageEnd - a - 1) + 1 := by omega
  unfold Target.line
  rw [hlen, Target.lineFrom, if_neg (by simp [hv, hm]), hd]
  dsimp only
  rw [lineFrom_eq (m := t.loader.imageEnd - i.next) (by omega) (by omega)]

/-- The rule for a property of lines: the instruction at `a` is decoded, and the line goes on after
it, or there is none. -/
theorem line_induct (t : Target) (old : Finset Nat) {P : Nat → Prop} (hstop : ∀ a, t.line old a = [] → P a)
    (hcons : ∀ a i, a ∉ old → t.Mapped a → t.disassemble a = some i → a < i.next → P i.next → P a)
    (a : Nat) : P a := by
  have hn : ∀ n a, t.loader.imageEnd ≤ a + n → P a := by
    intro n
    induction n with
    | zero => exact fun a h => hstop a (line_stop (.inr (.inl fun hm => Nat.not_le.mpr hm.2 h)))
    | succ n ih =>
      intro a h
      by_cases hv : a ∈ old
      · exact hstop a (line_stop (.inl hv))
      · by_cases hm : t.Mapped a
        · cases hd : t.disassemble a with
          | none => exact hstop a (line_stop (.inr (.inr hd)))
          | some i =>
            have hnext := Target.next_eq hd hm.2
            obtain ⟨-, -, -, hpos, -⟩ := Target.disassemble_eq_some hd
            exact hcons a i hv hm hd (by omega) (ih i.next (by omega))
        · exact hstop a (line_stop (.inr (.inl hm)))
  exact hn t.loader.imageEnd a (by omega)

theorem mem_line (h : v ∈ t.line old a) : a ≤ v ∧ v ∉ old ∧ t.Decodes v := by
  revert h
  refine line_induct t old (P := fun a => v ∈ t.line old a → a ≤ v ∧ v ∉ old ∧ t.Decodes v) ?_ ?_ a
  · intro a hnil h
    rw [hnil] at h
    cases h
  · intro a i hv hm hd hlt ih h
    rw [line_cons hv hm hd] at h
    rcases List.mem_cons.mp h with rfl | h
    · exact ⟨Nat.le_refl v, hv, hm, by rw [hd]; rfl⟩
    · split at h
      · cases h
      · obtain ⟨hle, hrest⟩ := ih h
        exact ⟨by omega, hrest⟩

theorem nodup_line (old : Finset Nat) (a : Nat) : (t.line old a).Nodup := by
  refine line_induct t old (P := fun a => (t.line old a).Nodup) ?_ ?_ a
  · intro a hnil
    rw [hnil]
    exact List.nodup_nil
  · intro a i hv hm hd hlt ih
    rw [line_cons hv hm hd]
    split
    · exact List.nodup_singleton a
    · refine List.nodup_cons.mpr ⟨fun hmem => ?_, ih⟩
      have := (mem_line hmem).1
      omega

/-- From each of its instructions on, a line is a line. -/
theorem line_subset (h : v ∈ t.line old a) : t.line old v ⊆ t.line old a := by
  revert h
  refine line_induct t old (P := fun a => v ∈ t.line old a → t.line old v ⊆ t.line old a) ?_ ?_ a
  · intro a hnil h
    rw [hnil] at h
    cases h
  · intro a i hv hm hd hlt ih h
    have hline := line_cons hv hm hd
    rw [hline] at h
    rcases List.mem_cons.mp h with rfl | h
    · exact List.Subset.refl _
    · rw [hline]
      split at h
      · cases h
      · rename_i hcat
        rw [if_neg hcat]
        exact List.subset_cons_of_subset a (ih h)

end

/-! ## One decoded instruction -/

/-- `added` are the targets, of which those that are visited may be left out. -/
def Adds (visited : Finset Nat) (targets added : List Nat) : Prop :=
  ∀ q : Nat → Bool, (∀ u, q u = true → u ∉ visited) → added.filter q = targets.filter q

namespace Adds

variable {visited visited' : Finset Nat} {targets added : List Nat}

theorem refl (visited : Finset Nat) (targets : List Nat) : Adds visited targets targets :=
  fun _ _ => rfl

theorem of_visited (h : ∀ u ∈ targets, u ∈ visited) : Adds visited targets [] := fun _ hq =>
  (List.filter_eq_nil_iff.mpr fun u hu hqu => hq u hqu (h u hu)).symm

theorem append (h : Adds visited targets added) (hsub : visited ⊆ visited')
    {targets' added' : List Nat} (h' : Adds visited' targets' added') :
    Adds visited' (targets ++ targets') (added ++ added') := by
  intro q hq
  rw [List.filter_append, List.filter_append, h q fun u hu hv => hq u hu (hsub hv), h' q hq]

end Adds

section

variable {t : Target} {insn : ExtendedInstruction} {m : Module} {first : Bool} {u : Nat}

theorem mem_branchTargets : u ∈ branchTargets t m first insn ↔ insn.directTarget = some u ∧
    t.InCode u ∧ (insn.instruction.category = .condBr ∨ (insn.instruction.category = .uncondBr ∧
      first = false ∧ m.getFunctionForAddress u = none)) := by
  unfold branchTargets
  rw [List.mem_filter, Option.mem_toList, decide_eq_true_eq]

theorem branchTargets_eq_nil (h : ∀ u, insn.directTarget = some u → t.InCode u →
    ¬ (insn.instruction.category = .condBr ∨ (insn.instruction.category = .uncondBr ∧
      first = false ∧ m.getFunctionForAddress u = none))) : branchTargets t m first insn = [] :=
  List.eq_nil_iff_forall_not_mem.mpr fun u hu => by
    obtain ⟨htarget, hcode, hbranch⟩ := mem_branchTargets.mp hu
    exact h u htarget hcode hbranch

theorem branchTargets_eq (htarget : insn.directTarget = some u) (hcode : t.InCode u)
    (hbranch : insn.instruction.category = .condBr ∨ (insn.instruction.category = .uncondBr ∧
      first = false ∧ m.getFunctionForAddress u = none)) : branchTargets t m first insn = [u] := by
  unfold branchTargets
  rw [htarget]
  exact List.filter_cons_of_pos (decide_eq_true ⟨hcode, hbranch⟩)

theorem branchTargets_congr {m' : Module}
    (h : ∀ u, m'.getFunctionForAddress u = m.getFunctionForAddress u) :
    branchTargets t m' first insn = branchTargets t m first insn := by
  unfold branchTargets
  simp only [h]

theorem branchTarget_added (inserted : Bool) (bb : BasicBlock) (s : AnalyzeState)
    (hcat : insn.instruction.category = .condBr ∨ insn.instruction.category = .uncondBr) :
    ∃ added, (branchTarget t insn inserted bb s).1.work = s.work ++ added ∧
      Adds s.visited (branchTargets t s.module false insn) added := by
  have hout := branchTarget_out t insn inserted bb s
  generalize branchTarget t insn inserted bb s = r at hout ⊢
  have hnone : branchTargets t s.module false insn = [] →
      ∃ added, s.work = s.work ++ added ∧
        Adds s.visited (branchTargets t s.module false insn) added := fun h =>
    ⟨[], (List.append_nil _).symm, h ▸ Adds.refl _ _⟩
  cases hout with
  | outside houtside =>
    exact hnone (branchTargets_eq_nil fun u hu hcode => absurd hcode (houtside u hu))
  | known target htarget _ _ hjump hknown =>
    refine hnone (branchTargets_eq_nil fun u hu _ hbranch => ?_)
    cases htarget.symm.trans hu
    rcases hbranch with hcond | ⟨-, -, hunknown⟩
    · rw [hjump] at hcond
      cases hcond
    · rw [hunknown] at hknown
      cases hknown
  | enqueued target htarget _ hcode hjump hunknown =>
    refine ⟨[target], rfl, ?_⟩
    rw [branchTargets_eq htarget hcode (.inr ⟨hjump, rfl, hunknown⟩)]
    exact .refl _ _
  | visited target htarget _ _ hvisited =>
    refine ⟨[], (List.append_nil _).symm, .of_visited fun u hu => ?_⟩
    cases htarget.symm.trans (mem_branchTargets.mp hu).1
    exact hvisited
  | branch target htarget _ hcode hjump =>
    rw [branchTargets_eq htarget hcode (.inl (hcat.resolve_right hjump))]
    by_cases hv : target ∈ s.visited
    · refine ⟨[], ?_, .of_visited fun u hu => ?_⟩
      · rw [if_neg (not_not_intro hv), List.append_nil]
      · rw [List.mem_singleton.mp hu]
        exact hv
    · refine ⟨[target], ?_, .refl _ _⟩
      rw [if_pos hv]
  | indirect htarget =>
    exact hnone (branchTargets_eq_nil fun u hu => by rw [htarget] at hu; cases hu)

variable {s s' : AnalyzeState}

theorem handleBranch_added (inserted : Bool)
    (hlook : ∀ u, s.module.getFunctionForAddress u = m.getFunctionForAddress u)
    (hcat : insn.instruction.category = .condBr ∨
      (insn.instruction.category = .uncondBr ∧ first = false)) :
    ∃ added, (handleBranch t insn inserted s.currentBlock (s.recorded insn)).work =
        s.work ++ added ∧
      Adds (handleBranch t insn inserted s.currentBlock (s.recorded insn)).visited
        (branchTargets t m first insn) added := by
  obtain ⟨added, hwork, hadds⟩ := branchTarget_added (t := t) inserted s.currentBlock
    (s.recorded insn) (hcat.imp_right And.left)
  refine ⟨added, (handleBranch_work t insn inserted _ _).trans hwork, ?_⟩
  have hrecorded : ∀ u, (s.recorded insn).module.getFunctionForAddress u =
      m.getFunctionForAddress u := fun u =>
    (Module.getFunctionForAddress_congr (addInstruction_functions _ _)
      (addInstruction_functionByStart _ _) u).trans (hlook u)
  have hsame : branchTargets t m first insn = branchTargets t m false insn := by
    unfold branchTargets
    rcases hcat with hcond | ⟨-, hfirst⟩
    · simp [hcond]
    · rw [hfirst]
  rw [(handleBranch_handled t insn inserted _ _).visited, hsame, ← branchTargets_congr hrecorded]
  exact hadds

/-- An instruction adds its targets to the work list. -/
theorem decodeInsn_added (hlook : ∀ u, s.module.getFunctionForAddress u = m.getFunctionForAddress u)
    (hfirst : first = true ↔ s.localInsnCount = 0)
    (h : decodeInsn t insn s = .next s' ∨ decodeInsn t insn s = .done s') :
    ∃ added, s'.work = s.work ++ added ∧ Adds s'.visited (branchTargets t m first insn) added := by
  have hnone : s'.work = s.work → branchTargets t m first insn = [] →
      ∃ added, s'.work = s.work ++ added ∧
        Adds s'.visited (branchTargets t m first insn) added := fun hw h =>
    ⟨[], hw.trans (List.append_nil _).symm, h ▸ Adds.refl _ _⟩
  have hother : insn.instruction.category ≠ .condBr → insn.instruction.category ≠ .uncondBr →
      branchTargets t m first insn = [] := fun h1 h2 =>
    branchTargets_eq_nil fun u _ _ hbranch => hbranch.elim h1 fun h => h2 h.1
  obtain ⟨inserted, -, hout | hout⟩ := decodeInsn_result h
  · cases hout with
    | call hcat =>
      exact hnone (handleCall_work t insn inserted _ _) (hother (by simp [hcat]) (by simp [hcat]))
    | condBr hcat => exact handleBranch_added inserted hlook (.inl hcat)
    | other hcat => exact hnone rfl (hother (by simp [hcat]) (by simp [hcat]))
  · cases hout with
    | trampoline h0 hcat =>
      refine hnone (handleTrampoline_work t insn inserted _ _) (branchTargets_eq_nil fun u _ _ hb => ?_)
      rw [hcat, hfirst.mpr h0] at hb
      rcases hb with hb | ⟨-, hb, -⟩ <;> cases hb
    | uncondBr hcat hlater =>
      refine handleBranch_added inserted hlook (.inr ⟨hcat, ?_⟩)
      exact Bool.eq_false_iff.mpr fun h => hlater (hfirst.mp h)
    | ret hcat => exact hnone rfl (hother (by simp [hcat]) (by simp [hcat]))

/-- A call or another straight instruction leaves the block open and the end of the function as it is;
every other one closes the block and puts the end after itself. -/
theorem decodeInsn_end (h : decodeInsn t insn s = .next s' ∨ decodeInsn t insn s = .done s') :
    (insn.instruction.category = .call ∨ insn.instruction.category = .other) ∧
        s'.function.endAddress = s.function.endAddress ∧ s'.bb ≠ none ∨
      (insn.instruction.category = .condBr ∨ insn.instruction.category = .uncondBr ∨
          insn.instruction.category = .ret) ∧
        s'.function.endAddress = insn.next ∧ s'.bb = none := by
  obtain ⟨inserted, -, hout⟩ := decodeInsn_result h
  have hbranch : ∀ s₁ : AnalyzeState,
      (handleBranch t insn inserted s.currentBlock s₁).function.endAddress = insn.next ∧
        (handleBranch t insn inserted s.currentBlock s₁).bb = none := by
    intro s₁
    obtain ⟨s₂, b, -, -, -, -, -, -, -, heq⟩ := handleBranch_eq t insn inserted s.currentBlock s₁
    rw [heq]
    exact ⟨rfl, rfl⟩
  have hcall : ∀ s₁ : AnalyzeState, (handleCall t insn inserted s.currentBlock s₁).function.endAddress =
      s₁.function.endAddress ∧ (handleCall t insn inserted s.currentBlock s₁).bb ≠ none := by
    intro s₁
    have hcallOut := handleCall_out t insn inserted s.currentBlock s₁
    generalize handleCall t insn inserted s.currentBlock s₁ = s₂ at hcallOut ⊢
    cases hcallOut with
    | enqueued => exact ⟨rfl, Option.some_ne_none _⟩
    | recorded => exact ⟨rfl, Option.some_ne_none _⟩
    | indirect => exact ⟨rfl, Option.some_ne_none _⟩
  rcases hout with hout | hout
  · cases hout with
    | call hcat => exact .inl ⟨.inl hcat, hcall _⟩
    | condBr hcat => exact .inr ⟨.inl hcat, hbranch _⟩
    | other hcat => exact .inl ⟨.inr hcat, rfl, Option.some_ne_none _⟩
  · cases hout with
    | trampoline _ hcat => exact .inr ⟨.inr (.inl hcat), rfl, rfl⟩
    | uncondBr hcat _ => exact .inr ⟨.inr (.inl hcat), hbranch _⟩
    | ret hcat => exact .inr ⟨.inr (.inr hcat), rfl, rfl⟩

end

/-! ## The end after the last block -/

section

variable {t : Target} {old : Finset Nat} {start v : Nat} {l : List Nat}

theorem lastEnd_append_of_ends (h : t.endsBlock old v = true) :
    lastEnd t old start (l ++ [v]) = t.instrEnd v := by
  unfold lastEnd
  rw [List.filter_append, List.filter_cons_of_pos h, List.filter_nil,
    List.getLast?_append_of_ne_nil _ (List.cons_ne_nil _ _)]
  rfl

theorem lastEnd_append_of_not (h : t.endsBlock old v = false) :
    lastEnd t old start (l ++ [v]) = lastEnd t old start l := by
  unfold lastEnd
  rw [List.filter_append, List.filter_cons_of_neg (by simp [h]), List.filter_nil, List.append_nil]

theorem endsBlock_branch {i : ExtendedInstruction} (hd : t.disassemble v = some i)
    (hcat : i.instruction.category = .condBr ∨ i.instruction.category = .uncondBr ∨
      i.instruction.category = .ret) : t.endsBlock old v = true := by
  unfold Target.endsBlock
  rw [hd]
  rcases hcat with h | h | h <;> simp [h]

theorem endsBlock_straight {i : ExtendedInstruction} (hd : t.disassemble v = some i)
    (hcat : i.instruction.category = .call ∨ i.instruction.category = .other) :
    t.endsBlock old v = decide (i.next ∉ old ∧ t.Mapped i.next ∧ t.disassemble i.next = none) := by
  unfold Target.endsBlock
  rw [hd]
  rcases hcat with h | h <;> simp [h]

/-- The function ends where the block of the last of the instructions ends. Before the next
instruction is looked at, an open block is not closed. -/
inductive EndsAt (t : Target) (old : Finset Nat) (start : Nat) (l : List Nat) (s : AnalyzeState) :
    Prop
  | closed : s.bb = none → s.function.endAddress = lastEnd t old start l → EndsAt t old start l s
  | opened {before : List Nat} {v : Nat} {i : ExtendedInstruction} : l = before ++ [v] →
      s.bb ≠ none → t.disassemble v = some i →
      i.instruction.category = .call ∨ i.instruction.category = .other → s.pc = i.next →
      s.function.endAddress = lastEnd t old start before → EndsAt t old start l s

/-- At an address that is visited, not mapped or decodes, an open block does not end. -/
theorem EndsAt.goesOn {s : AnalyzeState} (h : EndsAt t old start l s)
    (hpc : s.pc ∈ old ∨ ¬ t.Mapped s.pc ∨ t.disassemble s.pc ≠ none) :
    s.function.endAddress = lastEnd t old start l := by
  cases h with
  | closed _ hend => exact hend
  | opened hl _ hd hcat hnext hend =>
    rw [hend, hl, lastEnd_append_of_not]
    rw [endsBlock_straight hd hcat, decide_eq_false_iff_not, ← hnext]
    rintro ⟨h1, h2, h3⟩
    rcases hpc with h | h | h
    · exact h1 h
    · exact h h2
    · exact h h3

/-- Before an address that is mapped and does not decode, an open block ends. -/
theorem EndsAt.stops {s : AnalyzeState} (h : EndsAt t old start l s) (hopen : s.bb ≠ none)
    (hmapped : ∀ v ∈ l, t.Mapped v) (hold : s.pc ∉ old) (hm : t.Mapped s.pc)
    (hnone : t.disassemble s.pc = none) : s.pc = lastEnd t old start l := by
  cases h with
  | closed hclosed _ => exact absurd hclosed hopen
  | @opened before v i hl _ hd hcat hnext _ =>
    have hmv : t.Mapped v := hmapped v (hl ▸ List.mem_append_right _ (List.mem_singleton_self v))
    have hblock : t.endsBlock old v = true := by
      rw [endsBlock_straight hd hcat, decide_eq_true_eq, ← hnext]
      exact ⟨hold, hm, hnone⟩
    rw [hl, lastEnd_append_of_ends hblock, Target.instrEnd_eq hd, hnext, Target.next_eq hd hmv.2]

end

/-! ## One line -/

/-- The run from `p` has decoded `new`, after `done`, and has added their targets to `rest`. -/
structure LinePart (t : Target) (ctx : AnalysisContext) (start : Nat) (done rest new : List Nat)
    (s : AnalyzeState) : Prop where
  fresh : ∀ a ∈ new, a ∉ done
  visited : ∀ a, a ∈ s.visited ↔ a ∈ ctx.visited ∨ a ∈ done ++ new
  work : ∃ added, s.work = rest ++ added ∧
    Adds s.visited (new.flatMap (t.targetsAt ctx.module start)) added

/-- The run is at `pc`, with the line up to there decoded. -/
structure Following (t : Target) (ctx : AnalysisContext) (start : Nat) (done rest : List Nat) (p : Nat)
    (new : List Nat) (s : AnalyzeState) : Prop where
  part : LinePart t ctx start done rest new s
  line : t.line ctx.visited p = new ++ t.line ctx.visited s.pc
  ends : EndsAt t ctx.visited start (done ++ new) s

/-- The run is through: it has met the rest of the line before. -/
structure Followed (t : Target) (ctx : AnalysisContext) (start : Nat) (done rest : List Nat) (p : Nat)
    (new : List Nat) (s : AnalyzeState) : Prop where
  part : LinePart t ctx start done rest new s
  line : ∃ tail, t.line ctx.visited p = new ++ tail ∧ tail ⊆ done
  ends : s.function.endAddress = lastEnd t ctx.visited start (done ++ new)

/-- What was decoded before a run: whole lines. -/
structure WholeLines (t : Target) (old : Finset Nat) (done : List Nat) : Prop where
  decodes : ∀ v ∈ done, t.Decodes v
  closed : ∀ v ∈ done, t.line old v ⊆ done

section

variable {t : Target} {ctx : AnalysisContext} {start p : Nat} {done rest new : List Nat}
  {s s' : AnalyzeState} {insn : ExtendedInstruction}

theorem LinePart.decoded (h : LinePart t ctx start done rest new s)
    (htaken : TakenInv t ctx start s (· = s.pc)) (hv : s.pc ∉ s.visited) (hm : t.Mapped s.pc)
    (hd : t.disassemble s.pc = some insn) (hdec : Decoded t insn s s')
    (hn : decodeStep t s = .next s' ∨ decodeStep t s = .done s') :
    LinePart t ctx start done rest (new ++ [s.pc]) s' := by
  obtain ⟨haddr, -⟩ := Target.disassemble_eq_some hd
  have hvisited : s'.visited = insert s.pc s.visited := haddr ▸ hdec.visited
  have hfirst : decide (s.pc = start) = true ↔ s.localInsnCount = 0 :=
    decide_eq_true_iff.trans (htaken.first_iff hv).symm
  rw [decodeStep_eq_decodeInsn hv hm hd] at hn
  obtain ⟨more, hmore, hadds⟩ := decodeInsn_added (t := t) (m := ctx.module)
    (Module.getFunctionForAddress_congr htaken.functions htaken.functionByStart) hfirst hn
  obtain ⟨added, hadded, hall⟩ := h.work
  refine ⟨fun a ha => ?_, fun a => ?_, added ++ more, ?_, ?_⟩
  · rcases List.mem_append.mp ha with ha | ha
    · exact h.fresh a ha
    · rw [List.mem_singleton.mp ha]
      exact fun hdone => hv ((h.visited _).mpr (.inr (List.mem_append_left _ hdone)))
  · rw [hvisited, Finset.mem_insert, h.visited, ← List.append_assoc, List.mem_append (s := done ++ new),
      List.mem_singleton]
    exact or_comm.trans or_assoc
  · rw [hmore, hadded, List.append_assoc]
  · rw [List.flatMap_append, List.flatMap_singleton]
    refine hall.append (hvisited ▸ Finset.subset_insert _ _) ?_
    have htargets : t.targetsAt ctx.module start s.pc =
        branchTargets t ctx.module (decide (s.pc = start)) insn := by
      unfold Target.targetsAt
      rw [hd]
    rw [htargets]
    exact hadds

/-- The instruction at `pc` ends its block. -/
theorem lastEnd_branch (hm : t.Mapped p) (hd : t.disassemble p = some insn)
    (hcat : insn.instruction.category = .condBr ∨ insn.instruction.category = .uncondBr ∨
      insn.instruction.category = .ret) (l : List Nat) :
    insn.next = lastEnd t ctx.visited start (l ++ [p]) := by
  rw [lastEnd_append_of_ends (endsBlock_branch hd hcat), Target.instrEnd_eq hd,
    Target.next_eq hd hm.2]

theorem Following.next (h : Following t ctx start done rest p new s)
    (htaken : TakenInv t ctx start s (· = s.pc)) (hn : decodeStep t s = .next s') :
    Following t ctx start done rest p (new ++ [s.pc]) s' := by
  obtain ⟨hv, hm, insn, hd, heffect⟩ := decodeStep_next_effect hn
  obtain ⟨hdec, hpc, hcat⟩ : Decoded t insn s s' ∧ s'.pc = insn.next ∧
      ¬ (insn.instruction.category = .uncondBr ∨ insn.instruction.category = .ret) := by
    cases heffect with
    | straight hcat hdec hpc _ _ =>
      exact ⟨hdec, hpc, by rcases hcat with hcat | hcat <;> simp [hcat]⟩
    | cond hcat hdec hpc _ => exact ⟨hdec, hpc, by simp [hcat]⟩
  have hold : s.pc ∉ ctx.visited := fun ho => hv ((h.part.visited _).mpr (.inl ho))
  refine ⟨h.part.decoded htaken hv hm hd hdec (.inl hn), ?_, ?_⟩
  · rw [h.line, line_cons hold hm hd, if_neg hcat, hpc, List.append_assoc]
    rfl
  · rw [← List.append_assoc]
    rcases decodeInsn_end (.inl ((decodeStep_eq_decodeInsn hv hm hd).symm.trans hn)) with
      ⟨hstraight, hsame, hopen⟩ | ⟨hbranch, hstop, hclosed⟩
    · exact .opened rfl hopen hd hstraight hpc
        (hsame.trans (h.ends.goesOn (.inr (.inr (by simp [hd])))))
    · exact .closed hclosed (hstop.trans (lastEnd_branch hm hd hbranch _))

/-- The line from an address that is visited was met before the run. -/
theorem Following.line_met (h : Following t ctx start done rest p new s)
    (hwhole : WholeLines t ctx.visited done) (hv : s.pc ∈ s.visited) :
    t.line ctx.visited s.pc ⊆ done := by
  rcases (h.part.visited _).mp hv with hold | hmem
  · rw [line_stop (.inl hold)]
    exact List.nil_subset _
  · rcases List.mem_append.mp hmem with hdone | hnew
    · exact hwhole.closed _ hdone
    · -- a line does not come back to an address
      have hin : s.pc ∈ t.line ctx.visited p := h.line ▸ List.mem_append_left _ hnew
      obtain ⟨-, hold, hm, hsome⟩ := mem_line hin
      obtain ⟨i, hd⟩ := Option.isSome_iff_exists.mp hsome
      have hnodup := nodup_line (t := t) ctx.visited p
      rw [h.line, line_cons hold hm hd] at hnodup
      exact absurd rfl ((List.nodup_append.mp hnodup).2.2 _ hnew _ List.mem_cons_self)

theorem Following.decodes (h : Following t ctx start done rest p new s)
    (hwhole : WholeLines t ctx.visited done) : ∀ v ∈ done ++ new, t.Decodes v := by
  intro v hv
  rcases List.mem_append.mp hv with hv | hv
  · exact hwhole.decodes v hv
  · exact (mem_line (h.line ▸ List.mem_append_left _ hv)).2.2

/-- The line is through where the run does not go on, and no block is open or it does not end. -/
theorem Following.stopped (h : Following t ctx start done rest p new s)
    (hwhole : WholeLines t ctx.visited done)
    (hstop : s.pc ∈ s.visited ∨ ¬ t.Mapped s.pc ∨ (t.disassemble s.pc = none ∧ s.bb = none)) :
    Followed t ctx start done rest p new s := by
  rcases hstop with hv | hm | ⟨hnone, hbb⟩
  · refine ⟨h.part, ⟨_, h.line, h.line_met hwhole hv⟩, h.ends.goesOn ?_⟩
    rcases (h.part.visited _).mp hv with hold | hmem
    · exact .inl hold
    · exact .inr (.inr fun hnone => by simpa [hnone] using (h.decodes hwhole _ hmem).2)
  · refine ⟨h.part, ⟨[], ?_, List.nil_subset _⟩, h.ends.goesOn (.inr (.inl hm))⟩
    rw [h.line, line_stop (.inr (.inl hm))]
  · refine ⟨h.part, ⟨[], ?_, List.nil_subset _⟩, ?_⟩
    · rw [h.line, line_stop (.inr (.inr hnone))]
    · cases h.ends with
      | closed _ hend => exact hend
      | opened _ hopen _ _ _ _ => exact absurd hbb hopen

theorem Following.leaves (h : Following t ctx start done rest p new s)
    (hwhole : WholeLines t ctx.visited done) (htaken : TakenInv t ctx start s (· = s.pc))
    (hn : decodeStep t s = .done s') :
    ∃ new', Followed t ctx start done rest p new' s' := by
  rcases decodeStep_cases t s with ⟨hsame, hstop⟩ | ⟨hv, hm, hnone, bb, last, hbb, hclose⟩ |
    ⟨hv, hm, insn, hd, heffect⟩
  · rw [hsame] at hn
    cases hn
    exact ⟨new, h.stopped hwhole hstop⟩
  · rw [hclose] at hn
    cases hn
    have hold : s.pc ∉ ctx.visited := fun ho => hv ((h.part.visited _).mpr (.inl ho))
    refine ⟨new, ⟨h.part.fresh, h.part.visited, h.part.work⟩, ⟨[], ?_, List.nil_subset _⟩, ?_⟩
    · rw [h.line, line_stop (.inr (.inr hnone))]
    · exact h.ends.stops (by simp [hbb]) (fun v hv => (h.decodes hwhole v hv).1) hold hm hnone
  · have hold : s.pc ∉ ctx.visited := fun ho => hv ((h.part.visited _).mpr (.inl ho))
    rw [hn] at heffect
    obtain ⟨hdec, hcat⟩ : Decoded t insn s s' ∧
        (insn.instruction.category = .uncondBr ∨ insn.instruction.category = .ret) := by
      cases heffect with
      | jump hcat hdec _ => exact ⟨hdec, .inl hcat⟩
      | ret hcat hdec _ => exact ⟨hdec, .inr hcat⟩
    refine ⟨new ++ [s.pc], h.part.decoded htaken hv hm hd hdec (.inr hn), ⟨[], ?_, List.nil_subset _⟩, ?_⟩
    · rw [h.line, line_cons hold hm hd, if_pos hcat, List.append_nil]
    · rw [← List.append_assoc]
      rcases decodeInsn_end (.inr ((decodeStep_eq_decodeInsn hv hm hd).symm.trans hn)) with
        ⟨hstraight, -, -⟩ | ⟨hbranch, hstop, -⟩
      · rcases hcat with hcat | hcat <;> rw [hcat] at hstraight <;>
          rcases hstraight with hs | hs <;> cases hs
      · exact hstop.trans (lastEnd_branch hm hd hbranch _)

theorem Followed.addBasicBlock (h : Followed t ctx start done rest p new s) :
    Followed t ctx start done rest p new s.addBasicBlock := by
  unfold AnalyzeState.addBasicBlock
  split
  · exact h
  · exact ⟨⟨h.part.fresh, h.part.visited, h.part.work⟩, h.line, h.ends⟩

end

/-! ## The order of a call -/

/-- Before a pass of the outer loop, the call has decoded `done`, in the order of its lines. -/
structure Ordered (t : Target) (ctx : AnalysisContext) (start : Nat) (done : List Nat)
    (w : AnalyzeState) : Prop where
  walk : LineWalk (t.line ctx.visited) (t.targetsAt ctx.module start) start done w.work
  visited : ∀ a, a ∈ w.visited ↔ a ∈ ctx.visited ∨ a ∈ done
  whole : WholeLines t ctx.visited done
  ends : w.function.endAddress = lastEnd t ctx.visited start done

namespace Ordered

variable {t : Target} {ctx : AnalysisContext} {start p : Nat} {done rest new queue : List Nat}
  {w w' s : AnalyzeState}

theorem init (t : Target) (ctx : AnalysisContext) (start : Nat) (queue : List Nat) :
    Ordered t ctx start [] (analyzeInit ctx (newFunction start) start queue) where
  walk := .start
  visited := fun _ => (or_iff_left List.not_mem_nil).symm
  whole := ⟨fun _ h => absurd h List.not_mem_nil, fun _ h => absurd h List.not_mem_nil⟩
  ends := rfl

/-- An address that was visited is dropped. -/
theorem skip (h : Ordered t ctx start done w) (hwork : w.work = p :: rest) (hv : p ∈ w.visited) :
    Ordered t ctx start done { w with work := rest } := by
  have hmet : [] = (t.line ctx.visited p).filter fun a => decide (a ∉ done) := by
    refine (List.filter_eq_nil_iff.mpr fun a ha => ?_).symm
    rcases (h.visited p).mp hv with hold | hdone
    · rw [line_stop (.inl hold)] at ha
      cases ha
    · simp [h.whole.closed p hdone ha]
  have hwalk := h.walk
  rw [hwork] at hwalk
  have hnext : LineWalk (t.line ctx.visited) (t.targetsAt ctx.module start) start (done ++ [])
      (rest ++ []) := hwalk.follow hmet rfl
  rw [List.append_nil, List.append_nil] at hnext
  exact ⟨hnext, h.visited, h.whole, h.ends⟩

/-- A run from an address that was not visited. -/
theorem run (h : Ordered t ctx start done w) (hwork : w.work = p :: rest)
    (hrun : Followed t ctx start done rest p new s) : Ordered t ctx start (done ++ new) s := by
  obtain ⟨tail, hline, htail⟩ := hrun.line
  have hnew : new = (t.line ctx.visited p).filter fun a => decide (a ∉ done) := by
    have h1 : (new.filter fun a => decide (a ∉ done)) = new :=
      List.filter_eq_self.mpr fun a ha => decide_eq_true (hrun.part.fresh a ha)
    have h2 : (tail.filter fun a => decide (a ∉ done)) = [] :=
      List.filter_eq_nil_iff.mpr fun a ha => by simp [htail ha]
    rw [hline, List.filter_append, h1, h2, List.append_nil]
  have hsub : t.line ctx.visited p ⊆ done ++ new := by
    rw [hline]
    exact List.append_subset.mpr ⟨List.subset_append_right _ _,
      List.Subset.trans htail (List.subset_append_left _ _)⟩
  have hmem : ∀ v ∈ new, v ∈ t.line ctx.visited p := fun v hv =>
    hline ▸ List.mem_append_left _ hv
  have hwhole : WholeLines t ctx.visited (done ++ new) := by
    refine ⟨fun v hv => ?_, fun v hv => ?_⟩
    · rcases List.mem_append.mp hv with hv | hv
      · exact h.whole.decodes v hv
      · exact (mem_line (hmem v hv)).2.2
    · rcases List.mem_append.mp hv with hv | hv
      · exact List.Subset.trans (h.whole.closed v hv) (List.subset_append_left _ _)
      · exact List.Subset.trans (line_subset (hmem v hv)) hsub
  refine ⟨?_, hrun.part.visited, hwhole, hrun.ends⟩
  obtain ⟨added, hadded, hadds⟩ := hrun.part.work
  have hwalk := h.walk
  rw [hwork] at hwalk
  rw [hadded]
  refine hwalk.follow hnew (hadds _ fun u hu hv => ?_)
  -- a line with something new starts at an address that was not visited
  obtain ⟨a, ha, hout⟩ := of_decide_eq_true hu
  rcases (hrun.part.visited u).mp hv with hold | hdone
  · rw [line_stop (.inl hold)] at ha
    cases ha
  · exact hout (hwhole.closed u hdone ha)

theorem workStep (h : Ordered t ctx start done w)
    (hw : Loop.Reaches (ReWizard.workStep t) (analyzeInit ctx (newFunction start) start queue) w)
    (hn : ReWizard.workStep t w = .next w') : ∃ done', Ordered t ctx start done' w' := by
  obtain ⟨p, rest, hwork, ⟨hv, rfl⟩ | ⟨hv, rfl⟩⟩ := workStep_next hn
  · exact ⟨done, h.skip hwork hv⟩
  · have hstart : Following t ctx start done rest p [] { w with work := rest, pc := p, bb := none } :=
      { part :=
          { fresh := fun _ ha => absurd ha List.not_mem_nil
            visited := fun a => by rw [List.append_nil]; exact h.visited a
            work := ⟨[], (List.append_nil rest).symm, .refl _ _⟩ }
        line := rfl
        ends := .closed rfl (by rw [List.append_nil]; exact h.ends) }
    obtain ⟨q, hq, hd⟩ := (decode_exits t { w with work := rest, pc := p, bb := none }).reached
    have htaken : ∀ s, Loop.Reaches (decodeStep t) { w with work := rest, pc := p, bb := none } s →
        TakenInv t ctx start s (· = s.pc) := fun s hs =>
      DecodePass.takenInv (.mk hw hwork hv hs)
    obtain ⟨new, hnew⟩ := hq.inv (I := fun s => ∃ new, Following t ctx start done rest p new s)
      ⟨[], hstart⟩ fun s s' hs ⟨new, hI⟩ hn => ⟨_, hI.next (htaken s hs) hn⟩
    obtain ⟨new', hrun⟩ := hnew.leaves h.whole (htaken q hq) hd
    exact ⟨done ++ new', h.run hwork hrun.addBasicBlock⟩

end Ordered

section

variable (t : Target) (ctx : AnalysisContext) (start : Nat) (queue : List Nat)

theorem targetsAt_inCode {v u : Nat} (h : u ∈ t.targetsAt ctx.module start v) : t.InCode u := by
  unfold Target.targetsAt at h
  split at h
  · cases h
  · exact (mem_branchTargets.mp h).2.1

/-- The targets are no more than the mapped addresses and the start. -/
theorem length_targets_le (n : Nat) : (orderAfter
    (lineTargets (t.line ctx.visited) (t.targetsAt ctx.module start)) [start] n).length ≤
      t.loader.mappedSize + 1 := by
  have hsub : orderAfter (lineTargets (t.line ctx.visited) (t.targetsAt ctx.module start)) [start] n ⊆
      start :: List.range' t.loader.currentImageBase t.loader.mappedSize := by
    refine forall_mem_orderAfter (P := fun u =>
      u ∈ start :: List.range' t.loader.currentImageBase t.loader.mappedSize) ?_ ?_ n
    · intro u hu
      rw [List.mem_singleton.mp hu]
      exact List.mem_cons_self
    · intro p _ u hu
      obtain ⟨v, -, hu⟩ := List.mem_flatMap.mp hu
      obtain ⟨h1, h2⟩ := (targetsAt_inCode t ctx start hu).mapped
      exact List.mem_cons_of_mem _ (List.mem_range'_1.mpr ⟨h1, h2⟩)
  have hle := (List.subperm_of_subset (nodup_orderAfter _ _ _) hsub).length_le
  rwa [List.length_cons, List.length_range'] at hle

/-- **What a call decodes, and in which order**, and where its function ends. -/
theorem analyzeBlocks_order :
    (∀ a, a ∈ (analyzeBlocks t ctx (newFunction start) start queue).visited ↔
      a ∈ ctx.visited ∨ a ∈ decodeOrder t ctx start) ∧
    (analyzeBlocks t ctx (newFunction start) start queue).function.endAddress =
      lastEnd t ctx.visited start (decodeOrder t ctx start) := by
  obtain ⟨r, hr, hd⟩ := (analyzeBlocks_exits t ctx (newFunction start) start queue).reached
  obtain ⟨done, hdone⟩ := hr.inv (I := fun w => ∃ done, Ordered t ctx start done w)
    ⟨[], .init t ctx start queue⟩ fun w w' hw ⟨_, h⟩ hn => h.workStep hw hn
  obtain ⟨heq, hwork⟩ := workStep_done hd
  have hwalk := hdone.walk
  rw [hwork] at hwalk
  have horder : done = decodeOrder t ctx start :=
    hwalk.order (fun p => nodup_line ctx.visited p) (length_targets_le t ctx start _)
  rw [heq, ← horder]
  exact ⟨hdone.visited, hdone.ends⟩

end

/-! ## The bounds -/

/-- The function has the start in its range, and of what was visited since, all from there on. -/
structure BoundsCover (ctx : AnalysisContext) (start : Nat) (r : AnalyzeState) : Prop where
  first : r.function.startAddress ≤ start ∧ start < r.function.endAddress
  visited : ∀ a ∈ r.visited, a ∉ ctx.visited → start ≤ a →
    r.function.startAddress ≤ a ∧ a < r.function.endAddress

/-- Of the instructions in the order in which the lines are decoded, the last one that ends a block
ends above all from the start on. -/
def LastBlockAbove (t : Target) (ctx : AnalysisContext) (start : Nat) : Prop :=
  ∃ v, ((decodeOrder t ctx start).filter (t.endsBlock ctx.visited)).getLast? = some v ∧
    ∀ a ∈ decodeOrder t ctx start, start ≤ a → a < t.instrEnd v

theorem mem_decodeOrder {t : Target} {ctx : AnalysisContext} {start a : Nat}
    (h : a ∈ decodeOrder t ctx start) : a ∉ ctx.visited := by
  obtain ⟨p, -, ha⟩ := List.mem_flatMap.mp ((mem_discover.mp h).resolve_left List.not_mem_nil)
  exact (mem_line ha).2.1

/-- **The bounds of a function**: when a call decodes anything, they cover it if and only if the block
that is closed last ends above it all. -/
theorem analyzeFunction_boundsCover_iff (t : Target) (ctx : AnalysisContext) (start : Nat)
    (queue : List Nat)
    (h : ∃ a ∈ (analyzeFunction t ctx (newFunction start) start queue).visited, a ∉ ctx.visited) :
    BoundsCover ctx start (analyzeFunction t ctx (newFunction start) start queue) ↔
      LastBlockAbove t ctx start := by
  obtain ⟨hvisited, hend⟩ := analyzeBlocks_order t ctx start queue
  have hstart : (analyzeFunction t ctx (newFunction start) start queue).function.startAddress =
      start := (analyzeBlocks_progress (t := t) ctx (newFunction start) start queue).1.start
  have hend : (analyzeFunction t ctx (newFunction start) start queue).function.endAddress =
      lastEnd t ctx.visited start (decodeOrder t ctx start) := hend
  unfold lastEnd at hend
  constructor
  · intro hcover
    cases hlast : ((decodeOrder t ctx start).filter (t.endsBlock ctx.visited)).getLast? with
    | none =>
      rw [hlast] at hend
      have hlt := hcover.first.2
      rw [hend] at hlt
      exact absurd hlt (Nat.lt_irrefl start)
    | some v =>
      rw [hlast] at hend
      refine ⟨v, hlast, fun a ha hle => ?_⟩
      have := (hcover.visited a ((hvisited a).mpr (.inr ha)) (mem_decodeOrder ha) hle).2
      rwa [hend] at this
  · rintro ⟨v, hlast, hall⟩
    rw [hlast] at hend
    have hbounds : ∀ a ∈ (analyzeFunction t ctx (newFunction start) start queue).visited,
        a ∉ ctx.visited → start ≤ a →
        (analyzeFunction t ctx (newFunction start) start queue).function.startAddress ≤ a ∧
          a < (analyzeFunction t ctx (newFunction start) start queue).function.endAddress := by
      intro a ha hold hle
      rw [hstart, hend]
      exact ⟨hle, hall a (((hvisited a).mp ha).resolve_left hold) hle⟩
    -- what decodes anything decodes the start first
    obtain ⟨a, ha, hold⟩ := h
    have htaken := ((analyzeFunction_visited t ctx _ start queue a).mp ha).resolve_left hold
    have hfirst : start ∉ ctx.visited := htaken.start_unvisited
    exact ⟨hbounds start ((analyzeFunction_visited t ctx _ start queue start).mpr
      (.inr (.start hfirst htaken.start_decodes))) hfirst (Nat.le_refl start), hbounds⟩

/-- The loop of `rotatedLoop` and what comes after it are one line, which a return ends. -/
theorem rotatedLoop_lastBlockAbove : LastBlockAbove rotatedLoop {} 0x1000 := by
  have horder : decodeOrder rotatedLoop {} 0x1000 = [0x1000, 0x1001, 0x1003] := by decide +kernel
  refine ⟨0x1003, ?_, ?_⟩
  · rw [horder]
    decide +kernel
  · rw [horder]
    decide +kernel

theorem rotatedLoop_boundsCover :
    BoundsCover {} 0x1000 (analyzeFunction rotatedLoop {} (newFunction 0x1000) 0x1000 []) :=
  (analyzeFunction_boundsCover_iff rotatedLoop {} 0x1000 []
    ⟨0x1000, by decide +kernel, by decide⟩).mpr rotatedLoop_lastBlockAbove

/-- `nop`, and a jump over a return to a branch back to it, with a return after the branch. -/
def jumpedReturn : Target := sampleTarget [0x90, 0xEB, 0x01, 0xC3, 0x74, 0xFD, 0xC3]

/-- The return that is decoded last is below the branch. -/
theorem jumpedReturn_not_boundsCover : ¬ BoundsCover {} 0x1000
    (analyzeFunction jumpedReturn {} (newFunction 0x1000) 0x1000 []) := by
  intro h
  have hlt := (h.visited 0x1006 (by decide +kernel) (by decide) (by decide)).2
  have hend : (analyzeFunction jumpedReturn {} (newFunction 0x1000) 0x1000 []).function.endAddress =
      0x1004 := by decide +kernel
  rw [hend] at hlt
  exact absurd hlt (by decide)

end ReWizard
