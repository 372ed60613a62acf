import ReWizard.Analysis.Fragment
import ReWizard.Analysis.Proof.RebuilderCalls
import ReWizard.Analysis.XrefManager

/-!
# Which calls and jumps have a cross-reference

`HandleCall` and the conditional part of `HandleBranch` always file the target of the instruction.
For a direct jump that is not so: `HandleTrampoline` files a call site only, and `HandleBranch` files
nothing when the target was visited and no known function has it.

* `decodeStep_hasXref`: when the reference of the decoded instruction is filed;
* `Grows.hasXref`, `KeepsXrefs`: what follows files nothing under a visited address;
* `RebuilderCall.xrefsComplete_iff`: the cross-references are complete after a call exactly when they
  were before and no pass of the call leaves one out.
-/

namespace ReWizard

/-! ## Cross-references -/

/-- There is a cross-reference from `src` to `dst`. -/
def Module.HasXref (m : Module) (src dst : Nat) : Prop :=
  ∃ x ∈ m.xrefManager.all, x.src = src ∧ x.dst = dst

instance (m : Module) (src dst : Nat) : Decidable (m.HasXref src dst) :=
  inferInstanceAs (Decidable (∃ x ∈ m.xrefManager.all, _))

/-- The instruction is a direct call of `dst`, or a direct jump or branch to `dst` in the code. -/
inductive References (t : Target) (i : ExtendedInstruction) (dst : Nat) : Prop
  | call : i.instruction.category = .call → i.directTarget = some dst → References t i dst
  | branch : i.instruction.category = .condBr → i.directTarget = some dst → t.InCode dst →
      References t i dst
  | jump : i.instruction.category = .uncondBr → i.directTarget = some dst → t.InCode dst →
      References t i dst

/-- Every visited call and jump that refers to an address has its cross-reference. -/
def XrefsComplete (t : Target) (ctx : AnalysisContext) : Prop :=
  ∀ pc ∈ ctx.visited, ∀ i, t.disassemble pc = some i → ∀ dst, References t i dst →
    ctx.module.HasXref pc dst

theorem References.directTarget {t : Target} {i : ExtendedInstruction} {dst : Nat}
    (h : References t i dst) : i.directTarget = some dst := by
  cases h with
  | call _ ht => exact ht
  | branch _ ht _ => exact ht
  | jump _ ht _ => exact ht

theorem References.inCode {t : Target} {i : ExtendedInstruction} {dst : Nat}
    (h : References t i dst) (hcat : i.instruction.category ≠ .call) : t.InCode dst := by
  cases h with
  | call h _ => exact absurd h hcat
  | branch _ _ hc => exact hc
  | jump _ _ hc => exact hc

theorem References.category {t : Target} {i : ExtendedInstruction} {dst : Nat}
    (h : References t i dst) : i.instruction.category ≠ .other ∧ i.instruction.category ≠ .ret := by
  cases h with
  | call h _ => simp [h]
  | branch h _ _ => simp [h]
  | jump h _ _ => simp [h]

theorem hasXref_addXref {m : Module} {src dst a b : Nat} {type : String} :
    (m.addXref src dst type).HasXref a b ↔ (a = src ∧ b = dst) ∨ m.HasXref a b := by
  unfold Module.HasXref Module.addXref
  simp only [XrefManager.mem_addXref]
  constructor
  · rintro ⟨x, rfl | hx, rfl, rfl⟩
    · exact .inl ⟨rfl, rfl⟩
    · exact .inr ⟨x, hx, rfl, rfl⟩
  · rintro (⟨rfl, rfl⟩ | ⟨x, hx, h⟩)
    · exact ⟨_, .inl rfl, rfl, rfl⟩
    · exact ⟨x, .inr hx, h⟩

/-- The other parts of a module do not matter. -/
theorem Module.HasXref.congr {m m' : Module} (h : m'.xrefManager = m.xrefManager) (a b : Nat) :
    m'.HasXref a b ↔ m.HasXref a b := by
  unfold HasXref
  rw [h]

/-! ## Handling one instruction -/

section

variable (t : Target) (insn : ExtendedInstruction) (inserted : Bool) (bb : BasicBlock)
  (s : AnalyzeState)

theorem directTarget_eq_some {a : Nat} (h : insn.directTarget = some a) :
    ∃ imm, (insn.instruction.op 0).value = .immediate imm ∧ insn.relTarget imm = a := by
  unfold ExtendedInstruction.directTarget at h
  split at h
  · rename_i imm hop
    exact ⟨imm, hop, Option.some.inj h⟩
  · cases h

/-- A direct call is filed. -/
theorem handleCall_module {a : Nat} (ha : insn.directTarget = some a) :
    (handleCall t insn inserted bb s).module = s.module.addXref s.pc a "call" := by
  obtain ⟨imm, hop, rfl⟩ := directTarget_eq_some insn ha
  unfold handleCall
  rw [hop]
  dsimp only
  split <;> rfl

/-- A trampoline is not filed. -/
theorem handleTrampoline_xrefs :
    (handleTrampoline t insn inserted bb s).module.xrefManager = s.module.xrefManager := by
  unfold handleTrampoline trampolineTarget
  cases (insn.instruction.op 0).value with
  | register _ => exact markIndirect_xrefManager insn inserted s.module
  | memory _ => exact markIndirect_xrefManager insn inserted s.module
  | immediate _ => rfl
  | pointer => rfl
  | unused => rfl

/-- A conditional branch is filed, and a jump if a known function has the target or it is new. -/
theorem branchTarget_hasXref {a : Nat} (ha : insn.directTarget = some a) (hc : t.InCode a) :
    (branchTarget t insn inserted bb s).1.module.HasXref s.pc a ↔
      s.module.HasXref s.pc a ∨ insn.instruction.category ≠ .uncondBr ∨
        s.module.getFunctionForAddress a ≠ none ∨ a ∉ s.visited := by
  obtain ⟨imm, hop, rfl⟩ := directTarget_eq_some insn ha
  have hfiled : (s.module.addXref s.pc (insn.relTarget imm) "jump").HasXref s.pc
      (insn.relTarget imm) := hasXref_addXref.mpr (.inl ⟨rfl, rfl⟩)
  have hin : t.loader.isWithinMapping (insn.relTarget imm) = true ∧
      t.loader.isExecutableAddress (insn.relTarget imm) = true := hc
  unfold branchTarget
  rw [hop]
  dsimp only
  rw [if_pos hin]
  dsimp only
  by_cases hcat : insn.instruction.category = .uncondBr
  · rw [if_pos hcat]
    split
    · rename_i hknown
      exact ⟨fun _ => .inr (.inr (.inl (Option.isSome_iff_ne_none.mp hknown))), fun _ => hfiled⟩
    · rename_i hunknown
      split
      · rename_i hnew
        exact ⟨fun _ => .inr (.inr (.inr hnew)), fun _ => hfiled⟩
      · rename_i hvisited
        refine ⟨.inl, fun h => ?_⟩
        rcases h with h | h | h | h
        · exact h
        · exact absurd hcat h
        · exact absurd (Option.isSome_iff_ne_none.mpr h) hunknown
        · exact absurd h hvisited
  · rw [if_neg hcat]
    exact ⟨fun _ => .inr (.inl hcat), fun _ => hfiled⟩

/-- The fall-through of a conditional branch is filed too. -/
theorem handleBranch_hasXref {a b : Nat}
    (h : (branchTarget t insn inserted bb s).1.module.HasXref a b) :
    (handleBranch t insn inserted bb s).module.HasXref a b := by
  unfold handleBranch
  generalize branchTarget t insn inserted bb s = r at h ⊢
  obtain ⟨s₁, b₁⟩ := r
  dsimp only at h ⊢
  split
  · exact hasXref_addXref.mpr (.inr h)
  · exact h

theorem handleBranch_module (hcat : insn.instruction.category ≠ .condBr) :
    (handleBranch t insn inserted bb s).module = (branchTarget t insn inserted bb s).1.module := by
  unfold handleBranch
  generalize branchTarget t insn inserted bb s = r
  obtain ⟨s₁, b₁⟩ := r
  dsimp only
  rw [if_neg hcat]
  rfl

end

/-- The pass decodes a direct jump into the code and files no cross-reference for it: the jump is
the first instruction of its function, or its target was visited, or is the jump itself, and no
known function has it. -/
def LeavesOutXref (t : Target) (s : AnalyzeState) : Prop :=
  Decodes t s ∧ ∃ i dst, t.disassemble s.pc = some i ∧ i.instruction.category = .uncondBr ∧
    i.directTarget = some dst ∧ t.InCode dst ∧ ¬ s.module.HasXref s.pc dst ∧
      (s.localInsnCount = 0 ∨ (s.module.getFunctionForAddress dst = none ∧
        (dst ∈ s.visited ∨ dst = s.pc)))

section

variable {t : Target} {s s' : AnalyzeState} {i : ExtendedInstruction} {dst : Nat}

/-- **When a pass files the reference** of the instruction that it decodes. -/
theorem decodeStep_hasXref (hdec : Decodes t s) (hd : t.disassemble s.pc = some i)
    (hr : References t i dst)
    (hn : decodeStep t s = .next s' ∨ decodeStep t s = .done s') :
    s'.module.HasXref s.pc dst ↔ s.module.HasXref s.pc dst ∨
      i.instruction.category ≠ .uncondBr ∨ (s.localInsnCount ≠ 0 ∧
        (s.module.getFunctionForAddress dst ≠ none ∨ (dst ∉ s.visited ∧ dst ≠ s.pc))) := by
  obtain ⟨haddr, -⟩ := Target.disassemble_eq_some hd
  have ha := hr.directTarget
  have hkept : ∀ b, (s.recorded i).module.HasXref s.pc b ↔ s.module.HasXref s.pc b :=
    Module.HasXref.congr (addInstruction_xrefManager s.module i) s.pc
  rw [decodeStep_eq_decodeInsn hdec.1 hdec.2.1 hd] at hn
  obtain ⟨inserted, -, hout | hout⟩ := decodeInsn_result hn
  · cases hout with
    | call hcat =>
      have hm := handleCall_module t i inserted s.currentBlock (s.recorded i) ha
      have hx : (handleCall t i inserted s.currentBlock (s.recorded i)).module.HasXref s.pc dst := by
        rw [hm]
        exact hasXref_addXref.mpr (.inl ⟨rfl, rfl⟩)
      exact ⟨fun _ => .inr (.inl (by simp [hcat])), fun _ => hx⟩
    | condBr hcat =>
      have hc : t.InCode dst := hr.inCode (by simp [hcat])
      have hx := handleBranch_hasXref t i inserted s.currentBlock (s.recorded i)
        ((branchTarget_hasXref t i inserted s.currentBlock (s.recorded i) ha hc).mpr
          (.inr (.inl (by simp [hcat]))))
      exact ⟨fun _ => .inr (.inl (by simp [hcat])), fun _ => hx⟩
    | other hcat => exact absurd hcat hr.category.1
  · cases hout with
    | trampoline hfirst hcat =>
      have hx : ∀ b, ((handleTrampoline t i inserted s.currentBlock
          (s.enter i)).countInsn).module.HasXref s.pc b ↔ s.module.HasXref s.pc b :=
        Module.HasXref.congr ((handleTrampoline_xrefs t i inserted s.currentBlock (s.enter i)).trans
          (addInstruction_xrefManager s.module i)) s.pc
      rw [hx]
      exact ⟨.inl, fun h => h.elim id fun h => h.elim (absurd hcat) fun h => absurd hfirst h.1⟩
    | uncondBr hcat hlater =>
      have hc : t.InCode dst := hr.inCode (by simp [hcat])
      have hlook : (s.recorded i).module.getFunctionForAddress dst =
          s.module.getFunctionForAddress dst :=
        Module.getFunctionForAddress_congr (addInstruction_functions _ _)
          (addInstruction_functionByStart _ _) dst
      have hvis : dst ∉ (s.recorded i).visited ↔ dst ∉ s.visited ∧ dst ≠ s.pc := by
        show dst ∉ insert i.address s.visited ↔ _
        rw [haddr, Finset.mem_insert, not_or, and_comm]
      rw [handleBranch_module t i inserted s.currentBlock (s.recorded i) (by simp [hcat])]
      have hx := branchTarget_hasXref t i inserted s.currentBlock (s.recorded i) ha hc
      have hpc : (s.recorded i).pc = s.pc := rfl
      rw [hpc, hkept, hlook, hvis] at hx
      rw [hx]
      simp [hlater]
    | ret hcat => exact absurd hcat hr.category.2

/-- Unless it leaves one out, a pass files the reference. -/
theorem hasXref_of_not_leavesOut (hdec : Decodes t s) (hd : t.disassemble s.pc = some i)
    (hr : References t i dst)
    (hn : decodeStep t s = .next s' ∨ decodeStep t s = .done s')
    (hclean : ¬ LeavesOutXref t s) : s'.module.HasXref s.pc dst := by
  rw [decodeStep_hasXref hdec hd hr hn]
  by_contra hno
  obtain ⟨hx, hno⟩ := not_or.mp hno
  obtain ⟨hcat, hno⟩ := not_or.mp hno
  have hcat := not_not.mp hcat
  have hc : t.InCode dst := hr.inCode (by simp [hcat])
  refine hclean ⟨hdec, i, dst, hd, hcat, hr.directTarget, hc, hx, ?_⟩
  by_cases h0 : s.localInsnCount = 0
  · exact .inl h0
  · obtain ⟨hk, hv⟩ := not_or.mp fun h => hno ⟨h0, h⟩
    refine .inr ⟨not_not.mp hk, ?_⟩
    by_contra hvis
    exact hv (not_or.mp hvis)

/-- One that leaves it out does not. -/
theorem LeavesOutXref.not_filed (h : LeavesOutXref t s)
    (hn : decodeStep t s = .next s' ∨ decodeStep t s = .done s') :
    ∃ i dst, t.disassemble s.pc = some i ∧ References t i dst ∧ ¬ s'.module.HasXref s.pc dst := by
  obtain ⟨hdec, i, dst, hd, hcat, ht, hc, hx, hleft⟩ := h
  refine ⟨i, dst, hd, .jump hcat ht hc, ?_⟩
  rw [decodeStep_hasXref hdec hd (.jump hcat ht hc) hn]
  rintro (h | h | ⟨h0, h⟩)
  · exact hx h
  · exact h hcat
  · rcases hleft with hleft | ⟨hk, hv⟩
    · exact h0 hleft
    · rcases h with h | ⟨hnew, hne⟩
      · exact h hk
      · exact hv.elim hnew hne

end

/-! ## Nothing is filed under a visited address -/

/-- From `c` to `c'` no cross-reference from an address visited in `c` comes or goes. -/
structure KeepsXrefs (c c' : AnalysisContext) : Prop where
  visited : c.visited ⊆ c'.visited
  xrefs : ∀ pc ∈ c.visited, ∀ dst, c'.module.HasXref pc dst ↔ c.module.HasXref pc dst

theorem KeepsXrefs.refl (c : AnalysisContext) : KeepsXrefs c c :=
  ⟨Finset.Subset.refl _, fun _ _ _ => Iff.rfl⟩

theorem KeepsXrefs.trans {c c' c'' : AnalysisContext} (h : KeepsXrefs c c')
    (h' : KeepsXrefs c' c'') : KeepsXrefs c c'' where
  visited := h.visited.trans h'.visited
  xrefs := fun pc hpc dst => (h'.xrefs pc (h.visited hpc) dst).trans (h.xrefs pc hpc dst)

/-- What is complete in the end was complete before. -/
theorem KeepsXrefs.complete {t : Target} {c c' : AnalysisContext} (h : KeepsXrefs c c')
    (hc : XrefsComplete t c') : XrefsComplete t c :=
  fun pc hpc i hd dst hr => (h.xrefs pc hpc dst).mp (hc pc (h.visited hpc) i hd dst hr)

theorem Grows.keepsXrefs {t : Target} {s s' : AnalyzeState} (h : Grows t s s') :
    KeepsXrefs s.context s'.context where
  visited := h.visited
  xrefs := fun pc hpc dst => by
    constructor
    · rintro ⟨x, hx, rfl, rfl⟩
      rcases h.xrefs.src x hx with hx | hnew
      · exact ⟨x, hx, rfl, rfl⟩
      · exact absurd hpc hnew.2
    · rintro ⟨x, hx, hsrc⟩
      exact ⟨x, h.xrefs.all.subset hx, hsrc⟩

/-! ## A call of `AnalyzeFunction` -/

section

variable {t : Target} {ctx : AnalysisContext} {f : Function} {start : Nat} {queue : List Nat}

/-- A pass that leaves no reference out keeps the cross-references complete. -/
theorem decodeStep_xrefsComplete {s s' : AnalyzeState} (h : XrefsComplete t s.context)
    (hclean : ¬ LeavesOutXref t s)
    (hn : decodeStep t s = .next s' ∨ decodeStep t s = .done s') :
    XrefsComplete t s'.context := by
  have hgrows : Grows t s s' := decodeStep_grows hn
  intro pc hpc i hd dst hr
  by_cases hold : pc ∈ s.visited
  · exact (hgrows.keepsXrefs.xrefs pc hold dst).mpr (h pc hold i hd dst hr)
  · rcases decodeStep_visited hn with ⟨-, hvis⟩ | ⟨hdec, hvis⟩
    · exact absurd (hvis ▸ hpc) hold
    · have hpc' : pc ∈ insert s.pc s.visited := hvis ▸ hpc
      obtain rfl := (Finset.mem_insert.mp hpc').resolve_right hold
      exact hasXref_of_not_leavesOut hdec hd hr hn hclean

theorem addBasicBlock_context (s : AnalyzeState) : s.addBasicBlock.context = s.context := by
  unfold AnalyzeState.addBasicBlock
  split <;> rfl

theorem analyzeBlocks_xrefsComplete (h : XrefsComplete t ctx)
    (hclean : ∀ s, DecodePass t (analyzeInit ctx f start queue) s → ¬ LeavesOutXref t s) :
    XrefsComplete t (analyzeBlocks t ctx f start queue).context := by
  have hinv := analysis_inv (t := t) (I := fun s => XrefsComplete t s.context)
    (rfl : (analyzeInit ctx f start queue).bb = none) h (fun s rest pc hs _ => hs)
    (fun s s' hp hs hn => decodeStep_xrefsComplete hs (hclean s hp) (.inl hn))
    (fun s s' hp hs hn => by
      rw [addBasicBlock_context]
      exact decodeStep_xrefsComplete hs (hclean s hp) (.inr hn))
  exact (hinv.1 _ (analyzeBlocks_reached t ctx f start queue)).1

/-- What a pass leaves out is missing when the function is analysed. -/
theorem LeavesOutXref.not_complete {s : AnalyzeState} (h : LeavesOutXref t s)
    (hp : DecodePass t (analyzeInit ctx f start queue) s) :
    ¬ XrefsComplete t (analyzeBlocks t ctx f start queue).context := by
  intro hall
  obtain ⟨s', hn⟩ := (decodeStep t s).next_or_done
  obtain ⟨i, dst, hd, hr, hmiss⟩ := h.not_filed hn
  have hpc : s.pc ∈ s'.visited := by
    rcases decodeStep_visited hn with ⟨hno, -⟩ | ⟨-, hvis⟩
    · exact absurd h.1 hno
    · rw [hvis]
      exact Finset.mem_insert_self _ _
  exact hmiss ((hp.grows hn).keepsXrefs.complete hall s.pc hpc i hd dst hr)

/-- Adding the function to the module changes neither the visited addresses nor the references. -/
theorem discoverFunction_xrefsComplete (mark : AnalyzeState → Bool) (pc : Nat) (s : ExploreState) :
    XrefsComplete t (discoverFunction t mark pc s).context ↔
      XrefsComplete t (analyzeBlocks t s.context (newFunction pc) pc s.functionWork).context :=
  Iff.rfl

theorem discoverFunction_keepsXrefs (mark : AnalyzeState → Bool) (pc : Nat) (s : ExploreState) :
    KeepsXrefs s.context (discoverFunction t mark pc s).context :=
  have h := (analyzeFunction_grows t s.context (newFunction pc) pc s.functionWork).keepsXrefs
  ⟨h.visited, h.xrefs⟩

end

/-! ## A call -/

/-- **Cross-references are complete** after a call exactly when those of the addresses visited
before are, and no pass of the call leaves one out. -/
theorem RebuilderCall.xrefsComplete_iff (t : Target) (call : RebuilderCall) (ctx : AnalysisContext) :
    XrefsComplete t (call.apply t ctx) ↔ XrefsComplete t ctx ∧
      ∀ s start rest, call.TakesUp t ctx s start rest → ∀ r,
        DecodePass t (analyzeInit s.context (newFunction start) start rest) r →
          ¬ LeavesOutXref t r := by
  constructor
  · intro h
    have hkeeps : KeepsXrefs ctx (call.apply t ctx) :=
      takesUp_inv (.refl ctx) fun mark s pc rest _ hs =>
        hs.trans (discoverFunction_keepsXrefs mark pc { s with functionWork := rest })
    refine ⟨hkeeps.complete h, fun s start rest ht r hp hleft => ?_⟩
    obtain ⟨mark, hafter⟩ := takesUp_after .refl .trans discoverFunction_keepsXrefs ht
    exact hleft.not_complete hp ((discoverFunction_xrefsComplete mark start
      { s with functionWork := rest }).mp (hafter.complete h))
  · rintro ⟨h, hclean⟩
    refine takesUp_inv h fun mark s pc rest ht hs => ?_
    exact (discoverFunction_xrefsComplete mark pc { s with functionWork := rest }).mpr
      (analyzeBlocks_xrefsComplete hs fun r hp => hclean s pc rest ht r hp)

/-- `jmp +0; ret`: the jump is all of its function, and it has no cross-reference. -/
theorem trampoline_not_xrefsComplete :
    ¬ XrefsComplete (sampleTarget [0xEB, 0x00, 0xC3])
      (rebuildControlFlow (sampleTarget [0xEB, 0x00, 0xC3]) (freshContext {})) := by
  intro h
  have hd : (sampleTarget [0xEB, 0x00, 0xC3]).disassemble 0x1000 =
      some { instruction := jmpInsn 0, address := 0x1000 } := by decide
  have hx := h 0x1000 (by decide +kernel) _ hd 0x1002
    (.jump rfl (by decide +kernel) (by decide +kernel))
  exact absurd hx (by decide +kernel)

/-- `nop; jmp -3`: the jump goes back to its own function, which is not known yet. -/
example : ¬ (rebuildControlFlow (sampleTarget [0x90, 0xEB, 0xFD]) (freshContext {})).module.HasXref
    0x1001 0x1000 := by decide +kernel

end ReWizard
