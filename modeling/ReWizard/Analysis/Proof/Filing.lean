import ReWizard.Analysis.Proof.BlockCover

/-!
# What the analysis of a function files

Besides the blocks, decoding an instruction files a record, cross-references and call sites. All of
it is filed under the address of the instruction, and nothing that was filed before changes:

* `Filed`: what handling one instruction files;
* `Grows`: what a stretch of the analysis files, and whether it meets a call or jump whose target
  static analysis does not know;
* `analyzeFunction_grows`: `Grows` for a whole call.
-/

namespace ReWizard

/-! ## Unresolved calls and jumps -/

/-- An indirect call or an indirect jump. -/
def ExtendedInstruction.Unresolved (i : ExtendedInstruction) : Prop :=
  (i.instruction.category = .call ∧ i.indirectCall = true) ∨
    ((i.instruction.category = .condBr ∨ i.instruction.category = .uncondBr) ∧
      i.indirectJump = true)

instance (i : ExtendedInstruction) : Decidable i.Unresolved := inferInstanceAs (Decidable (_ ∨ _))

/-- One of the flags of the function for indirect calls and jumps is set. -/
def Function.Unresolved (f : Function) : Prop :=
  f.containsIndirectCalls = true ∨ f.containsIndirectJumps = true

instance (f : Function) : Decidable f.Unresolved := inferInstanceAs (Decidable (_ ∨ _))

/-! ## Cross-references -/

/-- `m'` has what `m` has, and further cross-references from the given sources. -/
structure XrefManager.Extends (sources : Nat → Prop) (m m' : XrefManager) : Prop where
  byFrom : m.byFrom <+: m'.byFrom
  byTo : m.byTo <+: m'.byTo
  all : m.all <+: m'.all
  src : ∀ x ∈ m'.all, x ∈ m.all ∨ sources x.src

namespace XrefManager.Extends

variable {P Q : Nat → Prop} {m m' m'' : XrefManager}

theorem refl (P : Nat → Prop) (m : XrefManager) : m.Extends P m :=
  ⟨List.prefix_rfl, List.prefix_rfl, List.prefix_rfl, fun _ hx => .inl hx⟩

theorem trans (h : m.Extends P m') (h' : m'.Extends P m'') : m.Extends P m'' where
  byFrom := h.byFrom.trans h'.byFrom
  byTo := h.byTo.trans h'.byTo
  all := h.all.trans h'.all
  src := fun x hx => (h'.src x hx).elim (h.src x) .inr

theorem mono (h : m.Extends P m') (hPQ : ∀ a, P a → Q a) : m.Extends Q m' :=
  { h with src := fun x hx => (h.src x hx).imp id (hPQ x.src) }

theorem addXref (m : XrefManager) (src dst : Nat) (kind : String) :
    m.Extends (· = src) (m.addXref src dst kind) := by
  unfold XrefManager.addXref
  dsimp only
  split
  · exact refl _ m
  · refine ⟨List.prefix_append _ _, List.prefix_append _ _, List.prefix_append _ _, fun x hx => ?_⟩
    rcases List.mem_append.mp hx with hx | hx
    · exact .inl hx
    · rw [List.mem_singleton.mp hx]
      exact .inr rfl

end XrefManager.Extends

/-! ## Handling one instruction -/

/-- What handling the instruction files, which was entered at the `pc` of `s`. `unresolved` tells
whether it sets a flag of the function. -/
structure Filed (insn : ExtendedInstruction) (inserted unresolved : Bool) (s s' : AnalyzeState) :
    Prop where
  instructions : s'.module.instructions = s.module.instructions ∨
    s'.module.instructions = (markIndirect insn inserted s.module).instructions
  xrefs : s.module.xrefManager.Extends (· = s.pc) s'.module.xrefManager
  callSites : ∀ c ∈ s'.function.callSites, c ∈ s.function.callSites ∨ (ofLex c).1 = s.pc
  unresolved : s'.function.Unresolved ↔ s.function.Unresolved ∨ unresolved = true
  marked : s'.function.markedForHybridAnalysis = s.function.markedForHybridAnalysis

theorem mem_addCallSite_src {f : Function} {c d : Nat} {x : AddrPair}
    (h : x ∈ (f.addCallSite c d).callSites) : x ∈ f.callSites ∨ (ofLex x).1 = c := by
  simp only [Function.addCallSite, OrdSet.mem_insert, OrdSet.mem_erase] at h
  rcases h with rfl | h
  · exact .inr rfl
  · exact .inl h.1

theorem markIndirect_xrefManager (i : ExtendedInstruction) (b : Bool) (m : Module) :
    (markIndirect i b m).xrefManager = m.xrefManager := by
  unfold markIndirect
  split <;> rfl

theorem addInstruction_xrefManager (m : Module) (i : ExtendedInstruction) :
    (m.addInstruction i).xrefManager = m.xrefManager := by
  unfold Module.addInstruction
  split <;> rfl

namespace Filed

variable {insn : ExtendedInstruction} {inserted unresolved : Bool} {s s' s'' : AnalyzeState}

theorem refl (insn : ExtendedInstruction) (inserted : Bool) (s : AnalyzeState) :
    Filed insn inserted false s s where
  instructions := .inl rfl
  xrefs := .refl _ _
  callSites := fun _ hc => .inl hc
  unresolved := ⟨.inl, fun h => h.elim id fun h => by cases h⟩
  marked := rfl

theorem addCallSite (insn : ExtendedInstruction) (inserted : Bool) (s : AnalyzeState)
    (target : Nat) (kind : String) :
    Filed insn inserted false s (s.addCallSite target kind) :=
  { refl insn inserted s with
    xrefs := .addXref _ _ _ _
    callSites := fun _ hc => mem_addCallSite_src hc }

theorem addXref (insn : ExtendedInstruction) (inserted : Bool) (s : AnalyzeState) (target : Nat)
    (kind : String) :
    Filed insn inserted false s (s.mapModule fun m => m.addXref s.pc target kind) :=
  { refl insn inserted s with xrefs := .addXref _ _ _ _ }

/-- Only the module and the function matter. -/
theorem congr_right (h : Filed insn inserted unresolved s s') (hm : s''.module = s'.module)
    (hc : s''.function.callSites = s'.function.callSites)
    (hcalls : s''.function.containsIndirectCalls = s'.function.containsIndirectCalls)
    (hjumps : s''.function.containsIndirectJumps = s'.function.containsIndirectJumps)
    (hmark : s''.function.markedForHybridAnalysis = s'.function.markedForHybridAnalysis) :
    Filed insn inserted unresolved s s'' where
  instructions := hm ▸ h.instructions
  xrefs := hm ▸ h.xrefs
  callSites := hc ▸ h.callSites
  unresolved := by
    unfold Function.Unresolved
    rw [hcalls, hjumps]
    exact h.unresolved
  marked := hmark.trans h.marked

/-- An indirect instruction: its record is marked, and so is the function. -/
theorem indirect (h : Filed insn inserted false s s')
    (hi : s'.module.instructions = s.module.instructions)
    (hm : s''.module = markIndirect insn inserted s'.module)
    (hc : s''.function.callSites = s'.function.callSites) (hu : s''.function.Unresolved)
    (hmark : s''.function.markedForHybridAnalysis = s'.function.markedForHybridAnalysis) :
    Filed insn inserted true s s'' where
  instructions := by
    right
    rw [hm]
    unfold markIndirect
    split
    · show s'.module.instructions.insert _ _ = s.module.instructions.insert _ _
      rw [hi]
    · exact hi
  xrefs := by
    rw [hm, markIndirect_xrefManager]
    exact h.xrefs
  callSites := hc ▸ h.callSites
  unresolved := ⟨fun _ => .inr rfl, fun _ => hu⟩
  marked := hmark.trans h.marked

end Filed

section

variable (t : Target) (insn : ExtendedInstruction) (inserted : Bool) (bb : BasicBlock)
  (s : AnalyzeState)

theorem handleCall_filed :
    Filed insn inserted insn.indirectCall s (handleCall t insn inserted bb s) := by
  have hout := handleCall_out t insn inserted bb s
  have hsite := fun target => Filed.addCallSite insn inserted s target "call"
  generalize handleCall t insn inserted bb s = s' at hout ⊢
  cases hout with
  | enqueued target _ hdirect =>
    rw [hdirect]
    exact (hsite target).congr_right rfl rfl rfl rfl rfl
  | recorded target hdirect =>
    rw [hdirect]
    exact (hsite target).congr_right rfl rfl rfl rfl rfl
  | indirect _ hindirect =>
    rw [hindirect]
    exact (hsite insn.indirectValue).indirect rfl rfl rfl (.inl rfl) rfl

theorem branchTarget_filed :
    Filed insn inserted insn.indirectJump s (branchTarget t insn inserted bb s).1 := by
  have hout := branchTarget_out t insn inserted bb s
  have hsite := fun target => Filed.addCallSite insn inserted s target "jump"
  generalize branchTarget t insn inserted bb s = r at hout ⊢
  cases hout with
  | outside _ hdirect =>
    rw [hdirect]
    exact Filed.refl insn inserted s
  | known target _ hdirect =>
    rw [hdirect]
    exact hsite target
  | enqueued target _ hdirect =>
    rw [hdirect]
    exact (Filed.addXref insn inserted s target "jump").congr_right rfl rfl rfl rfl rfl
  | visited target _ hdirect =>
    rw [hdirect]
    exact Filed.refl insn inserted s
  | branch target _ hdirect =>
    rw [hdirect]
    exact (Filed.addXref insn inserted s target "jump").congr_right rfl rfl rfl rfl rfl
  | indirect _ hindirect =>
    rw [hindirect]
    exact (hsite insn.indirectValue).indirect rfl rfl rfl (.inr rfl) rfl

theorem handleBranch_filed :
    Filed insn inserted insn.indirectJump s (handleBranch t insn inserted bb s) := by
  have hf := branchTarget_filed t insn inserted bb s
  obtain ⟨-, hpc, -⟩ := branchTarget_block t insn inserted bb s
  unfold handleBranch
  generalize branchTarget t insn inserted bb s = r at hf hpc ⊢
  obtain ⟨s₁, b₁⟩ := r
  dsimp only at hf hpc ⊢
  split
  · -- the fall-through of a conditional branch is a cross-reference too
    refine { hf with xrefs := hf.xrefs.trans ?_ }
    rw [← hpc]
    exact .addXref _ _ _ _
  · exact hf.congr_right rfl rfl rfl rfl rfl

theorem handleTrampoline_filed (hpc : insn.address = s.pc) :
    Filed insn inserted insn.indirectJump s (handleTrampoline t insn inserted bb s) := by
  have hindirect : Filed insn inserted true s
      { s.mapModule (markIndirect insn inserted) with
        function := { s.function with containsIndirectJumps := true } } :=
    (Filed.refl insn inserted s).indirect rfl rfl rfl (.inr rfl) rfl
  unfold handleTrampoline trampolineTarget ExtendedInstruction.indirectJump
  cases (insn.instruction.op 0).value with
  | immediate imm =>
    refine { Filed.refl insn inserted s with callSites := fun c hc => ?_ }
    rw [← hpc]
    exact mem_addCallSite_src hc
  | memory _ => exact hindirect.congr_right rfl rfl rfl rfl rfl
  | register _ => exact hindirect.congr_right rfl rfl rfl rfl rfl
  | pointer => exact (Filed.refl insn inserted s).congr_right rfl rfl rfl rfl rfl
  | unused => exact (Filed.refl insn inserted s).congr_right rfl rfl rfl rfl rfl

end

/-! ## A stretch of the analysis -/

/-- The address was visited between `s` and `s'`. -/
def Newly (s s' : AnalyzeState) (a : Nat) : Prop := a ∈ s'.visited ∧ a ∉ s.visited

/-- There is an indirect call or jump at the address. -/
def Target.UnresolvedAt (t : Target) (a : Nat) : Prop :=
  ∃ i, t.disassemble a = some i ∧ i.Unresolved

/-- From `s` to `s'` the analysis only files under newly visited addresses, and it changes no record
that was there. -/
structure Grows (t : Target) (s s' : AnalyzeState) : Prop where
  visited : s.visited ⊆ s'.visited
  records : ∀ a i, s.module.getInstruction a = some i → s'.module.getInstruction a = some i
  keys : ∀ a, s'.module.instructions.contains a = true ↔
    s.module.instructions.contains a = true ∨ Newly s s' a
  xrefs : s.module.xrefManager.Extends (Newly s s') s'.module.xrefManager
  callSites : ∀ c ∈ s'.function.callSites, c ∈ s.function.callSites ∨ Newly s s' (ofLex c).1
  unresolved : s'.function.Unresolved ↔
    s.function.Unresolved ∨ ∃ a, Newly s s' a ∧ t.UnresolvedAt a
  marked : s'.function.markedForHybridAnalysis = s.function.markedForHybridAnalysis
  count : s.localInsnCount ≤ s'.localInsnCount
  counted : ∀ a, Newly s s' a → s.localInsnCount < s'.localInsnCount

namespace Grows

variable {t : Target} {s s' s'' : AnalyzeState}

theorem newly_trans {a : Nat} (h : s.visited ⊆ s'.visited) (h' : s'.visited ⊆ s''.visited) :
    Newly s s'' a ↔ Newly s s' a ∨ Newly s' s'' a := by
  unfold Newly
  constructor
  · rintro ⟨h1, h2⟩
    by_cases ha : a ∈ s'.visited
    · exact .inl ⟨ha, h2⟩
    · exact .inr ⟨h1, ha⟩
  · rintro (⟨h1, h2⟩ | ⟨h1, h2⟩)
    · exact ⟨h' h1, h2⟩
    · exact ⟨h1, fun ha => h2 (h ha)⟩

theorem refl (t : Target) (s : AnalyzeState) : Grows t s s where
  visited := Finset.Subset.refl _
  records := fun _ _ h => h
  keys := fun _ => ⟨.inl, fun h => h.elim id fun h => absurd h.1 h.2⟩
  xrefs := .refl _ _
  callSites := fun _ h => .inl h
  unresolved := ⟨.inl, fun h => h.elim id fun ⟨_, h, _⟩ => absurd h.1 h.2⟩
  marked := rfl
  count := Nat.le_refl _
  counted := fun _ h => absurd h.1 h.2

theorem trans (h : Grows t s s') (h' : Grows t s' s'') : Grows t s s'' := by
  have hnew := fun a => newly_trans (a := a) h.visited h'.visited
  refine
    { visited := h.visited.trans h'.visited
      records := fun a i hi => h'.records a i (h.records a i hi)
      keys := fun a => ?_
      xrefs := (h.xrefs.mono fun a ha => ?_).trans (h'.xrefs.mono fun a ha => ?_)
      callSites := fun c hc => ?_
      unresolved := ?_
      marked := h'.marked.trans h.marked
      count := h.count.trans h'.count
      counted := fun a ha => ?_ }
  · rw [h'.keys, h.keys, hnew, or_assoc]
  · exact (hnew a).mpr (.inl ha)
  · exact (hnew a).mpr (.inr ha)
  · rw [hnew]
    rcases h'.callSites c hc with hc | hc
    · exact (h.callSites c hc).imp id .inl
    · exact .inr (.inr hc)
  · rw [h'.unresolved, h.unresolved]
    constructor
    · rintro ((hu | ⟨a, ha, hu⟩) | ⟨a, ha, hu⟩)
      · exact .inl hu
      · exact .inr ⟨a, (hnew a).mpr (.inl ha), hu⟩
      · exact .inr ⟨a, (hnew a).mpr (.inr ha), hu⟩
    · rintro (hu | ⟨a, ha, hu⟩)
      · exact .inl (.inl hu)
      · rcases (hnew a).mp ha with ha | ha
        · exact .inl (.inr ⟨a, ha, hu⟩)
        · exact .inr ⟨a, ha, hu⟩
  · rcases (hnew a).mp ha with ha | ha
    · exact Nat.lt_of_lt_of_le (h.counted a ha) h'.count
    · exact Nat.lt_of_le_of_lt h.count (h'.counted a ha)

/-- Neither the blocks nor the work list matter. -/
theorem congr_right (h : Grows t s s') (hc : s''.context = s'.context)
    (hcs : s''.function.callSites = s'.function.callSites)
    (hcalls : s''.function.containsIndirectCalls = s'.function.containsIndirectCalls)
    (hjumps : s''.function.containsIndirectJumps = s'.function.containsIndirectJumps)
    (hmark : s''.function.markedForHybridAnalysis = s'.function.markedForHybridAnalysis)
    (hn : s''.localInsnCount = s'.localInsnCount) : Grows t s s'' := by
  have hv : s''.visited = s'.visited := congrArg AnalysisContext.visited hc
  have hm : s''.module = s'.module := congrArg AnalysisContext.module hc
  have hnew : Newly s s'' = Newly s s' := by
    unfold Newly
    rw [hv]
  refine { visited := hv ▸ h.visited, records := hm ▸ h.records, keys := ?_, xrefs := ?_
           callSites := ?_, unresolved := ?_, marked := hmark.trans h.marked, count := ?_
           counted := ?_ }
  · rw [hm, hnew]
    exact h.keys
  · rw [hm, hnew]
    exact h.xrefs
  · rw [hcs, hnew]
    exact h.callSites
  · unfold Function.Unresolved
    rw [hcalls, hjumps, hnew]
    exact h.unresolved
  · rw [hn]
    exact h.count
  · rw [hn, hnew]
    exact h.counted

end Grows

/-! ## A decoded instruction -/

section

variable {t : Target} {insn : ExtendedInstruction} {s : AnalyzeState}

/-- There is a record at the address of the instruction afterwards: the one that was there, or a
new one. No other record changes. -/
theorem Filed.getInstruction {unresolved : Bool} {s₁ s₂ : AnalyzeState}
    (h : Filed insn (!s.module.instructions.contains insn.address) unresolved s₁ s₂)
    (h₁ : s₁.module = s.module.addInstruction insn) :
    ∃ i, ∀ a, s₂.module.getInstruction a =
      if a = insn.address then some ((s.module.getInstruction a).getD i)
      else s.module.getInstruction a := by
  have hins := h.instructions
  rw [h₁] at hins
  unfold Module.addInstruction markIndirect at hins
  unfold Module.getInstruction
  cases hc : s.module.instructions.contains insn.address with
  | true =>
    obtain ⟨j, hj⟩ := Option.isSome_iff_exists.mp hc
    rw [hc, if_pos rfl, Bool.not_true, if_neg Bool.false_ne_true, or_self] at hins
    refine ⟨insn, fun a => ?_⟩
    rw [hins]
    split
    · rename_i ha
      rw [ha, hj]
      rfl
    · rfl
  | false =>
    have hnone : s.module.instructions.get? insn.address = none :=
      Option.isNone_iff_eq_none.mp (by rw [← Option.not_isSome]; exact congrArg (!·) hc)
    rw [hc, if_neg Bool.false_ne_true, Bool.not_false, if_pos rfl] at hins
    rcases hins with hins | hins
    · refine ⟨insn, fun a => ?_⟩
      rw [hins, OrdMap.get?_insert]
      split
      · rename_i ha
        rw [ha, hnone]
        rfl
      · rfl
    · refine ⟨{ insn with isIndirect := true }, fun a => ?_⟩
      rw [hins, OrdMap.get?_insert]
      split
      · rename_i ha
        rw [ha, hnone]
        rfl
      · rename_i ha
        rw [OrdMap.get?_insert, if_neg ha]

/-- From the handling of an instruction to the whole pass, as in `decoded_of_handled`. -/
theorem grows_of_filed {unresolved : Bool} {s₁ s₂ s' : AnalyzeState}
    (hd : t.disassemble s.pc = some insn) (hpc : s.pc ∉ s.visited)
    (h : Filed insn (!s.module.instructions.contains insn.address) unresolved s₁ s₂)
    (hc : s₁.context = (s.enter insn).context) (hf : s₁.function = s.function)
    (hp : s₁.pc = s.pc) (hv : s₂.visited = s₁.visited)
    (hc' : s'.context = s₂.context) (hf' : s'.function = s₂.function)
    (hn : s'.localInsnCount = s.localInsnCount + 1) (hu : unresolved = true ↔ insn.Unresolved) :
    Grows t s s' := by
  obtain ⟨haddr, -⟩ := Target.disassemble_eq_some hd
  have hm₁ : s₁.module = s.module.addInstruction insn := congrArg AnalysisContext.module hc
  have hm : s'.module = s₂.module := congrArg AnalysisContext.module hc'
  have hvis : s'.visited = insert s.pc s.visited := by
    have hv' : s'.visited = s₂.visited := congrArg AnalysisContext.visited hc'
    have hv₁ : s₁.visited = insert insn.address s.visited := congrArg AnalysisContext.visited hc
    rw [hv', hv, hv₁, haddr]
  have hnew : ∀ a, Newly s s' a ↔ a = s.pc := by
    intro a
    unfold Newly
    rw [hvis, Finset.mem_insert]
    constructor
    · exact fun ha => ha.1.resolve_right ha.2
    · rintro rfl
      exact ⟨.inl rfl, hpc⟩
  obtain ⟨i, hget⟩ := h.getInstruction hm₁
  rw [haddr, ← hm] at hget
  refine
    { visited := hvis ▸ Finset.subset_insert _ _, records := fun a j hj => ?_
      keys := fun a => ?_, xrefs := ?_, callSites := fun c hcs => ?_, unresolved := ?_
      marked := ?_, count := hn ▸ Nat.le_succ _, counted := fun _ _ => hn ▸ Nat.lt_succ_self _ }
  · rw [hget a, hj]
    exact ite_self _
  · show (s'.module.getInstruction a).isSome = true ↔ (s.module.getInstruction a).isSome = true ∨ _
    rw [hget a, hnew]
    split <;> simp_all
  · have hxr := h.xrefs
    rw [hm₁, addInstruction_xrefManager, ← hm, hp] at hxr
    exact hxr.mono fun a ha => (hnew a).mpr ha
  · rw [hf'] at hcs
    rcases h.callSites c hcs with hcs | hcs
    · exact .inl (hf ▸ hcs)
    · exact .inr ((hnew _).mpr (hp ▸ hcs))
  · rw [hf', h.unresolved, hf, hu]
    refine or_congr_right ⟨fun hi => ⟨s.pc, (hnew _).mpr rfl, insn, hd, hi⟩, ?_⟩
    rintro ⟨a, ha, j, hj, hi⟩
    rw [(hnew a).mp ha, hd] at hj
    cases hj
    exact hi
  · rw [hf', h.marked, hf]

/-- An instruction that is recorded first and handled then. -/
theorem grows_of_recorded {unresolved : Bool} {s₂ s' : AnalyzeState}
    (hd : t.disassemble s.pc = some insn) (hpc : s.pc ∉ s.visited)
    (hf : Filed insn (!s.module.instructions.contains insn.address) unresolved (s.recorded insn) s₂)
    (hh : Handled (s.recorded insn) s₂) (hc' : s'.context = s₂.context)
    (hf' : s'.function = s₂.function) (hn : s'.localInsnCount = s₂.localInsnCount)
    (hu : unresolved = true ↔ insn.Unresolved) : Grows t s s' :=
  grows_of_filed hd hpc hf rfl rfl rfl hh.visited hc' hf' (hn.trans hh.count) hu

/-- A pass that decodes an instruction. -/
theorem decodeInsn_grows (hd : t.disassemble s.pc = some insn) (hpc : s.pc ∉ s.visited)
    {s' : AnalyzeState} (h : decodeInsn t insn s = .next s' ∨ decodeInsn t insn s = .done s') :
    Grows t s s' := by
  obtain ⟨haddr, -⟩ := Target.disassemble_eq_some hd
  obtain ⟨inserted, rfl, hout | hout⟩ := decodeInsn_result h
  · cases hout with
    | call hcat =>
      refine grows_of_recorded hd hpc (handleCall_filed t insn _ s.currentBlock (s.recorded insn))
        (handleCall_handled t insn _ s.currentBlock (s.recorded insn)) rfl rfl rfl ?_
      unfold ExtendedInstruction.Unresolved
      simp [hcat]
    | condBr hcat =>
      refine grows_of_recorded hd hpc (handleBranch_filed t insn _ s.currentBlock (s.recorded insn))
        (handleBranch_handled t insn _ s.currentBlock (s.recorded insn)) rfl rfl rfl ?_
      unfold ExtendedInstruction.Unresolved
      simp [hcat]
    | other hcat =>
      have hf := Filed.refl insn (!s.module.instructions.contains insn.address) (s.recorded insn)
      refine grows_of_filed hd hpc hf rfl rfl rfl rfl rfl rfl rfl ?_
      unfold ExtendedInstruction.Unresolved
      simp [hcat]
  · cases hout with
    | trampoline hfirst hcat =>
      have hf := handleTrampoline_filed t insn (!s.module.instructions.contains insn.address)
        s.currentBlock (s.enter insn) haddr
      have hh := handleTrampoline_handled t insn (!s.module.instructions.contains insn.address)
        s.currentBlock (s.enter insn)
      refine grows_of_filed hd hpc hf rfl rfl rfl hh.visited rfl rfl (congrArg (· + 1) hh.count) ?_
      unfold ExtendedInstruction.Unresolved
      simp [hcat]
    | uncondBr hcat hlater =>
      refine grows_of_recorded hd hpc (handleBranch_filed t insn _ s.currentBlock (s.recorded insn))
        (handleBranch_handled t insn _ s.currentBlock (s.recorded insn)) rfl rfl rfl ?_
      unfold ExtendedInstruction.Unresolved
      simp [hcat]
    | ret hcat =>
      have hf : Filed insn (!s.module.instructions.contains insn.address) false (s.recorded insn)
          ((s.recorded insn).closeBlock s.currentBlock insn.next insn.address).addBasicBlock :=
        (Filed.refl insn _ (s.recorded insn)).congr_right rfl rfl rfl rfl rfl
      refine grows_of_filed hd hpc hf rfl rfl rfl rfl rfl rfl rfl ?_
      unfold ExtendedInstruction.Unresolved
      simp [hcat]

/-- A pass that finds an instruction to decode. -/
theorem decodeStep_eq_decodeInsn (hpc : s.pc ∉ s.visited) (hm : t.Mapped s.pc)
    (hd : t.disassemble s.pc = some insn) : decodeStep t s = decodeInsn t insn s := by
  have hm' : ¬ (s.pc < t.loader.currentImageBase ∨ t.loader.imageEnd ≤ s.pc) := by
    have := hm.1
    have := hm.2
    omega
  unfold decodeStep
  rw [if_neg hpc, if_neg hm', hd]

theorem decodeStep_grows {s' : AnalyzeState}
    (h : decodeStep t s = .next s' ∨ decodeStep t s = .done s') : Grows t s s' := by
  rcases decodeStep_result h with ⟨rfl, -⟩ | ⟨-, bb, last, -, rfl⟩ | ⟨hv, hm, insn, hd, -⟩
  · exact .refl t _
  · exact (Grows.refl t s).congr_right rfl rfl rfl rfl rfl rfl
  · rw [decodeStep_eq_decodeInsn hv hm hd] at h
    exact decodeInsn_grows hd hv h

theorem Grows.addBasicBlock {s' : AnalyzeState} (h : Grows t s s') :
    Grows t s s'.addBasicBlock := by
  unfold AnalyzeState.addBasicBlock
  cases s'.bb with
  | none => exact h
  | some b => exact h.congr_right rfl rfl rfl rfl rfl rfl

end

/-! ## A call of `AnalyzeFunction` -/

/-- In every pass of a call, and after it, the analysis has only grown. -/
theorem analysis_grows (t : Target) (ctx : AnalysisContext) (f : Function) (start : Nat)
    (queue : List Nat) :
    (∀ w, Loop.Reaches (workStep t) (analyzeInit ctx f start queue) w →
      Grows t (analyzeInit ctx f start queue) w) ∧
    ∀ s, DecodePass t (analyzeInit ctx f start queue) s →
      Grows t (analyzeInit ctx f start queue) s := by
  obtain ⟨hw, hs⟩ := analysis_inv (I := Grows t (analyzeInit ctx f start queue)) rfl (.refl t _)
    (fun s rest pc h _ => h.congr_right rfl rfl rfl rfl rfl rfl)
    (fun s s' _ h hn => h.trans (decodeStep_grows (.inl hn)))
    (fun s s' _ h hn => (h.trans (decodeStep_grows (.inr hn))).addBasicBlock)
  exact ⟨fun w hr => (hw w hr).1, hs⟩

/-- What follows on a pass. -/
theorem DecodePass.grows {t : Target} {ctx : AnalysisContext} {f : Function} {start : Nat}
    {queue : List Nat} {s s' : AnalyzeState} (hp : DecodePass t (analyzeInit ctx f start queue) s)
    (hn : decodeStep t s = .next s' ∨ decodeStep t s = .done s') :
    Grows t s' (analyzeBlocks t ctx f start queue) :=
  hp.after (R := Grows t) (.refl t) (fun h h' => h.trans h')
    (fun s _ => (Grows.refl t s).congr_right rfl rfl rfl rfl rfl rfl)
    (fun s _ => (Grows.refl t s).congr_right rfl rfl rfl rfl rfl rfl) decodeStep_grows
    (fun s => (Grows.refl t s).addBasicBlock) hn

/-- **What a call of `AnalyzeFunction` files.** -/
theorem analyzeFunction_grows (t : Target) (ctx : AnalysisContext) (f : Function) (start : Nat)
    (queue : List Nat) :
    Grows t (analyzeInit ctx f start queue) (analyzeFunction t ctx f start queue) :=
  ((analysis_grows t ctx f start queue).1 _ (analyzeBlocks_reached t ctx f start queue)).congr_right
    rfl rfl rfl rfl rfl rfl

end ReWizard
