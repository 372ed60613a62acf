import ReWizard.Analysis.Proof.CallSites
import ReWizard.Analysis.Proof.Confluence
import ReWizard.Analysis.Proof.MovedRuns

/-!
# The passes on a moved image

No pass depends on where the image is mapped: from corresponding contexts each of them ends in
corresponding contexts, so any sequence of passes and re-analyses does (`analyze_moved`). The
traces of hybrid analysis have to correspond too (`TraceMoved`).
-/

namespace ReWizard

variable {t t' : Target} {δ : Nat}

/-! ## Symbols -/

section

variable {s s' : SymbolTable}

theorem SymbolsMoved.empty (δ : Nat) : SymbolsMoved δ {} {} := ⟨.nil, .nil, .nil⟩

theorem peSymbolTable_moved (h : t.Moved t' δ) (pe : PeTables) :
    SymbolsMoved δ (peSymbolTable t.loader.currentImageBase pe)
      (peSymbolTable t'.loader.currentImageBase pe) := by
  have hroom := t'.loader.belowTop
  have hbase := h.base
  have hadd : ∀ a, addrAdd t'.loader.currentImageBase a =
      addrAdd (addrAdd t.loader.currentImageBase a) δ := by
    intro a
    rw [← addrAdd_move, hbase, addrAdd_of_lt (b := δ) (by omega)]
  -- every loop adds one symbol on both sides
  have hfold : ∀ {α : Type} {step step' : SymbolTable → α → SymbolTable} (l : List α)
      {s s' : SymbolTable}, (∀ x ∈ l, ∀ s s', SymbolsMoved δ s s' →
        SymbolsMoved δ (step s x) (step' s' x)) →
      SymbolsMoved δ s s' → SymbolsMoved δ (l.foldl step s) (l.foldl step' s') := by
    intro α step step' l
    induction l with
    | nil => exact fun _ hs => hs
    | cons x l ih =>
      intro s s' hstep hs
      exact ih (fun y hy => hstep y (List.mem_cons_of_mem _ hy)) (hstep x List.mem_cons_self s s' hs)
  unfold peSymbolTable
  refine hfold _ (fun reloc _ s s' hs => hfold _ (fun entry _ s s' hs => ?_) hs)
    (hfold _ (fun exp _ s s' hs => ?_)
      (hfold _ (fun imp _ s s' hs => hfold _ (fun entry _ s s' hs => ?_) hs) (.empty δ)))
  · refine { hs with relocations := List.rel_append hs.relocations (.cons ?_ .nil) }
    unfold relocationEntry
    rw [hadd, addrAdd_move]
  · refine { hs with exports := List.rel_append hs.exports (.cons ⟨addrAdd_lt _ _, ?_⟩ .nil) }
    unfold exportedSymbol
    rw [hadd]
  · refine { hs with imports := List.rel_append hs.imports (.cons ?_ .nil) }
    unfold importedSymbol
    rw [hadd]

theorem importAnalysis_moved (h : t.Moved t' δ) {ctx ctx' : AnalysisContext}
    (hctx : t.ContextMoved t' δ ctx ctx') :
    t.ContextMoved t' δ (importAnalysis t ctx) (importAnalysis t' ctx') := by
  unfold importAnalysis
  rw [h.binary]
  cases t.loader.binary.pe with
  | none => exact hctx
  | some pe => exact ⟨{ hctx.module with symbols := peSymbolTable_moved h pe }, hctx.visited⟩

end

/-! ## The code of a function -/

theorem insnsFrom_moved (h : t.Moved t' δ) {m m' : Module} (hm : t.ModuleMoved t' δ m m')
    {stop stop' : Nat} (hstop : stop' = moveAddr δ stop) : ∀ (n a : Nat),
    List.Forall₂ (t.Recorded t' δ) (m.insnsFrom stop n a)
      (m'.insnsFrom stop' n (moveAddr δ a))
  | 0, _ => .nil
  | n + 1, a => by
    have hget := hm.getInstruction a
    have haddr := fun i hi => Module.getInstruction_address (m := m) (a := a) (i := i) hi
    unfold Module.insnsFrom
    rw [hstop]
    simp only [(moveAddr_strictMono δ).le_iff_le]
    split
    · exact .nil
    · generalize m.getInstruction a = o at hget haddr ⊢
      generalize m'.getInstruction (moveAddr δ a) = o' at hget ⊢
      cases hget with
      | none => exact .nil
      | @some i i' hrec =>
        have hnext : addrAdd a i.instruction.length = i.next := by
          unfold ExtendedInstruction.next
          rw [haddr i rfl]
        have hnext' : addrAdd (moveAddr δ a) i'.instruction.length = i'.next := by
          unfold ExtendedInstruction.next
          rw [hrec.address, haddr i rfl]
        dsimp only
        rw [hnext, hnext', (hrec.next h).2.1]
        exact .cons hrec (insnsFrom_moved h hm rfl n i.next)

theorem blockInsns_moved (h : t.Moved t' δ) {m m' : Module} (hm : t.ModuleMoved t' δ m m')
    (b : BasicBlock) : List.Forall₂ (t.Recorded t' δ) (m.blockInsns b)
      (m'.blockInsns (b.relabel (moveAddr δ))) := by
  unfold Module.blockInsns BasicBlock.relabel
  dsimp only
  by_cases hstart : b.startAddress = 0
  -- nothing is recorded at the null address
  · have hempty : ∀ {m : Module} {stop n : Nat}, m.getInstruction 0 = none →
        m.insnsFrom stop n 0 = [] := by
      intro m stop n hnone
      cases n with
      | zero => rfl
      | succ n =>
        unfold Module.insnsFrom
        rw [hnone]
        split <;> rfl
    have hget := hm.getInstruction 0
    have hnone : m.getInstruction 0 = none ∧ m'.getInstruction 0 = none := by
      have haddr := fun i hi => Module.getInstruction_address (m := m) (a := 0) (i := i) hi
      rw [moveAddr_zero] at hget
      generalize m.getInstruction 0 = o at hget haddr ⊢
      generalize m'.getInstruction 0 = o' at hget ⊢
      cases hget with
      | none => exact ⟨rfl, rfl⟩
      | some hrec => exact absurd (haddr _ rfl) hrec.decoded.1.pos
    rw [hstart, moveAddr_zero, hempty hnone.1, hempty hnone.2]
    exact .nil
  · have hlen : moveAddr δ b.endAddress - moveAddr δ b.startAddress =
        b.endAddress - b.startAddress := by
      rw [moveAddr_of_pos hstart]
      unfold moveAddr
      split <;> omega
    rw [hlen]
    exact insnsFrom_moved h hm rfl _ _

theorem code_moved (h : t.Moved t' δ) {m m' : Module} (hm : t.ModuleMoved t' δ m m')
    {f f' : Function} (hf : t.FunctionMoved t' δ f f') :
    List.Forall₂ (List.Forall₂ (t.Recorded t' δ)) (f.code m) (f'.code m') := by
  unfold Function.code
  rw [hf.blocks, List.map_map]
  exact List.forall₂_map_left_iff.mpr (List.forall₂_map_right_iff.mpr
    (List.forall₂_same.mpr fun b _ => blockInsns_moved h hm b))

/-! ## Verdicts -/

theorem FunctionMoved.record {f f' : Function} (hf : t.FunctionMoved t' δ f f') (a : Nat)
    (b : Bool) :
    t.FunctionMoved t' δ (f.record (a, b)) (f'.record (moveAddr δ a, b)) := by
  have hmono := moveAddr_strictMono δ
  refine ⟨?_, hf.name, hf.callSites, hf.verdicts.insert hmono rfl⟩
  unfold Function.record Function.recordOpaquePredicate
  rw [hf.same]
  dsimp only [Function.relabel]
  rw [OrdSet.relabel_insert]

theorem insnVerdict_moved {i i' : ExtendedInstruction} (hrec : t.Recorded t' δ i i')
    (d : IntervalDomain) (prev : Option Instruction) :
    insnVerdict d prev i' = (insnVerdict d prev i).map fun v => (moveAddr δ v.1, v.2) := by
  unfold insnVerdict
  rw [hrec.instruction, hrec.address]
  dsimp only
  generalize (if i.instruction.category = .condBr then evaluateBranch i.instruction prev d
    else PredicateResult.unknown) = p
  cases p <;> rfl

theorem blockVerdicts_moved {l l' : List ExtendedInstruction}
    (hl : List.Forall₂ (t.Recorded t' δ) l l') : ∀ (d : IntervalDomain) (prev : Option Instruction),
    blockVerdicts d prev l' = (blockVerdicts d prev l).map (fun v => (moveAddr δ v.1, v.2)) ∧
      l'.foldl intervalStep d = l.foldl intervalStep d := by
  induction hl with
  | nil => exact fun _ _ => ⟨rfl, rfl⟩
  | @cons i i' l l' hrec _ ih =>
    intro d prev
    have hstep : intervalStep d i' = intervalStep d i := by
      unfold intervalStep
      rw [hrec.instruction]
    obtain ⟨hverdicts, hdomain⟩ := ih (intervalStep d i) (some i.instruction)
    unfold blockVerdicts
    rw [insnVerdict_moved hrec, hstep, hrec.instruction, hverdicts, List.map_append,
      List.foldl_cons, List.foldl_cons, hstep]
    exact ⟨rfl, hdomain⟩

theorem codeVerdicts_moved {c c' : List (List ExtendedInstruction)}
    (hc : List.Forall₂ (List.Forall₂ (t.Recorded t' δ)) c c') : ∀ d : IntervalDomain,
    codeVerdicts d c' = (codeVerdicts d c).map fun v => (moveAddr δ v.1, v.2) := by
  induction hc with
  | nil => exact fun _ => rfl
  | cons hl _ ih =>
    intro d
    obtain ⟨hverdicts, hdomain⟩ := blockVerdicts_moved hl d none
    unfold codeVerdicts
    rw [hverdicts, hdomain, ih, List.map_append]

theorem intervalFunction_moved (h : t.Moved t' δ) {m m' : Module} (hm : t.ModuleMoved t' δ m m')
    {f f' : Function} (hf : t.FunctionMoved t' δ f f') :
    t.FunctionMoved t' δ (intervalFunction m f) (intervalFunction m' f') := by
  have hfold : ∀ (l : List (Nat × Bool)) {f f' : Function}, t.FunctionMoved t' δ f f' →
      t.FunctionMoved t' δ (l.foldl Function.record f)
        ((l.map fun v => (moveAddr δ v.1, v.2)).foldl Function.record f') := by
    intro l
    induction l with
    | nil => exact fun hf => hf
    | cons v l ih => exact fun hf => ih (FunctionMoved.record hf v.1 v.2)
  have hverdicts : f'.verdicts m' = (f.verdicts m).map fun v => (moveAddr δ v.1, v.2) :=
    codeVerdicts_moved (code_moved h hm hf) IntervalDomain.empty
  rw [intervalFunction_eq, intervalFunction_eq, hverdicts]
  exact hfold _ hf

theorem functionsMoved_map {m m' : Module} (hm : t.ModuleMoved t' δ m m')
    {φ φ' : Function → Function}
    (hφ : ∀ f f', t.FunctionMoved t' δ f f' → t.FunctionMoved t' δ (φ f) (φ' f')) :
    t.ModuleMoved t' δ { m with functions := m.functions.map φ }
      { m' with functions := m'.functions.map φ' } :=
  { hm with functions := List.forall₂_map_left_iff.mpr (List.forall₂_map_right_iff.mpr
      (hm.functions.imp hφ)) }

theorem abstractInterpretation_moved (h : t.Moved t' δ) {ctx ctx' : AnalysisContext}
    (hctx : t.ContextMoved t' δ ctx ctx') :
    t.ContextMoved t' δ (abstractInterpretation ctx) (abstractInterpretation ctx') :=
  ⟨functionsMoved_map hctx.module fun _ _ hf => intervalFunction_moved h hctx.module hf,
    hctx.visited⟩

/-! ## Dead edges -/

theorem removeDeadEdge_moved (blocks : List BasicBlock) (modified : Bool) (a : Nat) (b : Bool) :
    removeDeadEdge ⟨blocks.map (BasicBlock.relabel (moveAddr δ)), modified⟩ (moveAddr δ a, b) =
      ⟨(removeDeadEdge ⟨blocks, modified⟩ (a, b)).blocks.map (BasicBlock.relabel (moveAddr δ)),
        (removeDeadEdge ⟨blocks, modified⟩ (a, b)).modified⟩ := by
  have hmono := moveAddr_strictMono δ
  unfold removeDeadEdge
  dsimp only
  rw [resolveBlock_relabel hmono]
  cases resolveBlock blocks a with
  | none => rfl
  | some k =>
    dsimp only
    rw [List.getElem?_map]
    cases blocks[k]? with
    | none => rfl
    | some bb =>
      have hsuccs : (bb.relabel (moveAddr δ)).successors = bb.successors.map (moveAddr δ) := rfl
      simp only [Option.map_some, hsuccs]
      cases hcases : bb.successors with
      | nil => rfl
      | cons target rest =>
        cases rest with
        | nil => rfl
        | cons fallthrough rest =>
          simp only [List.map_cons, ← apply_ite (moveAddr δ),
            BasicBlock.relabel_removeSuccessor hmono, List.map_set]

theorem removeOpaquePredicates_moved {f f' : Function} (hf : t.FunctionMoved t' δ f f') :
    t.FunctionMoved t' δ f.removeOpaquePredicates f'.removeOpaquePredicates := by
  have hmono := moveAddr_strictMono δ
  have hfold : ∀ {l l' : List (Nat × Bool)},
      List.Forall₂ (fun e e' => e'.1 = moveAddr δ e.1 ∧ e.2 = e'.2) l l' →
      ∀ (blocks : List BasicBlock) (modified : Bool),
      l'.foldl removeDeadEdge ⟨blocks.map (BasicBlock.relabel (moveAddr δ)), modified⟩ =
        ⟨(l.foldl removeDeadEdge ⟨blocks, modified⟩).blocks.map (BasicBlock.relabel (moveAddr δ)),
          (l.foldl removeDeadEdge ⟨blocks, modified⟩).modified⟩ := by
    intro l l' hl
    induction hl with
    | nil => exact fun _ _ => rfl
    | @cons e e' _ _ he _ ih =>
      intro blocks modified
      obtain ⟨a, b⟩ := e
      obtain ⟨a', b'⟩ := e'
      obtain ⟨rfl, rfl⟩ : a' = moveAddr δ a ∧ b = b' := he
      rw [List.foldl_cons, List.foldl_cons, removeDeadEdge_moved, ih]
  have hflag : f'.hasOpaquePredicates = f.hasOpaquePredicates := by
    rw [hf.same]
    rfl
  unfold Function.removeOpaquePredicates
  rw [hflag]
  split
  · refine hf.congr ?_ hf.name rfl rfl rfl rfl
    dsimp only
    rw [hf.blocks, hfold hf.verdicts]
    dsimp only
    rw [hf.start, buildCFG_relabel hmono, hf.same]
    rfl
  · exact hf

theorem opaquePredicate_moved {ctx ctx' : AnalysisContext} (hctx : t.ContextMoved t' δ ctx ctx') :
    t.ContextMoved t' δ (opaquePredicate ctx) (opaquePredicate ctx') :=
  ⟨functionsMoved_map hctx.module fun _ _ hf => removeOpaquePredicates_moved hf, hctx.visited⟩

/-! ## Register values -/

/-- What is known of a register, and what is known of it in the other image. -/
structure RegisterMoved (t t' : Target) (δ : Nat) (r r' : RegisterState) : Prop where
  defAddress : r'.defAddress = moveAddr δ r.defAddress
  knownValue : t.Refer t' δ r.knownValue r'.knownValue
  isKnown : r'.isKnown = r.isKnown

def RegsMoved (t t' : Target) (δ : Nat) (regs regs' : RegisterFile) : Prop :=
  ∀ r, Option.Rel (RegisterMoved t t' δ) (regs r) (regs' r)

theorem resolveMemory_moved (h : t.Moved t' δ) {i i' : ExtendedInstruction}
    (hrec : t.Recorded t' δ i i') (hlea : i.instruction.mnemonic = .lea) {mem : MemOperand}
    (hmem : (i.instruction.op 1).value = .memory mem) :
    Option.Rel (t.Refer t' δ) (i.resolveMemory mem) (i'.resolveMemory mem) := by
  unfold ExtendedInstruction.resolveMemory
  split
  · rename_i hrip
    exact .some (hrec.refer h (.taken hlea hmem hrip.1))
  · split
    · rename_i habs
      exact .some (hrec.referFixed h (.taken hlea hmem habs.1 habs.2))
    · exact .none

theorem knownValue_moved (h : t.Moved t' δ) {i i' : ExtendedInstruction}
    (hrec : t.Recorded t' δ i i') :
    Option.Rel (fun v v' => v'.1 = v.1 ∧ t.Refer t' δ v.2 v'.2) i.knownValue i'.knownValue := by
  unfold ExtendedInstruction.knownValue
  rw [hrec.instruction]
  cases hmn : i.instruction.mnemonic with
  | mov =>
    cases (i.instruction.op 0).value with
    | register dst =>
      cases himm : (i.instruction.op 1).value with
      | immediate imm => exact .some ⟨rfl, hrec.referFixed h (.loaded hmn himm)⟩
      | _ => exact .none
    | _ => exact .none
  | lea =>
    cases (i.instruction.op 0).value with
    | register dst =>
      cases hmem : (i.instruction.op 1).value with
      | memory mem =>
        have hresolve := resolveMemory_moved h hrec hmn hmem
        dsimp only
        generalize i.resolveMemory mem = o at hresolve ⊢
        generalize i'.resolveMemory mem = o' at hresolve ⊢
        cases hresolve with
        | none => exact .none
        | some hr => exact .some ⟨rfl, hr⟩
      | _ => exact .none
    | _ => exact .none
  | xor =>
    cases (i.instruction.op 0).value with
    | register a =>
      cases (i.instruction.op 1).value with
      | register b =>
        dsimp only
        split
        · exact .some ⟨rfl, .null t t' δ⟩
        · exact .none
      | _ => exact .none
    | _ => exact .none
  | _ => exact .none

theorem RegsMoved.set {regs regs' : RegisterFile} (hr : RegsMoved t t' δ regs regs')
    (reg : ZydisRegister) {v v' : RegisterState} (hv : RegisterMoved t t' δ v v') :
    RegsMoved t t' δ (regs.set reg v) (regs'.set reg v') := by
  intro r
  unfold RegisterFile.set
  split
  · exact .some hv
  · exact hr r

theorem RegsMoved.erase {regs regs' : RegisterFile} (hr : RegsMoved t t' δ regs regs')
    (reg : ZydisRegister) : RegsMoved t t' δ (regs.erase reg) (regs'.erase reg) := by
  intro r
  unfold RegisterFile.erase
  split
  · exact .none
  · exact hr r

theorem RegsMoved.applyInstruction (h : t.Moved t' δ) {regs regs' : RegisterFile}
    (hr : RegsMoved t t' δ regs regs') {i i' : ExtendedInstruction}
    (hrec : t.Recorded t' δ i i') :
    RegsMoved t t' δ (regs.applyInstruction i) (regs'.applyInstruction i') := by
  have hoperand : ∀ (op : Operand) {regs regs' : RegisterFile}, RegsMoved t t' δ regs regs' →
      RegsMoved t t' δ (regs.invalidateOperand i.address op)
        (regs'.invalidateOperand i'.address op) := by
    intro op regs regs' hr
    unfold RegisterFile.invalidateOperand
    cases op.value with
    | register reg =>
      dsimp only
      split
      · have hreg := hr reg
        generalize regs reg = o at hreg ⊢
        generalize regs' reg = o' at hreg ⊢
        cases hreg with
        | none => exact hr
        | some hstate =>
          dsimp only
          rw [hstate.defAddress, hrec.address]
          simp only [ne_eq, (moveAddr_strictMono δ).injective.eq_iff]
          split
          · exact hr.erase reg
          · exact hr
      · exact hr
    | _ => exact hr
  have hfold : ∀ (l : List Operand) {regs regs' : RegisterFile}, RegsMoved t t' δ regs regs' →
      RegsMoved t t' δ (l.foldl (RegisterFile.invalidateOperand i.address) regs)
        (l.foldl (RegisterFile.invalidateOperand i'.address) regs') := by
    intro l
    induction l with
    | nil => exact fun hr => hr
    | cons op l ih => exact fun hr => ih (hoperand op hr)
  have hvalue := knownValue_moved h hrec
  unfold RegisterFile.applyInstruction
  rw [hrec.instruction]
  refine hfold i.instruction.operands ?_
  generalize i.knownValue = o at hvalue ⊢
  generalize i'.knownValue = o' at hvalue ⊢
  cases hvalue with
  | none => exact hr
  | @some v v' hv =>
    obtain ⟨reg, value⟩ := v
    obtain ⟨reg', value'⟩ := v'
    obtain ⟨rfl, hrefer⟩ : reg' = reg ∧ t.Refer t' δ value value' := hv
    exact hr.set reg' ⟨hrec.address, hrefer, rfl⟩

theorem RegsMoved.target {regs regs' : RegisterFile} (hr : RegsMoved t t' δ regs regs')
    (i : Instruction) : Option.Rel (t.Refer t' δ) (regs.target? i) (regs'.target? i) := by
  unfold RegisterFile.target?
  cases (i.op 0).value with
  | register reg =>
    have hreg := hr reg
    dsimp only
    generalize regs reg = o at hreg ⊢
    generalize regs' reg = o' at hreg ⊢
    cases hreg with
    | none => exact .none
    | some hstate =>
      dsimp only
      rw [hstate.isKnown]
      simp only [ne_eq, hstate.knownValue.eq_zero]
      split
      · exact .some hstate.knownValue
      · exact .none
  | _ => exact .none

/-! ## Data flow -/

/-- The one data flow is where the other one is. -/
structure DataFlowMoved (t t' : Target) (δ : Nat) (s s' : DataFlowState) : Prop where
  module : t.ModuleMoved t' δ s.module s'.module
  regs : RegsMoved t t' δ s.regs s'.regs
  function : t.FunctionMoved t' δ s.function s'.function

theorem DataFlowMoved.insn (h : t.Moved t' δ) {s s' : DataFlowState}
    (hs : DataFlowMoved t t' δ s s') {i i' : ExtendedInstruction} (hrec : t.Recorded t' δ i i') :
    DataFlowMoved t t' δ (dataFlowInsn s i) (dataFlowInsn s' i') := by
  have htry : DataFlowMoved t t' δ (tryResolveIndirect i s) (tryResolveIndirect i' s') := by
    have htarget := hs.regs.target i.instruction
    unfold tryResolveIndirect
    rw [hrec.instruction]
    generalize s.regs.target? i.instruction = o at htarget ⊢
    generalize s'.regs.target? i.instruction = o' at htarget ⊢
    cases htarget with
    | none => exact hs
    | @some d d' hd =>
      have hsite := hs.function.addCallSite i.address hd
      rw [← hrec.address] at hsite
      have hvalue : t.Recorded t' δ { i with indirectValue := d }
          { i' with indirectValue := d' } := ⟨hrec.decoded, by rw [hrec.same], hd⟩
      exact { hs with module := hs.module.insert hvalue, function := hsite }
  have hregs : ∀ {s s' : DataFlowState}, DataFlowMoved t t' δ s s' →
      DataFlowMoved t t' δ { s with regs := s.regs.applyInstruction i }
        { s' with regs := s'.regs.applyInstruction i' } :=
    fun hs => { hs with regs := hs.regs.applyInstruction h hrec }
  unfold dataFlowInsn
  rw [hrec.instruction]
  refine hregs ?_
  cases i.instruction.category with
  | call => exact htry
  | condBr => exact htry
  | uncondBr => exact htry
  | ret => exact hs
  | other => exact hs

theorem dataFlowFunction_moved (h : t.Moved t' δ) {m m' : Module} (hm : t.ModuleMoved t' δ m m')
    {f f' : Function} (hf : t.FunctionMoved t' δ f f') :
    DataFlowMoved t t' δ (dataFlowFunction m f) (dataFlowFunction m' f') := by
  have hinsns : ∀ {l l' : List ExtendedInstruction}, List.Forall₂ (t.Recorded t' δ) l l' →
      ∀ {s s' : DataFlowState}, DataFlowMoved t t' δ s s' →
      DataFlowMoved t t' δ (l.foldl dataFlowInsn s) (l'.foldl dataFlowInsn s') := by
    intro l l' hl
    induction hl with
    | nil => exact fun hs => hs
    | cons hrec _ ih => exact fun hs => ih (hs.insn h hrec)
  have hblocks : ∀ (l : List BasicBlock) {s s' : DataFlowState}, DataFlowMoved t t' δ s s' →
      DataFlowMoved t t' δ (l.foldl dataFlowBlock s)
        ((l.map (BasicBlock.relabel (moveAddr δ))).foldl dataFlowBlock s') := by
    intro l
    induction l with
    | nil => exact fun hs => hs
    | cons b l ih => exact fun hs => ih (hinsns (blockInsns_moved h hs.module b) hs)
  unfold dataFlowFunction
  rw [hf.blocks]
  exact hblocks f.basicBlocks ⟨hm, fun _ => .none, hf⟩

theorem dataFlowAnalysis_moved (h : t.Moved t' δ) {ctx ctx' : AnalysisContext}
    (hctx : t.ContextMoved t' δ ctx ctx') :
    t.ContextMoved t' δ (dataFlowAnalysis ctx) (dataFlowAnalysis ctx') := by
  have hfunctions : ∀ {l l' : List Function}, List.Forall₂ (t.FunctionMoved t' δ) l l' →
      ∀ {m m' : Module} {done done' : List Function}, t.ModuleMoved t' δ m m' →
      List.Forall₂ (t.FunctionMoved t' δ) done done' →
      t.ModuleMoved t' δ
        (l.foldl (fun (r : Module × List Function) f =>
          ((dataFlowFunction r.1 f).module, r.2 ++ [(dataFlowFunction r.1 f).function]))
          (m, done)).1
        (l'.foldl (fun (r : Module × List Function) f =>
          ((dataFlowFunction r.1 f).module, r.2 ++ [(dataFlowFunction r.1 f).function]))
          (m', done')).1 ∧
      List.Forall₂ (t.FunctionMoved t' δ)
        (l.foldl (fun (r : Module × List Function) f =>
          ((dataFlowFunction r.1 f).module, r.2 ++ [(dataFlowFunction r.1 f).function]))
          (m, done)).2
        (l'.foldl (fun (r : Module × List Function) f =>
          ((dataFlowFunction r.1 f).module, r.2 ++ [(dataFlowFunction r.1 f).function]))
          (m', done')).2 := by
    intro l l' hl
    induction hl with
    | nil => exact fun hm hd => ⟨hm, hd⟩
    | cons hf _ ih =>
      intro m m' done done' hm hd
      have hstep := dataFlowFunction_moved h hm hf
      exact ih hstep.module (List.rel_append hd (.cons hstep.function .nil))
  obtain ⟨hm, hf⟩ := hfunctions hctx.module.functions hctx.module .nil
  exact ⟨{ hm with functions := hf }, hctx.visited⟩

/-! ## Traces -/

/-- The records say of the images that the same was executed. -/
structure Target.RecordMoved (t t' : Target) (δ : Nat) (r r' : TraceRecord) : Prop where
  pc : r'.pc = moveAddr δ r.pc
  target : ∀ i i', t.Recorded t' δ i i' → i.address = r.pc →
    t.Refer t' δ (resolveIndirectTarget i r) (resolveIndirectTarget i' r')

/-- The traces say of the images that the same was executed. -/
def Target.TraceMoved (t t' : Target) (δ : Nat) (trace trace' : List TraceRecord) : Prop :=
  List.Forall₂ (t.RecordMoved t' δ) trace trace'

theorem getRecordsForPC_moved {trace trace' : List TraceRecord}
    (h : t.TraceMoved t' δ trace trace') (pc : Nat) :
    List.Forall₂ (fun r r' => r.pc = pc ∧ t.RecordMoved t' δ r r') (getRecordsForPC trace pc)
      (getRecordsForPC trace' (moveAddr δ pc)) := by
  unfold getRecordsForPC
  induction h with
  | nil => exact .nil
  | cons hr _ ih =>
    rw [List.filter_cons, List.filter_cons, hr.pc]
    simp only [(moveAddr_strictMono δ).injective.eq_iff]
    split
    · rename_i hpc
      exact .cons ⟨of_decide_eq_true hpc, hr⟩ ih
    · exact ih

/-- The one walk over the blocks is where the other one is. -/
structure WalkMoved (t t' : Target) (δ : Nat) (w w' : IndirectWalk) : Prop where
  blocks : w'.blocks = w.blocks.map (BasicBlock.relabel (moveAddr δ))
  instructions : List.Forall₂ (t.Recorded t' δ) w.instructions w'.instructions
  visited : w'.visited = w.visited.map (moveAddr δ)
  work : w'.work = w.work

theorem WalkMoved.queue {w w' : IndirectWalk} (hw : WalkMoved t t' δ w w') (succ : Nat) :
    WalkMoved t t' δ (queueSuccessor w succ) (queueSuccessor w' (moveAddr δ succ)) := by
  have hmono := moveAddr_strictMono δ
  unfold queueSuccessor
  rw [hw.blocks, getBasicBlockForAddress_relabel hmono rfl]
  generalize getBasicBlockForAddress w.blocks succ = r
  dsimp only
  cases r.index with
  | none => exact { hw with blocks := rfl }
  | some k =>
    dsimp only
    rw [List.getElem?_map]
    cases r.blocks[k]? with
    | none => exact { hw with blocks := rfl }
    | some b =>
      have hstart : (b.relabel (moveAddr δ)).startAddress = moveAddr δ b.startAddress := rfl
      dsimp only [Option.map_some]
      rw [hstart, hw.visited]
      simp only [List.mem_map_of_injective hmono.injective]
      split
      · exact { hw with blocks := rfl, visited := rfl }
      · exact { hw with blocks := rfl, visited := rfl, work := by simp [hw.work] }

theorem WalkMoved.step (h : t.Moved t' δ) {m m' : Module} (hm : t.ModuleMoved t' δ m m')
    {w w' : IndirectWalk} (hw : WalkMoved t t' δ w w') :
    Loop.Out.Rel (WalkMoved t t' δ) (indirectStep m w) (indirectStep m' w') := by
  have hmono := moveAddr_strictMono δ
  have hfilter : ∀ {l l' : List ExtendedInstruction}, List.Forall₂ (t.Recorded t' δ) l l' →
      List.Forall₂ (t.Recorded t' δ) (l.filter (·.isIndirect)) (l'.filter (·.isIndirect)) := by
    intro l l' hl
    induction hl with
    | nil => exact .nil
    | cons hrec _ ih =>
      rw [List.filter_cons, List.filter_cons, hrec.same]
      dsimp only
      split
      · rename_i hind
        exact .cons (hrec.same ▸ hrec) ih
      · exact ih
  have hqueue : ∀ (l : List Nat) {w w' : IndirectWalk}, WalkMoved t t' δ w w' →
      WalkMoved t t' δ (l.foldl queueSuccessor w) ((l.map (moveAddr δ)).foldl queueSuccessor w') := by
    intro l
    induction l with
    | nil => exact fun hw => hw
    | cons a l ih => exact fun hw => ih (hw.queue a)
  unfold indirectStep
  rw [hw.work]
  cases w.work with
  | nil => exact .done hw
  | cons k rest =>
    dsimp only
    rw [hw.blocks, List.getElem?_map]
    cases w.blocks[k]? with
    | none => exact .next { hw with blocks := rfl, work := rfl }
    | some b =>
      have hstart : (b.relabel (moveAddr δ)).startAddress = moveAddr δ b.startAddress := rfl
      dsimp only [Option.map_some]
      rw [hstart, hw.visited]
      simp only [List.mem_map_of_injective hmono.injective]
      split
      · exact .next { hw with blocks := rfl, visited := rfl, work := rfl }
      · refine .next (hqueue b.successors ?_)
        exact ⟨rfl, List.rel_append hw.instructions (hfilter (blockInsns_moved h hm b)), rfl, rfl⟩

theorem getIndirectInstructions_moved (h : t.Moved t' δ) {m m' : Module}
    (hm : t.ModuleMoved t' δ m m') {f f' : Function} (hf : t.FunctionMoved t' δ f f') :
    List.Forall₂ (t.Recorded t' δ) (getIndirectInstructions m f).1
        (getIndirectInstructions m' f').1 ∧
      t.FunctionMoved t' δ (getIndirectInstructions m f).2 (getIndirectInstructions m' f').2 := by
  have hmono := moveAddr_strictMono δ
  unfold getIndirectInstructions
  rw [hf.blocks, hf.start, getBasicBlockForAddress_relabel hmono rfl]
  generalize getBasicBlockForAddress f.basicBlocks f.startAddress = r
  dsimp only
  cases r.index with
  | none => exact ⟨.nil, hf⟩
  | some k =>
    have hfuel : indirectFuel (r.blocks.map (BasicBlock.relabel (moveAddr δ))) =
        indirectFuel r.blocks := by
      simp [indirectFuel, BasicBlock.relabel, Function.comp_def]
    have hwalk := Loop.exec_rel (n := indirectFuel r.blocks)
      (fun _ _ hw => WalkMoved.step h hm hw)
      (show WalkMoved t t' δ ⟨r.blocks, [], [], [k]⟩
        ⟨r.blocks.map (BasicBlock.relabel (moveAddr δ)), [], [], [k]⟩ from ⟨rfl, .nil, rfl, rfl⟩)
    dsimp only
    rw [hfuel]
    refine ⟨hwalk.instructions, hf.congr ?_ hf.name rfl rfl rfl rfl⟩
    dsimp only
    rw [hwalk.blocks, hf.same]
    rfl

/-! ## Hybrid analysis -/

/-- The functions and the targets found so far. -/
structure ResolveMoved (t t' : Target) (δ : Nat) (s s' : ResolveState) : Prop where
  function : t.FunctionMoved t' δ s.function s'.function
  targets : s.resolvedTargets.toList.Matched (t.Refer t' δ) s'.resolvedTargets.toList

theorem ResolveMoved.record {s s' : ResolveState} (hs : ResolveMoved t t' δ s s')
    {i i' : ExtendedInstruction} (hrec : t.Recorded t' δ i i') {r r' : TraceRecord}
    (hpc : i.address = r.pc) (hr : t.RecordMoved t' δ r r') :
    ResolveMoved t t' δ (resolveRecord i s r) (resolveRecord i' s' r') := by
  have hd := hr.target i i' hrec hpc
  unfold resolveRecord
  dsimp only
  simp only [ne_eq, hd.eq_zero]
  split
  · have hsite := hs.function.addCallSite i.address hd
    rw [← hrec.address] at hsite
    refine ⟨hsite, fun d hmem => ?_, fun d' hmem => ?_⟩
    · rcases OrdSet.mem_insert.mp hmem with rfl | hmem
      · exact ⟨_, OrdSet.mem_insert.mpr (.inl rfl), hd⟩
      · obtain ⟨d', hd', hrel⟩ := hs.targets.left d hmem
        exact ⟨d', OrdSet.mem_insert.mpr (.inr hd'), hrel⟩
    · rcases OrdSet.mem_insert.mp hmem with rfl | hmem
      · exact ⟨_, OrdSet.mem_insert.mpr (.inl rfl), hd⟩
      · obtain ⟨d, hd', hrel⟩ := hs.targets.right d' hmem
        exact ⟨d, OrdSet.mem_insert.mpr (.inr hd'), hrel⟩
  · exact hs

theorem processOpaquePredicates_moved {trace trace' : List TraceRecord}
    (htrace : t.TraceMoved t' δ trace trace') {f f' : Function}
    (hf : t.FunctionMoved t' δ f f') :
    t.FunctionMoved t' δ { f.processOpaquePredicates trace with hybridVerified := true }
      { f'.processOpaquePredicates trace' with hybridVerified := true } := by
  have hmono := moveAddr_strictMono δ
  have hcount : ∀ a, (getRecordsForPC trace' (moveAddr δ a)).length =
      (getRecordsForPC trace a).length := fun a => (getRecordsForPC_moved htrace a).length_eq.symm
  have herase : ∀ (l : List Nat) (s : OrdSet Nat), (l.map (moveAddr δ)).foldl OrdSet.erase
      (s.relabel hmono) = (l.foldl OrdSet.erase s).relabel hmono := by
    intro l
    induction l with
    | nil => exact fun _ => rfl
    | cons a l ih =>
      intro s
      rw [List.map_cons, List.foldl_cons, List.foldl_cons, ← OrdSet.relabel_erase, ih]
  have hempty : ∀ s : OrdSet Nat, (s.relabel hmono).toList = [] ↔ s.toList = [] :=
    fun s => List.map_eq_nil_iff
  have haddresses : f'.opaquePredicateAddresses = f.opaquePredicateAddresses.relabel hmono := by
    rw [hf.same]
    rfl
  have hflag : f'.hasOpaquePredicates = f.hasOpaquePredicates := by
    rw [hf.same]
    rfl
  have hlist : (f.opaquePredicateAddresses.relabel hmono).toList.filter
      (fun a => decide (1 < (getRecordsForPC trace' a).length)) =
        (f.opaquePredicateAddresses.toList.filter
          fun a => decide (1 < (getRecordsForPC trace a).length)).map (moveAddr δ) := by
    unfold OrdSet.relabel
    rw [List.filter_map]
    simp only [Function.comp_def, hcount]
  unfold Function.processOpaquePredicates
  rw [hflag]
  split
  · refine hf.congr ?_ hf.name rfl rfl rfl rfl
    dsimp only
    rw [haddresses, hlist, herase]
    simp only [hempty]
    rw [hf.same]
    rfl
  · exact hf.congr (by rw [hf.same]; rfl) hf.name rfl rfl rfl rfl

theorem resolveFunction_moved (h : t.Moved t' δ) {trace trace' : List TraceRecord}
    (htrace : t.TraceMoved t' δ trace trace') {m m' : Module} (hm : t.ModuleMoved t' δ m m')
    {f f' : Function} (hf : t.FunctionMoved t' δ f f') {targets targets' : OrdSet Nat}
    (htargets : targets.toList.Matched (t.Refer t' δ) targets'.toList) :
    ResolveMoved t t' δ (resolveFunction m trace f targets)
      (resolveFunction m' trace' f' targets') := by
  have hrecords : ∀ {i i' : ExtendedInstruction}, t.Recorded t' δ i i' →
      ∀ {l l' : List TraceRecord},
      List.Forall₂ (fun r r' => r.pc = i.address ∧ t.RecordMoved t' δ r r') l l' →
      ∀ {s s' : ResolveState}, ResolveMoved t t' δ s s' →
      ResolveMoved t t' δ (l.foldl (resolveRecord i) s) (l'.foldl (resolveRecord i') s') := by
    intro i i' hrec l l' hl
    induction hl with
    | nil => exact fun hs => hs
    | cons hr _ ih => exact fun hs => ih (hs.record hrec hr.1.symm hr.2)
  have hinsns : ∀ {l l' : List ExtendedInstruction}, List.Forall₂ (t.Recorded t' δ) l l' →
      ∀ {s s' : ResolveState}, ResolveMoved t t' δ s s' →
      ResolveMoved t t' δ
        (l.foldl (fun s i => (getRecordsForPC trace i.address).foldl (resolveRecord i) s) s)
        (l'.foldl (fun s i => (getRecordsForPC trace' i.address).foldl (resolveRecord i) s) s') := by
    intro l l' hl
    induction hl with
    | nil => exact fun hs => hs
    | @cons i i' _ _ hrec _ ih =>
      intro s s' hs
      have hpc := getRecordsForPC_moved htrace i.address
      rw [← hrec.address] at hpc
      exact ih (hrecords hrec hpc hs)
  have hmarked : f'.markedForHybridAnalysis = f.markedForHybridAnalysis := by
    rw [hf.same]
    rfl
  unfold resolveFunction
  rw [hmarked]
  split
  · obtain ⟨hindirects, hf'⟩ := getIndirectInstructions_moved h hm hf
    have hstart : ResolveMoved t t' δ ⟨(getIndirectInstructions m f).2, targets⟩
        ⟨(getIndirectInstructions m' f').2, targets'⟩ := ⟨hf', htargets⟩
    have hresolved := hinsns hindirects hstart
    exact ⟨processOpaquePredicates_moved htrace hresolved.function, hresolved.targets⟩
  · exact ⟨hf, htargets⟩

theorem analyzeTarget_moved (h : t.Moved t' δ) {ctx ctx' : AnalysisContext}
    (hctx : t.ContextMoved t' δ ctx ctx') (a : Nat) :
    t.ContextMoved t' δ (analyzeTarget t ctx a) (analyzeTarget t' ctx' (moveAddr δ a)) := by
  unfold analyzeTarget
  rw [h.isWithinMapping, hctx.module.isNone]
  simp only [hctx.mem_visited]
  split
  · exact RebuilderCall.moved h hctx (.reAnalyzeFrom a)
  · exact hctx

/-- Targets outside of the image are passed over, and those in it come in the same order. -/
theorem analyzeTargets_moved (h : t.Moved t' δ) {ctx ctx' : AnalysisContext}
    (hctx : t.ContextMoved t' δ ctx ctx') {targets targets' : OrdSet Nat}
    (htargets : targets.toList.Matched (t.Refer t' δ) targets'.toList) :
    t.ContextMoved t' δ (targets.toList.foldl (analyzeTarget t) ctx)
      (targets'.toList.foldl (analyzeTarget t') ctx') := by
  have hmono := moveAddr_strictMono δ
  have hskip : ∀ (u : Target) (l : List Nat) (c : AnalysisContext),
      l.foldl (analyzeTarget u) c =
        (l.filter fun a => u.loader.isWithinMapping a).foldl (analyzeTarget u) c := by
    intro u l
    induction l with
    | nil => exact fun _ => rfl
    | cons a l ih =>
      intro c
      rw [List.foldl_cons, ih, List.filter_cons]
      split
      · rfl
      · rename_i hout
        unfold analyzeTarget
        rw [if_neg fun hin => hout hin.1]
  have hfold : ∀ (l : List Nat) {c c' : AnalysisContext}, t.ContextMoved t' δ c c' →
      t.ContextMoved t' δ (l.foldl (analyzeTarget t) c)
        ((l.map (moveAddr δ)).foldl (analyzeTarget t') c') := by
    intro l
    induction l with
    | nil => exact fun hc => hc
    | cons a l ih => exact fun hc => ih (analyzeTarget_moved h hc a)
  have hfilter : targets'.toList.filter (fun a => t'.loader.isWithinMapping a) =
      (targets.toList.filter fun a => t.loader.isWithinMapping a).map (moveAddr δ) := by
    refine List.Pairwise.eq_of_mem_iff (targets'.sorted.filter _)
      (List.pairwise_map.mpr ((targets.sorted.filter _).imp fun hlt => hmono hlt)) fun a' => ?_
    rw [List.mem_filter, List.mem_map]
    constructor
    · rintro ⟨hmem, hin⟩
      obtain ⟨a, ha, hrel⟩ := htargets.right a' hmem
      rw [hrel.within h] at hin
      exact ⟨a, List.mem_filter.mpr ⟨ha, hin⟩, (hrel.eq_move h hin).symm⟩
    · rintro ⟨a, ha, rfl⟩
      obtain ⟨hmem, hin⟩ := List.mem_filter.mp ha
      obtain ⟨a', ha', hrel⟩ := htargets.left a hmem
      rw [← hrel.eq_move h hin]
      exact ⟨ha', (hrel.within h).trans hin⟩
  rw [hskip t, hskip t', hfilter]
  exact hfold _ hctx

/-- The functions of the two modules come out alike, and so do the targets found. -/
theorem resolveFunctions_moved (h : t.Moved t' δ) {trace trace' : List TraceRecord}
    (htrace : t.TraceMoved t' δ trace trace') {m m' : Module} (hm : t.ModuleMoved t' δ m m') :
    List.Forall₂ (t.FunctionMoved t' δ) (resolveFunctions m trace).1
        (resolveFunctions m' trace').1 ∧
      (resolveFunctions m trace).2.toList.Matched (t.Refer t' δ)
        (resolveFunctions m' trace').2.toList := by
  have hfunctions : ∀ {l l' : List Function}, List.Forall₂ (t.FunctionMoved t' δ) l l' →
      ∀ {r r' : List Function × OrdSet Nat}, List.Forall₂ (t.FunctionMoved t' δ) r.1 r'.1 ∧
        r.2.toList.Matched (t.Refer t' δ) r'.2.toList →
      List.Forall₂ (t.FunctionMoved t' δ) (l.foldl (resolveStep m trace) r).1
          (l'.foldl (resolveStep m' trace') r').1 ∧
        (l.foldl (resolveStep m trace) r).2.toList.Matched (t.Refer t' δ)
          (l'.foldl (resolveStep m' trace') r').2.toList := by
    intro l l' hl
    induction hl with
    | nil => exact fun hr => hr
    | cons hf _ ih =>
      intro r r' hr
      have hstep := resolveFunction_moved h htrace hm hf hr.2
      exact ih ⟨List.rel_append hr.1 (.cons hstep.function .nil), hstep.targets⟩
  rw [resolveFunctions_foldl, resolveFunctions_foldl]
  exact hfunctions hm.functions ⟨.nil, nofun, nofun⟩

theorem hybridAnalysis_moved (h : t.Moved t' δ) {ctx ctx' : AnalysisContext}
    (hctx : t.ContextMoved t' δ ctx ctx') {trace trace' : Option (List TraceRecord)}
    (htrace : Option.Rel (t.TraceMoved t' δ) trace trace') :
    t.ContextMoved t' δ (hybridAnalysis t trace ctx) (hybridAnalysis t' trace' ctx') := by
  cases htrace with
  | none => exact hctx
  | @some trace trace' htrace =>
    obtain ⟨hf, ht⟩ := resolveFunctions_moved h htrace hctx.module
    have hresolved : t.ContextMoved t' δ
        { ctx with module :=
          { ctx.module with functions := (resolveFunctions ctx.module trace).1 } }
        { ctx' with module :=
          { ctx'.module with functions := (resolveFunctions ctx'.module trace').1 } } :=
      ⟨{ hctx.module with functions := hf }, hctx.visited⟩
    exact analyzeTargets_moved h hresolved ht

/-! ## Runs -/

/-- The same step about the other image. -/
inductive Target.CallMoved (t t' : Target) (δ : Nat) : AnalysisCall → AnalysisCall → Prop
  | pass (name : String) {trace trace' : Option (List TraceRecord)} :
      Option.Rel (t.TraceMoved t' δ) trace trace' →
      CallMoved t t' δ (.pass name trace) (.pass name trace')
  | reAnalyzeFrom (a : Nat) :
      CallMoved t t' δ (.reAnalyzeFrom a) (.reAnalyzeFrom (moveAddr δ a))

theorem AnalysisCall.moved (h : t.Moved t' δ) {ctx ctx' : AnalysisContext}
    (hctx : t.ContextMoved t' δ ctx ctx') {call call' : AnalysisCall}
    (hcall : t.CallMoved t' δ call call') :
    t.ContextMoved t' δ (call.apply t ctx) (call'.apply t' ctx') := by
  cases hcall with
  | reAnalyzeFrom a => exact RebuilderCall.moved h hctx (.reAnalyzeFrom a)
  | pass name htrace =>
    change t.ContextMoved t' δ (passRun t _ name ctx) (passRun t' _ name ctx')
    unfold passRun
    split
    · exact importAnalysis_moved h hctx
    · exact RebuilderCall.moved h hctx .run
    · exact abstractInterpretation_moved h hctx
    · exact dataFlowAnalysis_moved h hctx
    · exact opaquePredicate_moved hctx
    · exact hybridAnalysis_moved h hctx htrace
    · exact hctx

/-- **The analysis does not depend on where the image is mapped.** -/
theorem analyze_moved (h : t.Moved t' δ) {calls calls' : List AnalysisCall}
    (hcalls : List.Forall₂ (t.CallMoved t' δ) calls calls') :
    t.ContextMoved t' δ (analyze t calls) (analyze t' calls') := by
  have hrun : ∀ {ctx ctx' : AnalysisContext}, t.ContextMoved t' δ ctx ctx' →
      t.ContextMoved t' δ (calls.foldl (fun ctx call => call.apply t ctx) ctx)
        (calls'.foldl (fun ctx call => call.apply t' ctx) ctx') := by
    induction hcalls with
    | nil => exact fun hctx => hctx
    | cons hcall _ ih => exact fun hctx => ih (AnalysisCall.moved h hctx hcall)
  exact hrun ⟨⟨.empty _ _, .nil, .empty _ _, .empty δ, ⟨nofun, nofun⟩⟩, rfl⟩

/-- `call 0x1008; call rax; ret`, then `mov rbx, 0x2000; call rbx; ret`, and a `ret` that only the
trace shows to be called. -/
def movableImage : List UInt8 :=
  [0xE8, 0x03, 0x00, 0x00, 0x00, 0xFF, 0xD0, 0xC3,
    0x48, 0xC7, 0xC3, 0x00, 0x20, 0x00, 0x00, 0xFF, 0xD3, 0xC3, 0xC3]

/-- The image of `movableImage`, mapped at `0x6000` although it prefers `0x1000`. -/
def movedTarget : Target where
  loader :=
    { currentImageBase := 0x6000
      mappedSize := 19
      memory := fun a => sampleMemory movableImage (a - 0x5000)
      executableSections := [(0x6000, 0x6013)]
      binary := ⟨0x1000, 0x1000, none⟩
      base_pos := by decide
      belowTop := by decide }
  disassembler := fragment

/-- The call through `rax` went to the last byte of the image. -/
def calledAt (base : Nat) : List TraceRecord :=
  [{ pc := base + 5, registers := fun reg => if reg = .gpr64 .rax then some (base + 0x12) else none }]

def analysisOf (base : Nat) : List AnalysisCall :=
  passOrder.map (fun name => .pass name (some (calledAt base))) ++ [.reAnalyzeFrom (base + 8)]

theorem movableImage_decoded {i : ExtendedInstruction}
    (h : (sampleTarget movableImage).Decoded i) :
    (i.address, i.instruction) ∈ [(0x1000, callInsn 3 0 0 0), (0x1005, callRegInsn .rax),
      (0x1007, retInsn), (0x1008, movInsn .rbx 0x2000), (0x100a, retInsn),
      (0x100f, callRegInsn .rbx), (0x1011, retInsn), (0x1012, retInsn)] := by
  have hall : ∀ k ∈ List.range 19,
      ∀ insn ∈ ((sampleTarget movableImage).disassemble (0x1000 + k)).map (·.instruction),
      (0x1000 + k, insn) ∈ [(0x1000, callInsn 3 0 0 0), (0x1005, callRegInsn .rax),
        (0x1007, retInsn), (0x1008, movInsn .rbx 0x2000), (0x100a, retInsn),
        (0x100f, callRegInsn .rbx), (0x1011, retInsn), (0x1012, retInsn)] := by
    decide +kernel
  obtain ⟨⟨hlo, hhi⟩, hd⟩ := h
  obtain ⟨k, hk⟩ : ∃ k, i.address = 0x1000 + k := Nat.exists_eq_add_of_le hlo
  rw [hk] at hd hhi ⊢
  exact hall k (List.mem_range.mpr (Nat.lt_of_add_lt_add_left hhi)) _ hd

theorem movedTarget_moved : (sampleTarget movableImage).Moved movedTarget 0x5000 where
  decoder := rfl
  base := by decide +kernel
  size := by decide
  binary := rfl
  entrypoint := by decide
  memory := by
    intro a _ _
    unfold movedTarget sampleTarget
    dsimp only
    rw [Nat.add_sub_cancel]
  sections := by decide
  inside := by decide
  fixed := by
    intro i d hi hd
    have hmem := movableImage_decoded hi
    simp only [List.mem_cons, List.not_mem_nil, or_false, Prod.mk.injEq] at hmem
    cases hd with
    | slot hcat hop =>
      rcases hmem with h | h | h | h | h | h | h | h <;> rw [h.2] at hop <;> cases hop
    | taken hmn hop =>
      rcases hmem with h | h | h | h | h | h | h | h <;> rw [h.2] at hmn <;> cases hmn
    | loaded hmn hop =>
      rcases hmem with h | h | h | h | h | h | h | h <;> rw [h.2] at hmn hop <;> cases hmn
      cases hop
      decide
  relative := by
    intro i d hi hd
    have hmem := movableImage_decoded hi
    simp only [List.mem_cons, List.not_mem_nil, or_false, Prod.mk.injEq] at hmem
    cases hd with
    | target hop =>
      rcases hmem with h | h | h | h | h | h | h | h <;> rw [h.2] at hop <;> cases hop
      unfold ExtendedInstruction.relTarget ExtendedInstruction.next
      rw [h.1, h.2]
      decide
    | slot hcat hop =>
      rcases hmem with h | h | h | h | h | h | h | h <;> rw [h.2] at hop <;> cases hop
    | taken hmn hop =>
      rcases hmem with h | h | h | h | h | h | h | h <;> rw [h.2] at hmn <;> cases hmn

theorem calledAt_moved :
    (sampleTarget movableImage).TraceMoved movedTarget 0x5000 (calledAt 0x1000)
      (calledAt 0x6000) := by
  refine .cons ⟨by decide, fun i i' hrec hpc => ?_⟩ .nil
  have hmem := movableImage_decoded hrec.decoded
  rw [hpc] at hmem
  simp only [List.mem_cons, List.not_mem_nil, or_false, Prod.mk.injEq] at hmem
  have hinsn : i.instruction = callRegInsn .rax := by
    rcases hmem with h | h | h | h | h | h | h | h
    · exact absurd h.1 (by decide)
    · exact h.2
    all_goals exact absurd h.1 (by decide)
  unfold resolveIndirectTarget
  rw [hrec.instruction, hinsn]
  exact .moved (d := 0x1012) (by decide) (by decide) (by decide)

theorem movedTarget_analysis :
    (sampleTarget movableImage).ContextMoved movedTarget 0x5000
      (analyze (sampleTarget movableImage) (analysisOf 0x1000))
      (analyze movedTarget (analysisOf 0x6000)) ∧
    ((analyze movedTarget (analysisOf 0x6000)).module.functions.map fun f =>
      (f.startAddress, f.callSites.toList.map ofLex)) =
        [(0x6000, [(0x6000, 0x6008), (0x6005, 0x6012)]), (0x6008, [(0x600f, 0x2000)]),
          (0x6012, [])] :=
  ⟨analyze_moved movedTarget_moved (List.rel_append
    (List.forall₂_map_left_iff.mpr (List.forall₂_map_right_iff.mpr
      (List.forall₂_same.mpr fun name _ => .pass name (.some calledAt_moved))))
    (.cons (.reAnalyzeFrom 0x1008) .nil)), by decide +kernel⟩

end ReWizard
