import ReWizard.Analysis.Proof.Layout
import ReWizard.Analysis.Proof.Verdicts

/-!
# Dead edges and withdrawn verdicts

`OpaquePredicatePass` takes the dead successor out of the block of a decided branch. When
`HybridAnalysisPass` later withdraws the verdict, nobody puts the successor back:

* `removeDeadEdges_successors`: which blocks keep their successors;
* `disprovedEdges_iff`: every withdrawn branch has its successors if and only if none was taken.
-/

namespace ReWizard

/-! ## What removing dead edges leaves -/

theorem resolveBlock_congr {blocks blocks' : List BasicBlock}
    (h : blocks'.map BasicBlock.range = blocks.map BasicBlock.range) (a : Nat) :
    resolveBlock blocks' a = resolveBlock blocks a := by
  have hranges : ∀ l : List BasicBlock, resolveBlock l a =
      (l.map BasicBlock.range).findIdx? fun r => decide (r.1 ≤ a ∧ a < r.2) := by
    intro l
    unfold resolveBlock
    rw [List.findIdx?_map]
    rfl
  rw [hranges, hranges, h]

/-- One result changes nothing, or it takes a successor from the block that it resolves to. -/
theorem removeDeadEdge_cases (s : RemovalState) (r : Nat × Bool) :
    (removeDeadEdge s r = s ∧ ∀ k b, resolveBlock s.blocks r.1 = some k →
      s.blocks[k]? = some b → b.successors.length < 2) ∨
    ∃ k b dead, resolveBlock s.blocks r.1 = some k ∧ s.blocks[k]? = some b ∧
      2 ≤ b.successors.length ∧ dead ∈ b.successors ∧
      removeDeadEdge s r = ⟨s.blocks.set k (b.removeSuccessor dead), true⟩ := by
  unfold removeDeadEdge
  cases hk : resolveBlock s.blocks r.1 with
  | none => exact .inl ⟨rfl, fun k b h => by cases h⟩
  | some k =>
    dsimp only
    cases hb : s.blocks[k]? with
    | none =>
      refine .inl ⟨rfl, fun j b hj hjb => ?_⟩
      cases hj
      rw [hb] at hjb
      cases hjb
    | some b =>
      dsimp only
      split
      · rename_i branchTarget fallthrough rest hsucc
        refine .inr ⟨k, b, if r.2 then fallthrough else branchTarget, rfl, hb, ?_, ?_, rfl⟩
        · rw [hsucc]
          simp
        · rw [hsucc]
          split <;> simp
      · rename_i hshort
        refine .inl ⟨rfl, fun j c hj hjc => ?_⟩
        cases hj
        rw [hb] at hjc
        cases hjc
        match hsucc : b.successors with
        | [] => simp
        | [_] => simp
        | x :: y :: rest => exact absurd hsucc (hshort x y rest)

/-- **A block loses no successor** when it has fewer than two, or when no result resolves to it. -/
theorem removeDeadEdges_successors {k : Nat} : ∀ (rs : List (Nat × Bool)) (s : RemovalState)
    {b : BasicBlock}, s.blocks[k]? = some b →
      ∃ b', (rs.foldl removeDeadEdge s).blocks[k]? = some b' ∧ b'.successors ⊆ b.successors ∧
        (b.successors ⊆ b'.successors ↔
          b.successors.length < 2 ∨ ∀ r ∈ rs, resolveBlock s.blocks r.1 ≠ some k)
  | [], s, b, hb => by
    refine ⟨b, hb, List.Subset.refl _, fun _ => .inr fun r hr => ?_, fun _ => List.Subset.refl _⟩
    cases hr
  | r :: rest, s, b, hb => by
    have hresolve := resolveBlock_congr (removeDeadEdge_ranges s r)
    rw [List.foldl_cons]
    rcases removeDeadEdge_cases s r with ⟨heq, hshort⟩ | ⟨j, c, dead, hj, hc, hlong, hdead, heq⟩
    · rw [heq]
      obtain ⟨b', hb', hsub, hiff⟩ := removeDeadEdges_successors rest s hb
      refine ⟨b', hb', hsub, hiff.trans ?_⟩
      rw [List.forall_mem_cons]
      by_cases hk : resolveBlock s.blocks r.1 = some k
      · have hlt := hshort k b hk hb
        exact ⟨fun _ => .inl hlt, fun _ => .inl hlt⟩
      · exact or_congr_right ⟨fun h => ⟨hk, h⟩, And.right⟩
    · by_cases hjk : j = k
      · -- the block of the result: what is taken never comes back
        subst hjk
        cases hc.symm.trans hb
        have hset : (removeDeadEdge s r).blocks[j]? = some (b.removeSuccessor dead) := by
          rw [heq]
          exact List.getElem?_set_self (List.getElem?_eq_some_iff.mp hb).1
        obtain ⟨b', hb', hsub, -⟩ := removeDeadEdges_successors rest (removeDeadEdge s r) hset
        refine ⟨b', hb', fun x hx => (List.mem_filter.mp (hsub hx)).1, fun hall => ?_, ?_⟩
        · have hkept := (List.mem_filter.mp (hsub (hall hdead))).2
          simp at hkept
        · rintro (hlt | hnone)
          · omega
          · exact absurd hj (hnone r List.mem_cons_self)
      · have hset : (removeDeadEdge s r).blocks[k]? = some b := by
          rw [heq]
          show (s.blocks.set j _)[k]? = _
          rw [List.getElem?_set_ne hjk, hb]
        obtain ⟨b', hb', hsub, hiff⟩ := removeDeadEdges_successors rest (removeDeadEdge s r) hset
        refine ⟨b', hb', hsub, hiff.trans (or_congr_right ?_)⟩
        rw [List.forall_mem_cons]
        simp only [hresolve]
        refine ⟨fun h => ⟨fun hk => hjk ?_, h⟩, And.right⟩
        rw [hj] at hk
        exact Option.some.inj hk

theorem removeDeadEdges_unmodified : ∀ (rs : List (Nat × Bool)) (s : RemovalState),
    (rs.foldl removeDeadEdge s).modified = false →
      s.modified = false ∧ (rs.foldl removeDeadEdge s).blocks = s.blocks
  | [], _, h => ⟨h, rfl⟩
  | r :: rest, s, h => by
    rw [List.foldl_cons] at h ⊢
    obtain ⟨hm, hblocks⟩ := removeDeadEdges_unmodified rest (removeDeadEdge s r) h
    rcases removeDeadEdge_cases s r with ⟨heq, -⟩ | ⟨j, c, dead, -, -, -, -, heq⟩
    · rw [heq] at hm hblocks ⊢
      exact ⟨hm, hblocks⟩
    · rw [heq] at hm
      cases hm

theorem removeOpaquePredicates_block {f : Function} {k : Nat} {b : BasicBlock}
    (hb : f.basicBlocks[k]? = some b) :
    ∃ b', f.removeOpaquePredicates.basicBlocks[k]? = some b' ∧ b'.successors ⊆ b.successors ∧
      (b.successors ⊆ b'.successors ↔ f.hasOpaquePredicates = false ∨ b.successors.length < 2 ∨
        ∀ r ∈ f.opaquePredicateResults.toList, resolveBlock f.basicBlocks r.1 ≠ some k) := by
  unfold Function.removeOpaquePredicates
  by_cases hflag : f.hasOpaquePredicates = true
  · rw [if_pos hflag]
    obtain ⟨b', hb', hsub, hiff⟩ := removeDeadEdges_successors f.opaquePredicateResults.toList
      ⟨f.basicBlocks, false⟩ hb
    refine ⟨b', hb', hsub, hiff.trans ⟨.inr, fun h => h.resolve_left ?_⟩⟩
    rw [hflag]
    exact Bool.noConfusion
  · rw [if_neg hflag]
    exact ⟨b, hb, List.Subset.refl _, fun _ => .inl (Bool.eq_false_of_not_eq_true hflag),
      fun _ => List.Subset.refl _⟩

theorem removeOpaquePredicates_laidOut {f : Function} (h : f.LaidOut) :
    f.removeOpaquePredicates.LaidOut := by
  have hranges := removeOpaquePredicates_ranges f
  have hstart : f.removeOpaquePredicates.startAddress = f.startAddress := by
    unfold Function.removeOpaquePredicates
    split <;> rfl
  refine ⟨?_, fun b' hb' a ha => ?_, ?_⟩
  · rw [wasSplit_congr hranges, hstart]
    exact h.start
  · obtain ⟨k, hk⟩ := List.getElem?_of_mem hb'
    have hlen : k < f.basicBlocks.length := by
      have hlt := (List.getElem?_eq_some_iff.mp hk).1
      have hsame := congrArg List.length hranges
      rw [List.length_map, List.length_map] at hsame
      omega
    obtain ⟨b, hb⟩ : ∃ b, f.basicBlocks[k]? = some b := ⟨_, List.getElem?_eq_getElem hlen⟩
    obtain ⟨b'', hb'', hsub, -⟩ := removeOpaquePredicates_block hb
    cases hk.symm.trans hb''
    rw [wasSplit_congr hranges]
    exact h.successors b (List.mem_of_getElem? hb) a (hsub ha)
  · unfold Function.removeOpaquePredicates
    split
    · dsimp only
      split
      · rfl
      · rename_i hmodified
        rw [(removeDeadEdges_unmodified _ _ (Bool.eq_false_of_not_eq_true hmodified)).2]
        exact h.graph
    · exact h.graph

/-! ## One function through the three passes -/

theorem mem_record_addresses {a : Nat} : ∀ {l : List (Nat × Bool)} {f : Function},
    a ∈ (l.foldl Function.record f).opaquePredicateAddresses ↔
      a ∈ f.opaquePredicateAddresses ∨ a ∈ l.map Prod.fst := by
  intro l
  induction l with
  | nil => simp
  | cons v rest ih =>
    intro f
    have hrecord : a ∈ (f.record v).opaquePredicateAddresses ↔
        a = v.1 ∨ a ∈ f.opaquePredicateAddresses := OrdSet.mem_insert
    rw [List.foldl_cons, ih, hrecord, List.map_cons, List.mem_cons, or_comm (a := a = v.1), or_assoc]

/-- The function as the interval analysis and the removal of dead edges leave it. -/
def Function.pruned (m : Module) (f : Function) : Function :=
  (intervalFunction m f).removeOpaquePredicates

section

variable {m : Module} {f : Function}

theorem intervalFunction_decides (h : f.records = .none) (a : Nat) :
    a ∈ (intervalFunction m f).opaquePredicateAddresses ↔ f.Decides m a := by
  have hempty : a ∉ f.opaquePredicateAddresses := by
    rw [show f.opaquePredicateAddresses = f.records.opaquePredicateAddresses from rfl, h]
    exact OrdSet.not_mem_empty a
  rw [intervalFunction_eq, mem_record_addresses]
  exact ⟨fun h => h.resolve_left hempty, .inr⟩

theorem pruned_records (m : Module) (f : Function) :
    (f.pruned m).records = (intervalFunction m f).records := by
  unfold Function.pruned Function.removeOpaquePredicates
  split <;> rfl

theorem pruned_marked (m : Module) (f : Function) :
    (f.pruned m).markedForHybridAnalysis = f.markedForHybridAnalysis := by
  have hmark : (intervalFunction m f).markedForHybridAnalysis = f.markedForHybridAnalysis := by
    rw [intervalFunction_eq]
    obtain ⟨r, hr⟩ := foldl_record_rest (f.verdicts m) f
    rw [hr]
  unfold Function.pruned Function.removeOpaquePredicates
  split <;> exact hmark

theorem pruned_laidOut (h : f.LaidOut) : (f.pruned m).LaidOut := by
  refine removeOpaquePredicates_laidOut ?_
  obtain ⟨r, hr⟩ := foldl_record_rest (f.verdicts m) f
  rw [intervalFunction_eq, hr]
  exact ⟨h.start, h.successors, h.graph⟩

/-- A block loses a successor when it has two or more and is the first block around a branch that
the interval analysis decides. -/
theorem pruned_block (h : f.records = .none) {k : Nat} {b : BasicBlock}
    (hb : f.basicBlocks[k]? = some b) :
    ∃ b', (f.pruned m).basicBlocks[k]? = some b' ∧
      (b.successors ⊆ b'.successors ↔ b.successors.length < 2 ∨
        ∀ c, f.Decides m c → resolveBlock f.basicBlocks c ≠ some k) := by
  have hblocks := intervalFunction_basicBlocks m f
  have hagree := intervalFunction_agree m (h ▸ VerdictRecords.none_agree : f.records.Agree)
  have hb₁ : (intervalFunction m f).basicBlocks[k]? = some b := hblocks ▸ hb
  obtain ⟨b', hb', -, hiff⟩ := removeOpaquePredicates_block hb₁
  have hresults : (∀ r ∈ (intervalFunction m f).opaquePredicateResults.toList,
      resolveBlock (intervalFunction m f).basicBlocks r.1 ≠ some k) ↔
      ∀ c, f.Decides m c → resolveBlock f.basicBlocks c ≠ some k := by
    rw [hblocks]
    constructor
    · intro hall c hc
      have hkey := (hagree.keys c).mpr ((intervalFunction_decides h c).mpr hc)
      obtain ⟨r, hr, rfl⟩ := List.mem_map.mp hkey
      exact hall r hr
    · intro hall r hr
      exact hall r.1 ((intervalFunction_decides h r.1).mp ((hagree.keys r.1).mp
        (List.mem_map_of_mem hr)))
  refine ⟨b', hb', hiff.trans ?_⟩
  rw [hresults]
  constructor
  · rintro (hflag | hrest)
    · refine .inr fun c hc => ?_
      have hset := hagree.flag.mpr ⟨c, (intervalFunction_decides h c).mpr hc⟩
      rw [show (intervalFunction m f).records.hasOpaquePredicates = false from hflag] at hset
      cases hset
    · exact hrest
  · exact .inr

end

/-! ## Withdrawn branches -/

/-- The instructions of the block have a conditional branch at the address. -/
def Module.BranchIn (m : Module) (b : BasicBlock) (a : Nat) : Prop :=
  ∃ i ∈ m.blockInsns b, i.address = a ∧ i.instruction.category = .condBr

/-- Every block with the branch has in `f'` every successor that it had in `f`. So has the graph,
when it reaches the block. -/
def EdgesBack (m : Module) (f f' : Function) (a : Nat) : Prop :=
  ∀ k b, f.basicBlocks[k]? = some b → m.BranchIn b a → ∀ s ∈ b.successors,
    ∃ b', f'.basicBlocks[k]? = some b' ∧ s ∈ b'.successors ∧
      (ReachedBlock f'.basicBlocks f'.startAddress k →
        ∀ j, resolveBlock f'.basicBlocks s = some j → (k, j) ∈ f'.cfgGraph.edges)

/-- After the three passes, every branch whose verdict was recorded and is withdrawn has its edges
back. -/
def DisprovedEdgesBack (t : Target) (trace : List TraceRecord) (ctx : AnalysisContext) : Prop :=
  ∀ (n : Nat) (f f₁ f' : Function), ctx.module.functions[n]? = some f →
    (abstractInterpretation ctx).module.functions[n]? = some f₁ →
    (hybridAnalysis t (some trace) (opaquePredicate (abstractInterpretation ctx))).module.functions[n]?
      = some f' →
    ∀ a ∈ f₁.opaquePredicateAddresses, a ∉ f'.opaquePredicateAddresses →
      EdgesBack ctx.module f f' a

/-- No block with the branch loses a successor. -/
def KeepsSuccessors (m : Module) (f : Function) (a : Nat) : Prop :=
  ∀ k b, f.basicBlocks[k]? = some b → m.BranchIn b a → b.successors.length < 2 ∨
    ∀ c, f.Decides m c → resolveBlock f.basicBlocks c ≠ some k

/-- A marked function at the end: blocks and graph are as removing dead edges left them. -/
theorem resolved_pruned {m n : Module} {f : Function} (h : f.LaidOut) (trace : List TraceRecord)
    (hmark : f.markedForHybridAnalysis = true) :
    ((f.pruned m).resolved n trace).basicBlocks = (f.pruned m).basicBlocks ∧
      ((f.pruned m).resolved n trace).startAddress = (f.pruned m).startAddress ∧
      ((f.pruned m).resolved n trace).cfgGraph = (f.pruned m).cfgGraph := by
  have hkeep : ∀ g : Function, (g.processOpaquePredicates trace).basicBlocks = g.basicBlocks ∧
      (g.processOpaquePredicates trace).startAddress = g.startAddress ∧
      (g.processOpaquePredicates trace).cfgGraph = g.cfgGraph := by
    intro g
    unfold Function.processOpaquePredicates
    split <;> exact ⟨rfl, rfl, rfl⟩
  have hwalk := getIndirectInstructions_laidOut (pruned_laidOut (m := m) h) n
  rcases resolveFunction_eq n trace (f.pruned m) with ⟨hunmarked, -⟩ | ⟨-, sites, heq⟩
  · rw [pruned_marked, hmark] at hunmarked
    cases hunmarked
  · unfold Function.resolved
    rw [heq]
    obtain ⟨h1, h2, h3⟩ := hkeep { (getIndirectInstructions n (f.pruned m)).2 with
      callSites := sites }
    refine ⟨h1.trans ?_, h2.trans ?_, h3.trans ?_⟩ <;>
    · dsimp only
      rw [hwalk]

theorem edgesBack_iff {m n : Module} {f : Function} (hlaid : f.LaidOut) (hnone : f.records = .none)
    (trace : List TraceRecord) (hmark : f.markedForHybridAnalysis = true) (a : Nat) :
    EdgesBack m f ((f.pruned m).resolved n trace) a ↔ KeepsSuccessors m f a := by
  obtain ⟨hblocks, hstart, hgraph⟩ := resolved_pruned (m := m) (n := n) hlaid trace hmark
  unfold EdgesBack KeepsSuccessors
  rw [hblocks, hstart, hgraph, (pruned_laidOut (m := m) hlaid).graph]
  constructor
  · intro h k b hb hin
    obtain ⟨b', hb', hiff⟩ := pruned_block (m := m) hnone hb
    refine hiff.mp fun s hs => ?_
    obtain ⟨c, hc, hsc, -⟩ := h k b hb hin s hs
    cases hb'.symm.trans hc
    exact hsc
  · intro h k b hb hin s hs
    obtain ⟨b', hb', hiff⟩ := pruned_block (m := m) hnone hb
    have hs' := hiff.mpr (h k b hb hin) hs
    refine ⟨b', hb', hs', fun hreach j hj => buildCFG_complete hreach ?_⟩
    unfold cfgSuccs
    rw [hb']
    exact List.mem_filterMap.mpr ⟨s, hs', hj⟩

/-- A recorded verdict is withdrawn when the function is marked and the trace has the branch more
than once. -/
theorem withdrawn_iff {m n : Module} {f : Function} (hnone : f.records = .none)
    (trace : List TraceRecord) (a : Nat) :
    (a ∈ (intervalFunction m f).opaquePredicateAddresses ∧
        a ∉ ((f.pruned m).resolved n trace).opaquePredicateAddresses) ↔
      f.markedForHybridAnalysis = true ∧ f.Decides m a ∧ 1 < (getRecordsForPC trace a).length := by
  have hagree : (intervalFunction m f).records.Agree :=
    intervalFunction_agree m (hnone ▸ VerdictRecords.none_agree)
  have hrecords := resolved_records n trace (f.pruned m)
  rw [pruned_records, pruned_marked] at hrecords
  have haddr : ((f.pruned m).resolved n trace).opaquePredicateAddresses =
      (if f.markedForHybridAnalysis = true then (intervalFunction m f).records.withdraw trace
      else (intervalFunction m f).records).opaquePredicateAddresses :=
    congrArg VerdictRecords.opaquePredicateAddresses hrecords
  rw [haddr, ← intervalFunction_decides hnone]
  by_cases hmark : f.markedForHybridAnalysis = true
  · rw [if_pos hmark, VerdictRecords.mem_withdraw hagree]
    constructor
    · rintro ⟨ha, hgone⟩
      exact ⟨hmark, ha, by_contra fun hcount => hgone ⟨ha, hcount⟩⟩
    · rintro ⟨-, ha, hcount⟩
      exact ⟨ha, fun hkept => hkept.2 hcount⟩
  · rw [if_neg hmark]
    exact ⟨fun h => absurd h.1 h.2, fun h => absurd h.1 hmark⟩

/-- The functions that calls of the rebuilder leave. -/
theorem rebuilt_functions (t : Target) (symbolTable : SymbolTable) (calls : List RebuilderCall) :
    ∀ f ∈ (calls.foldl (fun ctx call => call.apply t ctx)
      (freshContext symbolTable)).module.functions, f.LaidOut ∧ f.records = .none := by
  refine List.foldlRecOn (motive := fun ctx : AnalysisContext =>
    ∀ f ∈ ctx.module.functions, f.LaidOut ∧ f.records = .none) calls _
    (fun f hf => by cases hf) fun ctx hctx call _ f hf => ?_
  obtain ⟨new, hnew, hall, -⟩ := RebuilderCall.takesUp_functions t call ctx
  rw [hnew] at hf
  rcases List.mem_append.mp hf with hf | hf
  · exact hctx f hf
  · obtain ⟨mark, s, pc, rest, -, rfl⟩ := hall f hf
    exact ⟨discovered_laidOut t mark pc _, discovered_records t mark pc _⟩

/-- **Disproved branches and their edges**: after any calls of the rebuilder and the three passes,
every withdrawn branch has its edges back if and only if no block with a branch of a marked
function that the analysis decides and the trace has more than once was cut. -/
theorem disprovedEdges_iff (t : Target) (symbolTable : SymbolTable) (calls : List RebuilderCall)
    (trace : List TraceRecord) :
    let ctx := calls.foldl (fun ctx call => call.apply t ctx) (freshContext symbolTable)
    DisprovedEdgesBack t trace ctx ↔
      ∀ f ∈ ctx.module.functions, f.markedForHybridAnalysis = true → ∀ a, f.Decides ctx.module a →
        1 < (getRecordsForPC trace a).length → KeepsSuccessors ctx.module f a := by
  intro ctx
  have hfun := rebuilt_functions t symbolTable calls
  -- the function at a position through the passes
  let ctx₂ := opaquePredicate (abstractInterpretation ctx)
  have hpruned : ctx₂.module.functions = ctx.module.functions.map (Function.pruned ctx.module) :=
    List.map_map
  obtain ⟨new, hnew, -⟩ := hybridAnalysis_functions t trace ctx₂
  have hfirst : ∀ {n : Nat} {f : Function}, ctx.module.functions[n]? = some f →
      (abstractInterpretation ctx).module.functions[n]? = some (intervalFunction ctx.module f) := by
    intro n f hf
    show (ctx.module.functions.map _)[n]? = _
    rw [List.getElem?_map, hf]
    rfl
  have hlast : ∀ {n : Nat} {f : Function}, ctx.module.functions[n]? = some f →
      (hybridAnalysis t (some trace) ctx₂).module.functions[n]? =
        some ((f.pruned ctx.module).resolved ctx₂.module trace) := by
    intro n f hf
    have hlt := (List.getElem?_eq_some_iff.mp hf).1
    rw [hnew, hpruned, List.getElem?_append_left (by simpa using hlt), List.getElem?_map,
      List.getElem?_map, hf]
    rfl
  constructor
  · intro h f hf hmark a ha hcount
    obtain ⟨n, hn⟩ := List.getElem?_of_mem hf
    obtain ⟨hlaid, hnone⟩ := hfun f hf
    obtain ⟨h1, h2⟩ := (withdrawn_iff (n := ctx₂.module) hnone trace a).mpr ⟨hmark, ha, hcount⟩
    exact (edgesBack_iff hlaid hnone trace hmark a).mp
      (h n f _ _ hn (hfirst hn) (hlast hn) a h1 h2)
  · intro h n f f₁ f' hn hn₁ hn' a h1 h2
    have hf := List.mem_of_getElem? hn
    obtain ⟨hlaid, hnone⟩ := hfun f hf
    cases (hfirst hn).symm.trans hn₁
    cases (hlast hn).symm.trans hn'
    obtain ⟨hmark, ha, hcount⟩ := (withdrawn_iff hnone trace a).mp ⟨h1, h2⟩
    exact (edgesBack_iff hlaid hnone trace hmark a).mpr (h f hf hmark a ha hcount)

/-! ## A branch that is taken both ways -/

/-- `testedJump` after the rebuilder. -/
def testedRebuilt : AnalysisContext := rebuildControlFlow testedJump (freshContext {})

/-- The branch of `testedJump` does not get its fall-through back. -/
theorem testedJump_loses_edge : ¬ DisprovedEdgesBack testedJump branchTwice testedRebuilt := by
  intro h
  have hfound : ∃ f₁ ∈ (abstractInterpretation testedRebuilt).module.functions[0]?,
      0x100a ∈ f₁.opaquePredicateAddresses := by decide +kernel
  have hblock : ∃ f ∈ testedRebuilt.module.functions[0]?, ∃ b ∈ f.basicBlocks[0]?,
      0x100c ∈ b.successors ∧ ∃ i ∈ testedRebuilt.module.blockInsns b,
        i.address = 0x100a ∧ i.instruction.category = .condBr := by decide +kernel
  have hlost : ∃ f' ∈ (hybridAnalysis testedJump (some branchTwice)
      (opaquePredicate (abstractInterpretation testedRebuilt))).module.functions[0]?,
      0x100a ∉ f'.opaquePredicateAddresses ∧
        ∀ b' ∈ f'.basicBlocks[0]?, 0x100c ∉ b'.successors := by decide +kernel
  obtain ⟨f₁, hf₁, h1⟩ := hfound
  obtain ⟨f, hf, b, hb, hs, hin⟩ := hblock
  obtain ⟨f', hf', h2, hgone⟩ := hlost
  obtain ⟨b', hb', hs', -⟩ := h 0 f f₁ f' (Option.mem_def.mp hf) (Option.mem_def.mp hf₁)
    (Option.mem_def.mp hf') 0x100a h1 h2 0 b hb hin 0x100c hs
  exact hgone b' hb' hs'

end ReWizard
