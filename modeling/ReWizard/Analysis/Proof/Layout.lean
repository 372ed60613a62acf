import ReWizard.Analysis.HybridAnalysis
import ReWizard.Analysis.Proof.RebuilderCalls
import ReWizard.Analysis.Proof.SimilarPasses
import ReWizard.Analysis.Proof.Termination

/-!
# Functions as the rebuilder lays them out

`NormalizeBasicBlocks` ends when no lookup of a block start or a successor splits a block any more,
and rebuilds the graph then. So a function of the rebuilder is `LaidOut`:

* `normalizeBlocks_lookups`: lookups in normalised blocks find the beginning of a block;
* `buildCFG_complete`: the graph has every edge out of a block that is reached from the entry;
* `discovered_laidOut`, `getIndirectInstructions_laidOut`: hybrid analysis walks over the blocks of
  such a function without splitting one.
-/

namespace ReWizard

/-! ## Lookups -/

/-- A lookup depends on where the blocks are. -/
theorem findForSplit_ranges (blocks : List BasicBlock) (a : Nat) :
    findForSplit blocks a = (blocks.map BasicBlock.range).findIdx? fun r =>
      decide (a = r.1 ∨ (r.1 < a ∧ a < r.2)) := by
  unfold findForSplit
  rw [List.findIdx?_map]
  rfl

theorem wasSplit_ranges (blocks : List BasicBlock) (a : Nat) :
    (getBasicBlockForAddress blocks a).wasSplit =
      match findForSplit blocks a with
      | none => false
      | some k => match (blocks.map BasicBlock.range)[k]? with
        | none => false
        | some r => decide (a ≠ r.1) := by
  unfold getBasicBlockForAddress
  cases findForSplit blocks a with
  | none => rfl
  | some k =>
    dsimp only
    rw [List.getElem?_map]
    cases blocks[k]? with
    | none => rfl
    | some b =>
      dsimp only
      by_cases h : a = b.startAddress
      · rw [if_pos h]
        simp [BasicBlock.range, h]
      · rw [if_neg h]
        simp [BasicBlock.range, h]

theorem wasSplit_congr {blocks blocks' : List BasicBlock}
    (h : blocks'.map BasicBlock.range = blocks.map BasicBlock.range) (a : Nat) :
    (getBasicBlockForAddress blocks' a).wasSplit = (getBasicBlockForAddress blocks a).wasSplit := by
  rw [wasSplit_ranges, wasSplit_ranges, findForSplit_ranges, findForSplit_ranges, h]

/-- A lookup that does not split a block leaves the blocks alone. -/
theorem lookup_blocks {blocks : List BasicBlock} {a : Nat}
    (h : (getBasicBlockForAddress blocks a).wasSplit = false) :
    (getBasicBlockForAddress blocks a).blocks = blocks := by
  rcases getBasicBlockForAddress_cases blocks a with ⟨heq, -⟩ | ⟨hsplit, -⟩
  · exact heq
  · rw [h] at hsplit
    cases hsplit

/-! ## Normalised blocks -/

theorem splitAtEntry_none {blocks : List BasicBlock} {b : BasicBlock} :
    ∀ {l : List Nat}, splitAtEntry blocks b l = none →
      ∀ a ∈ l, b.startAddress < a → a < b.endAddress →
        (getBasicBlockForAddress blocks a).wasSplit = false
  | [], _, a, ha, _, _ => by cases ha
  | entry :: rest, h, a, ha, h1, h2 => by
    unfold splitAtEntry at h
    rcases List.mem_cons.mp ha with rfl | ha
    · rw [if_pos ⟨h1, h2⟩] at h
      dsimp only at h
      split at h
      · cases h
      · rename_i hsplit
        exact Bool.eq_false_of_not_eq_true hsplit
    · refine splitAtEntry_none (l := rest) ?_ a ha h1 h2
      split at h
      · dsimp only at h
        split at h
        · cases h
        · exact h
      · exact h

theorem modify_ranges (blocks : List BasicBlock) (k start : Nat) :
    (blocks.modify k fun b => b.addPredecessor start).map BasicBlock.range =
      blocks.map BasicBlock.range :=
  map_modify_of_eq (g := (·.addPredecessor start)) (fun _ => rfl) blocks k

/-- Linking that splits no block leaves the blocks where they are. -/
theorem linkSuccessors_ranges (start : Nat) : ∀ {l : List Nat} {blocks blocks' : List BasicBlock},
    linkSuccessors start blocks l = (blocks', false) →
      blocks'.map BasicBlock.range = blocks.map BasicBlock.range
  | [], blocks, blocks', h => by
    cases h
    rfl
  | a :: rest, blocks, blocks', h => by
    unfold linkSuccessors at h
    dsimp only at h
    split at h
    · exact linkSuccessors_ranges start h
    · split at h
      · cases h
      · rename_i hsplit
        rw [linkSuccessors_ranges start h, modify_ranges,
          lookup_blocks (Bool.eq_false_of_not_eq_true hsplit)]

/-- In the blocks up to the position of the loop, no entry is looked up with a split. -/
def Scanned (entries : List Nat) (s : NormState) : Prop :=
  ∀ j < s.index, ∀ b, s.blocks[j]? = some b → ∀ a ∈ entries, b.startAddress < a →
    a < b.endAddress → (getBasicBlockForAddress s.blocks a).wasSplit = false

theorem Scanned.step {entries : List Nat} {s s' : NormState} (h : Scanned entries s)
    (hn : normalizeStep entries s = .next s') : Scanned entries s' := by
  unfold normalizeStep at hn
  split at hn
  · cases hn
  · rename_i b hb
    split at hn
    · cases hn
      exact fun j hj => absurd hj (Nat.not_lt_zero j)
    · rename_i hentries
      split at hn
      · cases hn
        exact fun j hj => absurd hj (Nat.not_lt_zero j)
      · rename_i blocks hlink
        cases hn
        have hranges := linkSuccessors_ranges b.startAddress hlink
        intro j hj c hc a ha h1 h2
        rw [wasSplit_congr hranges]
        have hrange : (s.blocks.map BasicBlock.range)[j]? = some c.range := by
          rw [← hranges, List.getElem?_map, hc]
          rfl
        rw [List.getElem?_map, Option.map_eq_some_iff] at hrange
        obtain ⟨d, hd, hdc⟩ := hrange
        have hstart : d.startAddress = c.startAddress := congrArg Prod.fst hdc
        have hstop : d.endAddress = c.endAddress := congrArg Prod.snd hdc
        rcases Nat.lt_succ_iff_lt_or_eq.mp hj with hj | rfl
        · exact h j hj d hd a ha (hstart ▸ h1) (hstop ▸ h2)
        · rw [hb] at hd
          cases hd
          exact splitAtEntry_none hentries a ha (hstart ▸ h1) (hstop ▸ h2)

/-- **No lookup in normalised blocks splits one.** -/
theorem normalizeBlocks_lookups {blocks : List BasicBlock} {a : Nat}
    (ha : a ∈ (collectEntries blocks).toList) :
    (getBasicBlockForAddress (normalizeBlocks blocks) a).wasSplit = false := by
  have hs : SuccessorsIn (collectEntries blocks).toList blocks := fun b hb a ha =>
    mem_collectEntries.mpr ⟨b, hb, .inr ha⟩
  have hnd : (collectEntries blocks).toList.Nodup := (collectEntries blocks).sorted.imp ne_of_lt
  obtain ⟨r, hr, hd⟩ := (normalize_exits hnd hs).inv (I := Scanned (collectEntries blocks).toList)
    (fun j hj => absurd hj (Nat.not_lt_zero j)) fun s s' hs' hn => hs'.step hn
  obtain ⟨heq, hend⟩ := normalizeStep_done hd
  have hblocks : normalizeBlocks blocks = r.blocks := by
    unfold normalizeBlocks
    dsimp only
    rw [heq]
  rw [hblocks]
  rcases getBasicBlockForAddress_cases r.blocks a with ⟨-, hfalse⟩ | ⟨htrue, -, k, c, hin, -⟩
  · exact hfalse
  · -- the block with the address inside was scanned
    have hk : k < r.index := by
      have hlen := List.getElem?_eq_none_iff.mp hend
      have := (List.getElem?_eq_some_iff.mp hin.block).1
      omega
    exact hr k hk c hin.block a ha hin.after hin.before

/-- The entries of normalised blocks are those from before. -/
theorem normalizeBlocks_successors {blocks : List BasicBlock} {b : BasicBlock} {a : Nat}
    (hb : b ∈ normalizeBlocks blocks) (ha : a ∈ b.successors) :
    a ∈ (collectEntries blocks).toList := by
  have hkept : Kept (SuccessorsIn (collectEntries blocks).toList) (collectEntries blocks).toList :=
    ⟨fun _ _ _ _ h hin hentry => h.split hin hentry, fun _ k start h => h.link k start⟩
  exact normalizeBlocks_inv hkept
    (fun b hb a ha => mem_collectEntries.mpr ⟨b, hb, .inr ha⟩) b hb a ha

/-! ## The graph -/

/-- Every expanded block has its edges, and what it leads to is expanded or in the queue. -/
structure CFGWalk.Closed (blocks : List BasicBlock) (entry : Nat) (w : CFGWalk) : Prop where
  entry : entry ∈ w.visited ∨ entry ∈ w.toVisit
  edges : ∀ u ∈ w.visited, ∀ v ∈ cfgSuccs blocks u, (u, v) ∈ w.edges
  next : ∀ u ∈ w.visited, ∀ v ∈ cfgSuccs blocks u, v ∈ w.visited ∨ v ∈ w.toVisit

theorem CFGWalk.Closed.step {blocks : List BasicBlock} {entry : Nat} {w w' : CFGWalk}
    (h : w.Closed blocks entry) (hn : cfgStep blocks w = .next w') : w'.Closed blocks entry := by
  cases hw : w.toVisit with
  | nil =>
    unfold cfgStep at hn
    rw [hw] at hn
    cases hn
  | cons u rest =>
    rw [cfgStep_cons hw] at hn
    cases hn
    have hseen : ∀ v, v ∈ w.visited ∨ v ∈ w.toVisit → v ∈ u :: w.visited ∨
        v ∈ rest ++ (cfgSuccs blocks u).filter fun v => decide (v ∉ w.visited) := by
      intro v hv
      rw [hw, List.mem_cons] at hv
      rcases hv with hv | rfl | hv
      · exact .inl (List.mem_cons_of_mem _ hv)
      · exact .inl List.mem_cons_self
      · exact .inr (List.mem_append_left _ hv)
    refine ⟨hseen entry h.entry, fun x hx v hv => ?_, fun x hx v hv => ?_⟩
    · rcases List.mem_cons.mp hx with rfl | hx
      · exact List.mem_append_right _ (List.mem_map_of_mem hv)
      · exact List.mem_append_left _ (h.edges x hx v hv)
    · rcases List.mem_cons.mp hx with rfl | hx
      · by_cases hvis : v ∈ w.visited
        · exact .inl (List.mem_cons_of_mem _ hvis)
        · exact .inr (List.mem_append_right _
            (List.mem_filter.mpr ⟨hv, decide_eq_true hvis⟩))
      · exact hseen v (h.next x hx v hv)

/-- The block `k` is reached from the block of the start address. -/
def ReachedBlock (blocks : List BasicBlock) (start k : Nat) : Prop :=
  ∃ entry, resolveBlock blocks start = some entry ∧
    Relation.ReflTransGen (fun u v => v ∈ cfgSuccs blocks u) entry k

/-- **The graph is complete** on the blocks that are reached. -/
theorem buildCFG_complete {blocks : List BasicBlock} {start k j : Nat}
    (hk : ReachedBlock blocks start k) (hj : j ∈ cfgSuccs blocks k) :
    (k, j) ∈ (buildCFG start blocks).edges := by
  obtain ⟨entry, hentry, hpath⟩ := hk
  have hlt : entry < blocks.length := (List.findIdx?_eq_some_iff_getElem.mp hentry).1
  obtain ⟨w, hw, hd⟩ := (cfg_exits blocks hlt).inv (I := CFGWalk.Closed blocks entry)
    ⟨.inr List.mem_cons_self, fun _ h => absurd h List.not_mem_nil,
      fun _ h => absurd h List.not_mem_nil⟩ fun _ _ h hn => h.step hn
  have hnil : w.toVisit = [] ∧ Loop.exec (cfgStep blocks) (cfgFuel blocks) ⟨[], [], [entry]⟩ = w := by
    cases hq : w.toVisit with
    | nil =>
      unfold cfgStep at hd
      rw [hq] at hd
      cases hd
      exact ⟨rfl, rfl⟩
    | cons u rest =>
      rw [cfgStep_cons hq] at hd
      cases hd
  have hvisited : k ∈ w.visited := by
    clear hj
    induction hpath with
    | refl => exact hw.entry.resolve_right (by rw [hnil.1]; exact List.not_mem_nil)
    | tail _ hstep ih =>
      exact (hw.next _ ih _ hstep).resolve_right (by rw [hnil.1]; exact List.not_mem_nil)
  unfold buildCFG
  rw [hentry]
  dsimp only
  rw [hnil.2]
  exact hw.edges k hvisited j hj

/-! ## Functions -/

/-- No lookup of the start or of a successor splits a block, and the graph is that of the blocks. -/
structure Function.LaidOut (f : Function) : Prop where
  start : (getBasicBlockForAddress f.basicBlocks f.startAddress).wasSplit = false
  successors : ∀ b ∈ f.basicBlocks, ∀ a ∈ b.successors,
    (getBasicBlockForAddress f.basicBlocks a).wasSplit = false
  graph : f.cfgGraph = buildCFG f.startAddress f.basicBlocks

/-- Hybrid analysis only splits a block when a lookup of the start or of a successor does. -/
theorem getIndirectInstructions_laidOut {f : Function} (h : f.LaidOut) (m : Module) :
    (getIndirectInstructions m f).2 = f := by
  have hqueue : ∀ {w : IndirectWalk} {a : Nat}, w.blocks = f.basicBlocks →
      (getBasicBlockForAddress f.basicBlocks a).wasSplit = false →
      (queueSuccessor w a).blocks = f.basicBlocks := by
    intro w a hw ha
    have hblocks := lookup_blocks ha
    unfold queueSuccessor
    rw [hw]
    dsimp only
    rw [hblocks]
    split
    · rfl
    · split
      · rfl
      · split <;> rfl
  have hstep : ∀ w w', w.blocks = f.basicBlocks →
      (indirectStep m w = .next w' ∨ indirectStep m w = .done w') →
      w'.blocks = f.basicBlocks := by
    intro w w' hw hn
    unfold indirectStep at hn
    split at hn
    · rcases hn with hn | hn <;> cases hn
      exact hw
    · dsimp only at hn
      split at hn
      · rcases hn with hn | hn <;> cases hn
        exact hw
      · rename_i b hb
        split at hn
        · rcases hn with hn | hn <;> cases hn
          exact hw
        · rcases hn with hn | hn <;> cases hn
          have hb' : b ∈ f.basicBlocks := hw ▸ List.mem_of_getElem? hb
          exact List.foldlRecOn (motive := fun w : IndirectWalk => w.blocks = f.basicBlocks) _ _ hw
            fun w hw a ha => hqueue hw (h.successors b hb' a ha)
  have hstart := lookup_blocks h.start
  unfold getIndirectInstructions
  dsimp only
  split
  · rfl
  · rw [Loop.exec_inv (I := fun w : IndirectWalk => w.blocks = f.basicBlocks) hstart
      (fun w w' hw hn => hstep w w' hw (.inl hn)) fun w w' hw hn => hstep w w' hw (.inr hn)]

/-! ## Functions of the rebuilder -/

/-- Nothing of the function is decoded yet and its start comes next, or its first block, which may
still be open, begins at the start. -/
def FirstBlock (start : Nat) (s : AnalyzeState) : Prop :=
  (s.function.basicBlocks = [] ∧ s.bb = none ∧ s.pc = start ∧ s.work = []) ∨
  (s.function.basicBlocks = [] ∧ ∃ b, s.bb = some b ∧ b.startAddress = start) ∨
  ∃ b rest, s.function.basicBlocks = b :: rest ∧ b.startAddress = start

theorem FirstBlock.addBasicBlock {start : Nat} {s : AnalyzeState} (h : FirstBlock start s) :
    (s.addBasicBlock.function.basicBlocks = [] ∧ s.addBasicBlock.work = []) ∨
      ∃ b rest, s.addBasicBlock.function.basicBlocks = b :: rest ∧ b.startAddress = start := by
  unfold AnalyzeState.addBasicBlock
  rcases h with ⟨hnil, hb, -, hwork⟩ | ⟨hnil, b, hb, hstart⟩ | ⟨b, rest, hblocks, hstart⟩
  · rw [hb]
    exact .inl ⟨hnil, hwork⟩
  · rw [hb]
    exact .inr ⟨b, [], congrArg (· ++ [b]) hnil, hstart⟩
  · cases s.bb with
    | none => exact .inr ⟨b, rest, hblocks, hstart⟩
    | some c => exact .inr ⟨b, rest ++ [c], congrArg (· ++ [c]) hblocks, hstart⟩

/-- The first block stays the first one. -/
theorem FirstBlock.of_head {start : Nat} {s s' : AnalyzeState} {b : BasicBlock}
    {rest : List BasicBlock} (hblocks : s.function.basicBlocks = b :: rest)
    (hstart : b.startAddress = start) (h : s.function.basicBlocks <+: s'.function.basicBlocks) :
    FirstBlock start s' := by
  obtain ⟨more, hmore⟩ := h
  exact .inr (.inr ⟨b, rest ++ more, by rw [← hmore, hblocks]; rfl, hstart⟩)

theorem FirstBlock.step {t : Target} {start : Nat} {s s' : AnalyzeState} (h : FirstBlock start s)
    (hn : decodeStep t s = .next s' ∨ decodeStep t s = .done s') : FirstBlock start s' := by
  have hblocks := decodeStep_blocks hn
  by_cases hnil : s.function.basicBlocks = []
  · -- no block yet: the block of the instruction at `pc` begins at the start
    have hcur : s.currentBlock.startAddress = start := by
      unfold AnalyzeState.currentBlock
      rcases h with ⟨-, hb, hpc, -⟩ | ⟨-, b, hb, hstart⟩ | ⟨b, rest, hcons, -⟩
      · rw [hb]
        exact hpc
      · rw [hb]
        exact hstart
      · rw [hnil] at hcons
        cases hcons
    rcases decodeStep_result hn with ⟨rfl, -⟩ | ⟨-, b, last, hb, rfl⟩ | ⟨-, -, insn, -, -, hblock⟩
    · exact h
    · refine .inr (.inl ⟨hnil, _, rfl, ?_⟩)
      unfold AnalyzeState.currentBlock at hcur
      rw [hb] at hcur
      exact hcur
    · rcases hblock with ⟨hsame, b, hb, hbs⟩ | ⟨succs, -, b, hb, hstart, -⟩
      · exact .inr (.inl ⟨hsame.trans hnil, b, hb, hbs.start.trans hcur⟩)
      · exact .inr (.inr ⟨b, [], by rw [hb, hnil]; rfl, hstart.trans hcur⟩)
  · obtain ⟨b, rest, hcons⟩ := List.exists_cons_of_ne_nil hnil
    rcases h with ⟨h, -⟩ | ⟨h, -⟩ | ⟨c, rest', hcons', hstart⟩
    · exact absurd h hnil
    · exact absurd h hnil
    · exact .of_head hcons' hstart hblocks

/-- The first block of a function begins at the start. -/
theorem analyzeBlocks_first (t : Target) (ctx : AnalysisContext) (start : Nat) (queue : List Nat) :
    let blocks := (analyzeBlocks t ctx (newFunction start) start queue).function.basicBlocks
    blocks = [] ∨ ∃ b rest, blocks = b :: rest ∧ b.startAddress = start := by
  let I (w : AnalyzeState) : Prop :=
    (w.function.basicBlocks = [] ∧ (w.work = [] ∨ w.work = [start])) ∨
      ∃ b rest, w.function.basicBlocks = b :: rest ∧ b.startAddress = start
  have hfinal : I (analyzeBlocks t ctx (newFunction start) start queue) := by
    refine Loop.exec_inv (I := I) (.inl ⟨rfl, .inr rfl⟩) (fun w w' hw hn => ?_) fun w w' hw hn => ?_
    · rcases hw with ⟨hnil, hwork⟩ | ⟨b, rest, hcons, hstart⟩
      · obtain ⟨pc, rest, hpc, hout⟩ := workStep_next hn
        obtain ⟨rfl, rfl⟩ : pc = start ∧ rest = [] := by
          rcases hwork with hwork | hwork
          · rw [hwork] at hpc
            cases hpc
          · rw [hwork] at hpc
            cases hpc
            exact ⟨rfl, rfl⟩
        rcases hout with ⟨-, rfl⟩ | ⟨-, rfl⟩
        · exact .inl ⟨hnil, .inl rfl⟩
        · have hfirst : FirstBlock pc (Loop.exec (decodeStep t) (t.loader.mappedSize + 1)
              { w with work := [], pc := pc, bb := none }) :=
            Loop.exec_inv (I := FirstBlock pc) (.inl ⟨hnil, rfl, rfl, rfl⟩)
              (fun _ _ h hn => h.step (.inl hn)) fun _ _ h hn => h.step (.inr hn)
          rcases hfirst.addBasicBlock with ⟨h1, h2⟩ | h
          · exact .inl ⟨h1, .inl h2⟩
          · exact .inr h
      · obtain ⟨more, hmore⟩ := workStep_blocks hn
        exact .inr ⟨b, rest ++ more, by rw [← hmore, hcons]; rfl, hstart⟩
    · rw [(workStep_done hn).1]
      exact hw
  rcases hfinal with ⟨h, -⟩ | h
  · exact .inl h
  · exact .inr h

/-- **A function of the rebuilder is laid out.** -/
theorem analyzeFunction_laidOut (t : Target) (ctx : AnalysisContext) (start : Nat)
    (queue : List Nat) :
    (analyzeFunction t ctx (newFunction start) start queue).function.LaidOut := by
  have hstart : (analyzeBlocks t ctx (newFunction start) start queue).function.startAddress = start :=
    (analyzeBlocks_progress (t := t) ctx (newFunction start) start queue).1.start
  have hfirst := analyzeBlocks_first t ctx start queue
  refine ⟨?_, fun b hb a ha => normalizeBlocks_lookups (normalizeBlocks_successors hb ha), rfl⟩
  have hlast : (analyzeFunction t ctx (newFunction start) start queue).function.startAddress = start :=
    hstart
  have hblocks : (analyzeFunction t ctx (newFunction start) start queue).function.basicBlocks =
      normalizeBlocks (analyzeBlocks t ctx (newFunction start) start queue).function.basicBlocks :=
    rfl
  rw [hlast, hblocks]
  rcases hfirst with hnil | ⟨b, rest, hcons, hb⟩
  · rw [hnil]
    rfl
  · exact normalizeBlocks_lookups (mem_collectEntries.mpr
      ⟨b, hcons ▸ List.mem_cons_self, .inl hb.symm⟩)

theorem discovered_laidOut (t : Target) (mark : AnalyzeState → Bool) (pc : Nat)
    (s : ExploreState) : (discovered t mark pc s).LaidOut := by
  obtain ⟨b, heq⟩ := discovered_eq t mark pc s
  obtain ⟨hstart, hsucc, hgraph⟩ := analyzeFunction_laidOut t s.context pc s.functionWork
  rw [heq]
  exact ⟨hstart, hsucc, hgraph⟩

end ReWizard
