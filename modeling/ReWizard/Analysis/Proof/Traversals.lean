import ReWizard.Analysis.Proof.Predecessors
import ReWizard.Analysis.Proof.IndirectTargets
import ReWizard.Analysis.FunctionDisassembly
import ReWizard.Lib.Worklist

/-!
# Walks over the blocks of a function

`GetIndirectInstructions` and `GetDisassembly` go from block to block with the lookup that may split
a block. On normalised blocks no lookup does (`Function.Normal.lookup`), and both are worklists over
the successors (`Visits`): the one goes on with the block that has waited longest, the other with the
one that starts lowest.

* `IndirectWalk.Over.step`, `DisassemblyWalk.Over.step`: what a pass does, and that it gets closer to
  the end;
* `traversals_exact`: both end, go through the reachable blocks and no others, report each of their
  instructions once and leave the function as it is.
-/

namespace ReWizard

/-! ## Stepping through a block -/

/-- The records are of instructions that are at least a byte long and end below the top of the
address space, as those of a mapped image do (`StepsForward.addInstruction`). -/
def Module.StepsForward (m : Module) : Prop := ∀ a i, m.getInstruction a = some i →
  0 < i.instruction.length ∧ a + i.instruction.length < addrSpace

/-- `StepsThrough m stop a l`: stepping from `a` comes to `stop`, or to an address without a record,
after the instructions `l`. -/
inductive Module.StepsThrough (m : Module) (stop : Nat) : Nat → List ExtendedInstruction → Prop
  | stop {a : Nat} : stop ≤ a → StepsThrough m stop a []
  | missing {a : Nat} : a < stop → m.getInstruction a = none → StepsThrough m stop a []
  | step {a : Nat} {i : ExtendedInstruction} {l : List ExtendedInstruction} : a < stop →
      m.getInstruction a = some i → StepsThrough m stop (addrAdd a i.instruction.length) l →
      StepsThrough m stop a (i :: l)

namespace Module

variable {m : Module} {t : Target} {stop : Nat}

theorem StepsForward.next {a : Nat} {i : ExtendedInstruction} (h : m.StepsForward)
    (hi : m.getInstruction a = some i) :
    addrAdd a i.instruction.length = a + i.instruction.length ∧ 0 < i.instruction.length :=
  ⟨addrAdd_of_lt (h a i hi).2, (h a i hi).1⟩

/-- Filing an instruction of the mapped image keeps the records stepping forward, whatever is noted
about the instruction. -/
theorem StepsForward.addInstruction {a : Nat} {i : ExtendedInstruction} (h : m.StepsForward)
    (hi : t.disassemble a = some i) (ha : a < t.loader.imageEnd) {j : ExtendedInstruction}
    (haddr : j.address = a) (hj : j.instruction = i.instruction) :
    (m.addInstruction j).StepsForward := by
  intro b k hk
  unfold Module.addInstruction at hk
  split at hk
  · exact h b k hk
  · have hget := hk
    unfold Module.getInstruction at hget
    rw [OrdMap.get?_insert] at hget
    split at hget
    · rename_i hb
      cases hget
      obtain ⟨-, -, -, hpos, hle⟩ := Target.disassemble_eq_some hi
      have htop := t.loader.belowTop
      unfold FileLoader.imageEnd at ha
      rw [hb, haddr, hj]
      exact ⟨hpos, by omega⟩
    · exact h b k hget

theorem insnsFrom_stepsThrough (h : m.StepsForward) : ∀ {n a : Nat}, stop ≤ a + n →
    m.StepsThrough stop a (m.insnsFrom stop n a)
  | 0, a, hn => .stop hn
  | n + 1, a, hn => by
    unfold insnsFrom
    split
    · rename_i hstop
      exact .stop hstop
    · rename_i hstop
      split
      · rename_i hnone
        exact .missing (Nat.not_le.mp hstop) hnone
      · rename_i i hi
        obtain ⟨hnext, hpos⟩ := h.next hi
        exact .step (Nat.not_le.mp hstop) hi
          (insnsFrom_stepsThrough h (by rw [hnext]; omega))

/-- **A block is stepped through**, up to its end or to the first address without a record. -/
theorem blockInsns_stepsThrough (h : m.StepsForward) (b : BasicBlock) :
    m.StepsThrough b.endAddress b.startAddress (m.blockInsns b) :=
  insnsFrom_stepsThrough h (by omega)

theorem StepsThrough.mem (h : m.StepsForward) {a : Nat} {l : List ExtendedInstruction}
    (hl : m.StepsThrough stop a l) : ∀ i ∈ l, a ≤ i.address ∧ i.address < stop := by
  induction hl with
  | stop _ => exact List.forall_mem_nil _
  | missing _ _ => exact List.forall_mem_nil _
  | @step a i l ha hi _ ih =>
    have haddr := getInstruction_address hi
    intro j hj
    rcases List.mem_cons.mp hj with rfl | hj
    · exact ⟨Nat.le_of_eq haddr.symm, haddr.symm ▸ ha⟩
    · obtain ⟨h1, h2⟩ := ih j hj
      rw [(h.next hi).1] at h1
      exact ⟨by omega, h2⟩

theorem StepsThrough.nodup (h : m.StepsForward) {a : Nat} {l : List ExtendedInstruction}
    (hl : m.StepsThrough stop a l) : (l.map (·.address)).Nodup := by
  induction hl with
  | stop _ => exact List.nodup_nil
  | missing _ _ => exact List.nodup_nil
  | @step a i l ha hi hrest ih =>
    refine List.nodup_cons.mpr ⟨fun hmem => ?_, ih⟩
    obtain ⟨j, hj, heq⟩ := List.mem_map.mp hmem
    dsimp only at heq
    have hge := (hrest.mem h j hj).1
    obtain ⟨hnext, hpos⟩ := h.next hi
    have haddr := getInstruction_address hi
    omega

end Module

/-- An instruction is in one block of a partition only. -/
theorem Partition.nodup_insns {m : Module} {blocks : List BasicBlock} (h : Partition blocks)
    (hm : m.StepsForward) : ∀ {l : List BasicBlock}, l.Nodup → l ⊆ blocks →
      ((l.flatMap m.blockInsns).map (·.address)).Nodup
  | [], _, _ => List.nodup_nil
  | b :: l, hnd, hsub => by
    obtain ⟨hb, hnd⟩ := List.nodup_cons.mp hnd
    rw [List.flatMap_cons, List.map_append]
    refine List.nodup_append.mpr ⟨(Module.blockInsns_stepsThrough hm b).nodup hm,
      h.nodup_insns hm hnd fun c hc => hsub (List.mem_cons_of_mem b hc), ?_⟩
    rintro x hx y hy rfl
    obtain ⟨i, hi, rfl⟩ := List.mem_map.mp hx
    obtain ⟨j, hj, heq⟩ := List.mem_map.mp hy
    obtain ⟨c, hc, hj⟩ := List.mem_flatMap.mp hj
    have hbi := (Module.blockInsns_stepsThrough hm b).mem hm i hi
    have hcj := (Module.blockInsns_stepsThrough hm c).mem hm j hj
    rw [heq] at hcj
    have hbc := h.eq_of_contains (hsub List.mem_cons_self) (hsub (List.mem_cons_of_mem b hc)) hbi hcj
    exact hb (hbc ▸ hc)

/-! ## Normalised functions -/

/-- The blocks do not overlap, every successor is a block start or in no block, and the first block
is where the function starts. -/
structure Function.Normal (f : Function) : Prop where
  partition : Partition f.basicBlocks
  closed : ∀ b ∈ f.basicBlocks, AtStarts f.basicBlocks b.successors
  first : f.basicBlocks.head?.map (·.startAddress) = some f.startAddress

/-- Normalisation keeps the first block first. -/
theorem normalizeBlocks_first {blocks : List BasicBlock} {start : Nat}
    (h : (blocks.map BasicBlock.startAddress).head? = some start) :
    ((normalizeBlocks blocks).map BasicBlock.startAddress).head? = some start := by
  refine normalizeBlocks_inv
    (I := fun bs => (bs.map BasicBlock.startAddress).head? = some start) ⟨?_, ?_⟩ h
  · intro bs k b a hbs hin _
    rw [splitBlocks_starts hin, List.head?_append, hbs]
    rfl
  · intro bs k succ hbs
    rw [map_modify_of_eq (g := (·.addPredecessor succ)) (fun _ => rfl) bs k]
    exact hbs

/-- A function with blocks that do not overlap is normal once it is normalised. -/
theorem Function.normalizeBasicBlocks_normal {f : Function} (h : Partition f.basicBlocks)
    (hfirst : f.basicBlocks.head?.map (·.startAddress) = some f.startAddress) :
    f.normalizeBasicBlocks.Normal where
  partition := h.normalizeBlocks
  closed := fun _ hb _ ha hcovered =>
    exists_start_of_lookup (normalizeBlocks_lookups (normalizeBlocks_successors hb ha)) hcovered
  first := by
    rw [← List.head?_map] at hfirst ⊢
    exact normalizeBlocks_first hfirst

/-- The blocks that the first one leads to through successors. -/
inductive Function.Reaches (f : Function) : BasicBlock → Prop
  | first {b : BasicBlock} : f.basicBlocks.head? = some b → Reaches f b
  | next {b c : BasicBlock} : Reaches f b → c ∈ f.basicBlocks → c.startAddress ∈ b.successors →
      Reaches f c

/-- The block that starts at the address. -/
def blockAt (blocks : List BasicBlock) (a : Nat) : Option BasicBlock :=
  blocks.find? fun b => decide (b.startAddress = a)

/-- The blocks that a block leads to. -/
def succBlocks (blocks : List BasicBlock) (b : BasicBlock) : List BasicBlock :=
  b.successors.filterMap (blockAt blocks)

namespace Partition

variable {blocks : List BasicBlock} {a : Nat} {b c : BasicBlock}

theorem eq_of_start (h : Partition blocks) (hb : b ∈ blocks) (hc : c ∈ blocks)
    (heq : b.startAddress = c.startAddress) : b = c :=
  h.eq_of_contains hb hc (h.proper b hb).contains_start (heq ▸ (h.proper c hc).contains_start)

theorem blockAt_eq_some (h : Partition blocks) :
    blockAt blocks a = some b ↔ b ∈ blocks ∧ b.startAddress = a := by
  unfold blockAt
  constructor
  · intro hb
    exact ⟨List.mem_of_find?_eq_some hb, by simpa using List.find?_some hb⟩
  · rintro ⟨hb, rfl⟩
    cases hfound : blocks.find? fun c => decide (c.startAddress = b.startAddress) with
    | none =>
      have hno := List.find?_eq_none.mp hfound b hb
      exact absurd (decide_eq_true rfl) hno
    | some c =>
      have hc := List.mem_of_find?_eq_some hfound
      rw [h.eq_of_start hc hb (by simpa using List.find?_some hfound)]

theorem mem_succBlocks (h : Partition blocks) :
    c ∈ succBlocks blocks b ↔ c ∈ blocks ∧ c.startAddress ∈ b.successors := by
  unfold succBlocks
  rw [List.mem_filterMap]
  constructor
  · rintro ⟨a, ha, hat⟩
    obtain ⟨hc, rfl⟩ := h.blockAt_eq_some.mp hat
    exact ⟨hc, ha⟩
  · rintro ⟨hc, ha⟩
    exact ⟨_, ha, h.blockAt_eq_some.mpr ⟨hc, rfl⟩⟩

/-- A lookup of a block start, or of an address in no block, splits nothing. -/
theorem lookup_closed (h : Partition blocks)
    (ha : Covered blocks a → ∃ d ∈ blocks, d.startAddress = a) :
    ∃ index, getBasicBlockForAddress blocks a = ⟨index, blocks, false⟩ ∧
      (index.bind fun k => blocks[k]?) = blockAt blocks a := by
  rcases lookup_cases blocks a with ⟨hno, heq⟩ | ⟨k, d, hd, rfl, heq⟩ | ⟨k, c, hc, -⟩
  · refine ⟨none, heq, ?_⟩
    cases hb : blockAt blocks a with
    | none => rfl
    | some b =>
      obtain ⟨hb, hstart⟩ := h.blockAt_eq_some.mp hb
      exact absurd hstart (h.notMem_of_notCovered hno hb)
  · refine ⟨some k, heq, ?_⟩
    rw [h.blockAt_eq_some.mpr ⟨List.mem_of_getElem? hd, rfl⟩]
    exact hd
  · obtain ⟨d, hd, rfl⟩ := ha ⟨c, hc.mem, hc.contains⟩
    have := h.start_not_inside hd hc.mem hc.after
    have := hc.before
    omega

end Partition

/-- A walk over the blocks of a function: it is past `done`, which it has marked, and has `pending`
to go on with. -/
structure Visits (f : Function) (done pending : List BasicBlock) (visited : List Nat) : Prop where
  walk : ∃ entry, f.basicBlocks.head? = some entry ∧
    Worklist.Walk (succBlocks f.basicBlocks) entry done pending
  visited : visited = (done.map (·.startAddress)).reverse

namespace Visits

variable {f : Function} {done pending pending' : List BasicBlock} {visited : List Nat}
  {b : BasicBlock}

theorem start {entry : BasicBlock} (hentry : f.basicBlocks.head? = some entry) :
    Visits f [] [entry] [] := ⟨⟨entry, hentry, .start⟩, rfl⟩

theorem reaches (h : Visits f done pending visited) (hf : f.Normal)
    (hb : b ∈ done ∨ b ∈ pending) : f.Reaches b := by
  obtain ⟨entry, hentry, hwalk⟩ := h.walk
  have hpath := hwalk.reached b hb
  clear hb
  induction hpath with
  | refl => exact .first hentry
  | tail _ hstep ih =>
    obtain ⟨hmem, hsucc⟩ := hf.partition.mem_succBlocks.mp hstep
    exact .next ih hmem hsucc

theorem mem (h : Visits f done pending visited) (hf : f.Normal) (hb : b ∈ done ∨ b ∈ pending) :
    b ∈ f.basicBlocks := by
  cases h.reaches hf hb with
  | first hhead => exact List.mem_of_head? hhead
  | next _ hmem _ => exact hmem

/-- What is marked are the starts of the blocks that were visited. -/
theorem mem_visited_iff (h : Visits f done pending visited) (hf : f.Normal) (hb : b ∈ f.basicBlocks) :
    b.startAddress ∈ visited ↔ b ∈ done := by
  rw [h.visited, List.mem_reverse, List.mem_map]
  constructor
  · rintro ⟨c, hc, heq⟩
    rwa [← hf.partition.eq_of_start (h.mem hf (.inl hc)) hb heq]
  · exact fun hb => ⟨b, hb, rfl⟩

/-- **What a walk that is through has visited**: the blocks that are reached, each once. -/
theorem done_exact (h : Visits f done [] visited) (hf : f.Normal) :
    done.Nodup ∧ ∀ b, b ∈ done ↔ f.Reaches b := by
  refine ⟨?_, fun b => ⟨fun hb => h.reaches hf (.inl hb), fun hb => ?_⟩⟩
  · obtain ⟨entry, -, hwalk⟩ := h.walk
    exact hwalk.nodup
  · obtain ⟨entry, hentry, hwalk⟩ := h.walk
    induction hb with
    | first hhead =>
      rw [hentry] at hhead
      cases hhead
      exact hwalk.entry_mem.resolve_right List.not_mem_nil
    | next _ hmem hsucc ih =>
      exact (hwalk.closed _ ih _ (hf.partition.mem_succBlocks.mpr ⟨hmem, hsucc⟩)).resolve_right
        List.not_mem_nil

/-- A block that is marked is dropped. -/
theorem skip (h : Visits f done pending visited) (hf : f.Normal) (hb : b ∈ pending)
    (hold : b.startAddress ∈ visited) (hsub : pending' ⊆ pending)
    (hkeep : ∀ c ∈ pending, c = b ∨ c ∈ pending') : Visits f done pending' visited := by
  obtain ⟨entry, hentry, hwalk⟩ := h.walk
  have hdone := (h.mem_visited_iff hf (h.mem hf (.inr hb))).mp hold
  exact ⟨⟨entry, hentry, hwalk.skip hdone hsub hkeep⟩, h.visited⟩

/-- Another block is visited, and the walk has its successors to go on with, but for those that it
has marked. -/
theorem expand (h : Visits f done pending visited) (hf : f.Normal) (hb : b ∈ pending)
    (hnew : b.startAddress ∉ visited)
    (hsub : ∀ c ∈ pending', c ∈ pending ∨ c ∈ f.basicBlocks ∧ c.startAddress ∈ b.successors)
    (hkeep : ∀ c ∈ pending, c = b ∨ c ∈ pending')
    (hsucc : ∀ c ∈ f.basicBlocks, c.startAddress ∈ b.successors →
      c.startAddress ∈ b.startAddress :: visited ∨ c ∈ pending') :
    Visits f (done ++ [b]) pending' (b.startAddress :: visited) := by
  obtain ⟨entry, hentry, hwalk⟩ := h.walk
  have hbm := h.mem hf (.inr hb)
  refine ⟨⟨entry, hentry, hwalk.expand hb (mt (h.mem_visited_iff hf hbm).mpr hnew) ?_ hkeep ?_⟩, ?_⟩
  · intro c hc
    refine List.mem_append.mpr ((hsub c hc).imp_right fun hcs => ?_)
    exact hf.partition.mem_succBlocks.mpr hcs
  · intro c hc
    obtain ⟨hcm, hcs⟩ := hf.partition.mem_succBlocks.mp hc
    refine (hsucc c hcm hcs).imp_left fun hmark => List.mem_append.mpr ?_
    rcases List.mem_cons.mp hmark with heq | hold
    · exact .inr (List.mem_singleton.mpr (hf.partition.eq_of_start hcm hbm heq))
    · exact .inl ((h.mem_visited_iff hf hcm).mp hold)
  · rw [h.visited, List.map_append, List.reverse_append]
    rfl

end Visits

/-! ## How far a walk is -/

def edgeCount (blocks : List BasicBlock) : Nat := (blocks.map fun b => b.successors.length).sum

/-- What is left of a walk that has marked `visited` and has `waiting` blocks to go on with: a block
can be there as often as it is led to. -/
def walkLeft (blocks : List BasicBlock) (visited : List Nat) (waiting : Nat) : Nat :=
  Worklist.unexpanded (blocks.map (·.startAddress)) visited * (edgeCount blocks + 1) + waiting

theorem walkLeft_start (blocks : List BasicBlock) : walkLeft blocks [] 1 < indirectFuel blocks := by
  have hle := Worklist.unexpanded_nil_le (blocks.map (·.startAddress))
  rw [List.length_map] at hle
  have hmul := Nat.mul_le_mul_right (edgeCount blocks + 1) hle
  have hmono := Nat.mul_le_mul_right (edgeCount blocks + 1)
    (Nat.le_add_right blocks.length (edgeCount blocks))
  show _ < (blocks.length + edgeCount blocks) * (edgeCount blocks + 1) + 2
  unfold walkLeft
  omega

theorem walkLeft_drop (blocks : List BasicBlock) (visited : List Nat) (waiting : Nat) :
    walkLeft blocks visited waiting < walkLeft blocks visited (waiting + 1) := by
  unfold walkLeft
  omega

theorem walkLeft_expand {blocks : List BasicBlock} {b : BasicBlock} {visited : List Nat}
    {waiting waiting' : Nat} (hb : b ∈ blocks) (hnew : b.startAddress ∉ visited)
    (hle : waiting' ≤ waiting + b.successors.length) :
    walkLeft blocks (b.startAddress :: visited) waiting' < walkLeft blocks visited (waiting + 1) := by
  have hedges : b.successors.length ≤ edgeCount blocks :=
    List.le_sum_of_mem (List.mem_map_of_mem hb)
  have hlt := Worklist.unexpanded_lt (List.mem_map_of_mem (f := (·.startAddress)) hb) hnew
  have hmul := Nat.mul_le_mul_right (edgeCount blocks + 1) (Nat.succ_le_of_lt hlt)
  rw [Nat.succ_mul] at hmul
  unfold walkLeft
  omega

/-! ## `GetIndirectInstructions` -/

/-- The instructions of a block that `GetIndirectInstructions` reports. -/
def Module.indirectInsns (m : Module) (b : BasicBlock) : List ExtendedInstruction :=
  (m.blockInsns b).filter (·.isIndirect)

theorem queueSuccessor_eq {w : IndirectWalk} {a : Nat} (h : Partition w.blocks)
    (ha : Covered w.blocks a → ∃ d ∈ w.blocks, d.startAddress = a) :
    ∃ ks, queueSuccessor w a = { w with work := w.work ++ ks } ∧ ks.length ≤ 1 ∧
      ∀ b, b ∈ ks.filterMap (fun k => w.blocks[k]?) ↔
        b ∈ w.blocks ∧ b.startAddress = a ∧ a ∉ w.visited := by
  obtain ⟨index, hlook, hat⟩ := h.lookup_closed ha
  have hnone : blockAt w.blocks a = none → ∃ ks, w = { w with work := w.work ++ ks } ∧
      ks.length ≤ 1 ∧ ∀ b, b ∈ ks.filterMap (fun k => w.blocks[k]?) ↔
        b ∈ w.blocks ∧ b.startAddress = a ∧ a ∉ w.visited := by
    refine fun hno => ⟨[], by rw [List.append_nil], Nat.zero_le 1, fun b => ?_⟩
    refine ⟨fun hb => absurd hb List.not_mem_nil, fun ⟨hb, hstart, _⟩ => ?_⟩
    have hsome := h.blockAt_eq_some.mpr ⟨hb, hstart⟩
    rw [hno] at hsome
    cases hsome
  unfold queueSuccessor
  rw [hlook]
  cases index with
  | none => exact hnone hat.symm
  | some k =>
    dsimp only
    rw [Option.bind_some] at hat
    cases hk : w.blocks[k]? with
    | none => exact hnone (hat.symm.trans hk)
    | some d =>
      obtain ⟨hd, rfl⟩ := h.blockAt_eq_some.mp (hat.symm.trans hk)
      dsimp only
      by_cases hold : d.startAddress ∈ w.visited
      · rw [if_pos hold]
        refine ⟨[], by rw [List.append_nil], Nat.zero_le 1, fun b => ?_⟩
        exact ⟨fun hb => absurd hb List.not_mem_nil, fun hb => absurd hold hb.2.2⟩
      · rw [if_neg hold]
        refine ⟨[k], rfl, Nat.le_refl 1, fun b => ?_⟩
        rw [List.filterMap_cons_some hk, List.filterMap_nil, List.mem_singleton]
        constructor
        · rintro rfl
          exact ⟨hd, rfl, hold⟩
        · rintro ⟨hb, hstart, -⟩
          exact h.eq_of_start hb hd hstart

/-- The successors of a block queue the blocks that start there and were not visited. -/
theorem queueSuccessors_eq : ∀ {l : List Nat} {w : IndirectWalk}, Partition w.blocks →
    AtStarts w.blocks l → ∃ ks, l.foldl queueSuccessor w = { w with work := w.work ++ ks } ∧
      ks.length ≤ l.length ∧ ∀ b, b ∈ ks.filterMap (fun k => w.blocks[k]?) ↔
        b ∈ w.blocks ∧ b.startAddress ∈ l ∧ b.startAddress ∉ w.visited
  | [], w, _, _ => by
    refine ⟨[], by rw [List.append_nil]; rfl, Nat.le_refl 0, fun b => ?_⟩
    exact ⟨fun hb => absurd hb List.not_mem_nil, fun hb => absurd hb.2.1 List.not_mem_nil⟩
  | a :: l, w, h, hl => by
    obtain ⟨hall, hrest⟩ := List.forall_mem_cons.mp hl
    obtain ⟨ks, heq, hlen, hmem⟩ := queueSuccessor_eq h hall
    obtain ⟨ks', heq', hlen', hmem'⟩ :=
      queueSuccessors_eq (l := l) (w := { w with work := w.work ++ ks }) h hrest
    refine ⟨ks ++ ks', ?_, ?_, fun b => ?_⟩
    · rw [List.foldl_cons, heq, heq', List.append_assoc]
    · rw [List.length_append, List.length_cons]
      omega
    · rw [List.filterMap_append, List.mem_append, hmem, hmem', List.mem_cons]
      constructor
      · rintro (⟨hb, rfl, hnew⟩ | ⟨hb, hin, hnew⟩)
        · exact ⟨hb, .inl rfl, hnew⟩
        · exact ⟨hb, .inr hin, hnew⟩
      · rintro ⟨hb, rfl | hin, hnew⟩
        · exact .inl ⟨hb, rfl, hnew⟩
        · exact .inr ⟨hb, hin, hnew⟩

/-- The walk is past the blocks `done`. -/
structure IndirectWalk.Over (m : Module) (f : Function) (done : List BasicBlock)
    (w : IndirectWalk) : Prop where
  blocks : w.blocks = f.basicBlocks
  visits : Visits f done (w.work.filterMap fun k => f.basicBlocks[k]?) w.visited
  instructions : w.instructions = done.flatMap m.indirectInsns

namespace IndirectWalk.Over

variable {m : Module} {f : Function} {done : List BasicBlock} {w w' : IndirectWalk}

theorem start (hf : f.Normal) : Over m f [] ⟨f.basicBlocks, [], [], [0]⟩ := by
  obtain ⟨entry, hentry, -⟩ := Option.map_eq_some_iff.mp hf.first
  refine ⟨rfl, ?_, rfl⟩
  rw [List.head?_eq_getElem?] at hentry
  rw [List.filterMap_cons_some hentry]
  exact .start (List.head?_eq_getElem?.trans hentry)

/-- A block that is marked, or is not there, is dropped. -/
theorem drop {k : Nat} {rest : List Nat} (h : w.Over m f done) (hf : f.Normal)
    (hwork : w.work = k :: rest)
    (hold : ∀ b, f.basicBlocks[k]? = some b → b.startAddress ∈ w.visited) :
    Over m f done { w with work := rest } ∧
      walkLeft f.basicBlocks w.visited rest.length <
        walkLeft f.basicBlocks w.visited w.work.length := by
  have hvisits := h.visits
  rw [hwork] at hvisits ⊢
  refine ⟨⟨h.blocks, ?_, h.instructions⟩, walkLeft_drop _ _ _⟩
  cases hk : f.basicBlocks[k]? with
  | none => rwa [List.filterMap_cons_none hk] at hvisits
  | some b =>
    rw [List.filterMap_cons_some hk] at hvisits
    exact hvisits.skip hf List.mem_cons_self (hold b hk) (List.subset_cons_self _ _)
      fun c hc => List.mem_cons.mp hc

/-- Another block is visited and its successors are queued. -/
theorem visit {k : Nat} {rest : List Nat} {b : BasicBlock} (h : w.Over m f done) (hf : f.Normal)
    (hwork : w.work = k :: rest) (hk : f.basicBlocks[k]? = some b)
    (hnew : b.startAddress ∉ w.visited)
    (hw' : w' = b.successors.foldl queueSuccessor
      { w with
        visited := b.startAddress :: w.visited
        instructions := w.instructions ++ m.indirectInsns b
        work := rest }) :
    Over m f (done ++ [b]) w' ∧
      walkLeft f.basicBlocks w'.visited w'.work.length <
        walkLeft f.basicBlocks w.visited w.work.length := by
  obtain ⟨blocks, insns, visited, work⟩ := w
  obtain ⟨rfl, hvisits, rfl⟩ := h
  dsimp only at hwork hvisits hnew
  subst hwork
  rw [List.filterMap_cons_some hk] at hvisits
  have hb := List.mem_of_getElem? hk
  obtain ⟨ks, heq, hlen, hmem⟩ := queueSuccessors_eq (l := b.successors)
    (w := ⟨f.basicBlocks, done.flatMap m.indirectInsns ++ m.indirectInsns b,
      b.startAddress :: visited, rest⟩) hf.partition (hf.closed b hb)
  dsimp only at heq hmem
  have hw' := hw'.trans heq
  subst hw'
  refine ⟨⟨rfl, ?_, ?_⟩, ?_⟩
  · refine hvisits.expand hf List.mem_cons_self hnew ?_ ?_ ?_
    · intro c hc
      rw [List.filterMap_append] at hc
      rcases List.mem_append.mp hc with hc | hc
      · exact .inl (List.mem_cons_of_mem b hc)
      · obtain ⟨hcm, hcs, -⟩ := (hmem c).mp hc
        exact .inr ⟨hcm, hcs⟩
    · intro c hc
      refine (List.mem_cons.mp hc).imp_right fun hc => ?_
      rw [List.filterMap_append]
      exact List.mem_append_left _ hc
    · intro c hcm hcs
      by_cases hmark : c.startAddress ∈ b.startAddress :: visited
      · exact .inl hmark
      · rw [List.filterMap_append]
        exact .inr (List.mem_append_right _ ((hmem c).mpr ⟨hcm, hcs, hmark⟩))
  · rw [List.flatMap_append, List.flatMap_singleton]
  · refine walkLeft_expand hb hnew ?_
    rw [List.length_append]
    exact Nat.add_le_add_left hlen _

/-- One pass drops a block, or goes on to another one and reports its instructions. -/
theorem step (h : w.Over m f done) (hf : f.Normal) (hn : indirectStep m w = .next w') :
    (∃ done', w'.Over m f done') ∧
      walkLeft f.basicBlocks w'.visited w'.work.length <
        walkLeft f.basicBlocks w.visited w.work.length := by
  unfold indirectStep at hn
  split at hn
  · cases hn
  · rename_i k rest hwork
    dsimp only at hn
    rw [h.blocks] at hn
    split at hn
    · rename_i hk
      cases hn
      obtain ⟨hover, hleft⟩ := h.drop hf hwork fun b hb => by
        rw [hk] at hb
        cases hb
      exact ⟨⟨done, h.blocks ▸ hover⟩, hleft⟩
    · rename_i b hk
      split at hn
      · rename_i hold
        cases hn
        obtain ⟨hover, hleft⟩ := h.drop hf hwork fun c hc => by
          rw [hk] at hc
          cases hc
          exact hold
        exact ⟨⟨done, h.blocks ▸ hover⟩, hleft⟩
      · rename_i hnew
        cases hn
        obtain ⟨hover, hleft⟩ := h.visit hf hwork hk hnew rfl
        rw [h.blocks] at hover hleft
        exact ⟨⟨done ++ [b], hover⟩, hleft⟩

theorem exits (hf : f.Normal) : Loop.Exits (indirectStep m) ⟨f.basicBlocks, [], [], [0]⟩
    (Loop.exec (indirectStep m) (indirectFuel f.basicBlocks) ⟨f.basicBlocks, [], [], [0]⟩) := by
  refine Loop.exec_exits (I := fun w => ∃ done, w.Over m f done)
    (fun w => walkLeft f.basicBlocks w.visited w.work.length) (fun _ _ ⟨_, h⟩ hn => h.step hf hn)
    ⟨[], start hf⟩ ?_
  exact walkLeft_start f.basicBlocks

/-- The walk ends with the instructions of the blocks that are reached. -/
theorem ended (hf : f.Normal)
    (he : Loop.Exits (indirectStep m) ⟨f.basicBlocks, [], [], [0]⟩ w) :
    ∃ order : List BasicBlock, (order.Nodup ∧ ∀ b, b ∈ order ↔ f.Reaches b) ∧
      w.blocks = f.basicBlocks ∧
      w.instructions = order.flatMap m.indirectInsns := by
  obtain ⟨r, ⟨order, hr⟩, hd⟩ := he.inv (I := fun w => ∃ done, w.Over m f done) ⟨[], start hf⟩
    fun _ _ ⟨_, h⟩ hn => (h.step hf hn).1
  unfold indirectStep at hd
  split at hd
  · rename_i hwork
    cases hd
    have hvisits := hr.visits
    rw [hwork] at hvisits
    exact ⟨order, hvisits.done_exact hf, hr.blocks, hr.instructions⟩
  · dsimp only at hd
    split at hd
    · cases hd
    · split at hd <;> cases hd

end IndirectWalk.Over

/-! ## `GetDisassembly` -/

/-- The lines of a block. -/
def blockLines (instructionToString : ExtendedInstruction → Nat → String) (m : Module)
    (isTrampoline : Bool) (b : BasicBlock) : List String :=
  blockLabel isTrampoline b ++
    (m.blockInsns b).map (instructionLine instructionToString m.symbolTable) ++ blockEnd isTrampoline

/-- The blocks to visit are kept under their starts. -/
def AtKeys (blocks : List BasicBlock) (toVisit : OrdMap Nat Nat) : Prop :=
  ∀ e ∈ toVisit.toList, ∃ b, blocks[e.2]? = some b ∧ b.startAddress = e.1

theorem mem_toVisit {blocks : List BasicBlock} {toVisit : OrdMap Nat Nat} (h : Partition blocks)
    (hkeys : AtKeys blocks toVisit) {b : BasicBlock} :
    b ∈ toVisit.toList.filterMap (fun e => blocks[e.2]?) ↔
      b ∈ blocks ∧ b.startAddress ∈ toVisit.keys := by
  unfold OrdMap.keys
  rw [List.mem_filterMap, List.mem_map]
  constructor
  · rintro ⟨e, he, hb⟩
    obtain ⟨c, hc, hstart⟩ := hkeys e he
    rw [hb] at hc
    cases hc
    exact ⟨List.mem_of_getElem? hb, e, he, hstart.symm⟩
  · rintro ⟨hb, e, he, hkey⟩
    obtain ⟨c, hc, hstart⟩ := hkeys e he
    obtain rfl := h.eq_of_start (List.mem_of_getElem? hc) hb (hstart.trans hkey)
    exact ⟨e, he, hc⟩

theorem visitSuccessor_eq {w : DisassemblyWalk} {a : Nat} (h : Partition w.blocks)
    (hkeys : AtKeys w.blocks w.toVisit)
    (ha : Covered w.blocks a → ∃ d ∈ w.blocks, d.startAddress = a) :
    ∃ toVisit, visitSuccessor w a = { w with toVisit := toVisit } ∧ AtKeys w.blocks toVisit ∧
      toVisit.toList.length ≤ w.toVisit.toList.length + 1 ∧
      ∀ b ∈ w.blocks, b.startAddress ∈ toVisit.keys ↔
        b.startAddress ∈ w.toVisit.keys ∨ b.startAddress = a := by
  obtain ⟨index, hlook, hat⟩ := h.lookup_closed ha
  have hsame : (∀ b ∈ w.blocks, b.startAddress = a → b.startAddress ∈ w.toVisit.keys) →
      ∃ toVisit, w = { w with toVisit := toVisit } ∧ AtKeys w.blocks toVisit ∧
        toVisit.toList.length ≤ w.toVisit.toList.length + 1 ∧
        ∀ b ∈ w.blocks, b.startAddress ∈ toVisit.keys ↔
          b.startAddress ∈ w.toVisit.keys ∨ b.startAddress = a := fun hold =>
    ⟨w.toVisit, rfl, hkeys, Nat.le_succ _, fun b hb => ⟨.inl, fun hor => hor.elim id (hold b hb)⟩⟩
  have hnone : blockAt w.blocks a = none →
      ∀ b ∈ w.blocks, b.startAddress = a → b.startAddress ∈ w.toVisit.keys := by
    intro hno b hb hstart
    have hsome := h.blockAt_eq_some.mpr ⟨hb, hstart⟩
    rw [hno] at hsome
    cases hsome
  unfold visitSuccessor
  rw [hlook]
  cases index with
  | none => exact hsame (hnone hat.symm)
  | some k =>
    dsimp only
    rw [Option.bind_some] at hat
    cases hk : w.blocks[k]? with
    | none => exact hsame (hnone (hat.symm.trans hk))
    | some d =>
      obtain ⟨hd, rfl⟩ := h.blockAt_eq_some.mp (hat.symm.trans hk)
      dsimp only
      split
      · rename_i hold
        exact hsame fun b _ hstart => hstart ▸ OrdMap.mem_keys_iff.mpr hold
      · refine ⟨_, rfl, ?_, OrdMap.length_insert_le _ _ _, fun b _ => ?_⟩
        · intro e he
          rcases OrdMap.mem_toList_insert.mp he with rfl | ⟨he, -⟩
          · exact ⟨d, hk, rfl⟩
          · exact hkeys e he
        · rw [OrdMap.mem_keys_insert, or_comm]

/-- The successors of a block are blocks to visit, where a block starts there. -/
theorem visitSuccessors_eq : ∀ {l : List Nat} {w : DisassemblyWalk}, Partition w.blocks →
    AtKeys w.blocks w.toVisit → AtStarts w.blocks l →
    ∃ toVisit, l.foldl visitSuccessor w = { w with toVisit := toVisit } ∧
      AtKeys w.blocks toVisit ∧ toVisit.toList.length ≤ w.toVisit.toList.length + l.length ∧
      ∀ b ∈ w.blocks, b.startAddress ∈ toVisit.keys ↔
        b.startAddress ∈ w.toVisit.keys ∨ b.startAddress ∈ l
  | [], w, _, hkeys, _ =>
    ⟨w.toVisit, rfl, hkeys, Nat.le_refl _, fun b _ =>
      ⟨.inl, fun h => h.resolve_right List.not_mem_nil⟩⟩
  | a :: l, w, h, hkeys, hl => by
    obtain ⟨hall, hrest⟩ := List.forall_mem_cons.mp hl
    obtain ⟨t, heq, ht, hlen, hmem⟩ := visitSuccessor_eq h hkeys hall
    obtain ⟨t', heq', ht', hlen', hmem'⟩ :=
      visitSuccessors_eq (l := l) (w := { w with toVisit := t }) h ht hrest
    refine ⟨t', ?_, ht', ?_, fun b hb => ?_⟩
    · rw [List.foldl_cons, heq, heq']
    · rw [List.length_cons]
      dsimp only at hlen'
      omega
    · rw [hmem' b hb, hmem b hb, List.mem_cons, or_assoc]

/-- The walk has printed the blocks `done` after the line `title`. -/
structure DisassemblyWalk.Over (instructionToString : ExtendedInstruction → Nat → String)
    (m : Module) (f : Function) (title : String) (done : List BasicBlock) (w : DisassemblyWalk) :
    Prop where
  blocks : w.blocks = f.basicBlocks
  keys : AtKeys f.basicBlocks w.toVisit
  visits : Visits f done (w.toVisit.toList.filterMap fun e => f.basicBlocks[e.2]?) w.visited
  lines : w.lines = title :: done.flatMap (blockLines instructionToString m f.isTrampoline)

namespace DisassemblyWalk.Over

variable {instructionToString : ExtendedInstruction → Nat → String} {m : Module} {f : Function}
  {title : String} {done : List BasicBlock} {w w' : DisassemblyWalk}

theorem start (hf : f.Normal) : Over instructionToString m f title []
    ⟨f.basicBlocks, [title], [], OrdMap.empty.insert f.startAddress 0⟩ := by
  obtain ⟨entry, hentry, hstart⟩ := Option.map_eq_some_iff.mp hf.first
  have hget := List.head?_eq_getElem?.symm.trans hentry
  refine ⟨rfl, ?_, ?_, rfl⟩
  · intro e he
    obtain rfl := List.mem_singleton.mp he
    exact ⟨entry, hget, hstart⟩
  · show Visits f [] ([(f.startAddress, 0)].filterMap _) []
    rw [List.filterMap_cons_some (f := fun e : Nat × Nat => f.basicBlocks[e.2]?) hget]
    exact .start hentry

/-- The block with the lowest start is one of the function's, and the others stay. -/
theorem lowest {start k : Nat} {rest : List (Nat × Nat)}
    (h : w.Over instructionToString m f title done) (hlist : w.toVisit.toList = (start, k) :: rest) :
    ∃ b, f.basicBlocks[k]? = some b ∧ (w.toVisit.erase start).toList = rest ∧
      AtKeys f.basicBlocks (w.toVisit.erase start) ∧
      Visits f done (b :: rest.filterMap fun e => f.basicBlocks[e.2]?) w.visited := by
  have hrest : (w.toVisit.erase start).toList = rest := OrdMap.erase_lowest hlist
  obtain ⟨b, hk, -⟩ := h.keys (start, k) (hlist ▸ List.mem_cons_self)
  have hvisits := h.visits
  rw [hlist, List.filterMap_cons_some (f := fun e : Nat × Nat => f.basicBlocks[e.2]?) hk] at hvisits
  exact ⟨b, hk, hrest, fun e he => h.keys e (hlist ▸ List.mem_cons_of_mem _ (hrest ▸ he)), hvisits⟩

/-- A block that is marked is dropped. -/
theorem drop {start k : Nat} {rest : List (Nat × Nat)} {b : BasicBlock}
    (h : w.Over instructionToString m f title done) (hf : f.Normal)
    (hlist : w.toVisit.toList = (start, k) :: rest) (hk : f.basicBlocks[k]? = some b)
    (hold : b.startAddress ∈ w.visited) :
    Over instructionToString m f title done { w with toVisit := w.toVisit.erase start } ∧
      walkLeft f.basicBlocks w.visited (w.toVisit.erase start).toList.length <
        walkLeft f.basicBlocks w.visited w.toVisit.toList.length := by
  obtain ⟨c, hc, hrest, hkeys, hvisits⟩ := h.lowest hlist
  cases hk.symm.trans hc
  refine ⟨⟨h.blocks, hkeys, ?_, h.lines⟩, ?_⟩
  · dsimp only
    rw [hrest]
    exact hvisits.skip hf List.mem_cons_self hold (List.subset_cons_self _ _)
      fun c hc => List.mem_cons.mp hc
  · rw [hrest, hlist]
    exact walkLeft_drop _ _ _

/-- Another block is printed, and its successors are blocks to visit. -/
theorem visit {start k : Nat} {rest : List (Nat × Nat)} {b : BasicBlock}
    (h : w.Over instructionToString m f title done) (hf : f.Normal)
    (hlist : w.toVisit.toList = (start, k) :: rest) (hk : f.basicBlocks[k]? = some b)
    (hnew : b.startAddress ∉ w.visited)
    (hw' : w' = b.successors.foldl visitSuccessor
      { w with
        toVisit := w.toVisit.erase start
        visited := b.startAddress :: w.visited
        lines := w.lines ++ (blockLabel f.isTrampoline b ++
          (m.blockInsns b).map (instructionLine instructionToString m.symbolTable)) }) :
    Over instructionToString m f title (done ++ [b])
        { w' with lines := w'.lines ++ blockEnd f.isTrampoline } ∧
      walkLeft f.basicBlocks w'.visited w'.toVisit.toList.length <
        walkLeft f.basicBlocks w.visited w.toVisit.toList.length := by
  obtain ⟨c, hc, hrest, hkeys, hvisits⟩ := h.lowest hlist
  cases hk.symm.trans hc
  obtain ⟨blocks, lines, visited, toVisit⟩ := w
  obtain ⟨rfl, -, -, rfl⟩ := h
  dsimp only at hlist hnew hrest hkeys hvisits hw' ⊢
  have hb := List.mem_of_getElem? hk
  obtain ⟨t, heq, ht, hlen, hmem⟩ := visitSuccessors_eq (l := b.successors)
    (w := ⟨f.basicBlocks, title :: done.flatMap (blockLines instructionToString m f.isTrampoline) ++
      (blockLabel f.isTrampoline b ++
        (m.blockInsns b).map (instructionLine instructionToString m.symbolTable)),
      b.startAddress :: visited, toVisit.erase start⟩) hf.partition hkeys (hf.closed b hb)
  dsimp only at heq ht hlen hmem
  have hw' := hw'.trans heq
  subst hw'
  rw [hrest] at hlen
  have hold : ∀ c, c ∈ f.basicBlocks →
      (c.startAddress ∈ (toVisit.erase start).keys ↔ c ∈ rest.filterMap fun e =>
        f.basicBlocks[e.2]?) := fun c hc => by
    rw [← hrest, mem_toVisit hf.partition hkeys]
    exact ⟨fun h => ⟨hc, h⟩, And.right⟩
  rw [hlist]
  refine ⟨⟨rfl, ht, ?_, ?_⟩, walkLeft_expand hb hnew hlen⟩
  · refine hvisits.expand hf List.mem_cons_self hnew ?_ ?_ ?_
    · intro c hc
      obtain ⟨hcm, hkey⟩ := (mem_toVisit hf.partition ht).mp hc
      rcases (hmem c hcm).mp hkey with hkey | hcs
      · exact .inl (List.mem_cons_of_mem b ((hold c hcm).mp hkey))
      · exact .inr ⟨hcm, hcs⟩
    · intro c hc
      refine (List.mem_cons.mp hc).imp_right fun hrestc => ?_
      have hcm := hvisits.mem hf (.inr hc)
      exact (mem_toVisit hf.partition ht).mpr
        ⟨hcm, (hmem c hcm).mpr (.inl ((hold c hcm).mpr hrestc))⟩
    · exact fun c hcm hcs =>
        .inr ((mem_toVisit hf.partition ht).mpr ⟨hcm, (hmem c hcm).mpr (.inr hcs)⟩)
  · dsimp only
    unfold blockLines
    rw [List.flatMap_append, List.flatMap_singleton, List.cons_append, List.cons_append,
      List.append_assoc]

/-- One pass drops a block, or goes on to another one and prints it. -/
theorem step (h : w.Over instructionToString m f title done) (hf : f.Normal)
    (hn : disassemblyStep instructionToString m f.isTrampoline w = .next w') :
    (∃ done', w'.Over instructionToString m f title done') ∧
      walkLeft f.basicBlocks w'.visited w'.toVisit.toList.length <
        walkLeft f.basicBlocks w.visited w.toVisit.toList.length := by
  unfold disassemblyStep at hn
  split at hn
  · cases hn
  · rename_i start k rest hlist
    obtain ⟨b, hk, -⟩ := h.lowest hlist
    dsimp only at hn
    rw [h.blocks, hk] at hn
    dsimp only at hn
    split at hn
    · rename_i hold
      cases hn
      obtain ⟨hover, hleft⟩ := h.drop hf hlist hk hold
      exact ⟨⟨done, h.blocks ▸ hover⟩, hleft⟩
    · rename_i hnew
      cases hn
      obtain ⟨hover, hleft⟩ := h.visit hf hlist hk hnew rfl
      rw [h.blocks] at hover hleft
      exact ⟨⟨done ++ [b], hover⟩, hleft⟩

/-- The walk is left when the blocks to visit are gone. -/
theorem exits (instructionToString : ExtendedInstruction → Nat → String) (m : Module)
    (title : String) (hf : f.Normal) :
    Loop.Exits (disassemblyStep instructionToString m f.isTrampoline)
      ⟨f.basicBlocks, [title], [], OrdMap.empty.insert f.startAddress 0⟩
      (Loop.exec (disassemblyStep instructionToString m f.isTrampoline)
        (indirectFuel f.basicBlocks)
        ⟨f.basicBlocks, [title], [], OrdMap.empty.insert f.startAddress 0⟩) := by
  refine Loop.exec_exits (I := fun w => ∃ done, w.Over instructionToString m f title done)
    (fun w => walkLeft f.basicBlocks w.visited w.toVisit.toList.length)
    (fun _ _ ⟨_, h⟩ hn => h.step hf hn) ⟨[], start hf⟩ ?_
  exact walkLeft_start f.basicBlocks

/-- The walk ends with the lines of the blocks that are reached. -/
theorem ended (hf : f.Normal)
    (he : Loop.Exits (disassemblyStep instructionToString m f.isTrampoline)
      ⟨f.basicBlocks, [title], [], OrdMap.empty.insert f.startAddress 0⟩ w) :
    ∃ order : List BasicBlock, (order.Nodup ∧ ∀ b, b ∈ order ↔ f.Reaches b) ∧
      w.blocks = f.basicBlocks ∧
      w.lines = title :: order.flatMap (blockLines instructionToString m f.isTrampoline) := by
  obtain ⟨r, ⟨order, hr⟩, hd⟩ := he.inv
    (I := fun w => ∃ done, w.Over instructionToString m f title done) ⟨[], start hf⟩
    fun _ _ ⟨_, h⟩ hn => (h.step hf hn).1
  unfold disassemblyStep at hd
  split at hd
  · rename_i hlist
    cases hd
    have hvisits := hr.visits
    rw [hlist] at hvisits
    exact ⟨order, hvisits.done_exact hf, hr.blocks, hr.lines⟩
  · dsimp only at hd
    split at hd
    · cases hd
    · split at hd <;> cases hd

end DisassemblyWalk.Over

/-! ## Both walks -/

/-- `order` goes through a function: the blocks that are reached, each once and from its start to its
end, with no instruction in two of them. -/
structure Traversal (m : Module) (f : Function) (order : List BasicBlock) : Prop where
  nodup : order.Nodup
  mem_iff : ∀ b, b ∈ order ↔ f.Reaches b
  stepped : ∀ b ∈ order, m.StepsThrough b.endAddress b.startAddress (m.blockInsns b)
  once : ((order.flatMap m.blockInsns).map (·.address)).Nodup

theorem Function.Normal.traversal {m : Module} {f : Function} (hf : f.Normal) (hm : m.StepsForward)
    {order : List BasicBlock} (h : order.Nodup ∧ ∀ b, b ∈ order ↔ f.Reaches b) :
    Traversal m f order where
  nodup := h.1
  mem_iff := h.2
  stepped := fun b _ => Module.blockInsns_stepsThrough hm b
  once := by
    refine hf.partition.nodup_insns hm h.1 fun b hb => ?_
    cases (h.2 b).mp hb with
    | first hhead => exact List.mem_of_head? hhead
    | next _ hmem _ => exact hmem

/-- `GetIndirectInstructions` ends with the indirect instructions of a traversal, and leaves the
function as it is. -/
def Function.IndirectsExact (m : Module) (f : Function) : Prop :=
  ∃ order w, Traversal m f order ∧
    Loop.Exits (indirectStep m) ⟨f.basicBlocks, [], [], [0]⟩ w ∧
    w.instructions = order.flatMap m.indirectInsns ∧
    getIndirectInstructions m f = (w.instructions, f)

/-- `GetDisassembly` leaves the function as it is and, unless it has the lines already, ends with
those of a traversal. -/
def Function.DisassemblyExact (instructionToString : ExtendedInstruction → Nat → String)
    (m : Module) (f : Function) : Prop :=
  ∀ cache forceRecompute,
    (getDisassembly instructionToString m f cache forceRecompute).2 = f ∧
    (cache.isCached = false ∨ forceRecompute = true → ∃ order w, Traversal m f order ∧
      Loop.Exits (disassemblyStep instructionToString m f.isTrampoline)
        ⟨f.basicBlocks, ["start " ++ f.name ++ "\n"], [],
          OrdMap.empty.insert f.startAddress 0⟩ w ∧
      w.lines = ("start " ++ f.name ++ "\n") ::
        order.flatMap (blockLines instructionToString m f.isTrampoline) ∧
      (getDisassembly instructionToString m f cache forceRecompute).1 =
        ⟨w.lines ++ ["end " ++ f.name ++ "\n"], true⟩)

/-- A lookup of the start finds the first block. -/
theorem Function.Normal.lookup_start {f : Function} (hf : f.Normal) :
    getBasicBlockForAddress f.basicBlocks f.startAddress = ⟨some 0, f.basicBlocks, false⟩ := by
  obtain ⟨entry, hentry, hstart⟩ := Option.map_eq_some_iff.mp hf.first
  obtain ⟨rest, hblocks⟩ := List.head?_eq_some_iff.mp hentry
  unfold getBasicBlockForAddress findForSplit
  rw [hblocks, List.findIdx?_cons, if_pos (decide_eq_true (.inl hstart.symm))]
  dsimp only
  rw [List.getElem?_cons_zero]
  dsimp only
  rw [if_pos hstart.symm]

theorem getIndirectInstructions_exact {m : Module} {f : Function} (hf : f.Normal)
    (hm : m.StepsForward) : f.IndirectsExact m := by
  have he := IndirectWalk.Over.exits (m := m) hf
  obtain ⟨order, horder, hblocks, hinsns⟩ := IndirectWalk.Over.ended hf he
  refine ⟨order, _, hf.traversal hm horder, he, hinsns, ?_⟩
  unfold getIndirectInstructions
  rw [hf.lookup_start]
  dsimp only
  rw [hblocks]

theorem getDisassembly_exact {m : Module} {f : Function} (hf : f.Normal) (hm : m.StepsForward)
    (instructionToString : ExtendedInstruction → Nat → String) :
    f.DisassemblyExact instructionToString m := by
  intro cache forceRecompute
  have he := DisassemblyWalk.Over.exits instructionToString m ("start " ++ f.name ++ "\n") hf
  obtain ⟨order, horder, hblocks, hlines⟩ := DisassemblyWalk.Over.ended hf he
  obtain ⟨entry, hentry, hstart⟩ := Option.map_eq_some_iff.mp hf.first
  obtain ⟨rest, hfirst⟩ := List.head?_eq_some_iff.mp hentry
  by_cases hc : cache.isCached = false ∨ forceRecompute = true
  · have heq : getDisassembly instructionToString m f cache forceRecompute =
        (⟨(Loop.exec (disassemblyStep instructionToString m f.isTrampoline)
          (indirectFuel f.basicBlocks) ⟨f.basicBlocks, ["start " ++ f.name ++ "\n"], [],
            OrdMap.empty.insert f.startAddress 0⟩).lines ++ ["end " ++ f.name ++ "\n"], true⟩, f) := by
      unfold getDisassembly
      rw [if_pos hc]
      split
      · rename_i hnil
        rw [hnil] at hfirst
        cases hfirst
      · rename_i front _ hcons
        rw [hcons] at hfirst
        cases hfirst
        rw [hstart]
        dsimp only
        rw [hblocks]
    rw [heq]
    exact ⟨rfl, fun _ => ⟨order, _, hf.traversal hm horder, he, hlines, rfl⟩⟩
  · refine ⟨?_, fun h => absurd h hc⟩
    unfold getDisassembly
    rw [if_neg hc]

/-- **The walks of a normalised function** end, go through the blocks that are reached, report each
of their instructions once and leave the function as it is, though a lookup may split blocks. -/
theorem traversals_exact {m : Module} {f : Function} (hf : f.Normal) (hm : m.StepsForward)
    (instructionToString : ExtendedInstruction → Nat → String) :
    f.IndirectsExact m ∧ f.DisassemblyExact instructionToString m :=
  ⟨getIndirectInstructions_exact hf hm, getDisassembly_exact hf hm instructionToString⟩

/-- `skippedMov` with the edges of the branch, which joins at the call. -/
def joinedMovFunction : Function :=
  { name := "sub_1000", startAddress := 0x1000, basicBlocks :=
    [{ BasicBlock.create 0x1000 with endAddress := 0x1002, successors := [0x1009, 0x1002] },
      { BasicBlock.create 0x1009 with endAddress := 0x100b, successors := [0x100b] },
      { BasicBlock.create 0x1002 with endAddress := 0x1009, successors := [0x1009] }] }

theorem joinedMovFunction_normal : joinedMovFunction.Normal where
  partition := ⟨by decide, by decide⟩
  closed := by
    unfold AtStarts Covered
    decide
  first := rfl

theorem skippedMov_stepsForward : (sampleModule skippedMov).StepsForward := by
  have hall : ∀ e ∈ (sampleModule skippedMov).instructions.toList,
      0 < e.2.instruction.length ∧ e.1 + e.2.instruction.length < addrSpace := by
    decide +kernel
  exact fun a i hi => hall (a, i) (OrdMap.mem_toList_of_get? hi)

theorem joinedMovFunction_walks : joinedMovFunction.IndirectsExact (sampleModule skippedMov) ∧
    joinedMovFunction.DisassemblyExact (fun _ a => hex a) (sampleModule skippedMov) :=
  traversals_exact joinedMovFunction_normal skippedMov_stepsForward _

end ReWizard
