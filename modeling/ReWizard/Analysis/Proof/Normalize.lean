import ReWizard.Analysis.Units
import Mathlib.Data.List.Count

/-!
# Normalising blocks

`NormalizeBasicBlocks` only ever does two things to a block list: it splits a block at an address
strictly inside it, and it adds predecessors. What both keep holds of the result
(`normalizeBlocks_inv`); the loop finishes because every split uses up an entry inside a block
(`normalize_exits`).

* `normalizeBlocks_cover`: every address lies in as many blocks as before;
* `normalizeBlocks_piece`: every address of a block stays in a piece of that block;
* `normalizeBlocks_proper`, `normalizeBlocks_improper`: blocks with `start < end` stay such, and an
  empty block is not lost.
-/

namespace ReWizard

/-- The block list after block `k` was split at `a`. -/
def splitBlocks (blocks : List BasicBlock) (k : Nat) (b : BasicBlock) (a : Nat) :
    List BasicBlock := blocks.set k (b.split a).1 ++ [(b.split a).2]

/-- `a` lies strictly inside block `k` of the list, which is `b`. -/
structure Inside (blocks : List BasicBlock) (k : Nat) (b : BasicBlock) (a : Nat) : Prop where
  block : blocks[k]? = some b
  after : b.startAddress < a
  before : a < b.endAddress

section

variable {blocks : List BasicBlock} {k : Nat} {b p : BasicBlock} {a : Nat}

theorem left_mem_splitBlocks (hb : Inside blocks k b a) :
    (b.split a).1 ∈ splitBlocks blocks k b a := by
  have hk := (List.getElem?_eq_some_iff.mp hb.block).1
  exact List.mem_append_left _ (List.mem_of_getElem? (List.getElem?_set_self hk))

theorem right_mem_splitBlocks : (b.split a).2 ∈ splitBlocks blocks k b a :=
  List.mem_append_right _ List.mem_cons_self

/-- Every block is an old one or one of the halves. -/
theorem of_mem_splitBlocks (hp : p ∈ splitBlocks blocks k b a) :
    p ∈ blocks ∨ p = (b.split a).1 ∨ p = (b.split a).2 := by
  rcases List.mem_append.mp hp with hp | hp
  · rcases List.mem_or_eq_of_mem_set hp with hp | hp
    · exact .inl hp
    · exact .inr (.inl hp)
  · exact .inr (.inr (List.mem_singleton.mp hp))

/-- The blocks that are not split stay. -/
theorem mem_splitBlocks (hb : Inside blocks k b a) (hp : p ∈ blocks) :
    p = b ∨ p ∈ splitBlocks blocks k b a := by
  obtain ⟨n, hn⟩ := List.getElem?_of_mem hp
  by_cases hnk : k = n
  · rw [← hnk, hb.block] at hn
    cases hn
    exact .inl rfl
  · refine .inr (List.mem_append_left _ (List.mem_of_getElem? (i := n) ?_))
    rw [List.getElem?_set_ne hnk]
    exact hn

/-- A block stays when predecessors are added, apart from its predecessors. -/
theorem mem_link (hp : p ∈ blocks) (start : Nat) :
    ∃ q ∈ blocks.modify k fun b => b.addPredecessor start, q = p ∨ q = p.addPredecessor start := by
  obtain ⟨n, hn⟩ := List.getElem?_of_mem hp
  by_cases hnk : k = n
  · refine ⟨p.addPredecessor start, List.mem_of_getElem? (i := n) ?_, .inr rfl⟩
    rw [List.getElem?_modify, hn, Option.map_eq_map, Option.map_some, if_pos hnk]
  · refine ⟨p, List.mem_of_getElem? (i := n) ?_, .inl rfl⟩
    rw [List.getElem?_modify, hn, Option.map_eq_map, Option.map_some, if_neg hnk]

end

/-! ## The splitting lookup -/

/-- The splitting lookup leaves the blocks alone, or splits one that has the address inside. -/
theorem getBasicBlockForAddress_cases (blocks : List BasicBlock) (a : Nat) :
    ((getBasicBlockForAddress blocks a).blocks = blocks ∧
      (getBasicBlockForAddress blocks a).wasSplit = false) ∨
    ((getBasicBlockForAddress blocks a).wasSplit = true ∧
      (getBasicBlockForAddress blocks a).index = some blocks.length ∧
      ∃ k b, Inside blocks k b a ∧
        (getBasicBlockForAddress blocks a).blocks = splitBlocks blocks k b a) := by
  unfold getBasicBlockForAddress
  cases hk : findForSplit blocks a with
  | none => exact .inl ⟨rfl, rfl⟩
  | some k =>
    dsimp only
    cases hb : blocks[k]? with
    | none => exact .inl ⟨rfl, rfl⟩
    | some b =>
      dsimp only
      by_cases ha : a = b.startAddress
      · rw [if_pos ha]
        exact .inl ⟨rfl, rfl⟩
      · rw [if_neg ha]
        refine .inr ⟨rfl, rfl, k, b, ?_, rfl⟩
        obtain ⟨hlt, hp, -⟩ := List.findIdx?_eq_some_iff_getElem.mp hk
        rw [List.getElem?_eq_getElem hlt] at hb
        cases hb
        rcases of_decide_eq_true hp with h | ⟨h1, h2⟩
        · exact absurd h ha
        · exact ⟨List.getElem?_eq_getElem hlt, h1, h2⟩

/-! ## What the loop keeps -/

section

variable {I : List BasicBlock → Prop} {entries : List Nat}

/-- Every successor is an entry. -/
def SuccessorsIn (entries : List Nat) (blocks : List BasicBlock) : Prop :=
  ∀ b ∈ blocks, ∀ a ∈ b.successors, a ∈ entries

theorem SuccessorsIn.split {blocks : List BasicBlock} {k : Nat} {b : BasicBlock} {a : Nat}
    (h : SuccessorsIn entries blocks) (hb : Inside blocks k b a) (ha : a ∈ entries) :
    SuccessorsIn entries (splitBlocks blocks k b a) := by
  intro c hc x hx
  rcases of_mem_splitBlocks hc with hc | rfl | rfl
  · exact h c hc x hx
  · rw [List.mem_singleton.mp hx]
    exact ha
  · exact h b (List.mem_of_getElem? hb.block) x hx

theorem mem_modify {blocks : List BasicBlock} {k : Nat} {f : BasicBlock → BasicBlock}
    {c : BasicBlock} (h : c ∈ blocks.modify k f) : ∃ b ∈ blocks, c = b ∨ c = f b := by
  obtain ⟨n, hn⟩ := List.getElem?_of_mem h
  rw [List.getElem?_modify] at hn
  cases hb : blocks[n]? with
  | none => simp [hb] at hn
  | some b =>
    refine ⟨b, List.mem_of_getElem? hb, ?_⟩
    rw [hb] at hn
    simp only [Option.map_eq_map, Option.map_some, Option.some.injEq] at hn
    split at hn
    · exact .inr hn.symm
    · exact .inl hn.symm

theorem SuccessorsIn.link {blocks : List BasicBlock} (h : SuccessorsIn entries blocks)
    (k start : Nat) :
    SuccessorsIn entries (blocks.modify k fun b => b.addPredecessor start) := by
  intro c hc x hx
  obtain ⟨b, hb, rfl | rfl⟩ := mem_modify hc
  · exact h c hb x hx
  · exact h b hb x hx

/-- The two changes keep `I`. -/
structure Kept (I : List BasicBlock → Prop) (entries : List Nat) : Prop where
  split : ∀ blocks k b a, I blocks → Inside blocks k b a → a ∈ entries →
    I (splitBlocks blocks k b a)
  link : ∀ blocks k start, I blocks → I (blocks.modify k fun b => b.addPredecessor start)

theorem Kept.getBasicBlockForAddress (hI : Kept I entries) {blocks : List BasicBlock} {a : Nat}
    (h : I blocks) (ha : a ∈ entries) :
    I (getBasicBlockForAddress blocks a).blocks := by
  rcases getBasicBlockForAddress_cases blocks a with ⟨heq, -⟩ | ⟨-, -, k, b, hb, heq⟩
  · rwa [heq]
  · rw [heq]
    exact hI.split blocks k b a h hb ha

theorem Kept.splitAtEntry (hI : Kept I entries) {blocks : List BasicBlock} {b : BasicBlock}
    (h : I blocks) : ∀ {l : List Nat} {blocks' : List BasicBlock}, (∀ a ∈ l, a ∈ entries) →
      splitAtEntry blocks b l = some blocks' → I blocks'
  | [], _, _, hs => by cases hs
  | a :: rest, blocks', hl, hs => by
    have hrest := fun x hx => hl x (List.mem_cons_of_mem a hx)
    unfold ReWizard.splitAtEntry at hs
    split at hs
    · dsimp only at hs
      split at hs
      · cases hs
        exact hI.getBasicBlockForAddress h (hl a List.mem_cons_self)
      · exact hI.splitAtEntry h hrest hs
    · exact hI.splitAtEntry h hrest hs

theorem Kept.linkSuccessors (hI : Kept I entries) (start : Nat) : ∀ {l : List Nat}
    {blocks : List BasicBlock}, I blocks → (∀ a ∈ l, a ∈ entries) →
      I (linkSuccessors start blocks l).1
  | [], _, h, _ => h
  | a :: rest, blocks, h, hl => by
    have hrest := fun x hx => hl x (List.mem_cons_of_mem a hx)
    have ha := hI.getBasicBlockForAddress h (hl a List.mem_cons_self)
    unfold ReWizard.linkSuccessors
    dsimp only
    split
    · exact hI.linkSuccessors start h hrest
    · split
      · exact hI.link _ _ _ ha
      · exact hI.linkSuccessors start (hI.link _ _ _ ha) hrest

theorem Kept.and_successors (hI : Kept I entries) :
    Kept (fun blocks => I blocks ∧ SuccessorsIn entries blocks) entries where
  split := fun blocks k b a h hb ha => ⟨hI.split blocks k b a h.1 hb ha, h.2.split hb ha⟩
  link := fun blocks k start h => ⟨hI.link blocks k start h.1, h.2.link k start⟩

theorem Kept.normalizeStep (hI : Kept I entries) {s s' : NormState}
    (h : I s.blocks ∧ SuccessorsIn entries s.blocks) (hn : normalizeStep entries s = .next s') :
    I s'.blocks ∧ SuccessorsIn entries s'.blocks := by
  have hI' := hI.and_successors
  unfold ReWizard.normalizeStep at hn
  split at hn
  · cases hn
  · rename_i b hb
    split at hn
    · rename_i blocks hs
      cases hn
      exact hI'.splitAtEntry h (fun _ ha => ha) hs
    · have hl := hI'.linkSuccessors b.startAddress h
        (h.2 b (List.mem_of_getElem? hb))
      split at hn
      · rename_i blocks heq
        cases hn
        rwa [heq] at hl
      · rename_i blocks heq
        cases hn
        rwa [heq] at hl

theorem normalizeStep_done {s s' : NormState} (hn : normalizeStep entries s = .done s') :
    s' = s ∧ s.blocks[s.index]? = none := by
  unfold normalizeStep at hn
  split at hn
  · rename_i hb
    cases hn
    exact ⟨rfl, hb⟩
  · split at hn
    · cases hn
    · split at hn <;> cases hn

theorem mem_foldl_insert {l : List Nat} : ∀ {s : OrdSet Nat} {a : Nat},
    a ∈ l.foldl OrdSet.insert s ↔ a ∈ s ∨ a ∈ l := by
  induction l with
  | nil => simp
  | cons x rest ih =>
    intro s a
    rw [List.foldl_cons, ih, OrdSet.mem_insert, List.mem_cons]
    constructor
    · rintro ((h | h) | h)
      · exact .inr (.inl h)
      · exact .inl h
      · exact .inr (.inr h)
    · rintro (h | h | h)
      · exact .inl (.inr h)
      · exact .inl (.inl h)
      · exact .inr h

/-- The entries are the block starts and the successors. -/
theorem mem_collectEntries {blocks : List BasicBlock} {a : Nat} :
    a ∈ (collectEntries blocks).toList ↔
      ∃ b ∈ blocks, a = b.startAddress ∨ a ∈ b.successors := by
  have hgen : ∀ (l : List BasicBlock) (s : OrdSet Nat),
      a ∈ l.foldl (fun s b => b.successors.foldl OrdSet.insert (s.insert b.startAddress)) s ↔
        a ∈ s ∨ ∃ b ∈ l, a = b.startAddress ∨ a ∈ b.successors := by
    intro l
    induction l with
    | nil => simp
    | cons b rest ih =>
      intro s
      rw [List.foldl_cons, ih, mem_foldl_insert, OrdSet.mem_insert]
      simp only [List.mem_cons, exists_eq_or_imp]
      constructor
      · rintro (((h | h) | h) | h)
        · exact .inr (.inl (.inl h))
        · exact .inl h
        · exact .inr (.inl (.inr h))
        · exact .inr (.inr h)
      · rintro (h | ((h | h) | h))
        · exact .inl (.inl (.inr h))
        · exact .inl (.inl (.inl h))
        · exact .inl (.inr h)
        · exact .inr h
  have := hgen blocks OrdSet.empty
  rw [← OrdSet.mem_def]
  unfold collectEntries
  rw [this]
  simp

/-! ## Termination -/

/-- The number of entries strictly inside a block, over all blocks. -/
def entriesInside (entries : List Nat) (blocks : List BasicBlock) : Nat :=
  (blocks.map fun b => entries.countP fun a =>
    decide (b.startAddress < a ∧ a < b.endAddress)).sum

theorem countP_split {a s e : Nat} (h1 : s < a) (h2 : a < e) : ∀ {l : List Nat}, l.Nodup →
    l.countP (fun x => decide (s < x ∧ x < a)) + l.countP (fun x => decide (a < x ∧ x < e)) +
      (if a ∈ l then 1 else 0) = l.countP (fun x => decide (s < x ∧ x < e))
  | [], _ => by simp
  | x :: rest, hnd => by
    obtain ⟨hx, hrest⟩ := List.nodup_cons.mp hnd
    have ih := countP_split h1 h2 hrest
    simp only [List.countP_cons, List.mem_cons, decide_eq_true_eq]
    by_cases hxa : a = x
    · subst hxa
      rw [if_neg (by omega), if_neg (by omega), if_pos (.inl rfl), if_pos ⟨h1, h2⟩]
      rw [if_neg hx] at ih
      omega
    · have hmem : (a = x ∨ a ∈ rest) ↔ a ∈ rest := ⟨fun h => h.resolve_left hxa, .inr⟩
      simp only [hmem]
      generalize (if a ∈ rest then 1 else 0) = n at ih ⊢
      by_cases hs : s < x ∧ x < e
      · rw [if_pos hs]
        by_cases hlt : x < a
        · rw [if_pos ⟨hs.1, hlt⟩, if_neg (by omega)]
          omega
        · rw [if_neg (by omega), if_pos (by omega)]
          omega
      · rw [if_neg hs, if_neg (by omega), if_neg (by omega)]
        omega

theorem sum_set {l : List Nat} : ∀ {k x : Nat}, l[k]? = some x → ∀ y,
    (l.set k y).sum + x = l.sum + y := by
  induction l with
  | nil => intro k x h; simp at h
  | cons a rest ih =>
    intro k x h y
    cases k with
    | zero =>
      simp only [List.getElem?_cons_zero, Option.some.injEq] at h
      subst h
      simp only [List.set_cons_zero, List.sum_cons]
      omega
    | succ k =>
      have := ih (by simpa using h) y
      simp only [List.set_cons_succ, List.sum_cons]
      omega

/-- A split at an entry leaves one entry less inside. -/
theorem entriesInside_split {blocks : List BasicBlock} {k : Nat} {b : BasicBlock} {a : Nat}
    (hnd : entries.Nodup) (hb : Inside blocks k b a) (ha : a ∈ entries) :
    entriesInside entries (splitBlocks blocks k b a) + 1 = entriesInside entries blocks := by
  have hc := countP_split hb.after hb.before hnd
  rw [if_pos ha] at hc
  unfold entriesInside splitBlocks
  rw [List.map_append, List.sum_append, List.map_set]
  have hk : (blocks.map fun b => entries.countP fun a =>
      decide (b.startAddress < a ∧ a < b.endAddress))[k]? = some (entries.countP fun a =>
      decide (b.startAddress < a ∧ a < b.endAddress)) := by
    rw [List.getElem?_map, hb.block, Option.map_some]
  have := sum_set hk (entries.countP fun x => decide (b.startAddress < x ∧ x < a))
  show ((blocks.map _).set k (entries.countP fun x => decide (b.startAddress < x ∧ x < a))).sum +
    ([entries.countP fun x => decide (a < x ∧ x < b.endAddress)].sum) + 1 = _
  rw [List.sum_singleton]
  omega

/-- A modification that keeps a value keeps the list of the values. -/
theorem map_modify_of_eq {α β : Type _} {f : α → β} {g : α → α} (h : ∀ a, f (g a) = f a)
    (l : List α) (k : Nat) : (l.modify k g).map f = l.map f := by
  apply List.ext_getElem?
  intro n
  rw [List.getElem?_map, List.getElem?_map, List.getElem?_modify]
  cases l[n]? with
  | none => rfl
  | some a =>
    simp only [Option.map_eq_map, Option.map_some]
    split
    · rw [h]
    · rfl

theorem entriesInside_link (blocks : List BasicBlock) (k start : Nat) :
    entriesInside entries (blocks.modify k fun b => b.addPredecessor start) =
      entriesInside entries blocks :=
  congrArg List.sum (map_modify_of_eq (g := (·.addPredecessor start)) (fun _ => rfl) blocks k)

theorem entriesInside_le (blocks : List BasicBlock) :
    entriesInside entries blocks ≤ blocks.length * entries.length := by
  unfold entriesInside
  induction blocks with
  | nil => simp
  | cons b rest ih =>
    have := List.countP_le_length (p := fun a => decide (b.startAddress < a ∧ a < b.endAddress))
      (l := entries)
    rw [List.map_cons, List.sum_cons, List.length_cons, Nat.succ_mul]
    omega

/-- With `N` the number of blocks and of entries inside, what a list of blocks and what remains to
be split have in common. -/
theorem kept_total (hnd : entries.Nodup) (N : Nat) :
    Kept (fun blocks => blocks.length + entriesInside entries blocks = N) entries where
  split := by
    intro blocks k b a h hb ha
    have := entriesInside_split hnd hb ha
    have hlen : (splitBlocks blocks k b a).length = blocks.length + 1 := by
      unfold splitBlocks
      rw [List.length_append, List.length_set, List.length_singleton]
    omega
  link := by
    intro blocks k start h
    rw [List.length_modify, entriesInside_link]
    exact h

/-- A split in the loop over the entries. -/
theorem splitAtEntry_some {blocks : List BasicBlock} {b : BasicBlock} :
    ∀ {l : List Nat} {blocks' : List BasicBlock}, splitAtEntry blocks b l = some blocks' →
      ∃ k c a, a ∈ l ∧ Inside blocks k c a ∧ blocks' = splitBlocks blocks k c a
  | [], _, hs => by cases hs
  | a :: rest, blocks', hs => by
    have hrest : splitAtEntry blocks b rest = some blocks' →
        ∃ k c x, x ∈ a :: rest ∧ Inside blocks k c x ∧ blocks' = splitBlocks blocks k c x := by
      intro h
      obtain ⟨k, c, x, hx, hin, heq⟩ := splitAtEntry_some h
      exact ⟨k, c, x, List.mem_cons_of_mem a hx, hin, heq⟩
    unfold splitAtEntry at hs
    split at hs
    · dsimp only at hs
      split at hs
      · rename_i hsplit
        cases hs
        rcases getBasicBlockForAddress_cases blocks a with ⟨-, hno⟩ | ⟨-, -, k, c, hin, heq⟩
        · rw [hno] at hsplit
          cases hsplit
        · exact ⟨k, c, a, List.mem_cons_self, hin, heq⟩
      · exact hrest hs
    · exact hrest hs

/-- The loop over the successors: no split changes no count, and a split uses up one entry. -/
theorem linkSuccessors_inside (hnd : entries.Nodup) (start : Nat) : ∀ {l : List Nat}
    {blocks blocks' : List BasicBlock} {flag : Bool}, (∀ a ∈ l, a ∈ entries) →
      linkSuccessors start blocks l = (blocks', flag) →
      (flag = true → entriesInside entries blocks' + 1 = entriesInside entries blocks) ∧
      (flag = false → entriesInside entries blocks' = entriesInside entries blocks)
  | [], blocks, blocks', flag, _, h => by
    cases h
    exact ⟨Bool.noConfusion, fun _ => rfl⟩
  | a :: rest, blocks, blocks', flag, hl, h => by
    have hrest := fun x hx => hl x (List.mem_cons_of_mem a hx)
    unfold linkSuccessors at h
    dsimp only at h
    split at h
    · exact linkSuccessors_inside hnd start hrest h
    · rename_i k _
      rcases getBasicBlockForAddress_cases blocks a with ⟨heq, hno⟩ | ⟨hyes, -, j, c, hin, heq⟩
      · rw [hno, heq] at h
        have := linkSuccessors_inside hnd start hrest h
        rwa [entriesInside_link] at this
      · rw [if_pos hyes] at h
        cases h
        refine ⟨fun _ => ?_, Bool.noConfusion⟩
        rw [entriesInside_link, heq]
        exact entriesInside_split hnd hin (hl a List.mem_cons_self)

/-- The measure of the loop, for `N` blocks when every entry inside is split off: the splits that
remain, and for each a pass over the blocks. -/
def normalizeMeasure (entries : List Nat) (N : Nat) (s : NormState) : Nat :=
  entriesInside entries s.blocks * (N + 2) + (N + 1 - s.index)

theorem normalizeMeasure_split {N : Nat} {s : NormState} {blocks : List BasicBlock}
    (h : entriesInside entries blocks + 1 = entriesInside entries s.blocks) :
    normalizeMeasure entries N ⟨blocks, 0⟩ < normalizeMeasure entries N s := by
  have hmul : entriesInside entries s.blocks * (N + 2) =
      entriesInside entries blocks * (N + 2) + (N + 2) := by
    rw [← h, Nat.succ_mul]
  unfold normalizeMeasure
  dsimp only
  omega

theorem normalizeMeasure_step {N : Nat} (hnd : entries.Nodup) {s s' : NormState}
    (hN : s.blocks.length + entriesInside entries s.blocks = N)
    (hs : SuccessorsIn entries s.blocks) (hn : normalizeStep entries s = .next s') :
    normalizeMeasure entries N s' < normalizeMeasure entries N s := by
  unfold normalizeStep at hn
  split at hn
  · cases hn
  · rename_i b hb
    split at hn
    · rename_i blocks hsplit
      cases hn
      obtain ⟨k, c, a, ha, hin, rfl⟩ := splitAtEntry_some hsplit
      exact normalizeMeasure_split (entriesInside_split hnd hin ha)
    · have hl := hs b (List.mem_of_getElem? hb)
      split at hn
      · rename_i blocks heq
        cases hn
        exact normalizeMeasure_split ((linkSuccessors_inside hnd _ hl heq).1 rfl)
      · rename_i blocks heq
        cases hn
        have hsame := (linkSuccessors_inside hnd _ hl heq).2 rfl
        have hindex := (List.getElem?_eq_some_iff.mp hb).1
        unfold normalizeMeasure
        dsimp only
        rw [hsame]
        omega

/-- The loop finishes within its bound. -/
theorem normalize_exits {blocks : List BasicBlock} (hnd : entries.Nodup)
    (hs : SuccessorsIn entries blocks) :
    Loop.Exits (normalizeStep entries) ⟨blocks, 0⟩
      (Loop.exec (normalizeStep entries) (normalizeFuel blocks entries) ⟨blocks, 0⟩) := by
  have hkept := kept_total hnd (blocks.length + entriesInside entries blocks)
  refine Loop.exec_exits
    (I := fun s => s.blocks.length + entriesInside entries s.blocks =
      blocks.length + entriesInside entries blocks ∧ SuccessorsIn entries s.blocks)
    (normalizeMeasure entries (blocks.length + entriesInside entries blocks))
    (fun s s' h hn => ⟨hkept.normalizeStep h hn, normalizeMeasure_step hnd h.1 h.2 hn⟩)
    ⟨rfl, hs⟩ ?_
  have hle : entriesInside entries blocks ≤ blocks.length * entries.length :=
    entriesInside_le blocks
  have hmul : blocks.length * (entries.length + 1) =
      blocks.length * entries.length + blocks.length := Nat.mul_succ _ _
  calc normalizeMeasure entries (blocks.length + entriesInside entries blocks) ⟨blocks, 0⟩
      < (entriesInside entries blocks + 1) *
          (blocks.length + entriesInside entries blocks + 2) := by
        rw [Nat.succ_mul]
        unfold normalizeMeasure
        dsimp only
        omega
    _ ≤ normalizeFuel blocks entries := by
        unfold normalizeFuel
        exact Nat.mul_le_mul (by omega) (by omega)

end

/-- **What splitting and linking keep holds after `NormalizeBasicBlocks`.** -/
theorem normalizeBlocks_inv {I : List BasicBlock → Prop} {blocks : List BasicBlock}
    (hI : Kept I (collectEntries blocks).toList) (h : I blocks) : I (normalizeBlocks blocks) := by
  have hs : SuccessorsIn (collectEntries blocks).toList blocks := fun b hb a ha =>
    mem_collectEntries.mpr ⟨b, hb, .inr ha⟩
  have hnd : (collectEntries blocks).toList.Nodup := (collectEntries blocks).sorted.imp ne_of_lt
  obtain ⟨r, hr, hd⟩ := (normalize_exits hnd hs).inv
    (I := fun s => I s.blocks ∧ SuccessorsIn (collectEntries blocks).toList s.blocks) ⟨h, hs⟩
    fun s s' hs' hn => hI.normalizeStep hs' hn
  unfold normalizeBlocks
  dsimp only
  rw [(normalizeStep_done hd).1]
  exact hr.1

/-! ## Which addresses the blocks cover -/

/-- The number of blocks that contain the address. -/
def cover (blocks : List BasicBlock) (x : Nat) : Nat :=
  blocks.countP fun b => decide (b.Contains x)

theorem cover_append (l l' : List BasicBlock) (x : Nat) :
    cover (l ++ l') x = cover l x + cover l' x := List.countP_append

theorem cover_singleton (b : BasicBlock) (x : Nat) :
    cover [b] x = if b.startAddress ≤ x ∧ x < b.endAddress then 1 else 0 := by
  unfold cover
  rw [List.countP_singleton]
  by_cases h : b.Contains x
  · rw [if_pos (decide_eq_true h), if_pos (c := b.startAddress ≤ x ∧ _) h]
  · rw [if_neg (mt of_decide_eq_true h), if_neg (c := b.startAddress ≤ x ∧ _) h]

theorem cover_set {blocks : List BasicBlock} {k : Nat} {b c : BasicBlock} (hb : blocks[k]? = some b)
    (x : Nat) : cover (blocks.set k c) x + cover [b] x = cover blocks x + cover [c] x := by
  obtain ⟨hk, rfl⟩ := List.getElem?_eq_some_iff.mp hb
  unfold cover
  rw [List.countP_singleton, List.countP_singleton, List.countP_set hk]
  have hpos : (if decide (blocks[k].Contains x) = true then 1 else 0) ≤
      blocks.countP fun b => decide (b.Contains x) := by
    split
    · rename_i h
      exact List.countP_pos_iff.mpr ⟨_, List.getElem_mem hk, h⟩
    · exact Nat.zero_le _
  omega

/-- Splitting a block keeps the addresses that it covers. -/
theorem cover_split {blocks : List BasicBlock} {k : Nat} {b : BasicBlock} {a : Nat}
    (hb : Inside blocks k b a) (x : Nat) : cover (splitBlocks blocks k b a) x = cover blocks x := by
  have hset := cover_set (c := (b.split a).1) hb.block x
  have h1 := hb.after
  have h2 := hb.before
  have hparts : cover [(b.split a).1] x + cover [(b.split a).2] x = cover [b] x := by
    rw [cover_singleton, cover_singleton, cover_singleton]
    show (if b.startAddress ≤ x ∧ x < a then 1 else 0) +
      (if a ≤ x ∧ x < b.endAddress then 1 else 0) = _
    by_cases hx : x < a
    · rw [if_neg (c := a ≤ x ∧ _) (by omega)]
      by_cases hs : b.startAddress ≤ x
      · rw [if_pos ⟨hs, hx⟩, if_pos ⟨hs, by omega⟩]
      · rw [if_neg (by omega), if_neg (by omega)]
    · rw [if_neg (c := b.startAddress ≤ x ∧ x < a) (by omega)]
      by_cases he : x < b.endAddress
      · rw [if_pos ⟨by omega, he⟩, if_pos ⟨by omega, he⟩]
      · rw [if_neg (by omega), if_neg (by omega)]
  unfold splitBlocks
  rw [cover_append]
  omega

theorem cover_link (blocks : List BasicBlock) (k start x : Nat) :
    cover (blocks.modify k fun b => b.addPredecessor start) x = cover blocks x := by
  cases hb : blocks[k]? with
  | none => rw [List.modify_eq_self (List.getElem?_eq_none_iff.mp hb)]
  | some b =>
    have hset := cover_set (c := b.addPredecessor start) hb x
    have hsame : cover [b.addPredecessor start] x = cover [b] x := rfl
    rw [List.modify_eq_set_getElem?, hb]
    show cover (blocks.set k (b.addPredecessor start)) x = _
    omega

/-- Normalisation moves no address from one block to two, and drops none. -/
theorem normalizeBlocks_cover (blocks : List BasicBlock) (x : Nat) :
    cover (normalizeBlocks blocks) x = cover blocks x :=
  normalizeBlocks_inv (I := fun bs => cover bs x = cover blocks x)
    ⟨fun _ _ _ _ h hb _ => (cover_split hb x).trans h,
      fun bs k start h => (cover_link bs k start x).trans h⟩ rfl

/-! ## Pieces of a block -/

/-- `p` is a piece of `b`: it ends where `b` does and has the successors of `b`, or it ends at an
entry inside `b` and has that entry as its only successor. -/
def PieceOf (entries : List Nat) (b p : BasicBlock) : Prop :=
  (p.endAddress = b.endAddress ∧ p.successors = b.successors) ∨
    (p.endAddress < b.endAddress ∧ p.endAddress ∈ entries ∧ p.successors = [p.endAddress])

/-- Every address of a block lies in a piece of it. -/
theorem normalizeBlocks_piece {blocks : List BasicBlock} {b : BasicBlock} (hb : b ∈ blocks)
    {x : Nat} (hx : b.Contains x) :
    ∃ p ∈ normalizeBlocks blocks, p.Contains x ∧ PieceOf (collectEntries blocks).toList b p := by
  refine normalizeBlocks_inv (I := fun bs =>
    ∃ p ∈ bs, p.Contains x ∧ PieceOf (collectEntries blocks).toList b p) ⟨?_, ?_⟩
    ⟨b, hb, hx, .inl ⟨rfl, rfl⟩⟩
  · rintro bs k c a ⟨p, hp, hpx, hpiece⟩ hc ha
    rcases mem_splitBlocks hc hp with rfl | hp
    · -- the piece itself is split, and one half has the address
      have hbefore := hc.before
      by_cases hxa : x < a
      · refine ⟨(p.split a).1, left_mem_splitBlocks hc, ⟨hpx.1, hxa⟩, .inr ⟨?_, ha, rfl⟩⟩
        show a < b.endAddress
        rcases hpiece with ⟨he, -⟩ | ⟨hlt, -⟩
        · exact he ▸ hbefore
        · exact hbefore.trans hlt
      · exact ⟨(p.split a).2, right_mem_splitBlocks, ⟨Nat.le_of_not_lt hxa, hpx.2⟩, hpiece⟩
    · exact ⟨p, hp, hpx, hpiece⟩
  · rintro bs k start ⟨p, hp, hpx, hpiece⟩
    obtain ⟨q, hq, rfl | rfl⟩ := mem_link (k := k) hp start
    · exact ⟨q, hq, hpx, hpiece⟩
    · exact ⟨_, hq, hpx, hpiece⟩

/-! ## Empty blocks -/

/-- The block has an address. -/
def BasicBlock.Proper (b : BasicBlock) : Prop := b.startAddress < b.endAddress

instance (b : BasicBlock) : Decidable b.Proper := inferInstanceAs (Decidable (_ < _))

theorem splitBlocks_proper {blocks : List BasicBlock} (h : ∀ b ∈ blocks, b.Proper) {k : Nat}
    {b : BasicBlock} {a : Nat} (hb : Inside blocks k b a) :
    ∀ p ∈ splitBlocks blocks k b a, p.Proper := by
  intro p hp
  rcases of_mem_splitBlocks hp with hp | rfl | rfl
  · exact h p hp
  · exact hb.after
  · exact hb.before

theorem normalizeBlocks_proper {blocks : List BasicBlock} (h : ∀ b ∈ blocks, b.Proper) :
    ∀ b ∈ normalizeBlocks blocks, b.Proper := by
  refine normalizeBlocks_inv (I := fun bs => ∀ b ∈ bs, b.Proper) ⟨?_, ?_⟩ h
  · intro bs k b a hbs hb _
    exact splitBlocks_proper hbs hb
  · intro bs k start hbs c hc
    obtain ⟨b, hb, rfl | rfl⟩ := mem_modify hc
    · exact hbs c hb
    · exact hbs b hb

/-- A block that has no address is never split, so it stays. -/
theorem normalizeBlocks_improper {blocks : List BasicBlock} (h : ∃ b ∈ blocks, ¬ b.Proper) :
    ∃ b ∈ normalizeBlocks blocks, ¬ b.Proper := by
  refine normalizeBlocks_inv (I := fun bs => ∃ b ∈ bs, ¬ b.Proper) ⟨?_, ?_⟩ h
  · rintro bs k b a ⟨c, hc, himp⟩ hb _
    rcases mem_splitBlocks hb hc with rfl | hc
    · exact absurd (hb.after.trans hb.before) himp
    · exact ⟨c, hc, himp⟩
  · rintro bs k start ⟨c, hc, himp⟩
    obtain ⟨q, hq, rfl | rfl⟩ := mem_link (k := k) hc start
    · exact ⟨q, hq, himp⟩
    · exact ⟨_, hq, himp⟩

end ReWizard
