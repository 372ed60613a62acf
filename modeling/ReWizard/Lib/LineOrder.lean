import ReWizard.Lib.BreadthFirst

/-!
# Lines in breadth-first order

A program that follows a line of members as far as it has not seen them before, and keeps what the
members of the line lead to for later, first come first served. `line p` is the line from `p`, and
`out a` is what `a` leads to. It may leave out what it has seen, and may keep the same target twice.

* `LineWalk.order`: it comes to the members in the order in which the lines have them, taken from the
  targets in breadth-first order (`lineOrder`).
-/

namespace BreadthFirst

variable {α : Type _} [DecidableEq α]

theorem filter_discover (p : α → Bool) : ∀ (l order : List α),
    (discover order l).filter p = discover (order.filter p) (l.filter p)
  | [], _ => rfl
  | a :: l, order => by
    rw [discover_cons, filter_discover p l, discover_singleton]
    cases ha : p a with
    | true =>
      have hmem : a ∈ order.filter p ↔ a ∈ order := by
        rw [List.mem_filter]
        exact ⟨And.left, fun h => ⟨h, ha⟩⟩
      rw [List.filter_cons_of_pos ha, discover_cons, discover_singleton]
      split
      · rename_i hin
        rw [if_pos (hmem.mpr hin)]
      · rename_i hout
        rw [if_neg (mt hmem.mp hout), List.filter_append, List.filter_cons_of_pos ha]
        rfl
    | false =>
      rw [List.filter_cons_of_neg (by simp [ha])]
      split
      · rfl
      · rw [List.filter_append, List.filter_cons_of_neg (by simp [ha]), List.filter_nil,
          List.append_nil]

theorem discover_eq_append : ∀ {l order : List α}, l.Nodup →
    discover order l = order ++ l.filter fun a => decide (a ∉ order)
  | [], order, _ => (List.append_nil order).symm
  | a :: l, order, h => by
    obtain ⟨ha, hl⟩ := List.nodup_cons.mp h
    rw [discover_cons, discover_eq_append hl, discover_singleton]
    by_cases hin : a ∈ order
    · rw [if_pos hin, List.filter_cons_of_neg (by simp [hin])]
    · rw [if_neg hin, List.filter_cons_of_pos (by simp [hin]), List.append_assoc]
      refine congrArg (order ++ a :: ·) (List.filter_congr fun b hb => ?_)
      have hba : b ≠ a := fun h => ha (h ▸ hb)
      simp [hba]

section

variable (line out : α → List α)

/-- What the members of the line lead to. -/
def lineTargets (p : α) : List α := (line p).flatMap out

/-- The members of the first `n` lines, each where it is first met. -/
def lineOrder (entry : α) (n : Nat) : List α :=
  discover [] ((orderAfter (lineTargets line out) [entry] n).flatMap line)

/-- Some member of the line was not met. -/
def fresh (done : List α) (p : α) : Bool := decide (∃ a ∈ line p, a ∉ done)

/-- The program after it has met `done`, with the targets that it keeps. -/
inductive LineWalk (entry : α) : List α → List α → Prop
  | start : LineWalk entry [] [entry]
  | follow {done rest new added : List α} {p : α} : LineWalk entry done (p :: rest) →
      new = ((line p).filter fun a => decide (a ∉ done)) →
      added.filter (fresh line (done ++ new)) =
        (new.flatMap out).filter (fresh line (done ++ new)) →
      LineWalk entry (done ++ new) (rest ++ added)

variable {line out} {entry p : α} {done queue : List α}

theorem fresh_eq_false : fresh line done p = false ↔ ∀ a ∈ line p, a ∈ done := by
  unfold fresh
  rw [decide_eq_false_iff_not]
  push Not
  rfl

theorem fresh_mono {more : List α} (h : fresh line (done ++ more) p = true) :
    fresh line done p = true := by
  obtain ⟨a, ha, hnew⟩ := of_decide_eq_true h
  exact decide_eq_true ⟨a, ha, fun hin => hnew (List.mem_append_left _ hin)⟩

theorem filter_fresh_mono (more l : List α) :
    (l.filter (fresh line done)).filter (fresh line (done ++ more)) =
      l.filter (fresh line (done ++ more)) := by
  rw [List.filter_filter]
  refine List.filter_congr fun a _ => ?_
  cases h : fresh line (done ++ more) a with
  | false => rfl
  | true => exact fresh_mono h

/-- The order up to its turn is the order before with the one whose turn it is. -/
theorem take_orderAfter_succ {succ : α → List α} {init : List α} {i : Nat}
    (h : (orderAfter succ init i)[i]? = some p) :
    (orderAfter succ init (i + 1)).take (i + 1) = (orderAfter succ init i).take i ++ [p] := by
  obtain ⟨hlt, hget⟩ := List.getElem?_eq_some_iff.mp h
  obtain ⟨more, hmore⟩ : orderAfter succ init i <+: orderAfter succ init (i + 1) :=
    prefix_orderAfter (Nat.le_succ i)
  rw [← hmore, List.take_append_of_le_length hlt, List.take_succ_eq_append_getElem hlt, hget]

omit [DecidableEq α] in
theorem getElem?_of_drop_eq_cons {l after : List α} {i : Nat} (h : l.drop i = p :: after) :
    l[i]? = some p := by
  have hfirst : (l.drop i)[0]? = some p := by
    rw [h]
    rfl
  rwa [List.getElem?_drop, Nat.add_zero] at hfirst

/-- Targets of what may be left out are there already. -/
theorem discover_targets {q r : α → Bool} {order : List α} : ∀ {l : List α},
    (∀ a ∈ l, r a = false → ∀ b ∈ out a, q b = true → b ∈ order) →
    discover order ((l.flatMap out).filter q) =
      discover order (((l.filter r).flatMap out).filter q)
  | [], _ => rfl
  | a :: l, h => by
    have hrest : ∀ {order' : List α}, order ⊆ order' →
        discover order' ((l.flatMap out).filter q) =
          discover order' (((l.filter r).flatMap out).filter q) := fun hsub =>
      discover_targets fun b hb hr c hc hq => hsub (h b (List.mem_cons_of_mem a hb) hr c hc hq)
    rw [List.flatMap_cons, List.filter_append, discover_append]
    cases ha : r a with
    | true =>
      rw [List.filter_cons_of_pos ha, List.flatMap_cons, List.filter_append, discover_append]
      exact hrest (prefix_discover _ _).subset
    | false =>
      have hnone : discover order ((out a).filter q) = order := discover_of_subset fun b hb => by
        obtain ⟨hb, hq⟩ := List.mem_filter.mp hb
        exact h a List.mem_cons_self ha b hb hq
      rw [List.filter_cons_of_neg (by simp [ha]), hnone]
      exact hrest (List.Subset.refl _)

/-- The program is past the first `i` targets in breadth-first order. It keeps the others, apart from
those with a line that it has met, and maybe more than once. -/
structure PastLines (line out : α → List α) (entry : α) (i : Nat) (done queue : List α) : Prop where
  met : done = discover [] (((orderAfter (lineTargets line out) [entry] i).take i).flatMap line)
  out_mem : ∀ a ∈ done, ∀ b ∈ out a, b ∈ orderAfter (lineTargets line out) [entry] i
  kept : discover [] (queue.filter (fresh line done)) =
    ((orderAfter (lineTargets line out) [entry] i).drop i).filter (fresh line done)

namespace PastLines

variable {i : Nat} {rest l : List α}

theorem start : PastLines line out entry 0 [] [entry] where
  met := rfl
  out_mem := fun _ h => absurd h List.not_mem_nil
  kept := by
    show discover [] ([entry].filter (fresh line [])) = [entry].filter (fresh line [])
    exact discover_of_nodup ((List.nodup_singleton entry).filter _)

theorem targets_mem (h : PastLines line out entry i done queue) (hp : fresh line done p = false) :
    ∀ b ∈ lineTargets line out p, b ∈ orderAfter (lineTargets line out) [entry] i := by
  intro b hb
  obtain ⟨a, ha, hb⟩ := List.mem_flatMap.mp hb
  exact h.out_mem a (fresh_eq_false.mp hp a ha) b hb

/-- The next target is passed when its line was met. -/
theorem pass (h : PastLines line out entry i done queue)
    (hi : (orderAfter (lineTargets line out) [entry] i)[i]? = some p)
    (hp : fresh line done p = false) :
    PastLines line out entry (i + 1) done queue ∧
      orderAfter (lineTargets line out) [entry] (i + 1) =
        orderAfter (lineTargets line out) [entry] i := by
  have hsame : orderAfter (lineTargets line out) [entry] (i + 1) =
      orderAfter (lineTargets line out) [entry] i := by
    rw [orderAfter_succ_of_some hi]
    exact discover_of_subset (h.targets_mem hp)
  obtain ⟨hlt, hget⟩ := List.getElem?_eq_some_iff.mp hi
  refine ⟨⟨?_, fun a ha b hb => hsame ▸ h.out_mem a ha b hb, ?_⟩, hsame⟩
  · rw [hsame, List.take_succ_eq_append_getElem hlt, hget, List.flatMap_append,
      List.flatMap_singleton, discover_append, ← h.met]
    exact (discover_of_subset (fresh_eq_false.mp hp)).symm
  · rw [h.kept, hsame, List.drop_eq_getElem_cons hlt, hget,
      List.filter_cons_of_neg (by simp [hp])]

/-- The targets are passed up to the next one with a line that was not met. -/
theorem pass_all : ∀ {l : List α} {i : Nat}, PastLines line out entry i done queue →
    (orderAfter (lineTargets line out) [entry] i).drop i = l ++ rest →
    (∀ p ∈ l, fresh line done p = false) → ∃ j, PastLines line out entry j done queue ∧
      (orderAfter (lineTargets line out) [entry] j).drop j = rest
  | [], i, h, hsplit, _ => ⟨i, h, hsplit⟩
  | p :: l, i, h, hsplit, hold => by
    obtain ⟨hp, hl⟩ := List.forall_mem_cons.mp hold
    obtain ⟨hnext, hsame⟩ := h.pass (getElem?_of_drop_eq_cons hsplit) hp
    refine pass_all hnext ?_ hl
    rw [hsame, ← List.drop_drop, hsplit]
    rfl

/-- A line that was met. -/
theorem follow_met {added : List α} (h : PastLines line out entry i done (p :: rest))
    (hp : fresh line done p = false) (hadded : added.filter (fresh line done) = []) :
    PastLines line out entry i done (rest ++ added) where
  met := h.met
  out_mem := h.out_mem
  kept := by
    rw [List.filter_append, hadded, List.append_nil, ← h.kept,
      List.filter_cons_of_neg (by simp [hp])]

/-- The next line of which some member is new is the next one in the order. -/
theorem pass_to (h : PastLines line out entry i done (p :: rest)) (hp : fresh line done p = true) :
    ∃ j after, PastLines line out entry j done (p :: rest) ∧
      (orderAfter (lineTargets line out) [entry] j).drop j = p :: after := by
  have hnext := h.kept
  rw [List.filter_cons_of_pos hp, discover_cons] at hnext
  obtain ⟨tail, htail⟩ := prefix_discover (rest.filter (fresh line done)) (discover [] [p])
  obtain ⟨before, after, hsplit, hbefore, -, -⟩ :=
    List.filter_eq_cons_iff.mp (hnext.symm.trans htail.symm)
  obtain ⟨j, hj, hdrop⟩ := h.pass_all hsplit fun a ha => by simpa using hbefore a ha
  exact ⟨j, after, hj, hdrop⟩

section

variable {j : Nat} {after new added : List α} (hj : PastLines line out entry j done (p :: rest))
  (hdrop : (orderAfter (lineTargets line out) [entry] j).drop j = p :: after)
  (hnew : new = (line p).filter fun a => decide (a ∉ done))
include hj hnew

/-- Up to the line that is followed all is met. -/
theorem filter_upTo :
    ((orderAfter (lineTargets line out) [entry] j).take j ++ [p]).filter
      (fresh line (done ++ new)) = [] := by
  refine List.filter_eq_nil_iff.mpr fun a ha => ?_
  have hmet : fresh line (done ++ new) a = false := by
    refine fresh_eq_false.mpr fun b hb => List.mem_append.mpr ?_
    rcases List.mem_append.mp ha with ha | ha
    · refine .inl ?_
      rw [hj.met]
      exact mem_discover.mpr (.inr (List.mem_flatMap.mpr ⟨a, ha, hb⟩))
    · rw [List.mem_singleton.mp ha] at hb
      by_cases hbd : b ∈ done
      · exact .inl hbd
      · exact .inr (hnew ▸ List.mem_filter.mpr ⟨hb, decide_eq_true hbd⟩)
  rw [hmet]
  exact Bool.false_ne_true

include hdrop

/-- What is left of the order is what comes after the line. -/
theorem filter_order :
    (orderAfter (lineTargets line out) [entry] j).filter (fresh line (done ++ new)) =
      after.filter (fresh line (done ++ new)) := by
  have horder : orderAfter (lineTargets line out) [entry] j =
      ((orderAfter (lineTargets line out) [entry] j).take j ++ [p]) ++ after := by
    rw [List.append_assoc]
    exact (List.take_append_drop j _).symm.trans (congrArg (_ ++ ·) hdrop)
  rw [horder, List.filter_append, filter_upTo hj hnew, List.nil_append]

/-- What is kept besides the line is what comes after it. -/
theorem kept_rest (hp : fresh line done p = true) :
    discover [] (rest.filter (fresh line (done ++ new))) =
      after.filter (fresh line (done ++ new)) := by
  have hp' : fresh line (done ++ new) p = false := by
    have hnone := List.filter_eq_nil_iff.mp (filter_upTo hj hnew) p
      (List.mem_append_right _ (List.mem_singleton_self p))
    simpa using hnone
  have hkept := hj.kept
  rw [hdrop, List.filter_cons_of_pos hp, List.filter_cons_of_pos hp] at hkept
  have hboth := congrArg (List.filter (fresh line (done ++ new))) hkept
  rw [discover_cons, filter_discover, filter_discover, filter_fresh_mono,
    List.filter_cons_of_neg (by simp [hp']), List.filter_cons_of_neg (by simp [hp']),
    filter_fresh_mono] at hboth
  exact hboth

/-- The line that is followed adds the targets that were not there. -/
theorem kept_follow (hp : fresh line done p = true)
    (hadded : added.filter (fresh line (done ++ new)) =
      (new.flatMap out).filter (fresh line (done ++ new))) :
    discover [] ((rest ++ added).filter (fresh line (done ++ new))) =
      ((orderAfter (lineTargets line out) [entry] (j + 1)).drop (j + 1)).filter
        (fresh line (done ++ new)) := by
  have hturn := getElem?_of_drop_eq_cons hdrop
  have hdropped : (orderAfter (lineTargets line out) [entry] (j + 1)).filter
      (fresh line (done ++ new)) =
        ((orderAfter (lineTargets line out) [entry] (j + 1)).drop (j + 1)).filter
          (fresh line (done ++ new)) := by
    conv_lhs => rw [← List.take_append_drop (j + 1)
      (orderAfter (lineTargets line out) [entry] (j + 1))]
    rw [List.filter_append, take_orderAfter_succ hturn, filter_upTo hj hnew, List.nil_append]
  have horder := filter_order hj hdrop hnew
  rw [← hdropped, orderAfter_succ_of_some hturn, filter_discover, horder, List.filter_append,
    discover_append, kept_rest hj hdrop hnew hp, hadded, hnew]
  refine (discover_targets fun a _ ha b hb hb' => ?_).symm
  -- what a member that was met leads to is one of the targets after the line
  have hmem := hj.out_mem a (by simpa using ha) b hb
  rw [← hnew] at hb' ⊢
  rw [← horder]
  exact List.mem_filter.mpr ⟨hmem, hb'⟩

end

/-- A line of which some member is new. -/
theorem follow_new {added new : List α} (hnd : (line p).Nodup)
    (h : PastLines line out entry i done (p :: rest)) (hp : fresh line done p = true)
    (hnew : new = (line p).filter fun a => decide (a ∉ done))
    (hadded : added.filter (fresh line (done ++ new)) =
      (new.flatMap out).filter (fresh line (done ++ new))) :
    ∃ j, PastLines line out entry j (done ++ new) (rest ++ added) := by
  obtain ⟨j, after, hj, hdrop⟩ := h.pass_to hp
  have hturn := getElem?_of_drop_eq_cons hdrop
  refine ⟨j + 1, ⟨?_, ?_, kept_follow hj hdrop hnew hp hadded⟩⟩
  · rw [take_orderAfter_succ hturn, List.flatMap_append, List.flatMap_singleton, discover_append,
      ← hj.met, discover_eq_append hnd, hnew]
  · intro a ha b hb
    rw [orderAfter_succ_of_some hturn]
    rcases List.mem_append.mp ha with ha | ha
    · exact (prefix_discover _ _).subset (hj.out_mem a ha b hb)
    · rw [hnew] at ha
      exact mem_discover.mpr (.inr (List.mem_flatMap.mpr ⟨a, (List.mem_filter.mp ha).1, hb⟩))

/-- Following one line. -/
theorem follow {added new : List α} (hnd : (line p).Nodup)
    (h : PastLines line out entry i done (p :: rest))
    (hnew : new = (line p).filter fun a => decide (a ∉ done))
    (hadded : added.filter (fresh line (done ++ new)) =
      (new.flatMap out).filter (fresh line (done ++ new))) :
    ∃ j, PastLines line out entry j (done ++ new) (rest ++ added) := by
  cases hp : fresh line done p with
  | true => exact h.follow_new hnd hp hnew hadded
  | false =>
    have hnil : new = [] := by
      rw [hnew]
      exact List.filter_eq_nil_iff.mpr fun a ha => by simp [fresh_eq_false.mp hp a ha]
    rw [hnil, List.append_nil] at hadded ⊢
    exact ⟨i, h.follow_met hp hadded⟩

end PastLines

/-- **The order of a walk that is through.** -/
theorem LineWalk.order (hnd : ∀ p, (line p).Nodup) (h : LineWalk line out entry done []) {n : Nat}
    (hn : (orderAfter (lineTargets line out) [entry] n).length ≤ n) :
    done = lineOrder line out entry n := by
  have hpast : ∀ {done queue}, LineWalk line out entry done queue →
      ∃ i, PastLines line out entry i done queue := by
    intro done queue h
    induction h with
    | start => exact ⟨0, .start⟩
    | follow _ hnew hadded ih =>
      obtain ⟨i, hi⟩ := ih
      exact hi.follow (hnd _) hnew hadded
  obtain ⟨i, hi⟩ := hpast h
  -- nothing is kept, so every line was met
  obtain ⟨j, hj, hdrop⟩ := hi.pass_all (List.append_nil _).symm fun p hp => by
    have hnone := List.filter_eq_nil_iff.mp hi.kept.symm p hp
    simpa using hnone
  have hlen := List.drop_eq_nil_iff.mp hdrop
  have horder : orderAfter (lineTargets line out) [entry] n =
      orderAfter (lineTargets line out) [entry] j :=
    (prefix_of_length_le hlen n).eq_of_length_le (prefix_of_length_le hn j).length_le
  have hmet := hj.met
  rw [List.take_of_length_le hlen] at hmet
  rw [hmet, lineOrder, horder]

end

end BreadthFirst
