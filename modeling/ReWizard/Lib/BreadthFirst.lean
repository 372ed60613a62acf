import Mathlib.Data.List.Nodup
import Mathlib.Data.List.Flatten
import Mathlib.Data.List.Infix
import Mathlib.Logic.Relation

/-!
# Breadth-first order

For a graph that is given by the lists of successors of its members, `orderAfter succ init n` is the
breadth-first order from `init` when the first `n` members are expanded: the new ones among the
successors of the member at hand come after everything that is there. A program that finds the members
one by one is at a `Stage` of it; when it is through, it has them all in this order
(`Stage.eq_order`).

`LateWalk` is a walk with a queue that looks up who was expanded before, and not who was queued
before, so that it may come to a member many times:

* `LateWalk.order`: it comes to the members in breadth-first order;
* `LateWalk.once_iff`: it comes to the members with successors once if and only if, in that order,
  each of them is a successor of the members up to it once, or of none of them if it is the first.
-/

namespace BreadthFirst

variable {α : Type _} [DecidableEq α]

/-- The members of the list that are new are put at the end. -/
def discover (order l : List α) : List α :=
  l.foldl (fun order a => if a ∈ order then order else order ++ [a]) order

/-! ## Discovering -/

section

variable {order l l' : List α} {a : α}

@[simp] theorem discover_nil (order : List α) : discover order [] = order := rfl

theorem discover_append (order l l' : List α) :
    discover order (l ++ l') = discover (discover order l) l' := List.foldl_append

theorem discover_singleton (order : List α) (a : α) :
    discover order [a] = if a ∈ order then order else order ++ [a] := rfl

theorem discover_cons (order l : List α) (a : α) :
    discover order (a :: l) = discover (discover order [a]) l := rfl

theorem mem_discover : ∀ {l order : List α}, a ∈ discover order l ↔ a ∈ order ∨ a ∈ l
  | [], order => by simp
  | b :: l, order => by
    rw [discover_cons, mem_discover, discover_singleton, List.mem_cons]
    split
    · rename_i hb
      constructor
      · rintro (h | h)
        · exact .inl h
        · exact .inr (.inr h)
      · rintro (h | rfl | h)
        · exact .inl h
        · exact .inl hb
        · exact .inr h
    · rw [List.mem_append, List.mem_singleton, or_assoc]

theorem prefix_discover : ∀ (l order : List α), order <+: discover order l
  | [], order => List.prefix_rfl
  | b :: l, order => by
    refine List.IsPrefix.trans ?_ (prefix_discover l (discover order [b]))
    rw [discover_singleton]
    split
    · exact List.prefix_rfl
    · exact List.prefix_append _ _

theorem nodup_discover (h : order.Nodup) : ∀ (l : List α), (discover order l).Nodup := by
  intro l
  induction l generalizing order with
  | nil => exact h
  | cons b l ih =>
    rw [discover_cons]
    refine ih ?_
    rw [discover_singleton]
    split
    · exact h
    · rename_i hb
      rw [List.nodup_append]
      refine ⟨h, List.nodup_singleton b, fun x hx y hy hxy => hb ?_⟩
      rw [List.mem_singleton.mp hy] at hxy
      exact hxy ▸ hx

/-- Nothing is new. -/
theorem discover_of_subset (h : ∀ a ∈ l, a ∈ order) : discover order l = order := by
  induction l with
  | nil => rfl
  | cons b l ih =>
    rw [discover_cons, discover_singleton, if_pos (h b List.mem_cons_self)]
    exact ih fun a ha => h a (List.mem_cons_of_mem b ha)

theorem discover_of_nodup (h : l.Nodup) : discover [] l = l := by
  induction l using List.reverseRecOn with
  | nil => rfl
  | append_singleton l a ih =>
    obtain ⟨hl, -, hne⟩ := List.nodup_append.mp h
    have ha : a ∉ l := fun hmem => hne a hmem a List.mem_cons_self rfl
    rw [discover_append, ih hl, discover_singleton, if_neg ha]

/-- What is there already may be left out. -/
theorem discover_filter {p : α → Bool} : ∀ {l order : List α}, (∀ a, p a = false → a ∈ order) →
    discover order (l.filter p) = discover order l
  | [], _, _ => rfl
  | b :: l, order, h => by
    rw [discover_cons]
    cases hb : p b with
    | false =>
      rw [List.filter_cons_of_neg (by simp [hb]), discover_filter h, discover_singleton,
        if_pos (h b hb)]
    | true =>
      rw [List.filter_cons_of_pos hb, discover_cons]
      exact discover_filter fun a ha => (prefix_discover [b] order).subset (h a ha)

end

/-! ## Breadth-first order -/

section

variable (succ : α → List α)

/-- The order from `init` after `n` expansions: each takes the next member in the order. -/
def orderAfter (init : List α) : Nat → List α
  | 0 => discover [] init
  | n + 1 =>
    match (orderAfter init n)[n]? with
    | none => orderAfter init n
    | some a => discover (orderAfter init n) (succ a)

variable {succ} {init : List α} {n m : Nat} {a : α}

theorem orderAfter_succ_of_some (h : (orderAfter succ init n)[n]? = some a) :
    orderAfter succ init (n + 1) = discover (orderAfter succ init n) (succ a) := by
  rw [orderAfter, h]

theorem orderAfter_succ_of_none (h : (orderAfter succ init n)[n]? = none) :
    orderAfter succ init (n + 1) = orderAfter succ init n := by
  rw [orderAfter, h]

theorem nodup_orderAfter (succ : α → List α) (init : List α) :
    ∀ n, (orderAfter succ init n).Nodup
  | 0 => nodup_discover List.nodup_nil init
  | n + 1 => by
    have ih := nodup_orderAfter succ init n
    rw [orderAfter]
    split
    · exact ih
    · exact nodup_discover ih _

theorem prefix_orderAfter (h : n ≤ m) : orderAfter succ init n <+: orderAfter succ init m := by
  induction h with
  | refl => exact List.prefix_rfl
  | step _ ih =>
    refine ih.trans ?_
    rw [orderAfter]
    split
    · exact List.prefix_rfl
    · exact prefix_discover _ _

/-- When all members are expanded, the order is complete. -/
theorem orderAfter_of_length_le (hlen : (orderAfter succ init n).length ≤ n) (h : n ≤ m) :
    orderAfter succ init m = orderAfter succ init n := by
  induction h with
  | refl => rfl
  | step hnm ih =>
    rw [orderAfter_succ_of_none, ih]
    rw [ih]
    exact List.getElem?_eq_none (hlen.trans hnm)

/-- The complete order has every other one at its beginning. -/
theorem prefix_of_length_le (hlen : (orderAfter succ init n).length ≤ n) (m : Nat) :
    orderAfter succ init m <+: orderAfter succ init n := by
  rcases Nat.le_total m n with h | h
  · exact prefix_orderAfter h
  · rw [orderAfter_of_length_le hlen h]

/-- What holds of the beginning and is kept by successors holds of every member. -/
theorem forall_mem_orderAfter {P : α → Prop} (hinit : ∀ a ∈ init, P a)
    (hsucc : ∀ a, P a → ∀ b ∈ succ a, P b) : ∀ n, ∀ a ∈ orderAfter succ init n, P a
  | 0, a, ha => hinit a ((mem_discover.mp ha).resolve_left List.not_mem_nil)
  | n + 1, a, ha => by
    have ih := forall_mem_orderAfter hinit hsucc n
    rw [orderAfter] at ha
    split at ha
    · exact ih a ha
    · rename_i b hb
      rcases mem_discover.mp ha with ha | ha
      · exact ih a ha
      · exact hsucc b (ih b (List.mem_of_getElem? hb)) a ha

/-- An expanded member has its successors in the order. -/
theorem expanded {k : Nat} (hk : k < n) (ha : (orderAfter succ init n)[k]? = some a) :
    ∀ b ∈ succ a, b ∈ orderAfter succ init n := by
  -- the member was there when its turn came
  have hturn : (orderAfter succ init k)[k]? = some a := by
    obtain ⟨more, hmore⟩ : orderAfter succ init k <+: orderAfter succ init n :=
      prefix_orderAfter (Nat.le_of_lt hk)
    by_cases hlen : k < (orderAfter succ init k).length
    · rwa [← hmore, List.getElem?_append_left hlen] at ha
    · rw [orderAfter_of_length_le (Nat.not_lt.mp hlen) (Nat.le_of_lt hk)] at ha
      exact ha
  intro b hb
  refine (prefix_orderAfter hk).subset ?_
  rw [orderAfter_succ_of_some hturn]
  exact mem_discover.mpr (.inr hb)

end

/-! ## Stages -/

/-- `l` is the order with all members before `i` expanded, and with the successors of the next one up
to some place. -/
structure Stage (succ : α → List α) (init : List α) (i : Nat) (l : List α) : Prop where
  exists_turn : ∃ n done rest, i ≤ n ∧ ((orderAfter succ init n)[n]?.map succ).getD [] = done ++ rest ∧
    l = discover (orderAfter succ init n) done

namespace Stage

variable {succ : α → List α} {init l : List α} {i j : Nat} {u v : α}

theorem start (hnd : init.Nodup) : Stage succ init 0 init :=
  ⟨0, [], _, Nat.le_refl 0, rfl, (discover_of_nodup hnd).symm⟩

theorem mono (h : Stage succ init i l) (hj : j ≤ i) : Stage succ init j l := by
  obtain ⟨n, done, rest, hi, hsplit, hl⟩ := h.exists_turn
  exact ⟨n, done, rest, hj.trans hi, hsplit, hl⟩

/-- Either the next member is expanded already, or it is its turn. -/
theorem turn (h : Stage succ init i l) (hu : l[i]? = some u) :
    (Stage succ init (i + 1) l ∧ ∀ v ∈ succ u, v ∈ l) ∨
      ∃ done rest, (orderAfter succ init i)[i]? = some u ∧ succ u = done ++ rest ∧
        l = discover (orderAfter succ init i) done := by
  obtain ⟨n, done, rest, hi, hsplit, hl⟩ := h.exists_turn
  obtain ⟨more, hmore⟩ := prefix_discover done (orderAfter succ init n)
  rw [← hl] at hmore
  by_cases hlen : i < (orderAfter succ init n).length
  · have hu' : (orderAfter succ init n)[i]? = some u := by
      rwa [← hmore, List.getElem?_append_left hlen] at hu
    rcases Nat.lt_or_eq_of_le hi with hlt | rfl
    · refine .inl ⟨⟨n, done, rest, hlt, hsplit, hl⟩, fun v hv => ?_⟩
      rw [← hmore]
      exact List.mem_append_left _ (expanded hlt hu' v hv)
    · rw [hu', Option.map_some, Option.getD_some] at hsplit
      exact .inr ⟨done, rest, hu', hsplit, hl⟩
  · -- the order is complete, so the member would not be there
    have hnone : (orderAfter succ init n)[n]? = none :=
      List.getElem?_eq_none ((Nat.not_lt.mp hlen).trans hi)
    rw [hnone, Option.map_none, Option.getD_none] at hsplit
    obtain ⟨rfl, -⟩ := List.append_eq_nil_iff.mp hsplit.symm
    rw [hl, discover_nil, List.getElem?_eq_none (Nat.not_lt.mp hlen)] at hu
    cases hu

/-- All successors of the next member are there. -/
theorem next_turn (h : Stage succ init i l) (hu : l[i]? = some u) (hall : ∀ v ∈ succ u, v ∈ l) :
    Stage succ init (i + 1) l := by
  rcases h.turn hu with ⟨hnext, -⟩ | ⟨done, rest, hturn, hsplit, hl⟩
  · exact hnext
  · refine ⟨i + 1, [], _, Nat.le_refl _, rfl, ?_⟩
    rw [discover_nil, orderAfter_succ_of_some hturn, hsplit, discover_append, ← hl]
    exact (discover_of_subset fun v hv => hall v (hsplit ▸ List.mem_append_right _ hv)).symm

/-- A successor of the next member is new, and those before it are not. -/
theorem add (h : Stage succ init i l) (hu : l[i]? = some u) {before after : List α}
    (hsucc : succ u = before ++ v :: after) (hbefore : ∀ w ∈ before, w ∈ l) (hv : v ∉ l) :
    Stage succ init i (l ++ [v]) := by
  rcases h.turn hu with ⟨-, hall⟩ | ⟨done, rest, hturn, hsplit, hl⟩
  · exact absurd (hall v (hsucc ▸ List.mem_append_right _ List.mem_cons_self)) hv
  · have hdone : v ∉ done := fun hmem => hv (hl ▸ mem_discover.mpr (.inr hmem))
    -- what is discovered so far comes before the new one
    obtain ⟨more, rfl⟩ : done <+: before := by
      rw [hsplit] at hsucc
      rcases List.append_eq_append_iff.mp hsucc with ⟨more, hmore, -⟩ | ⟨more, hmore, hrest⟩
      · exact ⟨more, hmore.symm⟩
      · cases more with
        | nil => exact ⟨[], by simpa using hmore⟩
        | cons w more =>
          obtain ⟨rfl, -⟩ := List.cons.inj hrest
          exact absurd (hmore ▸ List.mem_append_right _ List.mem_cons_self) hdone
    refine ⟨i, done ++ more ++ [v], after, Nat.le_refl i, ?_, ?_⟩
    · rw [hturn, Option.map_some, Option.getD_some, hsucc]
      simp
    · have hmore : discover l more = l :=
        discover_of_subset fun w hw => hbefore w (List.mem_append_right _ hw)
      rw [discover_append, discover_append, ← hl, hmore, discover_singleton, if_neg hv]

/-- What there is at a stage is the beginning of the complete order. -/
theorem isPrefix (h : Stage succ init i l) {N : Nat} (hN : (orderAfter succ init N).length ≤ N) :
    l <+: orderAfter succ init N := by
  obtain ⟨n, done, rest, -, hsplit, rfl⟩ := h.exists_turn
  cases hn : (orderAfter succ init n)[n]? with
  | none =>
    rw [hn, Option.map_none, Option.getD_none] at hsplit
    obtain ⟨rfl, -⟩ := List.append_eq_nil_iff.mp hsplit.symm
    exact prefix_of_length_le hN n
  | some u =>
    rw [hn, Option.map_some, Option.getD_some] at hsplit
    have hnext := prefix_of_length_le hN (n + 1)
    rw [orderAfter_succ_of_some hn, hsplit, discover_append] at hnext
    exact (prefix_discover rest _).trans hnext

/-- When every member had its turn, the order is complete. -/
theorem eq_order (h : Stage succ init i l) (hi : l.length ≤ i) {N : Nat}
    (hN : (orderAfter succ init N).length ≤ N) : l = orderAfter succ init N := by
  have hprefix := h.isPrefix hN
  obtain ⟨n, done, rest, hin, -, rfl⟩ := h.exists_turn
  have hlen := (prefix_discover done (orderAfter succ init n)).length_le
  refine hprefix.eq_of_length_le (((prefix_of_length_le ?_ N).length_le).trans hlen)
  exact hlen.trans (hi.trans hin)

end Stage

/-! ## A walk that marks late -/

/-- The walk after it has expanded `done`, one after the other, with the queue that it has then. What
was expanded before is not queued. -/
inductive LateWalk (succ : α → List α) (entry : α) : List α → List α → Prop
  | start : LateWalk succ entry [] [entry]
  | expand {done rest : List α} {u : α} : LateWalk succ entry done (u :: rest) →
      LateWalk succ entry (done ++ [u]) (rest ++ (succ u).filter fun v => decide (v ∉ done))

namespace LateWalk

variable {succ : α → List α} {entry : α} {done queue : List α}

/-- The successors of what is expanded are expanded or in the queue. -/
theorem next (h : LateWalk succ entry done queue) :
    ∀ u ∈ done, ∀ v ∈ succ u, v ∈ done ++ queue := by
  induction h with
  | start => exact fun u hu => absurd hu List.not_mem_nil
  | @expand done rest u _ ih =>
    intro x hx v hv
    rw [List.append_assoc]
    rcases List.mem_append.mp hx with hx | hx
    · have hold := ih x hx v hv
      simp only [List.mem_append, List.mem_cons, List.not_mem_nil, or_false] at hold ⊢
      rcases hold with h | rfl | h
      · exact .inl h
      · exact .inr (.inl rfl)
      · exact .inr (.inr (.inl h))
    · rw [List.mem_singleton.mp hx] at hv
      by_cases hd : v ∈ done
      · exact List.mem_append_left _ hd
      · have hnew : v ∈ (succ u).filter fun v => decide (v ∉ done) :=
          List.mem_filter.mpr ⟨hv, decide_eq_true hd⟩
        exact List.mem_append_right _ (List.mem_append_right _ (List.mem_append_right _ hnew))

/-- Only what the entry leads to is expanded or queued. -/
theorem reached (h : LateWalk succ entry done queue) :
    ∀ u ∈ done ++ queue, Relation.ReflTransGen (fun a b => b ∈ succ a) entry u := by
  induction h with
  | start =>
    intro u hu
    rw [List.mem_singleton.mp hu]
  | @expand done rest x _ ih =>
    intro u hu
    simp only [List.mem_append, List.mem_singleton, List.mem_filter] at hu
    have hx := ih x (by simp)
    rcases hu with (hu | rfl) | hu | ⟨hu, -⟩
    · exact ih u (by simp [hu])
    · exact hx
    · exact ih u (by simp [hu])
    · exact hx.tail hu

/-- The queue begins with the next member in breadth-first order, apart from repetitions. -/
theorem order_after (h : LateWalk succ entry done queue) :
    discover [] (done ++ queue) = orderAfter succ [entry] (discover [] done).length := by
  induction h with
  | start => rfl
  | @expand done rest u hw ih =>
    have hsplit : done ++ [u] ++ (rest ++ (succ u).filter fun v => decide (v ∉ done)) =
        (done ++ u :: rest) ++ (succ u).filter fun v => decide (v ∉ done) := by simp
    have hfilter : discover (discover [] (done ++ u :: rest))
        ((succ u).filter fun v => decide (v ∉ done)) =
          discover (discover [] (done ++ u :: rest)) (succ u) := by
      refine discover_filter fun v hv => mem_discover.mpr (.inr (List.mem_append_left _ ?_))
      simpa using hv
    rw [hsplit, discover_append, hfilter, discover_append [] done [u], discover_singleton]
    by_cases hu : u ∈ done
    · -- an expanded member has its successors in the queue already
      rw [if_pos (mem_discover.mpr (.inr hu)), ← ih]
      exact discover_of_subset fun v hv => mem_discover.mpr (.inr (hw.next u hu v hv))
    · have hnew : u ∉ discover [] done := fun hmem =>
        hu ((mem_discover.mp hmem).resolve_left List.not_mem_nil)
      rw [if_neg hnew, List.length_append, List.length_singleton, ih]
      refine (orderAfter_succ_of_some ?_).symm
      rw [← ih, discover_append, discover_cons, discover_singleton, if_neg hnew]
      obtain ⟨more, hmore⟩ := prefix_discover rest (discover [] done ++ [u])
      rw [← hmore, List.append_assoc, List.getElem?_append_right (Nat.le_refl _), Nat.sub_self]
      rfl

/-- **The order of a finished walk**, with any bound that is large enough. -/
theorem order (h : LateWalk succ entry done []) {n : Nat} (hn : (discover [] done).length ≤ n) :
    orderAfter succ [entry] n = discover [] done := by
  have heq := h.order_after
  rw [List.append_nil] at heq
  rw [orderAfter_of_length_le (n := (discover [] done).length) (by rw [← heq]) hn, ← heq]

/-- How often a member is expanded or in the queue: once for each time that it is a successor of what
was expanded up to its own first turn, and once more if it is the entry. -/
theorem count (h : LateWalk succ entry done queue) (u : α) :
    (done ++ queue).count u = (if u = entry then 1 else 0) +
      ((done.take (done.idxOf u + 1)).flatMap succ).count u := by
  induction h with
  | start =>
    rw [List.take_nil, List.flatMap_nil, List.count_nil, List.nil_append, Nat.add_zero]
    by_cases hu : u = entry
    · rw [if_pos hu, hu, List.count_singleton_self]
    · rw [if_neg hu, List.count_eq_zero]
      exact fun hmem => hu (List.mem_singleton.mp hmem)
  | @expand done rest x _ ih =>
    have hsplit : done ++ [x] ++ (rest ++ (succ x).filter fun v => decide (v ∉ done)) =
        (done ++ x :: rest) ++ (succ x).filter fun v => decide (v ∉ done) := by simp
    rw [hsplit, List.count_append, ih]
    by_cases hu : u ∈ done
    · have hnone : ((succ x).filter fun v => decide (v ∉ done)).count u = 0 :=
        List.count_eq_zero.mpr fun hmem => of_decide_eq_true (List.mem_filter.mp hmem).2 hu
      have hlt := List.idxOf_lt_length_iff.mpr hu
      rw [hnone, Nat.add_zero, List.idxOf_append_of_mem hu, List.take_append_of_le_length hlt]
    · have hall : ((succ x).filter fun v => decide (v ∉ done)).count u = (succ x).count u :=
        List.count_filter (decide_eq_true hu)
      have hlen : done.idxOf u = done.length := List.idxOf_eq_length hu
      have htake : (done ++ [x]).take ((done ++ [x]).idxOf u + 1) = done ++ [x] := by
        refine List.take_of_length_le ?_
        rw [List.idxOf_append_of_notMem hu, List.length_append, List.length_singleton]
        omega
      rw [hall, htake, List.flatMap_append, List.count_append, hlen,
        List.take_of_length_le (Nat.le_succ _), List.flatMap_cons, List.flatMap_nil,
        List.append_nil, Nat.add_assoc]

/-! ### Once -/

/-- Repetitions of members without successors add nothing. -/
theorem flatMap_discover {l : List α} (h : ∀ x, succ x ≠ [] → l.count x ≤ 1) :
    (discover [] l).flatMap succ = l.flatMap succ := by
  induction l using List.reverseRecOn with
  | nil => rfl
  | append_singleton l x ih =>
    have hl := ih fun y hy => Nat.le_trans (List.Sublist.count_le y (List.sublist_append_left l [x]))
      (h y hy)
    rw [discover_append, discover_singleton, List.flatMap_append, ← hl]
    by_cases hx : x ∈ l
    · rw [if_pos (mem_discover.mpr (.inr hx))]
      have hnil : succ x = [] := by
        by_contra hne
        have hcount := h x hne
        have hpos := List.count_pos_iff.mpr hx
        rw [List.count_append, List.count_singleton_self] at hcount
        omega
      rw [List.flatMap_cons, hnil]
      simp
    · rw [if_neg fun hmem => hx ((mem_discover.mp hmem).resolve_left List.not_mem_nil),
        List.flatMap_append]

/-- The first turn of a member. -/
theorem first_turn {l : List α} {u : α} (hu : u ∈ l) : ∃ before after, l = before ++ u :: after ∧
    u ∉ before ∧ l.idxOf u = before.length ∧ l.take (l.idxOf u + 1) = before ++ [u] := by
  obtain ⟨before, after, rfl, hfirst⟩ := List.eq_append_cons_of_mem hu
  have hindex : (before ++ u :: after).idxOf u = before.length := by
    rw [List.idxOf_append_of_notMem hfirst, List.idxOf_cons_self, Nat.add_zero]
  refine ⟨before, after, rfl, hfirst, hindex, ?_⟩
  rw [hindex, List.take_length_add_append]
  rfl

/-- The part of the order up to a member comes from the part of the walk up to its first turn. -/
theorem discover_take {l : List α} {k : Nat} {u : α} (hk : (discover [] l)[k]? = some u) :
    discover [] (l.take (l.idxOf u + 1)) = (discover [] l).take (k + 1) := by
  have hu : u ∈ l := (mem_discover.mp (List.mem_of_getElem? hk)).resolve_left List.not_mem_nil
  obtain ⟨before, after, rfl, hfirst, -, htake⟩ := first_turn hu
  have hnew : u ∉ discover [] before := fun hmem =>
    hfirst ((mem_discover.mp hmem).resolve_left List.not_mem_nil)
  have hbefore : discover [] (before ++ [u]) = discover [] before ++ [u] := by
    rw [discover_append, discover_singleton, if_neg hnew]
  obtain ⟨more, hmore⟩ : discover [] (before ++ [u]) <+: discover [] (before ++ u :: after) := by
    rw [List.append_cons before u after, discover_append [] (before ++ [u])]
    exact prefix_discover _ _
  rw [hbefore] at hmore
  -- the member is in the order once
  have hindex : (discover [] before).length = k := by
    have hnd : (discover [] (before ++ u :: after)).Nodup := nodup_discover List.nodup_nil _
    refine (List.getElem?_inj ?_ hnd).mp (Eq.trans ?_ hk.symm)
    · rw [← hmore]
      simp
    · rw [← hmore]
      simp
  rw [htake, hbefore, ← hmore, ← hindex, List.take_left' (by simp)]

/-- Up to the first turn of a member nothing comes twice, if what comes first before it comes once. -/
theorem count_take_le_one {l : List α} {u x : α} (hu : u ∈ l)
    (hx : x ∈ l → l.idxOf x < l.idxOf u → l.count x = 1) :
    (l.take (l.idxOf u + 1)).count x ≤ 1 := by
  obtain ⟨before, after, hsplit, hfirst, hindex, htake⟩ := first_turn hu
  rw [htake, List.count_append]
  by_cases hxu : x = u
  · rw [hxu, List.count_eq_zero.mpr hfirst, List.count_singleton_self]
  · have hlast : [u].count x = 0 :=
      List.count_eq_zero.mpr fun hmem => hxu (List.mem_singleton.mp hmem)
    rw [hlast, Nat.add_zero]
    by_cases hxb : x ∈ before
    · have hxl : x ∈ l := hsplit ▸ List.mem_append_left _ hxb
      have hlt : l.idxOf x < l.idxOf u := by
        rw [hindex, hsplit, List.idxOf_append_of_mem hxb]
        exact List.idxOf_lt_length_iff.mpr hxb
      have hone := hx hxl hlt
      rw [hsplit, List.count_append] at hone
      omega
    · exact Nat.le_succ_of_le (Nat.le_of_eq (List.count_eq_zero.mpr hxb))

/-- **Members that are expanded once**: a finished walk has expanded every member with successors once
if and only if, of what comes up to such a member in breadth-first order, one thing leads to it once
and nothing else does. To the entry nothing leads up to its own turn. -/
theorem once_iff (h : LateWalk succ entry done []) {n : Nat} (hn : (discover [] done).length ≤ n) :
    (∀ u ∈ done, succ u ≠ [] → done.count u = 1) ↔
      ∀ k u, (orderAfter succ [entry] n)[k]? = some u → succ u ≠ [] →
        (((orderAfter succ [entry] n).take (k + 1)).flatMap succ).count u =
          if u = entry then 0 else 1 := by
  rw [h.order hn]
  have hcount : ∀ u, done.count u = (if u = entry then 1 else 0) +
      ((done.take (done.idxOf u + 1)).flatMap succ).count u := by
    intro u
    have := h.count u
    rwa [List.append_nil] at this
  -- up to a member that is reached first through members that occur once, the walk and the order
  -- have the same successors
  have hsame : ∀ {k u}, (discover [] done)[k]? = some u →
      (∀ x, succ x ≠ [] → (done.take (done.idxOf u + 1)).count x ≤ 1) →
      (((discover [] done).take (k + 1)).flatMap succ).count u =
        ((done.take (done.idxOf u + 1)).flatMap succ).count u := by
    intro k u hk hle
    rw [← discover_take hk, flatMap_discover hle]
  constructor
  · intro honce k u hk hne
    have hu : u ∈ done := (mem_discover.mp (List.mem_of_getElem? hk)).resolve_left List.not_mem_nil
    rw [hsame hk fun x hx => ?_]
    · have hone := honce u hu hne
      rw [hcount u] at hone
      split at hone <;> rename_i heq
      · rw [if_pos heq]
        omega
      · rw [if_neg heq]
        omega
    · by_cases hmem : x ∈ done
      · exact (List.Sublist.count_le x (List.take_sublist _ _)).trans_eq (honce x hmem hx)
      · exact Nat.le_succ_of_le (Nat.le_of_eq (List.count_eq_zero.mpr fun hx' =>
          hmem (List.mem_of_mem_take hx')))
  · intro hone
    -- induction on the first turn
    have hind : ∀ n, ∀ u ∈ done, done.idxOf u = n → succ u ≠ [] → done.count u = 1 := by
      intro n
      induction n using Nat.strong_induction_on with
      | _ n ih =>
        intro u hu hn hne
        obtain ⟨k, hk⟩ := List.getElem?_of_mem (mem_discover.mpr (.inr hu) : u ∈ discover [] done)
        have hle : ∀ x, succ x ≠ [] → (done.take (done.idxOf u + 1)).count x ≤ 1 :=
          fun x hx => count_take_le_one hu fun hxd hlt => ih _ (hn ▸ hlt) x hxd rfl hx
        rw [hcount u, ← hsame hk hle, hone k u hk hne]
        split <;> rfl
    exact fun u hu => hind _ u hu rfl

end LateWalk

end BreadthFirst
