import Mathlib.Data.List.TakeDrop
import Mathlib.Data.List.Flatten

/-!
# Runs through lists of blocks

A program is a list of blocks of instructions. A run executes the instructions of a block in turn;
from the end of a block, or after an instruction that can leave it, it enters any block. A forward
analysis that folds a transfer function over the blocks in list order, without joins, describes the
runs that follow it:

* `Run`: the places that runs come to, when every step meets a condition;
* `Follows`: the step goes on in its block, or enters one where the analysis has no more than where
  the run comes from, as at the end of the block before it in the list;
* `Run.sound`: on runs whose steps follow the analysis, what it has at a place is true there;
* `Run.last`: the step that led to a place inside a block;
* `foldl_split`: an invariant of a fold that depends on the part of the list that is done.
-/

namespace BlockPath

variable {ι σ α : Type _}

/-- A place of a run: the block it is in, the instructions of it that are done and those that
remain, and the machine state. -/
structure Place (ι σ : Type _) where
  index : Nat
  done : List ι
  rest : List ι
  state : σ

section

variable (exec : ι → σ → σ → Prop) (leaves : ι → Prop) (code : List (List ι))

/-- One step of a run. -/
inductive Step : Place ι σ → Place ι σ → Prop
  | insn {k : Nat} {done : List ι} {i : ι} {rest : List ι} {s s' : σ} : exec i s s' →
      Step ⟨k, done, i :: rest, s⟩ ⟨k, done ++ [i], rest, s'⟩
  | enter {k k' : Nat} {done rest block : List ι} {s : σ} :
      (rest = [] ∨ ∃ i, done.getLast? = some i ∧ leaves i) → code[k']? = some block →
      Step ⟨k, done, rest, s⟩ ⟨k', [], block, s⟩

/-- The places of the runs from the first block on whose steps meet `ok`. -/
inductive Run (ok : Place ι σ → Place ι σ → Prop) : Place ι σ → Prop
  | start {block : List ι} {s : σ} : code[0]? = some block → Run ok ⟨0, [], block, s⟩
  | step {p q : Place ι σ} : Run ok p → Step exec leaves code p q → ok p q → Run ok q

end

/-- The place is the only one in the code with an instruction that meets `P`. -/
def OnlyAt (P : ι → Prop) (code : List (List ι)) (p : Place ι σ) : Prop :=
  ∀ k done i rest, code[k]? = some (done ++ i :: rest) → P i → k = p.index ∧ done = p.done

/-- The instructions before a place, in list order. -/
def before (code : List (List ι)) (p : Place ι σ) : List ι :=
  (code.take p.index).flatten ++ p.done

section

variable (transfer : α → ι → α) (init : α) (code : List (List ι))

/-- What the analysis in list order has at a place. -/
def analysis (p : Place ι σ) : α := (before code p).foldl transfer init

/-- The step goes on in its block, or enters one where the analysis has no more than where the run
comes from. -/
def Follows (le : α → α → Prop) (p q : Place ι σ) : Prop :=
  q.done = [] → le (analysis transfer init code q) (analysis transfer init code p)

end

section

variable {exec : ι → σ → σ → Prop} {leaves : ι → Prop} {code : List (List ι)}
  {ok ok' : Place ι σ → Place ι σ → Prop} {p : Place ι σ}

/-- The block of a place is what is done and what remains. -/
theorem Run.block (h : Run exec leaves code ok p) :
    code[p.index]? = some (p.done ++ p.rest) := by
  induction h with
  | start h => exact h
  | step _ hs _ ih =>
    cases hs with
    | insn _ =>
      rw [ih]
      simp only [List.append_assoc, List.singleton_append]
    | enter _ h => exact h

/-- A place after an instruction was reached by executing it. -/
theorem Run.last (h : Run exec leaves code ok p) {done : List ι} {i : ι}
    (hd : p.done = done ++ [i]) :
    ∃ s, Run exec leaves code ok ⟨p.index, done, i :: p.rest, s⟩ ∧ exec i s p.state := by
  have hne : ∀ l : List ι, done ++ [i] = l → l ≠ [] := fun l h hnil =>
    List.cons_ne_nil i [] (List.append_eq_nil_iff.mp (h.trans hnil)).2
  cases h with
  | start _ => exact absurd rfl (hne _ hd.symm)
  | step hr hs _ =>
    cases hs with
    | insn hexec =>
      obtain ⟨rfl, heq⟩ := List.append_inj' hd rfl
      cases heq
      exact ⟨_, hr, hexec⟩
    | enter _ _ => exact absurd rfl (hne _ hd.symm)

theorem take_flatten_succ {k : Nat} {block : List ι} (h : code[k]? = some block) :
    (code.take (k + 1)).flatten = (code.take k).flatten ++ block := by
  rw [List.take_add_one, h, Option.toList_some, List.flatten_append, List.flatten_cons,
    List.flatten_nil, List.append_nil]

/-- The analysis at a place after an instruction. -/
theorem analysis_insn {transfer : α → ι → α} {init : α} {k : Nat} {done rest rest' : List ι} {i : ι}
    {s s' : σ} : analysis transfer init code ⟨k, done ++ [i], rest', s'⟩ =
      transfer (analysis transfer init code ⟨k, done, rest, s⟩) i := by
  unfold analysis before
  rw [← List.append_assoc, List.foldl_append]
  rfl

/-- The analysis goes on from the end of a block to the next of the list. -/
theorem analysis_next {transfer : α → ι → α} {init : α} {k : Nat} {block : List ι} {s s' : σ}
    {rest : List ι} (h : code[k]? = some block) :
    analysis transfer init code ⟨k + 1, [], rest, s'⟩ =
      analysis transfer init code ⟨k, block, [], s⟩ := by
  unfold analysis before
  dsimp only
  rw [take_flatten_succ h, List.append_nil]

theorem before_subset (h : code[p.index]? = some (p.done ++ p.rest)) :
    before code p ⊆ code.flatten := by
  intro i hi
  rcases List.mem_append.mp hi with hi | hi
  · obtain ⟨b, hb, hi⟩ := List.mem_flatten.mp hi
    exact List.mem_flatten.mpr ⟨b, List.mem_of_mem_take hb, hi⟩
  · exact List.mem_flatten.mpr ⟨_, List.mem_of_getElem? h, List.mem_append_left _ hi⟩

/-- **Soundness**: what the start state and every executed instruction keep true of the analysis
is true at every place of a run that enters blocks only where the analysis has no more. -/
theorem Run.sound {transfer : α → ι → α} {init : α} {le : α → α → Prop} {S : α → σ → Prop}
    (h : Run exec leaves code (Follows transfer init code le) p) (h0 : ∀ s, S init s)
    (hexec : ∀ l i s s', l ⊆ code.flatten → i ∈ code.flatten → S (l.foldl transfer init) s →
      exec i s s' → S (transfer (l.foldl transfer init) i) s')
    (hle : ∀ a b s, le a b → S b s → S a s) :
    S (analysis transfer init code p) p.state := by
  induction h with
  | @start block s _ => exact h0 s
  | @step p q hr hs hok ih =>
    cases hs with
    | @insn k done i rest s s' hi =>
      have hmem : i ∈ code.flatten := List.mem_flatten.mpr
        ⟨_, List.mem_of_getElem? hr.block, List.mem_append_right _ List.mem_cons_self⟩
      rw [analysis_insn]
      exact hexec _ i s s' (before_subset hr.block) hmem ih hi
    | enter _ _ => exact hle _ _ _ (hok rfl) ih

end

/-! ## Folds -/

/-- What holds at the beginning and is kept from each place of the list to the next holds of a
fold. -/
theorem foldl_split {β : Type _} {f : β → ι → β} {b : β} {l : List ι} {I : List ι → β → Prop}
    (h0 : I [] b) (hstep : ∀ done i rest b, l = done ++ i :: rest → I done b →
      I (done ++ [i]) (f b i)) : I l (l.foldl f b) := by
  have hgen : ∀ (rest done : List ι) (b : β), l = done ++ rest → I done b →
      I l (rest.foldl f b) := by
    intro rest
    induction rest with
    | nil =>
      intro done b hl hb
      rwa [hl, List.append_nil]
    | cons i rest ih =>
      intro done b hl hb
      exact ih (done ++ [i]) (f b i) (by rw [hl, List.append_assoc, List.singleton_append])
        (hstep done i rest b hl hb)
  exact hgen l [] b rfl h0

end BlockPath
