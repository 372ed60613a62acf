import ReWizard.Analysis.RegisterWrites

/-!
# What an instruction may leave in a register

An execution writes register names one after the other, and all but the destination of an effect may
get any value. `MayLeave` says bit by bit which values a general-purpose register may have after it:

* `Runs.mayLeave`: every execution leaves such a value;
* `MayLeave.exists_runs`: if there is an execution at all, one leaves it.

`Runs.mayRead` and `MayRead.exists_runs` say the same of what a name reads.
-/

namespace ReWizard

/-! ## Bits -/

/-- The bit of the full register belongs to the part. -/
def RegisterView.Covers (w : RegisterView) (k : Nat) : Prop :=
  w.offset ≤ k ∧ k < w.offset + w.width

instance (w : RegisterView) (k : Nat) : Decidable (w.Covers k) :=
  inferInstanceAs (Decidable (_ ∧ _))

theorem RegisterView.getLsbD_put_of_covers {w : RegisterView} (v old : BitVec 64) {k : Nat}
    (hk : k < 64) (h : w.Covers k) : (w.put v old).getLsbD k = v.getLsbD (k - w.offset) := by
  rw [w.getLsbD_put v old hk]
  exact if_pos h

/-- Bits outside of the part are cleared by a write of 32 bits, and stay else. -/
theorem RegisterView.getLsbD_put_of_not_covers {w : RegisterView} (v old : BitVec 64) {k : Nat}
    (hk : k < 64) (h : ¬ w.Covers k) :
    (w.put v old).getLsbD k = (!decide (32 ≤ w.width) && old.getLsbD k) := by
  rw [w.getLsbD_put v old hk]
  exact if_neg h

theorem ProcessorState.regs_write {s : ProcessorState} {n : ZydisRegister} {v : BitVec 64}
    {w : RegisterView} (h : n.view? = some w) :
    (s.write n v).regs w.gpr = w.put v (s.regs w.gpr) := by
  unfold write
  rw [h]
  exact if_pos rfl

theorem ProcessorState.regs_write_of_ne {s : ProcessorState} {n : ZydisRegister} {v : BitVec 64}
    {g : Gpr} (h : ∀ w, n.view? = some w → w.gpr ≠ g) : (s.write n v).regs g = s.regs g := by
  unfold write
  cases hv : n.view? with
  | none => rfl
  | some w => exact if_neg fun hg => h w hv hg.symm

/-- Where a bit of a register comes from: the last write that changes it decides. -/
inductive BitFrom (writes : List (ZydisRegister × BitVec 64)) (s : ProcessorState) (g : Gpr)
    (k : Nat) (bit : Bool) : Prop
  | before : (∀ p ∈ writes, ∀ w, p.1.view? = some w → w.gpr = g → ¬ w.Covers k ∧ w.width < 32) →
      bit = (s.regs g).getLsbD k → BitFrom writes s g k bit
  | put {p : ZydisRegister × BitVec 64} {w : RegisterView} : p ∈ writes → p.1.view? = some w →
      w.gpr = g → w.Covers k → bit = p.2.getLsbD (k - w.offset) → BitFrom writes s g k bit
  | cleared {p : ZydisRegister × BitVec 64} {w : RegisterView} : p ∈ writes →
      p.1.view? = some w → w.gpr = g → ¬ w.Covers k → 32 ≤ w.width → bit = false →
      BitFrom writes s g k bit

theorem BitFrom.cons {p : ZydisRegister × BitVec 64} {rest : List (ZydisRegister × BitVec 64)}
    {s : ProcessorState} {g : Gpr} {k : Nat} {bit : Bool} (hk : k < 64)
    (h : BitFrom rest (s.write p.1 p.2) g k bit) : BitFrom (p :: rest) s g k bit := by
  cases h with
  | put hq hview hgpr hcovers hbit =>
    exact .put (List.mem_cons_of_mem p hq) hview hgpr hcovers hbit
  | cleared hq hview hgpr hcovers hwide hbit =>
    exact .cleared (List.mem_cons_of_mem p hq) hview hgpr hcovers hwide hbit
  | before hrest hbit =>
    by_cases hg : ∃ w, p.1.view? = some w ∧ w.gpr = g
    · obtain ⟨w, hview, rfl⟩ := hg
      rw [ProcessorState.regs_write hview] at hbit
      by_cases hcovers : w.Covers k
      · rw [RegisterView.getLsbD_put_of_covers _ _ hk hcovers] at hbit
        exact .put List.mem_cons_self hview rfl hcovers hbit
      · rw [RegisterView.getLsbD_put_of_not_covers _ _ hk hcovers] at hbit
        by_cases hwide : 32 ≤ w.width
        · rw [decide_eq_true hwide] at hbit
          exact .cleared List.mem_cons_self hview rfl hcovers hwide hbit
        · rw [decide_eq_false hwide] at hbit
          refine .before (List.forall_mem_cons.mpr ⟨fun w' hw' _ => ?_, hrest⟩) hbit
          cases hview.symm.trans hw'
          exact ⟨hcovers, Nat.lt_of_not_le hwide⟩
    · have hother : ∀ w, p.1.view? = some w → w.gpr ≠ g := fun w hw hgpr => hg ⟨w, hw, hgpr⟩
      rw [ProcessorState.regs_write_of_ne hother] at hbit
      exact .before (List.forall_mem_cons.mpr
        ⟨fun w hw hgpr => absurd hgpr (hother w hw), hrest⟩) hbit

theorem ProcessorState.bitFrom_writeAll {g : Gpr} {k : Nat} (hk : k < 64) :
    ∀ (writes : List (ZydisRegister × BitVec 64)) (s : ProcessorState),
      BitFrom writes s g k (((s.writeAll writes).regs g).getLsbD k)
  | [], _ => .before (fun _ hp => by cases hp) rfl
  | p :: rest, s => (bitFrom_writeAll hk rest (s.write p.1 p.2)).cons hk

/-! ## The values that may be left -/

namespace ExtendedInstruction

variable (i : ExtendedInstruction) (s : ProcessorState) (b : BitVec 64)

/-- The written names that may get any value: they share no bits with the destination. -/
def freeNames : List ZydisRegister :=
  i.writtenNames.filter fun m => !i.effect.any fun e => m.disturbs e.dst

/-- The state with nothing written but the destination. -/
def settled : ProcessorState :=
  i.effect.elim s fun e => s.write e.dst (e.result s b)

/-- The bit may get any value by a write of 8 or 16 bits. -/
def Loose (g : Gpr) (k : Nat) : Prop :=
  ∃ m ∈ i.freeNames, ∃ w, m.view? = some w ∧ w.gpr = g ∧ w.width < 32 ∧ w.Covers k

/-- The register may have the value `x` after the instruction. -/
inductive MayLeave (g : Gpr) (x : BitVec 64) : Prop
  | whole : .gpr64 g ∈ i.freeNames → MayLeave g x
  | half : .gpr32 g ∈ i.freeNames → (∀ k, 32 ≤ k → x.getLsbD k = false) → MayLeave g x
  | parts : (∀ n ∈ i.freeNames, i.MustWrite n → n ≠ .gpr64 g ∧ n ≠ .gpr32 g) →
      (∀ k < 64, x.getLsbD k = ((i.settled s b).regs g).getLsbD k ∨ i.Loose g k) → MayLeave g x

theorem mem_freeNames {n : ZydisRegister} : n ∈ i.freeNames ↔
    n ∈ i.writtenNames ∧ ∀ e, i.effect = some e → n.disturbs e.dst = false := by
  unfold freeNames
  rw [List.mem_filter]
  cases i.effect <;> simp

variable {i s b}

theorem mem_writtenNames_of_mustWrite {n : ZydisRegister} (h : i.MustWrite n) :
    n ∈ i.writtenNames := by
  obtain ⟨op, hop, hvalue, hwrite⟩ := h
  refine List.mem_append_left _ (List.mem_append_left _ (List.mem_filterMap.mpr ⟨op, hop, ?_⟩))
  rw [hvalue, hwrite]
  rfl

theorem writeAll_settled (i : ExtendedInstruction) (s : ProcessorState) (b : BitVec 64)
    (free : List (ZydisRegister × BitVec 64)) :
    s.writeAll ((i.effect.toList.map fun e => (e.dst, e.result s b)) ++ free) =
      (i.settled s b).writeAll free := by
  unfold settled
  cases i.effect <;> rfl

theorem settled_of_none (h : i.effect = none) : i.settled s b = s := by
  unfold settled
  rw [h]
  rfl

theorem settled_of_some {e : Effect} (h : i.effect = some e) :
    i.settled s b = s.write e.dst (e.result s b) := by
  unfold settled
  rw [h]
  rfl

end ExtendedInstruction

/-- A name of at least 32 bits. -/
theorem ZydisRegister.eq_of_wide {n : ZydisRegister} {w : RegisterView} (h : n.view? = some w)
    (hwide : 32 ≤ w.width) : n = .gpr64 w.gpr ∨ n = .gpr32 w.gpr := by
  cases n <;> cases h <;> simp at hwide <;> simp

theorem ZydisRegister.view?_narrow {n : ZydisRegister} {w : RegisterView} (h : n.view? = some w)
    (hnarrow : w.width < 32) : w.offset + w.width ≤ 16 := by
  cases n <;> cases h <;> simp at hnarrow ⊢

theorem ZydisRegister.disturbs_of_none {m n : ZydisRegister} (hm : m.view? = Option.none)
    (hne : m ≠ n) : m.disturbs n = false := by
  unfold disturbs
  rw [hm]
  cases n.view? with
  | none => exact decide_eq_false hne
  | some w => rfl

/-! ## Every execution leaves one of them -/

section

variable {unnamed : ZydisRegister → Bool} {i : ExtendedInstruction} {s s' : ProcessorState}
  {b : BitVec 64} {writes : List (ZydisRegister × BitVec 64)}

/-- What is written to a general-purpose register. -/
theorem Runs.free_or_dst (h : Runs unnamed i s b writes s') {p : ZydisRegister × BitVec 64}
    (hp : p ∈ writes) {w : RegisterView} (hview : p.1.view? = some w) :
    p.1 ∈ i.freeNames ∨ ∃ e, i.effect = some e ∧ p = (e.dst, e.result s b) := by
  have hwritten : p.1 ∈ i.writtenNames := by
    rcases h.names p hp with hmem | ⟨hnone, -⟩
    · exact hmem
    · rw [hview] at hnone
      cases hnone
  by_cases hdst : ∃ e, i.effect = some e ∧ p.1.disturbs e.dst = true
  · obtain ⟨e, he, hd⟩ := hdst
    exact .inr ⟨e, he, (h.effect e he).2 p hp hd⟩
  · exact .inl (i.mem_freeNames.mpr
      ⟨hwritten, fun e he => Bool.eq_false_iff.mpr fun hd => hdst ⟨e, he, hd⟩⟩)

/-- A bit that no write changes is not a bit of the destination. -/
theorem Runs.settled_of_before (h : Runs unnamed i s b writes s') {g : Gpr} {k : Nat} (hk : k < 64)
    (hall : ∀ p ∈ writes, ∀ w, p.1.view? = some w → w.gpr = g → ¬ w.Covers k ∧ w.width < 32) :
    ((i.settled s b).regs g).getLsbD k = (s.regs g).getLsbD k := by
  cases he : i.effect with
  | none => rw [ExtendedInstruction.settled_of_none he]
  | some e =>
    rw [ExtendedInstruction.settled_of_some he]
    by_cases hg : ∃ w, e.dst.view? = some w ∧ w.gpr = g
    · obtain ⟨w, hview, rfl⟩ := hg
      obtain ⟨hcovers, hnarrow⟩ := hall _ (h.effect e he).1 w hview rfl
      rw [ProcessorState.regs_write hview, RegisterView.getLsbD_put_of_not_covers _ _ hk hcovers,
        decide_eq_false (Nat.not_le.mpr hnarrow)]
      rfl
    · rw [ProcessorState.regs_write_of_ne fun w hw hgpr => hg ⟨w, hw, hgpr⟩]

/-- The upper half is clear after a write of the lower one, unless the whole is written. -/
theorem Runs.upper_eq_false (h : Runs unnamed i s b writes s') {g : Gpr} {v : BitVec 64}
    (hwhole : .gpr64 g ∉ i.freeNames) (hfree : .gpr32 g ∈ i.freeNames)
    (hv : (.gpr32 g, v) ∈ writes) {k : Nat} (hk : 32 ≤ k) : (s'.regs g).getLsbD k = false := by
  by_cases hk64 : k < 64
  · rw [h.regs]
    cases ProcessorState.bitFrom_writeAll (g := g) hk64 writes s with
    | before hall _ => exact absurd (hall _ hv _ rfl rfl).2 (Nat.lt_irrefl 32)
    | cleared _ _ _ _ _ hbit => exact hbit
    | @put p w hp hview hgpr hcovers _ =>
      have hwide : 32 ≤ w.width := by
        refine Nat.le_of_not_lt fun hnarrow => ?_
        have := ZydisRegister.view?_narrow hview hnarrow
        unfold RegisterView.Covers at hcovers
        omega
      subst hgpr
      -- it is the whole register, which is neither free nor the destination
      rcases ZydisRegister.eq_of_wide hview hwide with hname | hname
      · rcases h.free_or_dst hp hview with hfree' | ⟨e, he, rfl⟩
        · exact absurd (hname ▸ hfree') hwhole
        · have hquiet := (i.mem_freeNames.mp hfree).2 e he
          rw [show e.dst = .gpr64 w.gpr from hname] at hquiet
          simp [ZydisRegister.disturbs, ZydisRegister.view?, RegisterView.disturbs] at hquiet
      · rw [hname] at hview
        have hend : w.offset + w.width = 32 := by
          rw [← Option.some.inj hview]
          rfl
        unfold RegisterView.Covers at hcovers
        omega
  · exact BitVec.getLsbD_of_ge _ k (Nat.le_of_not_lt hk64)

/-- **An execution** leaves a value that may be left. -/
theorem Runs.mayLeave (h : Runs unnamed i s b writes s') (g : Gpr) :
    i.MayLeave s b g (s'.regs g) := by
  by_cases hwhole : .gpr64 g ∈ i.freeNames
  · exact .whole hwhole
  by_cases hhalf : .gpr32 g ∈ i.freeNames ∧ ∃ v, (.gpr32 g, v) ∈ writes
  · obtain ⟨hfree, v, hv⟩ := hhalf
    exact .half hfree fun k hk => h.upper_eq_false hwhole hfree hv hk
  -- of the free names only those of 8 and 16 bits are written
  have hnarrow : ∀ p ∈ writes, ∀ w, p.1.view? = some w → w.gpr = g → p.1 ∈ i.freeNames →
      w.width < 32 := by
    rintro p hp w hview rfl hfree
    refine Nat.lt_of_not_le fun hwide => ?_
    rcases ZydisRegister.eq_of_wide hview hwide with hname | hname
    · exact hwhole (hname ▸ hfree)
    · exact hhalf ⟨hname ▸ hfree, p.2, hname ▸ hp⟩
  refine .parts (fun n hn hmust => ⟨fun hname => hwhole (hname ▸ hn), fun hname => ?_⟩)
    fun k hk => ?_
  · subst hname
    exact hhalf ⟨hn, h.operands _ hmust⟩
  · rw [h.regs]
    cases ProcessorState.bitFrom_writeAll (g := g) hk writes s with
    | before hall hbit => exact .inl (hbit.trans (h.settled_of_before hk hall).symm)
    | @put p w hp hview hgpr hcovers hbit =>
      rcases h.free_or_dst hp hview with hfree | ⟨e, he, rfl⟩
      · exact .inr ⟨p.1, hfree, w, hview, hgpr, hnarrow p hp w hview hgpr hfree, hcovers⟩
      · subst hgpr
        rw [ExtendedInstruction.settled_of_some he, ProcessorState.regs_write hview,
          RegisterView.getLsbD_put_of_covers _ _ hk hcovers]
        exact .inl hbit
    | @cleared p w hp hview hgpr hcovers hwide hbit =>
      rcases h.free_or_dst hp hview with hfree | ⟨e, he, rfl⟩
      · exact absurd (hnarrow p hp w hview hgpr hfree) (Nat.not_lt.mpr hwide)
      · subst hgpr
        rw [ExtendedInstruction.settled_of_some he, ProcessorState.regs_write hview,
          RegisterView.getLsbD_put_of_not_covers _ _ hk hcovers, decide_eq_true hwide]
        exact .inl hbit

end

/-! ## Each of them is left by an execution -/

section

variable {unnamed : ZydisRegister → Bool} {i : ExtendedInstruction} {s s₀ : ProcessorState}
  {b : BitVec 64} {writes₀ : List (ZydisRegister × BitVec 64)}

/-- The destination gets the result, and then come the writes that are free. -/
def ExtendedInstruction.writesWith (i : ExtendedInstruction) (s : ProcessorState) (b : BitVec 64)
    (free : List (ZydisRegister × BitVec 64)) : List (ZydisRegister × BitVec 64) :=
  (i.effect.toList.map fun e => (e.dst, e.result s b)) ++ free

theorem ExtendedInstruction.mem_writesWith {free : List (ZydisRegister × BitVec 64)}
    {p : ZydisRegister × BitVec 64} : p ∈ i.writesWith s b free ↔
      (∃ e, i.effect = some e ∧ p = (e.dst, e.result s b)) ∨ p ∈ free := by
  unfold writesWith
  rw [List.mem_append, List.mem_map]
  simp only [Option.mem_toList, eq_comm]

/-- If the instruction can be executed, it may write the free names in any order and with any
values. -/
theorem Runs.exists_of_free (h₀ : Runs unnamed i s b writes₀ s₀)
    (free : List (ZydisRegister × BitVec 64))
    (hfree : ∀ p ∈ free, p.1 ∈ i.freeNames ∨
      (p.1.view? = none ∧ unnamed p.1 = true ∧ ∀ e, i.effect = some e → p.1 ≠ e.dst))
    (hmust : ∀ n ∈ i.freeNames, i.MustWrite n → ∃ v, (n, v) ∈ free) :
    ∃ writes s', Runs unnamed i s b writes s' ∧
      s'.regs = ((i.settled s b).writeAll free).regs ∧
      s'.others = ((i.settled s b).writeAll free).others := by
  have hall : s.writeAll (i.writesWith s b free) = (i.settled s b).writeAll free :=
    i.writeAll_settled s b free
  have hmem : ∀ e, i.effect = some e → (e.dst, e.result s b) ∈ i.writesWith s b free :=
    fun e he => ExtendedInstruction.mem_writesWith.mpr (.inl ⟨e, he, rfl⟩)
  have hquiet : ∀ p ∈ free, ∀ e, i.effect = some e → p.1.disturbs e.dst = false := by
    intro p hp e he
    rcases hfree p hp with hname | ⟨hnone, -, hne⟩
    · exact (i.mem_freeNames.mp hname).2 e he
    · exact ZydisRegister.disturbs_of_none hnone (hne e he)
  let flags := (i.flags s.toMachine).getD (s.zf, s.sf)
  refine ⟨i.writesWith s b free,
    { s.writeAll (i.writesWith s b free) with zf := flags.1, sf := flags.2 }, ⟨h₀.second, fun p hp => ?_, fun n hn => ?_,
      fun e he => ⟨hmem e he, fun p hp hd => ?_⟩, rfl, rfl, fun z n hflags => ?_⟩,
    congrArg (fun t => t.regs) hall, congrArg (fun t => t.others) hall⟩
  · rcases ExtendedInstruction.mem_writesWith.mp hp with ⟨e, he, rfl⟩ | hp
    · exact h₀.names _ (h₀.effect e he).1
    · rcases hfree p hp with hname | ⟨hnone, hunnamed, -⟩
      · exact .inl (i.mem_freeNames.mp hname).1
      · exact .inr ⟨hnone, hunnamed⟩
  · by_cases hd : ∃ e, i.effect = some e ∧ n.disturbs e.dst = true
    · -- the execution that there is writes the name as the destination
      obtain ⟨e, he, hd⟩ := hd
      obtain ⟨v, hv⟩ := h₀.operands n hn
      have heq := (h₀.effect e he).2 (n, v) hv hd
      exact ⟨v, heq ▸ hmem e he⟩
    · have hname : n ∈ i.freeNames := i.mem_freeNames.mpr
        ⟨ExtendedInstruction.mem_writtenNames_of_mustWrite hn,
          fun e he => Bool.eq_false_iff.mpr fun h => hd ⟨e, he, h⟩⟩
      obtain ⟨v, hv⟩ := hmust n hname hn
      exact ⟨v, ExtendedInstruction.mem_writesWith.mpr (.inr hv)⟩
  · rcases ExtendedInstruction.mem_writesWith.mp hp with ⟨e', he', rfl⟩ | hp
    · cases he.symm.trans he'
      rfl
    · rw [hquiet p hp e he] at hd
      cases hd
  · have hpair : flags = (z, n) := by
      show (i.flags s.toMachine).getD _ = _
      rw [hflags]
      rfl
    exact ⟨congrArg Prod.fst hpair, congrArg Prod.snd hpair⟩

theorem ProcessorState.writeAll_snoc (s : ProcessorState) (writes : List (ZydisRegister × BitVec 64))
    (p : ZydisRegister × BitVec 64) :
    s.writeAll (writes ++ [p]) = (s.writeAll writes).write p.1 p.2 :=
  List.foldl_append

/-- A last write to a name may follow all others. -/
theorem Runs.exists_last (h₀ : Runs unnamed i s b writes₀ s₀) {n : ZydisRegister} (v : BitVec 64)
    (hn : n ∈ i.freeNames ∨
      (n.view? = none ∧ unnamed n = true ∧ ∀ e, i.effect = some e → n ≠ e.dst)) :
    ∃ writes s' t, Runs unnamed i s b writes s' ∧ s'.regs = (t.write n v).regs ∧
      s'.others = (ProcessorState.write t n v).others := by
  obtain ⟨writes, s', hruns, hregs, hothers⟩ := h₀.exists_of_free
    ((i.freeNames.map fun m => (m, v)) ++ [(n, v)])
    (fun p hp => by
      rcases List.mem_append.mp hp with hp | hp
      · obtain ⟨m, hm, rfl⟩ := List.mem_map.mp hp
        exact .inl hm
      · cases List.mem_singleton.mp hp
        exact hn)
    (fun m hm _ => ⟨v, List.mem_append_left _ (List.mem_map.mpr ⟨m, hm, rfl⟩)⟩)
  rw [ProcessorState.writeAll_snoc] at hregs hothers
  exact ⟨writes, s', _, hruns, hregs, hothers⟩

/-- The bits of `x` at the place of the name. -/
def ZydisRegister.sliceOf (n : ZydisRegister) (x : BitVec 64) : BitVec 64 :=
  n.view?.elim x fun w => x >>> w.offset

/-- The free names that are not the whole register and not its lower half, with their bits of
`x`. -/
def ExtendedInstruction.slices (i : ExtendedInstruction) (g : Gpr) (x : BitVec 64) :
    List (ZydisRegister × BitVec 64) :=
  (i.freeNames.filter fun n => decide (n ≠ .gpr64 g ∧ n ≠ .gpr32 g)).map fun n => (n, n.sliceOf x)

section

variable {g : Gpr} {x : BitVec 64}

theorem ExtendedInstruction.mem_slices {p : ZydisRegister × BitVec 64} : p ∈ i.slices g x ↔
    p.1 ∈ i.freeNames ∧ (p.1 ≠ .gpr64 g ∧ p.1 ≠ .gpr32 g) ∧ p.2 = p.1.sliceOf x := by
  unfold slices
  constructor
  · intro hp
    obtain ⟨n, hn, rfl⟩ := List.mem_map.mp hp
    obtain ⟨hfree, hname⟩ := List.mem_filter.mp hn
    exact ⟨hfree, of_decide_eq_true hname, rfl⟩
  · rintro ⟨hfree, hname, hvalue⟩
    exact List.mem_map.mpr ⟨p.1, List.mem_filter.mpr ⟨hfree, decide_eq_true hname⟩,
      Prod.ext rfl hvalue.symm⟩

/-- With the slices of `x` written, each bit of the register is the bit of `x`, if it is so before
or the bit is loose. -/
theorem ExtendedInstruction.writeAll_slices
    (hbits : ∀ k < 64, x.getLsbD k = ((i.settled s b).regs g).getLsbD k ∨ i.Loose g k) :
    ((i.settled s b).writeAll (i.slices g x)).regs g = x := by
  refine BitVec.eq_of_getLsbD_eq fun k hk => ?_
  cases ProcessorState.bitFrom_writeAll (g := g) hk _ (i.settled s b) with
  | before hall hbit =>
    rcases hbits k hk with hx | ⟨m, hm, w, hview, hgpr, hwidth, hcovers⟩
    · exact hbit.trans hx.symm
    · have hname : m ≠ .gpr64 g ∧ m ≠ .gpr32 g := by
        constructor <;> rintro rfl <;> cases hview <;> simp at hwidth
      exact absurd hcovers (hall (m, m.sliceOf x) (mem_slices.mpr ⟨hm, hname, rfl⟩) w hview hgpr).1
  | @put p w hp hview _ hcovers hbit =>
    have hslice : p.2 = x >>> w.offset := by
      rw [(mem_slices.mp hp).2.2]
      unfold ZydisRegister.sliceOf
      rw [hview]
      rfl
    rw [hbit, hslice, BitVec.getLsbD_ushiftRight, Nat.add_sub_cancel' hcovers.1]
  | @cleared p w hp hview hgpr _ hwide _ =>
    obtain ⟨hwhole, hhalf⟩ := (mem_slices.mp hp).2.1
    subst hgpr
    rcases ZydisRegister.eq_of_wide hview hwide with hname | hname
    · exact absurd hname hwhole
    · exact absurd hname hhalf

/-- **A value that may be left** is left by an execution. -/
theorem ExtendedInstruction.MayLeave.exists_runs (h₀ : Runs unnamed i s b writes₀ s₀)
    (h : i.MayLeave s b g x) : ∃ writes s', Runs unnamed i s b writes s' ∧ s'.regs g = x := by
  cases h with
  | whole hfree =>
    obtain ⟨writes, s', t, hruns, hregs, -⟩ := h₀.exists_last x (.inl hfree)
    refine ⟨writes, s', hruns, ?_⟩
    rw [hregs, ProcessorState.regs_write (n := .gpr64 g) rfl]
    refine BitVec.eq_of_getLsbD_eq fun k hk => ?_
    exact RegisterView.getLsbD_put_of_covers _ _ hk ⟨Nat.zero_le k, by simpa using hk⟩
  | half hfree hupper =>
    obtain ⟨writes, s', t, hruns, hregs, -⟩ := h₀.exists_last x (.inl hfree)
    refine ⟨writes, s', hruns, ?_⟩
    rw [hregs, ProcessorState.regs_write (n := .gpr32 g) rfl]
    refine BitVec.eq_of_getLsbD_eq fun k hk => ?_
    by_cases hlow : k < 32
    · exact RegisterView.getLsbD_put_of_covers _ _ hk ⟨Nat.zero_le k, by simpa using hlow⟩
    · rw [hupper k (Nat.le_of_not_lt hlow)]
      refine RegisterView.getLsbD_put_of_not_covers _ _ hk fun hcovers => hlow ?_
      simpa [RegisterView.Covers] using hcovers
  | parts hrequired hbits =>
    obtain ⟨writes, s', hruns, hregs, -⟩ := h₀.exists_of_free (i.slices g x)
      (fun p hp => .inl (mem_slices.mp hp).1)
      (fun n hn hmust => ⟨n.sliceOf x, mem_slices.mpr ⟨hn, hrequired n hn hmust, rfl⟩⟩)
    refine ⟨writes, s', hruns, ?_⟩
    rw [hregs]
    exact writeAll_slices hbits

end

end

/-! ## What a name reads -/

/-- The name may read `v` after the instruction. -/
inductive ExtendedInstruction.MayRead (unnamed : ZydisRegister → Bool) (i : ExtendedInstruction)
    (s : ProcessorState) (b : BitVec 64) : ZydisRegister → BitVec 64 → Prop
  | part {n : ZydisRegister} {w : RegisterView} {x : BitVec 64} : n.view? = some w →
      i.MayLeave s b w.gpr x → MayRead unnamed i s b n (signExtendFrom w.width (x >>> w.offset))
  | dst {n : ZydisRegister} {e : Effect} : n.view? = none → i.effect = some e → e.dst = n →
      MayRead unnamed i s b n (e.result s b)
  | other {n : ZydisRegister} {v : BitVec 64} : n.view? = none →
      (∀ e, i.effect = some e → n ≠ e.dst) → n ∈ i.writtenNames ∨ unnamed n = true →
      MayRead unnamed i s b n v

section

variable {unnamed : ZydisRegister → Bool} {i : ExtendedInstruction} {s s' : ProcessorState}
  {b : BitVec 64} {writes : List (ZydisRegister × BitVec 64)}

theorem ExtendedInstruction.disturbs_of_none {n : ZydisRegister} (hview : n.view? = none) :
    i.disturbs unnamed n = true ↔ n ∈ i.writtenNames ∨ unnamed n = true := by
  have hname : ∀ m : ZydisRegister, m.disturbs n = true ↔ m = n := by
    intro m
    unfold ZydisRegister.disturbs
    rw [hview]
    cases hm : m.view? with
    | none => exact decide_eq_true_iff
    | some w =>
      constructor
      · intro h
        cases h
      · intro h
        rw [h, hview] at hm
        cases hm
  unfold disturbs
  rw [hview, Bool.or_eq_true, List.any_eq_true]
  simp only [hname, exists_eq_right, Option.isNone_none, Bool.true_and]
  exact or_comm

theorem Runs.mayRead (h : Runs unnamed i s b writes s') {n : ZydisRegister}
    (hn : i.disturbs unnamed n = true) : i.MayRead unnamed s b n (s'.read n) := by
  cases hview : n.view? with
  | some w =>
    rw [ProcessorState.read_of_some hview]
    exact .part hview (h.mayLeave w.gpr)
  | none =>
    by_cases hdst : ∃ e, i.effect = some e ∧ n = e.dst
    · obtain ⟨e, he, rfl⟩ := hdst
      rw [h.read_dst he]
      exact .dst hview he rfl
    · exact .other hview (fun e he heq => hdst ⟨e, he, heq⟩)
        ((ExtendedInstruction.disturbs_of_none hview).mp hn)

theorem ExtendedInstruction.MayRead.exists_runs (h₀ : Runs unnamed i s b writes s')
    {n : ZydisRegister} {v : BitVec 64} (h : i.MayRead unnamed s b n v) :
    ∃ writes s', Runs unnamed i s b writes s' ∧ s'.read n = v := by
  cases h with
  | part hview hleave =>
    obtain ⟨writes, s', hruns, hregs⟩ := hleave.exists_runs h₀
    refine ⟨writes, s', hruns, ?_⟩
    rw [ProcessorState.read_of_some hview, hregs]
  | dst _ he hdst => exact ⟨writes, s', h₀, hdst ▸ h₀.read_dst he⟩
  | other hview hne hname =>
    have hquiet : ∀ e, i.effect = some e → n.disturbs e.dst = false := fun e he =>
      ZydisRegister.disturbs_of_none hview (hne e he)
    obtain ⟨writes, s', t, hruns, -, hothers⟩ := h₀.exists_last (n := n) v
      (hname.imp (fun hmem => i.mem_freeNames.mpr ⟨hmem, hquiet⟩) fun hun => ⟨hview, hun, hne⟩)
    refine ⟨writes, s', hruns, ?_⟩
    rw [ProcessorState.read_of_none hview, hothers, ← ProcessorState.read_of_none hview,
      ProcessorState.read_write_self, ZydisRegister.width_of_none hview, signExtendFrom_64]

end

end ReWizard
