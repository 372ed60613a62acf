import ReWizard.Analysis.DataFlow

/-!
# Modules up to what data flow writes

`DataFlowAnalysisPass` writes the resolved values of the records and the call sites of the
functions. `Module.Alike` and `Module.Similar` say that two modules have nothing else different;
what a module is asked for and what is added to it keep them so.
-/

namespace ReWizard

/-! ## Records up to the resolved value -/

/-- The record without what the pass writes. -/
def ExtendedInstruction.bare (i : ExtendedInstruction) : ExtendedInstruction :=
  { i with indirectValue := 0 }

def Module.Alike (m m' : Module) : Prop :=
  ∀ a, (m.getInstruction a).map (·.bare) = (m'.getInstruction a).map (·.bare)

theorem Module.Alike.refl (m : Module) : m.Alike m := fun _ => rfl

theorem Module.Alike.symm {m m' : Module} (h : m.Alike m') : m'.Alike m := fun a => (h a).symm

theorem Module.Alike.trans {m m' m'' : Module} (h : m.Alike m') (h' : m'.Alike m'') :
    m.Alike m'' := fun a => (h a).trans (h' a)

theorem Module.Alike.insnsFrom {m m' : Module} (h : m.Alike m') {stop : Nat} :
    ∀ {n a : Nat}, (m.insnsFrom stop n a).map (·.bare) = (m'.insnsFrom stop n a).map (·.bare)
  | 0, _ => rfl
  | n + 1, a => by
    have ha := h a
    unfold Module.insnsFrom
    by_cases hstop : stop ≤ a
    · rw [if_pos hstop, if_pos hstop]
    · rw [if_neg hstop, if_neg hstop]
      cases hm : m.getInstruction a with
      | none =>
        rw [hm] at ha
        rw [Option.map_eq_none_iff.mp ha.symm]
      | some i =>
        rw [hm] at ha
        obtain ⟨i', hm', hbare⟩ := Option.map_eq_some_iff.mp ha.symm
        rw [hm']
        dsimp only at hbare ⊢
        have hinsn : i'.bare.instruction = i.bare.instruction := by rw [hbare]
        have hinsn : i'.instruction = i.instruction := hinsn
        rw [List.map_cons, List.map_cons, hbare, hinsn, h.insnsFrom]

theorem Module.Alike.blockInsns {m m' : Module} (h : m.Alike m') (b : BasicBlock) :
    (m.blockInsns b).map (·.bare) = (m'.blockInsns b).map (·.bare) := h.insnsFrom

/-- A function of records that does not look at the resolved value does not tell alike modules
apart. -/
theorem Module.Alike.foldl {m m' : Module} (h : m.Alike m') {α : Type _}
    {step : α → ExtendedInstruction → α} (hstep : ∀ a i, step a i.bare = step a i)
    (b : BasicBlock) (a : α) : (m.blockInsns b).foldl step a = (m'.blockInsns b).foldl step a := by
  have hbare : ∀ l : List ExtendedInstruction, l.foldl step a = (l.map (·.bare)).foldl step a := by
    intro l
    rw [List.foldl_map]
    exact List.foldl_ext _ _ _ fun a i _ => (hstep a i).symm
  rw [hbare, h.blockInsns, ← hbare]

theorem Module.Alike.setIndirectValue {m m' : Module} (h : m.Alike m') {i : ExtendedInstruction}
    (hi : m'.getInstruction i.address = some i) (target : Nat) :
    (m.setIndirectValue i target).Alike m' := by
  intro a
  have hget : (m.setIndirectValue i target).getInstruction a =
      if a = i.address then some { i with indirectValue := target } else m.getInstruction a :=
    OrdMap.get?_insert _ _ _ _
  rw [hget]
  split
  · rename_i ha
    subst ha
    rw [hi]
    rfl
  · exact h a

/-! ## Functions up to call sites -/

def Function.SameButSites (f f' : Function) : Prop := f' = { f with callSites := f'.callSites }

theorem Function.SameButSites.refl (f : Function) : f.SameButSites f := rfl

theorem Function.SameButSites.symm {f f' : Function} (h : f.SameButSites f') :
    f'.SameButSites f := by
  unfold SameButSites at h ⊢
  rw [h]

theorem Function.SameButSites.trans {f f' f'' : Function} (h : f.SameButSites f')
    (h' : f'.SameButSites f'') : f.SameButSites f'' := by
  unfold SameButSites at h h' ⊢
  rw [h', h]

/-! ## Modules up to call sites and resolved values -/

structure Module.Similar (m m' : Module) : Prop where
  alike : m.Alike m'
  functions : List.Forall₂ Function.SameButSites m.functions m'.functions
  index : m'.functionByStart = m.functionByStart
  symbols : m'.symbolTable = m.symbolTable
  xrefs : m'.xrefManager = m.xrefManager

namespace Module.Similar

variable {m m' m'' : Module}

theorem refl (m : Module) : m.Similar m :=
  ⟨.refl m, List.forall₂_same.mpr fun f _ => .refl f, rfl, rfl, rfl⟩

theorem symm (h : m.Similar m') : m'.Similar m :=
  ⟨h.alike.symm, (List.Forall₂.flip h.functions).imp fun _ _ => .symm, h.index.symm,
    h.symbols.symm, h.xrefs.symm⟩

theorem trans (h : m.Similar m') (h' : m'.Similar m'') : m.Similar m'' where
  alike := h.alike.trans h'.alike
  functions := by
    have htrans : ∀ {l l' l'' : List Function}, List.Forall₂ Function.SameButSites l l' →
        List.Forall₂ Function.SameButSites l' l'' → List.Forall₂ Function.SameButSites l l'' := by
      intro l l' l'' h h'
      induction h generalizing l'' with
      | nil => exact h'
      | cons hf _ ih =>
        cases h' with
        | cons hf' h' => exact .cons (hf.trans hf') (ih h')
    exact htrans h.functions h'.functions
  index := h'.index.trans h.index
  symbols := h'.symbols.trans h.symbols
  xrefs := h'.xrefs.trans h.xrefs

theorem contains (h : m.Similar m') (a : Nat) :
    m'.instructions.contains a = m.instructions.contains a := by
  have ha := congrArg Option.isSome (h.alike a)
  rw [Option.isSome_map, Option.isSome_map] at ha
  exact ha.symm

theorem getFunctionForAddress (h : m.Similar m') (a : Nat) :
    (m'.getFunctionForAddress a).isSome = (m.getFunctionForAddress a).isSome := by
  unfold Module.getFunctionForAddress
  rw [h.index]
  cases m.functionByStart.floor? a with
  | none => rfl
  | some e =>
    obtain ⟨start, _ | k⟩ := e
    · rfl
    dsimp only
    have hget : Option.Rel Function.SameButSites m.functions[k]? m'.functions[k]? := by
      have hgen : ∀ {l l' : List Function} (k : Nat), List.Forall₂ Function.SameButSites l l' →
          Option.Rel Function.SameButSites l[k]? l'[k]? := by
        intro l l' k h
        induction h generalizing k with
        | nil => exact .none
        | cons hf _ ih =>
          cases k with
          | zero => exact .some hf
          | succ k => exact ih k
      exact hgen k h.functions
    cases hf : m.functions[k]? with
    | none =>
      rw [hf] at hget
      cases hf' : m'.functions[k]? with
      | none => rfl
      | some f' =>
        rw [hf'] at hget
        cases hget
    | some f =>
      rw [hf] at hget
      cases hf' : m'.functions[k]? with
      | none =>
        rw [hf'] at hget
        cases hget
      | some f' =>
        rw [hf'] at hget
        cases hget with
        | some hsame =>
          unfold Function.SameButSites at hsame
          dsimp only
          rw [hsame]
          dsimp only
          split <;> rfl

theorem addInstruction (h : m.Similar m') (i : ExtendedInstruction) :
    (m.addInstruction i).Similar (m'.addInstruction i) := by
  unfold Module.addInstruction
  rw [h.contains]
  split
  · exact h
  · refine ⟨fun a => ?_, h.functions, h.index, h.symbols, h.xrefs⟩
    show Option.map _ (OrdMap.get? _ _) = Option.map _ (OrdMap.get? _ _)
    rw [OrdMap.get?_insert, OrdMap.get?_insert]
    split
    · rfl
    · exact h.alike a

theorem addXref (h : m.Similar m') (src dst : Nat) (kind : String) :
    (m.addXref src dst kind).Similar (m'.addXref src dst kind) :=
  ⟨h.alike, h.functions, h.index, h.symbols, by unfold Module.addXref; rw [h.xrefs]⟩

theorem addFunction (h : m.Similar m') (f : Function) :
    (m.addFunction f).Similar (m'.addFunction f) := by
  refine ⟨h.alike, List.rel_append h.functions (.cons (.refl f) .nil), ?_, h.symbols, h.xrefs⟩
  unfold Module.addFunction
  rw [h.index, h.functions.length_eq]

end Module.Similar

/-- Contexts with similar modules and the same visited addresses. -/
structure AnalysisContext.Similar (ctx ctx' : AnalysisContext) : Prop where
  module : ctx.module.Similar ctx'.module
  visited : ctx'.visited = ctx.visited

theorem AnalysisContext.similar_equivalence : Equivalence AnalysisContext.Similar where
  refl ctx := ⟨.refl ctx.module, rfl⟩
  symm h := ⟨h.module.symm, h.visited.symm⟩
  trans h h' := ⟨h.module.trans h'.module, h'.visited.trans h.visited⟩

end ReWizard
