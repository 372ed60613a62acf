import ReWizard.Analysis.Module

/-!
# Looking up a function by address

`AddFunction` files a function under its start, and `GetFunctionForAddress` looks at one entry of
that index, the one with the greatest start that is not above the address:

* `Module.Indexed`: the index has, for every start, the function that was added last with it;
* `Module.Indexed.getFunctionForAddress_eq_some_iff`: what a lookup finds;
* `functionLookup_agrees_iff`: the lookups agree with a scan of all functions if and only if no
  function goes on after the end of one that begins inside it, with no further start in between.
-/

namespace ReWizard

/-- `address` lies in the function's range. -/
def Function.Contains (f : Function) (address : Nat) : Prop :=
  f.startAddress ≤ address ∧ address < f.endAddress

/-- Function `k` of the list is `g`, and no later one has its start. -/
structure LastOfStart (fs : List Function) (k : Nat) (g : Function) : Prop where
  function : fs[k]? = some g
  last : ∀ j h, fs[j]? = some h → h.startAddress = g.startAddress → j ≤ k

namespace LastOfStart

variable {fs : List Function} {k : Nat} {f g : Function}

theorem mem (h : LastOfStart fs k g) : g ∈ fs := List.mem_of_getElem? h.function

/-- The function that is added is the last one with its start. -/
theorem added (fs : List Function) (f : Function) : LastOfStart (fs ++ [f]) fs.length f where
  function := List.getElem?_concat_length
  last := fun j h hj _ => by
    have hlt := (List.getElem?_eq_some_iff.mp hj).1
    rw [List.length_append, List.length_singleton] at hlt
    exact Nat.lt_succ_iff.mp hlt

/-- Adding a function with another start changes nothing. -/
theorem append_iff (hne : g.startAddress ≠ f.startAddress) :
    LastOfStart (fs ++ [f]) k g ↔ LastOfStart fs k g := by
  have hold : ∀ {j : Nat} {h : Function}, h.startAddress = g.startAddress →
      ((fs ++ [f])[j]? = some h ↔ fs[j]? = some h) := by
    intro j h hstart
    rw [List.getElem?_append]
    split
    · exact Iff.rfl
    · rename_i hj
      rw [List.getElem?_eq_none (Nat.not_lt.mp hj), List.getElem?_singleton]
      split
      · constructor
        · intro heq
          cases heq
          exact absurd hstart.symm hne
        · exact fun heq => by cases heq
      · exact Iff.rfl
  constructor
  · intro h
    exact ⟨(hold rfl).mp h.function, fun j x hx hs => h.last j x ((hold hs).mpr hx) hs⟩
  · intro h
    exact ⟨(hold rfl).mpr h.function, fun j x hx hs => h.last j x ((hold hs).mp hx) hs⟩

/-- Of the functions with a start, one is the last. -/
theorem exists_of_mem : ∀ {fs : List Function}, f ∈ fs →
    ∃ k g, LastOfStart fs k g ∧ g.startAddress = f.startAddress := by
  intro fs
  induction fs using List.reverseRecOn with
  | nil => intro hf; cases hf
  | append_singleton fs x ih =>
    intro hf
    by_cases hx : x.startAddress = f.startAddress
    · exact ⟨_, x, .added fs x, hx⟩
    · have hf' : f ∈ fs := (List.mem_append.mp hf).resolve_right fun hmem =>
        hx (congrArg Function.startAddress (List.mem_singleton.mp hmem)).symm
      obtain ⟨k, g, hg, hstart⟩ := ih hf'
      exact ⟨k, g, (append_iff (hstart.trans_ne (Ne.symm hx))).mpr hg, hstart⟩

theorem unique {j : Nat} (hf : LastOfStart fs j f) (hg : LastOfStart fs k g)
    (h : f.startAddress = g.startAddress) : j = k ∧ f = g := by
  obtain rfl : j = k :=
    Nat.le_antisymm (hg.last j f hf.function h) (hf.last k g hg.function h.symm)
  have heq := hf.function.symm.trans hg.function
  exact ⟨rfl, Option.some.inj heq⟩

end LastOfStart

/-! ## The index -/

/-- Under every start, the index has the function that was added last with it. -/
def Module.Indexed (m : Module) : Prop :=
  ∀ a v, m.functionByStart.get? a = some v ↔
    ∃ k g, v = some k ∧ LastOfStart m.functions k g ∧ g.startAddress = a

theorem Module.indexed_empty (symbolTable : SymbolTable) :
    Module.Indexed { symbolTable := symbolTable } := by
  intro a v
  constructor
  · intro h
    cases h
  · rintro ⟨k, g, -, ⟨hg, -⟩, -⟩
    cases hg

theorem Module.Indexed.addFunction {m : Module} (h : m.Indexed) (f : Function) :
    (m.addFunction f).Indexed := by
  intro a v
  unfold Module.addFunction
  dsimp only
  rw [OrdMap.get?_insert]
  by_cases ha : a = f.startAddress
  · rw [if_pos ha]
    constructor
    · intro hv
      cases hv
      exact ⟨_, f, rfl, .added m.functions f, ha.symm⟩
    · rintro ⟨k, g, rfl, hg, hstart⟩
      obtain ⟨rfl, -⟩ := hg.unique (.added m.functions f) (hstart.trans ha)
      rfl
  · rw [if_neg ha, h a v]
    constructor
    · rintro ⟨k, g, rfl, hg, hstart⟩
      exact ⟨k, g, rfl, (LastOfStart.append_iff (hstart ▸ ha)).mpr hg, hstart⟩
    · rintro ⟨k, g, rfl, hg, hstart⟩
      exact ⟨k, g, rfl, (LastOfStart.append_iff (hstart ▸ ha)).mp hg, hstart⟩

/-- The module after a sequence of `AddFunction` calls. -/
def addFunctions (fs : List Function) : Module := fs.foldl Module.addFunction {}

theorem addFunctions_indexed (fs : List Function) : (addFunctions fs).Indexed :=
  List.foldlRecOn (motive := Module.Indexed) _ _ (Module.indexed_empty {})
    fun _ hm f _ => hm.addFunction f

theorem addFunctions_functions (fs : List Function) : (addFunctions fs).functions = fs := by
  have hfold : ∀ (fs : List Function) (m : Module),
      (fs.foldl Module.addFunction m).functions = m.functions ++ fs := by
    intro fs
    induction fs with
    | nil => exact fun m => (List.append_nil _).symm
    | cons f rest ih =>
      intro m
      rw [List.foldl_cons, ih]
      exact List.append_assoc m.functions [f] rest
  exact hfold fs {}

/-! ## Lookups -/

/-- `g` is the last function with the greatest start that is not above the address. -/
structure Nearest (fs : List Function) (a k : Nat) (g : Function) : Prop where
  last : LastOfStart fs k g
  le : g.startAddress ≤ a
  greatest : ∀ f ∈ fs, f.startAddress ≤ a → f.startAddress ≤ g.startAddress

theorem Nearest.unique {fs : List Function} {a j k : Nat} {f g : Function}
    (hf : Nearest fs a j f) (hg : Nearest fs a k g) : f = g :=
  (hf.last.unique hg.last (Nat.le_antisymm (hg.greatest f hf.last.mem hf.le)
    (hf.greatest g hg.last.mem hg.le))).2

namespace Module.Indexed

variable {m : Module} (h : m.Indexed)
include h

theorem mem_index_iff {s : Nat} {v : Option Nat} : (s, v) ∈ m.functionByStart.toList ↔
    ∃ k g, v = some k ∧ LastOfStart m.functions k g ∧ g.startAddress = s :=
  OrdMap.get?_eq_some_iff.symm.trans (h s v)

theorem nearest_of_floor {a : Nat} {e : Nat × Option Nat}
    (he : m.functionByStart.floor? a = some e) :
    ∃ k g, e = (g.startAddress, some k) ∧ Nearest m.functions a k g := by
  obtain ⟨s, v⟩ := e
  obtain ⟨hmem, hle, hmax⟩ := OrdMap.floor?_eq_some_iff.mp he
  obtain ⟨k, g, rfl, hg, rfl⟩ := h.mem_index_iff.mp hmem
  refine ⟨k, g, rfl, hg, hle, fun x hx hxa => ?_⟩
  obtain ⟨j, y, hy, hstart⟩ := LastOfStart.exists_of_mem hx
  have := hmax _ (h.mem_index_iff.mpr ⟨j, y, rfl, hy, rfl⟩) (hstart ▸ hxa)
  exact hstart ▸ this

theorem exists_nearest {a : Nat} {f : Function} (hf : f ∈ m.functions)
    (hle : f.startAddress ≤ a) : ∃ k g, Nearest m.functions a k g := by
  cases he : m.functionByStart.floor? a with
  | some e =>
    obtain ⟨k, g, -, hg⟩ := h.nearest_of_floor he
    exact ⟨k, g, hg⟩
  | none =>
    obtain ⟨j, y, hy, hstart⟩ := LastOfStart.exists_of_mem hf
    have := OrdMap.floor?_eq_none_iff.mp he _ (h.mem_index_iff.mpr ⟨j, y, rfl, hy, rfl⟩)
    exact absurd hle (Nat.not_le.mpr (hstart ▸ this))

/-- **What a lookup finds**: the nearest function, if the address is in its range. -/
theorem getFunctionForAddress_eq_some_iff {a : Nat} {f : Function} :
    m.getFunctionForAddress a = some f ↔ (∃ k, Nearest m.functions a k f) ∧ f.Contains a := by
  unfold Module.getFunctionForAddress
  cases he : m.functionByStart.floor? a with
  | none =>
    dsimp only
    constructor
    · intro hf
      cases hf
    · rintro ⟨⟨k, hk⟩, -⟩
      have := OrdMap.floor?_eq_none_iff.mp he _ (h.mem_index_iff.mpr ⟨k, f, rfl, hk.last, rfl⟩)
      exact absurd hk.le (Nat.not_le.mpr this)
  | some e =>
    obtain ⟨k, g, rfl, hg⟩ := h.nearest_of_floor he
    dsimp only
    rw [hg.last.function]
    dsimp only
    constructor
    · intro hf
      split at hf
      · rename_i hin
        cases hf
        exact ⟨⟨k, hg⟩, hin⟩
      · cases hf
    · rintro ⟨⟨j, hj⟩, hin⟩
      obtain rfl := hj.unique hg
      exact if_pos hin

end Module.Indexed

/-! ## Lookups while functions are added -/

/-- Where the index has a function, it has that start. (An entry whose function was destroyed has
none.) -/
def Module.StartsFiled (m : Module) : Prop :=
  ∀ a k, m.functionByStart.get? a = some (some k) →
    ∃ f, m.functions[k]? = some f ∧ f.startAddress = a

theorem Module.startsFiled_empty (symbolTable : SymbolTable) :
    Module.StartsFiled { symbolTable := symbolTable } := fun _ _ h => by cases h

theorem Module.startsFiled_clearFunctions (m : Module) : m.clearFunctions.StartsFiled := by
  intro a k h
  have hmem : (a, some k) ∈ (m.functionByStart.mapValues fun _ => none).toList :=
    OrdMap.mem_toList_of_get? h
  obtain ⟨e, -, he⟩ := List.mem_map.mp hmem
  cases congrArg Prod.snd he

/-- Only the functions and the index matter. -/
theorem Module.StartsFiled.congr {m m' : Module} (h : m.StartsFiled)
    (hf : m'.functions = m.functions) (hs : m'.functionByStart = m.functionByStart) :
    m'.StartsFiled := by
  intro a k hget
  rw [hs] at hget
  rw [hf]
  exact h a k hget

namespace Module.StartsFiled

variable {m : Module} (h : m.StartsFiled)
include h

theorem addFunction (f : Function) : (m.addFunction f).StartsFiled := by
  intro a k hget
  unfold Module.addFunction at hget ⊢
  dsimp only at hget ⊢
  rw [OrdMap.get?_insert] at hget
  split at hget
  · rename_i ha
    cases hget
    exact ⟨f, List.getElem?_concat_length, ha.symm⟩
  · obtain ⟨g, hg, hstart⟩ := h a k hget
    have hlt := (List.getElem?_eq_some_iff.mp hg).1
    exact ⟨g, (List.getElem?_append_left hlt).trans hg, hstart⟩

/-- What a lookup goes through. -/
theorem floor_of_getFunctionForAddress {a : Nat} {f : Function}
    (hf : m.getFunctionForAddress a = some f) : ∃ k,
      m.functionByStart.floor? a = some (f.startAddress, some k) ∧ m.functions[k]? = some f ∧
        f.Contains a := by
  unfold Module.getFunctionForAddress at hf
  split at hf
  · cases hf
  · cases hf
  · rename_i start k hfloor
    split at hf
    · cases hf
    · rename_i g hg
      split at hf
      · rename_i hin
        cases hf
        obtain ⟨g', hg', hstart⟩ := h start k (OrdMap.get?_of_mem_toList (OrdMap.floor?_mem hfloor))
        cases hg.symm.trans hg'
        exact ⟨k, hstart ▸ hfloor, hg, hin⟩
      · cases hf

omit h in
theorem getFunctionForAddress_of_floor {a k : Nat} {f : Function}
    (hfloor : m.functionByStart.floor? a = some (f.startAddress, some k))
    (hf : m.functions[k]? = some f) (hin : f.Contains a) :
    m.getFunctionForAddress a = some f := by
  unfold Module.getFunctionForAddress
  rw [hfloor]
  dsimp only
  rw [hf]
  exact if_pos hin

/-- After a function was added, a lookup finds it or what it found before. -/
theorem getFunctionForAddress_addFunction {f g : Function} {a : Nat}
    (hg : (m.addFunction f).getFunctionForAddress a = some g) :
    (g = f ∧ f.Contains a) ∨ m.getFunctionForAddress a = some g := by
  obtain ⟨k, hfloor, hk, hin⟩ := (h.addFunction f).floor_of_getFunctionForAddress hg
  rcases OrdMap.floor?_insert hfloor with ⟨heq, -⟩ | hold
  · obtain rfl : k = m.functions.length := Option.some.inj (congrArg Prod.snd heq)
    cases (List.getElem?_concat_length (l := m.functions) (a := f)).symm.trans hk
    exact .inl ⟨rfl, hin⟩
  · obtain ⟨x, hx, -⟩ := h _ k (OrdMap.get?_of_mem_toList (OrdMap.floor?_mem hold))
    have hlt := (List.getElem?_eq_some_iff.mp hx).1
    have hk' : m.functions[k]? = some g := (List.getElem?_append_left hlt).symm.trans hk
    exact .inr (getFunctionForAddress_of_floor hold hk' hin)

/-- A lookup that finds a function finds one after another was added where there was none. -/
theorem known_addFunction {f : Function} (hnew : m.getFunctionForAddress f.startAddress = none)
    {a : Nat} (ha : (m.getFunctionForAddress a).isSome = true) :
    ((m.addFunction f).getFunctionForAddress a).isSome = true := by
  obtain ⟨g, hg⟩ := Option.isSome_iff_exists.mp ha
  obtain ⟨k, hfloor, hk, hin⟩ := h.floor_of_getFunctionForAddress hg
  have hapart : f.startAddress ≤ a → f.startAddress < g.startAddress := by
    intro hle
    by_contra hge
    -- the start of the new function would be in the range of `g`
    have hstart := OrdMap.floor?_of_between hfloor (Nat.not_lt.mp hge) hle
    rw [getFunctionForAddress_of_floor hstart hk
      ⟨Nat.not_lt.mp hge, Nat.lt_of_le_of_lt hle hin.2⟩] at hnew
    cases hnew
  have hlt := (List.getElem?_eq_some_iff.mp hk).1
  exact Option.isSome_iff_exists.mpr ⟨g, getFunctionForAddress_of_floor
    (OrdMap.floor?_insert_of_floor? hfloor hapart) ((List.getElem?_append_left hlt).trans hk) hin⟩

end Module.StartsFiled

/-! ## Agreement with a scan -/

/-- The lookup finds nothing exactly when a scan finds nothing, and otherwise a function with the
address in its range. -/
structure Module.LookupAgrees (m : Module) (a : Nat) : Prop where
  none_iff : m.getFunctionForAddress a = none ↔ ¬ ∃ f ∈ m.functions, f.Contains a
  found : ∀ f, m.getFunctionForAddress a = some f → f ∈ m.functions ∧ f.Contains a

/-- At an address that some function has, the nearest one decides. -/
theorem Module.Indexed.lookupAgrees_iff {m : Module} (h : m.Indexed) {a : Nat} :
    m.LookupAgrees a ↔ ∀ f ∈ m.functions, f.Contains a →
      ∀ k g, Nearest m.functions a k g → g.Contains a := by
  have hfound : ∀ f, m.getFunctionForAddress a = some f → f ∈ m.functions ∧ f.Contains a := by
    intro f hf
    obtain ⟨⟨k, hk⟩, hin⟩ := h.getFunctionForAddress_eq_some_iff.mp hf
    exact ⟨hk.last.mem, hin⟩
  constructor
  · intro hagree f hf hin k g hg
    cases hl : m.getFunctionForAddress a with
    | none => exact absurd ⟨f, hf, hin⟩ (hagree.none_iff.mp hl)
    | some x =>
      obtain ⟨⟨j, hj⟩, hxin⟩ := h.getFunctionForAddress_eq_some_iff.mp hl
      exact hj.unique hg ▸ hxin
  · intro hall
    refine ⟨⟨?_, fun hno => ?_⟩, hfound⟩
    · rintro hnone ⟨f, hf, hin⟩
      obtain ⟨k, g, hg⟩ := h.exists_nearest hf hin.1
      rw [h.getFunctionForAddress_eq_some_iff.mpr ⟨⟨k, hg⟩, hall f hf hin k g hg⟩] at hnone
      cases hnone
    · cases hl : m.getFunctionForAddress a with
      | none => rfl
      | some f => exact absurd ⟨f, hfound f hl⟩ hno

/-- No function goes on after the end of one that begins inside it, unless another function begins
before there or at that end. Of functions with the same start, the last one counts. -/
def NoTailHidden (fs : List Function) : Prop :=
  ∀ f ∈ fs, ∀ k g, LastOfStart fs k g → f.startAddress ≤ g.startAddress →
    g.startAddress < f.endAddress → f.endAddress ≤ g.endAddress ∨
      ∃ h ∈ fs, g.startAddress < h.startAddress ∧ h.startAddress ≤ g.endAddress

/-- **Lookups agree with a scan, if and only if no tail is hidden**: over every sequence of
`AddFunction` calls, the lookup of every address agrees with a scan over the functions exactly when
no function has a tail that a function inside it hides. -/
theorem functionLookup_agrees_iff (fs : List Function) :
    (∀ a, (addFunctions fs).LookupAgrees a) ↔ NoTailHidden fs := by
  simp only [(addFunctions_indexed fs).lookupAgrees_iff, addFunctions_functions]
  constructor
  · intro hagree f hf k g hg hle hlt
    by_contra hcon
    obtain ⟨hend, hnext⟩ := not_or.mp hcon
    -- the first address after `g` is in `f`, and `g` is the nearest function there
    have hin : f.Contains (max g.startAddress g.endAddress) :=
      ⟨le_max_of_le_left hle, max_lt hlt (Nat.not_le.mp hend)⟩
    have hnearest : Nearest fs (max g.startAddress g.endAddress) k g := by
      refine ⟨hg, le_max_left _ _, fun x hx hxa => ?_⟩
      by_contra hgx
      exact hnext ⟨x, hx, by omega, by omega⟩
    exact absurd (hagree _ f hf hin k g hnearest).2 (Nat.not_lt.mpr (le_max_right _ _))
  · intro hno a f hf hin k g hg
    refine ⟨hg.le, ?_⟩
    rcases hno f hf k g hg.last (hg.greatest f hf hin.1) (Nat.lt_of_le_of_lt hg.le hin.2) with
      hend | ⟨x, hx, hgx, hxg⟩
    · exact Nat.lt_of_lt_of_le hin.2 hend
    · by_contra hout
      have := hg.greatest x hx (by omega)
      omega

/-! ## A function in the middle of another -/

/-- A function from 0x1000 to 0x1100, and one in it from 0x1010 to 0x1020. -/
def nestedFunctions : List Function :=
  [{ name := "sub_1000", startAddress := 0x1000, endAddress := 0x1100 },
    { name := "sub_1010", startAddress := 0x1010, endAddress := 0x1020 }]

/-- The outer function has 0x1050, and the lookup finds nothing there. -/
theorem nestedFunctions_lookup : ¬ (addFunctions nestedFunctions).LookupAgrees 0x1050 := by
  intro h
  have hnone : (addFunctions nestedFunctions).getFunctionForAddress 0x1050 = none := rfl
  exact h.none_iff.mp hnone ⟨_, List.mem_cons_self, by decide, by decide⟩

end ReWizard
