import ReWizard.FileLoader.Proof.CopyBounds

/-!
# What a failed load leaves behind

`Load` returns early at five places. The size is set before it is checked, the pointer before the
raw bytes are looked at, and the span is never reset. `load_leavesNothing_iff` says which calls
leave nothing mapped when they fail.
-/

namespace ReWizard

namespace LoaderState

/-- `IsWithinMapping` is false for every address, and `Raw` gives out an empty span. -/
structure NothingMapped (s : LoaderState) : Prop where
  noAddress : ∀ a, isWithinMapping (s.mappedPtr.getD 0) s.mappedSize a = false
  noSpan : s.mappedSpan.2 = 0

/-- If the call from the state `s` fails, the regions that are mapped are those from before, and
nothing counts as mapped. -/
def LeavesNothing (s : LoaderState) (r : Bool × LoaderState) : Prop :=
  r.1 = false → r.2.regions.Perm s.regions ∧ r.2.NothingMapped

/-- Every section is empty or passes the check. -/
def SectionsPass (content : Nat → Nat → List UInt8) (size : Nat) (sections : List LiefSection) :
    Prop :=
  ∀ sec ∈ sections, content sec.virtualAddress sec.size = [] ∨
    addrAdd sec.virtualAddress (content sec.virtualAddress sec.size).length ≤ size

/-- What the parser says about the sizes of the target. -/
def sizes? (s : LoaderState) : Option (LiefBinary × Nat) :=
  match s.target with
  | none => none
  | some t =>
    match t.size?, t.headerSize? with
    | some size, some _ => some (t, size)
    | _, _ => none

/-- Without sizes, nothing was mapped before. With a size that is refused, the pointer and the span
from before are those of nothing with this size too. With any other size, `Load` gets through: the
memory is mapped, the file is not empty, and all sections pass. -/
def LoadsOrStopsEarly (mapper : MemoryMapper) (exec : Bool) (s : LoaderState) : Prop :=
  match s.sizes? with
  | none => s.NothingMapped
  | some (t, size) =>
    if size = 0 ∨ 2 ^ 32 < size then NothingMapped { s with mappedSize := size }
    else mapper.map size t.imagebase exec ≠ none ∧ s.raw ≠ [] ∧
      SectionsPass t.content size t.sections

variable {content : Nat → Nat → List UInt8} {base : Nat}

/-- The loop comes to its end when all sections pass, and leaves the pointer and the size alone. -/
theorem loadSections_spec : ∀ (sections : List LiefSection) (s : LoaderState),
    ((loadSections content base sections s).1 = true ↔
      SectionsPass content s.mappedSize sections) ∧
      (loadSections content base sections s).2.mappedSize = s.mappedSize
  | [], _ => ⟨⟨fun _ _ h => (by cases h), fun _ => rfl⟩, rfl⟩
  | sec :: rest, s => by
    unfold SectionsPass loadSections
    rw [List.forall_mem_cons]
    dsimp only
    generalize content sec.virtualAddress sec.size = data
    split
    · rename_i hempty
      obtain ⟨hpass, hsize⟩ := loadSections_spec rest s
      exact ⟨hpass.trans ⟨fun h => ⟨.inl hempty, h⟩, And.right⟩, hsize⟩
    · rename_i hdata
      split
      · rename_i hlarge
        refine ⟨⟨fun h => (by cases h), fun h => ?_⟩, rfl⟩
        exact absurd (h.1.resolve_left hdata) (not_le.mpr hlarge)
      · rename_i hfits
        obtain ⟨hpass, hsize⟩ :=
          loadSections_spec rest (s.copySection base sec.virtualAddress data)
        exact ⟨hpass.trans ⟨fun h => ⟨.inr (not_lt.mp hfits), h⟩, And.right⟩, hsize⟩

/-- A null pointer with a size: the first page counts as mapped. -/
theorem not_nothingMapped_of_null {s : LoaderState} (hptr : s.mappedPtr = none)
    (hpos : s.mappedSize ≠ 0) (hle : s.mappedSize ≤ 2 ^ 32) : ¬ s.NothingMapped := by
  intro h
  have hzero := h.noAddress 0
  rw [hptr] at hzero
  have hlt : s.mappedSize < addrSpace := lt_of_le_of_lt hle (by decide)
  have hin : isWithinMapping ((none : Option Nat).getD 0) s.mappedSize 0 = true := by
    refine decide_eq_true ⟨Nat.zero_le _, ?_⟩
    show 0 < addrAdd 0 s.mappedSize
    rw [addrAdd_of_lt (by omega)]
    omega
  rw [hin] at hzero
  cases hzero

section

variable {s : LoaderState} {t : LiefBinary} {m : Mapping} {headerSize : Nat}

/-- `Load` from the copy of the header on: it succeeds, or what it leaves counts as mapped. -/
theorem loadInto_spec (hpos : s.mappedSize ≠ 0) (hle : s.mappedSize ≤ 2 ^ 32) :
    ((s.loadInto t m headerSize).1 = true ↔ SectionsPass t.content s.mappedSize t.sections) ∧
      ((s.loadInto t m headerSize).1 = false → ¬ (s.loadInto t m headerSize).2.NothingMapped) := by
  let s' := s.copyHeader m.base headerSize
  have hloop : ((loadSections t.content m.base t.sections s').1 = true ↔ _) ∧ _ :=
    loadSections_spec t.sections s'
  obtain ⟨hpass, hsize⟩ := hloop
  unfold loadInto
  generalize loadSections t.content m.base t.sections s' = r at hpass hsize ⊢
  obtain ⟨b, last⟩ := r
  cases b with
  | true => exact ⟨hpass, fun h => (by cases h)⟩
  | false =>
    have hsize : last.mappedSize = s.mappedSize := hsize
    refine ⟨hpass, fun _ => not_nothingMapped_of_null rfl ?_ ?_⟩
    · show last.mappedSize ≠ 0
      rwa [hsize]
    · show last.mappedSize ≤ 2 ^ 32
      rwa [hsize]

/-- `Load` once the memory is mapped. -/
theorem loadMapped_spec (hpos : s.mappedSize ≠ 0) (hle : s.mappedSize ≤ 2 ^ 32) :
    ((s.loadMapped t m headerSize).1 = true ↔
      s.raw ≠ [] ∧ SectionsPass t.content s.mappedSize t.sections) ∧
      ((s.loadMapped t m headerSize).1 = false →
        ¬ (s.loadMapped t m headerSize).2.NothingMapped) := by
  unfold loadMapped
  dsimp only
  split
  · rename_i hraw
    refine ⟨⟨fun h => (by cases h), fun h => absurd hraw h.1⟩, fun _ h => hpos ?_⟩
    exact h.noSpan
  · rename_i hraw
    refine ⟨(loadInto_spec ?_ ?_).1.trans ⟨fun h => ⟨hraw, h⟩, And.right⟩,
      (loadInto_spec ?_ ?_).2⟩
    · exact hpos
    · exact hle
    · exact hpos
    · exact hle

end

/-- A call that stops early changes no region, and of what it leaves only the pointer, the size and
the span count. -/
theorem leavesNothing_early {s s' s'' : LoaderState} (hregions : s'.regions = s.regions)
    (hptr : s'.mappedPtr = s''.mappedPtr) (hsize : s'.mappedSize = s''.mappedSize)
    (hspan : s'.mappedSpan = s''.mappedSpan) :
    LeavesNothing s (false, s') ↔ s''.NothingMapped := by
  constructor
  · intro h
    obtain ⟨-, hnothing⟩ := h rfl
    exact ⟨hptr ▸ hsize ▸ hnothing.noAddress, hspan ▸ hnothing.noSpan⟩
  · intro h _
    refine ⟨hregions ▸ List.Perm.refl _, ?_, ?_⟩
    · rw [hptr, hsize]
      exact h.noAddress
    · rw [hspan]
      exact h.noSpan

/-- A call that leaves something mapped whenever it fails has to succeed. -/
theorem leavesNothing_iff_succeeds {s : LoaderState} {r : Bool × LoaderState}
    (h : r.1 = false → ¬ r.2.NothingMapped) : LeavesNothing s r ↔ r.1 = true := by
  constructor
  · intro hleaves
    by_contra hfail
    rw [Bool.not_eq_true] at hfail
    exact h hfail (hleaves hfail).2
  · intro hsucceeds hfail
    rw [hsucceeds] at hfail
    cases hfail

/-- **Failed loads**: from every state and for every file, a failed `Load` leaves nothing mapped if
and only if it stops before anything is mapped, in a state in which nothing counts as mapped. -/
theorem load_leavesNothing_iff (mapper : MemoryMapper) (exec : Bool) (s : LoaderState) :
    LeavesNothing s (s.load mapper exec) ↔ LoadsOrStopsEarly mapper exec s := by
  unfold LoadsOrStopsEarly sizes? load
  dsimp only
  cases s.target with
  | none =>
    exact leavesNothing_early rfl rfl rfl rfl
  | some t =>
    dsimp only
    cases t.size? with
    | none =>
      exact leavesNothing_early rfl rfl rfl rfl
    | some size =>
      cases t.headerSize? with
      | none =>
        exact leavesNothing_early rfl rfl rfl rfl
      | some headerSize =>
        dsimp only
        split
        · exact leavesNothing_early rfl rfl rfl rfl
        · rename_i hbounds
          have hpos : size ≠ 0 := fun h0 => hbounds (.inl h0)
          have hle : size ≤ 2 ^ 32 := not_lt.mp fun hlt => hbounds (.inr hlt)
          cases mapper.map size t.imagebase exec with
          | none =>
            refine (leavesNothing_early rfl rfl rfl rfl).trans ?_
            exact ⟨fun h => absurd h (not_nothingMapped_of_null rfl hpos hle),
              fun h => absurd rfl h.1⟩
          | some base =>
            dsimp only
            refine (leavesNothing_iff_succeeds (loadMapped_spec ?_ ?_).2).trans
              ((loadMapped_spec ?_ ?_).1.trans ?_)
            · exact hpos
            · exact hle
            · exact hpos
            · exact hle
            · exact ⟨fun h => ⟨Option.some_ne_none _, h⟩, And.right⟩

/-! ## A section behind the end of the image -/

/-- A PE file of two pages with a section that begins in the second one and is too long for it. -/
def longSection : LoaderState where
  raw := [0x4D, 0x5A] ++ List.replicate 1022 0
  target := some ⟨.pe 512 0x2000 [], 0x140000000, some .long64, [⟨0x1000, 0x1800⟩],
    fun _ size => List.replicate size 0x90⟩

/-- The memory is given back, but the span of it stays. -/
theorem longSection_leaves_span : ¬ LeavesNothing longSection (longSection.load mapAsked false) := by
  intro h
  have hnothing := (h (by decide +kernel)).2
  exact absurd hnothing.noSpan (by decide +kernel)

end LoaderState

end ReWizard
