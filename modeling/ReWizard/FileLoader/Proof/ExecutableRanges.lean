import ReWizard.FileLoader.FileLoader

/-!
# The ranges of executable sections

`GetExecutableSections` compares the end of a range with the end of the mapping, and the start with
nothing: the sum of the base and a section's address may wrap, and the range is below the mapping
then. `getExecutableSections_inside_iff` says when all ranges are inside.
-/

namespace ReWizard

/-- All executable ranges are parts of the mapping that are not empty, so that every address that
counts as executable is within the mapping. -/
structure ExecutableInside (m : Mapping) (t : SectionTable) : Prop where
  ranges : ∀ r ∈ getExecutableSections m t, m.base ≤ r.1 ∧ r.1 < r.2 ∧ r.2 ≤ m.base + m.size
  within : ∀ a, isExecutableAddress (getExecutableSections m t) a = true →
    isWithinMapping m.base m.size a = true

/-- An executable section whose address wraps when the base is added to it has no bytes, or it
ends behind the mapping all the same. -/
def WrappedSectionsFail (m : Mapping) (t : SectionTable) : Prop :=
  ∀ s ∈ t.executable, addrSpace ≤ m.base + s.1 →
    s.2 = 0 ∨ addrAdd m.base m.size < m.base + s.1 - addrSpace + s.2

/-- Addresses and sizes are 64-bit numbers at most. -/
theorem SectionTable.executable_lt {t : SectionTable} {s : Nat × Nat} (h : s ∈ t.executable) :
    s.1 < addrSpace ∧ s.2 < addrSpace := by
  cases t with
  | pe sections =>
    obtain ⟨sec, -, rfl⟩ := List.mem_map.mp h
    have hspace : 2 ^ 32 ≤ addrSpace := by decide
    exact ⟨lt_of_lt_of_le sec.virtualAddress.toNat_lt hspace,
      lt_of_lt_of_le sec.virtualSize.toNat_lt hspace⟩
  | elf sections =>
    obtain ⟨sec, -, rfl⟩ := List.mem_map.mp h
    exact ⟨sec.virtualAddress.toNat_lt, sec.size.toNat_lt⟩
  | other => cases h

section

variable {m : Mapping}

/-- A sum of addresses that wraps. -/
theorem addrAdd_of_le {a b : Nat} (h : addrSpace ≤ a + b) (ha : a ≤ addrSpace)
    (hb : b < addrSpace) : addrAdd a b = a + b - addrSpace := by
  unfold addrAdd
  rw [Nat.mod_eq_sub_mod h]
  exact Nat.mod_eq_of_lt (by omega)

theorem sectionRange?_eq_some {va size : Nat} {r : Nat × Nat}
    (h : sectionRange? m va size = some r) :
    r.1 = addrAdd m.base va ∧ r.1 < r.2 ∧ r.2 ≤ addrAdd m.base m.size := by
  unfold sectionRange? at h
  dsimp only at h
  split at h
  · rename_i hpass
    cases h
    exact ⟨rfl, hpass⟩
  · cases h

/-- A range whose start does not wrap is inside. -/
theorem sectionRange?_inside {va size : Nat} {r : Nat × Nat}
    (h : sectionRange? m va size = some r) (hva : m.base + va < addrSpace) :
    m.base ≤ r.1 ∧ r.1 < r.2 ∧ r.2 ≤ m.base + m.size := by
  obtain ⟨hstart, hlt, hle⟩ := sectionRange?_eq_some h
  rw [addrAdd_of_lt hva] at hstart
  exact ⟨by omega, hlt, hle.trans (Nat.mod_le _ _)⟩

/-- A range whose start wraps passes the check unless it is empty or ends behind the mapping. -/
theorem sectionRange?_wrapped {va size : Nat} (hva : va < addrSpace) (hsize : size < addrSpace)
    (hwrap : addrSpace ≤ m.base + va) :
    sectionRange? m va size = none ↔
      size = 0 ∨ addrAdd m.base m.size < m.base + va - addrSpace + size := by
  have hbase : m.base ≤ addrSpace := (Nat.le_add_right _ _).trans m.fits
  have hend : addrAdd m.base m.size < addrSpace := addrAdd_lt _ _
  unfold sectionRange?
  dsimp only
  rw [addrAdd_of_le hwrap hbase hva, ite_eq_right_iff]
  simp only [reduceCtorEq, imp_false]
  by_cases hlt : m.base + va - addrSpace + size < addrSpace
  · rw [addrAdd_of_lt hlt]
    omega
  · rw [addrAdd_of_le (not_lt.mp hlt) (by omega) hsize]
    omega

theorem mem_getExecutableSections {t : SectionTable} {r : Nat × Nat} :
    r ∈ getExecutableSections m t ↔ ∃ s ∈ t.executable, sectionRange? m s.1 s.2 = some r :=
  List.mem_filterMap

/-- Ranges that are parts of the mapping have no address outside. -/
theorem isWithinMapping_of_range {r : Nat × Nat} {a : Nat} (hbase : m.base ≤ r.1)
    (hend : r.2 ≤ addrAdd m.base m.size) (ha : r.1 ≤ a ∧ a < r.2) :
    isWithinMapping m.base m.size a = true :=
  decide_eq_true ⟨hbase.trans ha.1, lt_of_lt_of_le ha.2 hend⟩

end

/-- **Executable ranges** are inside the mapping if and only if no executable section passes the
check after its start has wrapped. -/
theorem getExecutableSections_inside_iff (m : Mapping) (t : SectionTable) :
    ExecutableInside m t ↔ WrappedSectionsFail m t := by
  constructor
  · intro h s hs hwrap
    obtain ⟨hva, hsize⟩ := SectionTable.executable_lt hs
    rw [← sectionRange?_wrapped hva hsize hwrap, Option.eq_none_iff_forall_not_mem]
    intro r hr
    -- the start has wrapped to an address below the base
    obtain ⟨hstart, -, -⟩ := sectionRange?_eq_some hr
    have hbase : m.base ≤ addrSpace := (Nat.le_add_right _ _).trans m.fits
    rw [addrAdd_of_le hwrap hbase hva] at hstart
    have hle := (h.ranges r (mem_getExecutableSections.mpr ⟨s, hs, hr⟩)).1
    have := m.base_pos
    omega
  · intro h
    have hinside : ∀ r ∈ getExecutableSections m t,
        (m.base ≤ r.1 ∧ r.1 < r.2 ∧ r.2 ≤ m.base + m.size) ∧ r.2 ≤ addrAdd m.base m.size := by
      intro r hr
      obtain ⟨s, hs, hsome⟩ := mem_getExecutableSections.mp hr
      obtain ⟨hva, hsize⟩ := SectionTable.executable_lt hs
      obtain ⟨-, -, hend⟩ := sectionRange?_eq_some hsome
      refine ⟨sectionRange?_inside hsome ?_, hend⟩
      by_contra hwrap
      have hle := not_lt.mp hwrap
      have hnone := (sectionRange?_wrapped hva hsize hle).mpr (h s hs hle)
      rw [hsome] at hnone
      cases hnone
    refine ⟨fun r hr => (hinside r hr).1, fun a ha => ?_⟩
    obtain ⟨r, hr, hin⟩ := List.any_eq_true.mp ha
    obtain ⟨⟨hbase, -, -⟩, hend⟩ := hinside r hr
    exact isWithinMapping_of_range hbase hend (of_decide_eq_true hin)

/-! ## A section below the mapping -/

/-- Two pages. -/
def twoPages : Mapping := ⟨0x400000, 0x2000, by decide, by decide⟩

/-- An executable section at a negative distance from the base. -/
def negativeSection : SectionTable := .elf [⟨0xfffffffffffff000, 0x800, 0x6⟩]

/-- Its range ends before the mapping begins. -/
theorem negativeSection_not_inside : ¬ ExecutableInside twoPages negativeSection := by
  intro h
  exact absurd (h.within 0x3ff000 (by decide +kernel)) (by decide +kernel)

end ReWizard
