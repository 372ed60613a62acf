import ReWizard.Lib.WrapRange
import ReWizard.FileLoader.FileLoader

/-!
# The bytes that relocations touch

The bounds check of `ApplyRelocations` is for four bytes, whatever the type, and its sum may wrap.
`applyRelocations_inside_iff` says when every byte that is read or written is in the mapping.
-/

namespace ReWizard

open WrapRange

/-- Every byte of every value that was read and written back is in the mapping. -/
def FixupsInside (m : Mapping) (s : RelocationState) : Prop :=
  ∀ fixup ∈ s.fixups, ∀ b ∈ wrapBytes addrSpace fixup.1 fixup.2, m.base ≤ b ∧ b < m.base + m.size

/-- The width of the value that an entry of the type is about. The other types are not handled. -/
def fixupWidth : Nat → Option Nat
  | 3 => some 4
  | 10 => some 8
  | 1 => some 2
  | 2 => some 2
  | _ => none

/-- The value of an entry that is handled and passes the check ends in the mapping. -/
def EntryFits (m : Mapping) (pageRva : Nat) (entry : PeRelocationEntry) : Prop :=
  ∀ w, fixupWidth entry.type = some w →
    relocationPasses m (relocationAddr m pageRva entry) = true →
      addrAdd pageRva entry.position + w ≤ m.size

/-- Unless the file is at its preferred base, all its entries fit. -/
def RelocationsFit (m : Mapping) (t : LiefBinary) : Prop :=
  ∀ header size relocations, t.format = .pe header size relocations → m.base ≠ t.imagebase →
    ∀ page ∈ relocations, ∀ entry ∈ page.2, EntryFits m page.1 entry

/-- What an entry touches. -/
def entryFixups (m : Mapping) (pageRva : Nat) (entry : PeRelocationEntry) : List (Nat × Nat) :=
  let addr := relocationAddr m pageRva entry
  if relocationPasses m addr then ((fixupWidth entry.type).map fun w => (addr, w)).toList else []

section

variable {m : Mapping}

theorem applyRelocation_fixups (delta pageRva : Nat) (s : RelocationState)
    (entry : PeRelocationEntry) : (applyRelocation m delta pageRva s entry).fixups =
      s.fixups ++ entryFixups m pageRva entry := by
  unfold applyRelocation entryFixups
  dsimp only
  by_cases hpass : relocationPasses m (relocationAddr m pageRva entry) = true
  · rw [if_pos hpass, if_pos hpass]
    split
    · rename_i htype
      rw [htype]
      rfl
    · rename_i htype
      rw [htype]
      rfl
    · rename_i htype
      rw [htype]
      rfl
    · rename_i htype
      rw [htype]
      rfl
    · rename_i h3 h10 h1 h2
      have hnone : fixupWidth entry.type = none := by
        unfold fixupWidth
        split <;> first | rfl | contradiction
      rw [hnone]
      exact (List.append_nil _).symm
  · rw [if_neg hpass, if_neg hpass, List.append_nil]

theorem applyPage_fixups (delta pageRva : Nat) : ∀ (entries : List PeRelocationEntry)
    (s : RelocationState), (entries.foldl (applyRelocation m delta pageRva) s).fixups =
      s.fixups ++ entries.flatMap (entryFixups m pageRva)
  | [], s => by simp
  | entry :: rest, s => by
    rw [List.foldl_cons, applyPage_fixups delta pageRva rest, applyRelocation_fixups,
      List.flatMap_cons, List.append_assoc]

theorem applyPages_fixups (delta : Nat) : ∀ (pages : List (Nat × List PeRelocationEntry))
    (s : RelocationState),
    (pages.foldl (fun s page => page.2.foldl (applyRelocation m delta page.1) s) s).fixups =
      s.fixups ++ pages.flatMap fun page => page.2.flatMap (entryFixups m page.1)
  | [], s => by simp
  | page :: rest, s => by
    rw [List.foldl_cons, applyPages_fixups delta rest, applyPage_fixups, List.flatMap_cons,
      List.append_assoc]

/-- The bytes of one entry. -/
theorem entryFixups_inside_iff (pageRva : Nat) (entry : PeRelocationEntry) :
    (∀ fixup ∈ entryFixups m pageRva entry, ∀ b ∈ wrapBytes addrSpace fixup.1 fixup.2,
      m.base ≤ b ∧ b < m.base + m.size) ↔ EntryFits m pageRva entry := by
  unfold entryFixups EntryFits
  dsimp only
  by_cases hpass : relocationPasses m (relocationAddr m pageRva entry) = true
  · rw [if_pos hpass]
    cases hwidth : fixupWidth entry.type with
    | none => simp
    | some w =>
      have hpos : 0 < w := by
        unfold fixupWidth at hwidth
        split at hwidth <;> cases hwidth <;> decide
      have hsame : relocationAddr m pageRva entry % addrSpace =
          (m.base + addrAdd pageRva entry.position) % addrSpace := by
        unfold relocationAddr addrAdd
        rw [Nat.mod_mod, Nat.add_mod_mod, Nat.add_assoc]
      have hr : addrAdd pageRva entry.position < addrSpace := addrAdd_lt _ _
      have hinside := wrapBytes_inside_iff m.base_pos m.fits hr hpos
      rw [← wrapBytes_congr hsame] at hinside
      constructor
      · intro h w' hw' _
        cases hw'
        exact hinside.mp (h _ List.mem_cons_self)
      · intro h fixup hfixup
        obtain rfl := List.mem_singleton.mp hfixup
        exact hinside.mpr (h w rfl hpass)
  · rw [if_neg hpass]
    exact ⟨fun _ _ _ h => absurd h hpass, fun _ fixup h => by cases h⟩

end

/-- **The bytes that relocations touch** are all in the mapping if and only if every entry that is
handled and passes the check fits with its own width. -/
theorem applyRelocations_inside_iff (m : Mapping) (t : LiefBinary) (memory : Nat → UInt8) :
    FixupsInside m (applyRelocations m t memory) ↔ RelocationsFit m t := by
  unfold applyRelocations RelocationsFit
  split
  · rename_i header size relocations hformat
    by_cases hbase : m.base = t.imagebase
    · rw [if_pos hbase]
      exact ⟨fun _ _ _ _ _ hne => absurd hbase hne, fun _ fixup h => by cases h⟩
    · rw [if_neg hbase]
      unfold FixupsInside
      rw [applyPages_fixups]
      simp only [List.nil_append, List.mem_flatMap]
      constructor
      · intro h header' size' relocations' hformat' _ page hpage entry hentry
        cases hformat.symm.trans hformat'
        exact (entryFixups_inside_iff page.1 entry).mp fun fixup hfixup =>
          h fixup ⟨page, hpage, entry, hentry, hfixup⟩
      · rintro h fixup ⟨page, hpage, entry, hentry, hfixup⟩
        exact (entryFixups_inside_iff page.1 entry).mpr
          (h header size relocations hformat hbase page hpage entry hentry) fixup hfixup
  · rename_i hnot
    refine ⟨fun _ header size relocations hformat => ?_, fun _ fixup h => by cases h⟩
    exact absurd hformat (hnot header size relocations)

/-! ## A value of eight bytes at the end of the image -/

/-- A page of memory, not at the preferred base of `lastEntry`. -/
def movedPage : Mapping := ⟨0x10000, 0x1000, by decide, by decide⟩

/-- A PE file with a 64-bit value at offset `0xffc` of its one page. -/
def lastEntry : LiefBinary where
  format := .pe 512 0x1000 [(0, [⟨0xffc, 10⟩])]
  imagebase := 0x140000000
  modes := some .long64
  sections := []
  content := fun _ _ => []

/-- Its upper half is behind the image. -/
theorem lastEntry_not_inside : ¬ FixupsInside movedPage (applyRelocations movedPage lastEntry
    fun _ => 0) := by
  intro h
  exact absurd (h (0x10ffc, 8) (by decide +kernel) 0x11000 (by decide +kernel)) (by decide +kernel)

end ReWizard
