import ReWizard.Lib.LocalUpdate
import ReWizard.FileLoader.Proof.RelocationBounds
import Mathlib.Data.List.Flatten

/-!
# What relocations do

Every entry of `ApplyRelocations` is a local update: it reads the bytes of one value and writes them
back changed. For entries whose values do not overlap, `applyRelocations_exact` says what the
whole loop does, and that the order of the pages and of the entries does not matter.
-/

namespace ReWizard

open LocalUpdate

/-! ## Bytes -/

section

variable {memory memory' : Nat → UInt8}

/-- The distance from `addr` up to `a`. -/
def distance (addr a : Nat) : Nat := (a + addrSpace - addr % addrSpace) % addrSpace

theorem distance_addrAdd (addr : Nat) {k : Nat} (hk : k < addrSpace) :
    distance addr (addrAdd addr k) = k := by
  have haddr : addr % addrSpace < addrSpace := Nat.mod_lt _ (by decide)
  have hsum : addrAdd addr k = (addr % addrSpace + k) % addrSpace := by
    unfold addrAdd
    rw [Nat.mod_add_mod]
  unfold distance
  rw [hsum]
  generalize addr % addrSpace = b at haddr ⊢
  by_cases hlt : b + k < addrSpace
  · rw [Nat.mod_eq_of_lt hlt, Nat.mod_eq_sub_mod (by omega)]
    exact (Nat.mod_eq_of_lt (by omega)).trans (by omega)
  · have hmod : (b + k) % addrSpace = b + k - addrSpace := by
      rw [Nat.mod_eq_sub_mod (by omega)]
      exact Nat.mod_eq_of_lt (by omega)
    rw [hmod]
    exact (Nat.mod_eq_of_lt (by omega)).trans (by omega)

/-- The bytes of a value that ends before the addresses wrap. -/
theorem distance_lt_iff {addr width a : Nat} (hfits : addr + width ≤ addrSpace)
    (ha : a < addrSpace) : distance addr a < width ↔ addr ≤ a ∧ a < addr + width := by
  by_cases hwidth : width = 0
  · subst hwidth
    omega
  · unfold distance
    rw [Nat.mod_eq_of_lt (show addr < addrSpace by omega)]
    by_cases hle : addr ≤ a
    · have hmod : (a + addrSpace - addr) % addrSpace = a - addr := by
        rw [Nat.mod_eq_sub_mod (by omega)]
        exact (Nat.mod_eq_of_lt (by omega)).trans (by omega)
      rw [hmod]
      omega
    · rw [Nat.mod_eq_of_lt (by omega)]
      omega

/-- Addresses are told apart by their 64 bits. -/
theorem distance_mod (addr a : Nat) : distance addr (a % addrSpace) = distance addr a := by
  have haddr : addr % addrSpace ≤ addrSpace := (Nat.mod_lt _ (by decide)).le
  unfold distance
  rw [Nat.add_sub_assoc haddr, Nat.add_sub_assoc haddr, Nat.mod_add_mod]

theorem copyMemory_outside {dest a : Nat} {bytes : List UInt8}
    (h : ¬ distance dest a < bytes.length) : copyMemory memory dest bytes a = memory a := by
  show bytes[distance dest a]?.getD (memory a) = memory a
  rw [List.getElem?_eq_none (not_lt.mp h)]
  rfl

theorem copyMemory_inside {dest a : Nat} {bytes : List UInt8} (h : distance dest a < bytes.length) :
    copyMemory memory dest bytes a = bytes[distance dest a] := by
  show bytes[distance dest a]?.getD (memory a) = _
  rw [List.getElem?_eq_getElem h]
  rfl

theorem bytesLE_length : ∀ (width value : Nat), (bytesLE width value).length = width
  | 0, _ => rfl
  | width + 1, value => congrArg (· + 1) (bytesLE_length width (value / 256))

theorem bytesLE_getElem? : ∀ {width value k : Nat}, k < width →
    (bytesLE width value)[k]? = some (UInt8.ofNat (value / 256 ^ k))
  | width + 1, value, 0, _ => by
    rw [Nat.pow_zero, Nat.div_one]
    rfl
  | width + 1, value, k + 1, h => by
    show (bytesLE width (value / 256))[k]? = _
    rw [bytesLE_getElem? (Nat.lt_of_succ_lt_succ h), Nat.div_div_eq_div_mul, Nat.pow_succ,
      Nat.mul_comm 256]

theorem addrAdd_succ (addr k : Nat) : addrAdd addr (k + 1) = addrAdd (addrAdd addr 1) k := by
  unfold addrAdd
  rw [Nat.mod_add_mod, Nat.add_assoc, Nat.add_comm 1 k]

/-- Only the bytes of the value are read. -/
theorem loadLE_congr : ∀ {width addr : Nat}, addr < addrSpace →
    (∀ k < width, memory (addrAdd addr k) = memory' (addrAdd addr k)) →
      loadLE memory addr width = loadLE memory' addr width
  | 0, _, _, _ => rfl
  | width + 1, addr, haddr, h => by
    have hfirst := h 0 (Nat.succ_pos width)
    rw [addrAdd_of_lt (show addr + 0 < addrSpace from haddr), Nat.add_zero] at hfirst
    have hrest : loadLE memory (addrAdd addr 1) width = loadLE memory' (addrAdd addr 1) width :=
      loadLE_congr (addrAdd_lt _ _) fun k hk => by
        rw [← addrAdd_succ]
        exact h (k + 1) (Nat.succ_lt_succ hk)
    show (memory addr).toNat + 256 * loadLE memory (addrAdd addr 1) width = _
    rw [hfirst, hrest]
    rfl

/-- The value of little-endian bytes. -/
theorem loadLE_of_bytes : ∀ {width addr value : Nat}, addr < addrSpace →
    (∀ k < width, memory (addrAdd addr k) = UInt8.ofNat (value / 256 ^ k)) →
      loadLE memory addr width = value % 256 ^ width
  | 0, _, value, _, _ => (Nat.mod_one value).symm
  | width + 1, addr, value, haddr, h => by
    have hfirst := h 0 (Nat.succ_pos width)
    rw [addrAdd_of_lt (show addr + 0 < addrSpace from haddr), Nat.add_zero, Nat.pow_zero,
      Nat.div_one] at hfirst
    have hrest : loadLE memory (addrAdd addr 1) width = value / 256 % 256 ^ width :=
      loadLE_of_bytes (addrAdd_lt _ _) fun k hk => by
        rw [← addrAdd_succ, h (k + 1) (Nat.succ_lt_succ hk), Nat.div_div_eq_div_mul, Nat.pow_succ,
          Nat.mul_comm 256]
    show (memory addr).toNat + 256 * loadLE memory (addrAdd addr 1) width = _
    rw [hfirst, hrest, UInt8.toNat_ofNat',
      show 256 ^ (width + 1) = 256 * 256 ^ width from Nat.pow_succ', Nat.mod_mul]

/-- A stored value reads back as its low bytes. -/
theorem loadLE_copyMemory {width addr : Nat} (haddr : addr < addrSpace) (hwidth : width ≤ addrSpace)
    (value : Nat) :
    loadLE (copyMemory memory addr (bytesLE width value)) addr width = value % 256 ^ width := by
  refine loadLE_of_bytes haddr fun k hk => ?_
  have hdistance := distance_addrAdd addr (lt_of_lt_of_le hk hwidth)
  show (bytesLE width value)[distance addr (addrAdd addr k)]?.getD _ = _
  rw [hdistance, bytesLE_getElem? hk]
  rfl

theorem loadLE_lt (memory : Nat → UInt8) :
    ∀ (addr width : Nat), loadLE memory addr width < 256 ^ width
  | _, 0 => Nat.one_pos
  | addr, width + 1 => by
    have hrest := loadLE_lt memory (addrAdd addr 1) width
    have hbyte : (memory addr).toNat < 256 := (memory addr).toNat_lt
    rw [Nat.pow_succ]
    show (memory addr).toNat + 256 * loadLE memory (addrAdd addr 1) width < _
    omega

end

/-! ## Entries -/

/-- The entries of all pages, each with the page it is of. -/
def relocationEntries (relocations : List (Nat × List PeRelocationEntry)) :
    List (Nat × PeRelocationEntry) :=
  relocations.flatMap fun page => page.2.map fun entry => (page.1, entry)

/-- What an entry of the type makes of the value that it is about: the distance is added to it, or
to the number of 32 bits of which it is the upper half. -/
def relocatedValue (delta type v : Nat) : Nat :=
  if type = 1 then (v * 2 ^ 16 + delta) % 2 ^ 32 / 2 ^ 16
  else
    match fixupWidth type with
    | some w => (v + delta) % 2 ^ (8 * w)
    | none => v

theorem relocatedValue_high (delta v : Nat) :
    relocatedValue delta 1 v = (v * 2 ^ 16 + delta) % 2 ^ 32 / 2 ^ 16 := by
  rw [relocatedValue, if_pos rfl]

theorem relocatedValue_of_width {type w : Nat} (hwidth : fixupWidth type = some w) (htype : type ≠ 1)
    (delta v : Nat) : relocatedValue delta type v = (v + delta) % 2 ^ (8 * w) := by
  rw [relocatedValue, if_neg htype, hwidth]

/-- What an entry does to the memory. -/
def relocate (m : Mapping) (delta : Nat) (e : Nat × PeRelocationEntry) (memory : Nat → UInt8) :
    Nat → UInt8 :=
  (applyRelocation m delta e.1 { memory } e.2).memory

/-- The bytes of the value that an entry is about, when it passes the check. -/
def Touches (m : Mapping) (e : Nat × PeRelocationEntry) (a : Nat) : Prop :=
  ∃ w, fixupWidth e.2.type = some w ∧ relocationPasses m (relocationAddr m e.1 e.2) = true ∧
    distance (relocationAddr m e.1 e.2) a < w

section

variable {m : Mapping} {delta : Nat}

/-- The types that are handled, and their widths. -/
theorem fixupWidth_cases {type w : Nat} (h : fixupWidth type = some w) :
    (type = 3 ∧ w = 4) ∨ (type = 10 ∧ w = 8) ∨ (type = 1 ∧ w = 2) ∨ (type = 2 ∧ w = 2) := by
  unfold fixupWidth at h
  split at h
  · cases h
    exact .inl ⟨rfl, rfl⟩
  · cases h
    exact .inr (.inl ⟨rfl, rfl⟩)
  · cases h
    exact .inr (.inr (.inl ⟨rfl, rfl⟩))
  · cases h
    exact .inr (.inr (.inr ⟨rfl, rfl⟩))
  · cases h

theorem fixupWidth_eq_none {type : Nat} (h : fixupWidth type = none) :
    type ≠ 3 ∧ type ≠ 10 ∧ type ≠ 1 ∧ type ≠ 2 := by
  refine ⟨?_, ?_, ?_, ?_⟩
  all_goals
    intro htype
    rw [htype] at h
    cases h

theorem fixupWidth_le {type w : Nat} (h : fixupWidth type = some w) : w ≤ addrSpace := by
  have hspace : 8 ≤ addrSpace := by decide
  have := fixupWidth_cases h
  omega

/-- An entry that is handled. -/
theorem relocate_of_width {e : Nat × PeRelocationEntry} {w : Nat}
    (hwidth : fixupWidth e.2.type = some w)
    (hpass : relocationPasses m (relocationAddr m e.1 e.2) = true) (memory : Nat → UInt8) :
    relocate m delta e memory = copyMemory memory (relocationAddr m e.1 e.2)
      (bytesLE w (relocatedValue delta e.2.type
        (loadLE memory (relocationAddr m e.1 e.2) w))) := by
  unfold relocate applyRelocation
  dsimp only
  rw [if_pos hpass]
  rcases fixupWidth_cases hwidth with ⟨htype, rfl⟩ | ⟨htype, rfl⟩ | ⟨htype, rfl⟩ | ⟨htype, rfl⟩
  · rw [relocatedValue_of_width hwidth (by omega), htype]
    rfl
  · rw [relocatedValue_of_width hwidth (by omega), htype]
    rfl
  · rw [htype, relocatedValue_high]
    rfl
  · rw [relocatedValue_of_width hwidth (by omega), htype]
    rfl

/-- An entry that is not handled, or does not pass the check. -/
theorem relocate_of_not_touching {e : Nat × PeRelocationEntry}
    (h : ∀ w, fixupWidth e.2.type = some w →
      relocationPasses m (relocationAddr m e.1 e.2) = false) (memory : Nat → UInt8) :
    relocate m delta e memory = memory := by
  unfold relocate applyRelocation
  dsimp only
  by_cases hpass : relocationPasses m (relocationAddr m e.1 e.2) = true
  · rw [if_pos hpass]
    have hnone : fixupWidth e.2.type = none := by
      rw [Option.eq_none_iff_forall_not_mem]
      intro w hw
      rw [h w hw] at hpass
      cases hpass
    obtain ⟨h3, h10, h1, h2⟩ := fixupWidth_eq_none hnone
    split <;> first | rfl | contradiction
  · rw [if_neg hpass]

theorem relocate_isLocal (e : Nat × PeRelocationEntry) :
    IsLocal (relocate m delta e) (Touches m e) := by
  by_cases h : ∃ w, fixupWidth e.2.type = some w ∧
      relocationPasses m (relocationAddr m e.1 e.2) = true
  · obtain ⟨w, hwidth, hpass⟩ := h
    have hwide : w ≤ addrSpace := fixupWidth_le hwidth
    constructor
    · intro memory a ha
      rw [relocate_of_width hwidth hpass]
      refine copyMemory_outside fun hlt => ha ⟨w, hwidth, hpass, ?_⟩
      rwa [bytesLE_length] at hlt
    · intro memory memory' hagree a ha
      have hload : loadLE memory (relocationAddr m e.1 e.2) w =
          loadLE memory' (relocationAddr m e.1 e.2) w :=
        loadLE_congr (addrAdd_lt _ _) fun k hk => hagree _ ⟨w, hwidth, hpass, by
          rwa [distance_addrAdd _ (lt_of_lt_of_le hk hwide)]⟩
      obtain ⟨w', hwidth', -, hlt⟩ := ha
      cases hwidth.symm.trans hwidth'
      have hlt' : ∀ value, distance (relocationAddr m e.1 e.2) a < (bytesLE w value).length :=
        fun value => by rwa [bytesLE_length]
      rw [relocate_of_width hwidth hpass, relocate_of_width hwidth hpass, hload,
        copyMemory_inside (hlt' _), copyMemory_inside (hlt' _)]
  · have hnone : ∀ memory, relocate m delta e memory = memory := relocate_of_not_touching
      fun w hw => Bool.eq_false_iff.mpr fun hpass => h ⟨w, hw, hpass⟩
    constructor
    · exact fun memory a _ => congrFun (hnone memory) a
    · intro memory memory' hagree
      rw [hnone, hnone]
      exact hagree

/-- An entry leaves the log of values alone when it changes the memory. -/
theorem applyRelocation_memory (pageRva : Nat) (s : RelocationState) (entry : PeRelocationEntry) :
    (applyRelocation m delta pageRva s entry).memory =
      relocate m delta (pageRva, entry) s.memory := by
  unfold relocate applyRelocation
  dsimp only
  split
  · split <;> rfl
  · rfl

theorem foldl_memory : ∀ (entries : List PeRelocationEntry) (pageRva : Nat) (s : RelocationState),
    (entries.foldl (applyRelocation m delta pageRva) s).memory =
      run (relocate m delta) (entries.map fun entry => (pageRva, entry)) s.memory
  | [], _, _ => rfl
  | entry :: rest, pageRva, s => by
    rw [List.foldl_cons, foldl_memory rest, applyRelocation_memory]
    rfl

/-- The two loops are one loop over all entries. -/
theorem foldl_pages_memory : ∀ (relocations : List (Nat × List PeRelocationEntry))
    (s : RelocationState),
    (relocations.foldl (fun s page => page.2.foldl (applyRelocation m delta page.1) s) s).memory =
      run (relocate m delta) (relocationEntries relocations) s.memory
  | [], _ => rfl
  | page :: rest, s => by
    rw [List.foldl_cons, foldl_pages_memory rest, foldl_memory]
    unfold run relocationEntries
    rw [List.flatMap_cons, List.foldl_append]

theorem relocatedValue_cases {type w : Nat} (delta : Nat) (hwidth : fixupWidth type = some w)
    (v : Nat) :
    (w = 2 ∧ relocatedValue delta type v = (v * 2 ^ 16 + delta) % 2 ^ 32 / 2 ^ 16) ∨
      relocatedValue delta type v = (v + delta) % 256 ^ w := by
  by_cases htype : type = 1
  · subst htype
    cases hwidth
    exact .inl ⟨rfl, relocatedValue_high delta v⟩
  · rw [relocatedValue_of_width hwidth htype, Nat.pow_mul]
    exact .inr rfl

theorem relocatedValue_lt {type w v : Nat} (hwidth : fixupWidth type = some w) :
    relocatedValue delta type v < 256 ^ w := by
  rcases relocatedValue_cases delta hwidth v with ⟨rfl, hvalue⟩ | hvalue
  · rw [hvalue]
    omega
  · rw [hvalue]
    exact Nat.mod_lt _ (Nat.pow_pos (by decide))

/-- Without a distance no value changes. -/
theorem relocatedValue_zero {type w v : Nat} (hwidth : fixupWidth type = some w)
    (hv : v < 256 ^ w) : relocatedValue 0 type v = v := by
  rcases relocatedValue_cases 0 hwidth v with ⟨rfl, hvalue⟩ | hvalue
  · rw [hvalue]
    omega
  · rw [hvalue]
    exact Nat.mod_eq_of_lt hv

end

/-! ## All entries -/

/-- The values of the entries pass the check, lie inside the image and do not overlap. -/
structure RelocationsApart (m : Mapping) (relocations : List (Nat × List PeRelocationEntry)) :
    Prop where
  passes : ∀ e ∈ relocationEntries relocations, ∀ w, fixupWidth e.2.type = some w →
    relocationPasses m (relocationAddr m e.1 e.2) = true
  inside : ∀ e ∈ relocationEntries relocations, ∀ w, fixupWidth e.2.type = some w →
    m.base ≤ relocationAddr m e.1 e.2 ∧ relocationAddr m e.1 e.2 + w ≤ m.base + m.size
  apart : (relocationEntries relocations).Pairwise fun e e' => ∀ w w',
    fixupWidth e.2.type = some w → fixupWidth e'.2.type = some w' →
      relocationAddr m e.1 e.2 + w ≤ relocationAddr m e'.1 e'.2 ∨
        relocationAddr m e'.1 e'.2 + w' ≤ relocationAddr m e.1 e.2

/-- The values that the entries are about are changed as their types say, and no other byte is. -/
structure RelocatedExactly (m : Mapping) (delta : Nat)
    (relocations : List (Nat × List PeRelocationEntry)) (before after : Nat → UInt8) : Prop where
  values : ∀ e ∈ relocationEntries relocations, ∀ w, fixupWidth e.2.type = some w →
    loadLE after (relocationAddr m e.1 e.2) w =
      relocatedValue delta e.2.type (loadLE before (relocationAddr m e.1 e.2) w)
  rest : ∀ a < addrSpace, (∀ e ∈ relocationEntries relocations, ∀ w,
    fixupWidth e.2.type = some w →
      ¬ (relocationAddr m e.1 e.2 ≤ a ∧ a < relocationAddr m e.1 e.2 + w)) → after a = before a

/-- The distance of the bases, modulo `2 ^ 64`. -/
def baseDelta (m : Mapping) (t : LiefBinary) : Nat :=
  (m.base + addrSpace - t.imagebase % addrSpace) % addrSpace

section

variable {m : Mapping} {relocations : List (Nat × List PeRelocationEntry)}

theorem RelocationsApart.touches_iff (h : RelocationsApart m relocations)
    {e : Nat × PeRelocationEntry} (he : e ∈ relocationEntries relocations) (a : Nat) :
    Touches m e a ↔ ∃ w, fixupWidth e.2.type = some w ∧
      relocationAddr m e.1 e.2 ≤ a % addrSpace ∧
        a % addrSpace < relocationAddr m e.1 e.2 + w := by
  unfold Touches
  refine exists_congr fun w => and_congr_right fun hwidth => ?_
  have hfits : relocationAddr m e.1 e.2 + w ≤ addrSpace := (h.inside e he w hwidth).2.trans m.fits
  rw [← distance_mod, distance_lt_iff hfits (Nat.mod_lt _ (by decide))]
  exact and_iff_right (h.passes e he w hwidth)

/-- Entries that do not overlap touch different bytes. -/
theorem RelocationsApart.pairwise (h : RelocationsApart m relocations) :
    (relocationEntries relocations).Pairwise fun e e' =>
      LocalUpdate.Apart (Touches m e) (Touches m e') := by
  refine h.apart.imp_of_mem fun {e e'} he he' hdisjoint a ha ha' => ?_
  obtain ⟨w, hwidth, hlow, hhigh⟩ := (h.touches_iff he a).mp ha
  obtain ⟨w', hwidth', hlow', hhigh'⟩ := (h.touches_iff he' a).mp ha'
  have := hdisjoint w w' hwidth hwidth'
  omega

/-- What the loop does to the values and to the other bytes. -/
theorem RelocationsApart.run_exact (h : RelocationsApart m relocations) (delta : Nat)
    (memory : Nat → UInt8) : RelocatedExactly m delta relocations memory
      (run (relocate m delta) (relocationEntries relocations) memory) := by
  constructor
  · intro e he w hwidth
    have hpass := h.passes e he w hwidth
    have haddr : relocationAddr m e.1 e.2 < addrSpace := addrAdd_lt _ _
    have hwide : w ≤ addrSpace := fixupWidth_le hwidth
    have hat : AgreeOn (Touches m e)
        (run (relocate m delta) (relocationEntries relocations) memory)
        (relocate m delta e memory) := run_at relocate_isLocal h.pairwise he
    rw [loadLE_congr haddr fun k hk => hat _ ⟨w, hwidth, hpass, by
        rwa [distance_addrAdd _ (lt_of_lt_of_le hk hwide)]⟩,
      relocate_of_width hwidth hpass, loadLE_copyMemory haddr hwide]
    exact Nat.mod_eq_of_lt (relocatedValue_lt hwidth)
  · intro a ha hnot
    refine run_outside relocate_isLocal fun e he htouch => ?_
    obtain ⟨w, hwidth, hin⟩ := (h.touches_iff he a).mp htouch
    rw [Nat.mod_eq_of_lt ha] at hin
    exact hnot e he w hwidth hin

end

/-- **Relocations**: for every image, every base and all entries whose values pass the check, lie
inside the image and do not overlap, the values change by the distance of the bases as their types
say and no other byte changes. Any order of the pages and of the entries gives the same memory. -/
theorem applyRelocations_exact (m : Mapping) (t : LiefBinary) (memory : Nat → UInt8)
    {headerSize size : Nat} {relocations : List (Nat × List PeRelocationEntry)}
    (hformat : t.format = .pe headerSize size relocations) (h : RelocationsApart m relocations) :
    RelocatedExactly m (baseDelta m t) relocations memory (applyRelocations m t memory).memory ∧
      ∀ (t' : LiefBinary) (headerSize' size' : Nat)
        (relocations' : List (Nat × List PeRelocationEntry)),
        t'.imagebase = t.imagebase → t'.format = .pe headerSize' size' relocations' →
          (relocationEntries relocations').Perm (relocationEntries relocations) →
            (applyRelocations m t' memory).memory = (applyRelocations m t memory).memory := by
  have happly : ∀ (t' : LiefBinary) (headerSize' size' : Nat)
      (relocations' : List (Nat × List PeRelocationEntry)), t'.imagebase = t.imagebase →
        t'.format = .pe headerSize' size' relocations' →
          (applyRelocations m t' memory).memory =
            if m.base = t.imagebase then memory
            else run (relocate m (baseDelta m t)) (relocationEntries relocations') memory := by
    intro t' headerSize' size' relocations' hbase hformat'
    unfold applyRelocations baseDelta
    rw [hformat', hbase]
    dsimp only
    split
    · rfl
    · exact foldl_pages_memory relocations' { memory }
  rw [happly t headerSize size relocations rfl hformat]
  constructor
  · split
    · rename_i hbase
      have hdelta : baseDelta m t = 0 := by
        unfold baseDelta addrSpace
        rw [hbase]
        omega
      rw [hdelta]
      exact ⟨fun e _ w hwidth => (relocatedValue_zero hwidth (loadLE_lt _ _ _)).symm,
        fun _ _ _ => rfl⟩
    · exact h.run_exact (baseDelta m t) memory
  · intro t' headerSize' size' relocations' hbase hformat' hperm
    rw [happly t' headerSize' size' relocations' hbase hformat']
    split
    · rfl
    · exact (run_perm relocate_isLocal hperm.symm h.pairwise memory).symm

/-! ## One entry of each type -/

/-- An image with entries of all types, the last of which is only padding. -/
def oneOfEach : List (Nat × List PeRelocationEntry) :=
  [(0, [⟨0x10, 3⟩, ⟨0x20, 10⟩]), (0x800, [⟨0x0, 1⟩, ⟨0x2, 2⟩, ⟨0x0, 0⟩])]

/-- A PE file at another base than its own, with these entries. -/
def oneOfEachFile (relocations : List (Nat × List PeRelocationEntry)) : LiefBinary :=
  ⟨.pe 512 0x1000 relocations, 0x140000000, some .long64, [], fun _ _ => []⟩

theorem oneOfEach_apart : RelocationsApart movedPage oneOfEach := by
  constructor
  · have hpasses : ∀ e ∈ relocationEntries oneOfEach, ∀ w ∈ fixupWidth e.2.type,
        relocationPasses movedPage (relocationAddr movedPage e.1 e.2) = true := by decide
    exact hpasses
  · have hinside : ∀ e ∈ relocationEntries oneOfEach, ∀ w ∈ fixupWidth e.2.type,
        movedPage.base ≤ relocationAddr movedPage e.1 e.2 ∧
          relocationAddr movedPage e.1 e.2 + w ≤ movedPage.base + movedPage.size := by decide
    exact hinside
  · have hapart : (relocationEntries oneOfEach).Pairwise fun e e' =>
        ∀ w ∈ fixupWidth e.2.type, ∀ w' ∈ fixupWidth e'.2.type,
          relocationAddr movedPage e.1 e.2 + w ≤ relocationAddr movedPage e'.1 e'.2 ∨
            relocationAddr movedPage e'.1 e'.2 + w' ≤ relocationAddr movedPage e.1 e.2 := by decide
    exact hapart.imp fun h w w' hw hw' => h w hw w' hw'

/-- The entries in both orders of the pages. -/
theorem oneOfEach_exact :
    RelocatedExactly movedPage (baseDelta movedPage (oneOfEachFile oneOfEach)) oneOfEach
        (fun _ => 0) (applyRelocations movedPage (oneOfEachFile oneOfEach) fun _ => 0).memory ∧
      (applyRelocations movedPage (oneOfEachFile oneOfEach.reverse) fun _ => 0).memory =
        (applyRelocations movedPage (oneOfEachFile oneOfEach) fun _ => 0).memory := by
  obtain ⟨hexact, horder⟩ :=
    applyRelocations_exact movedPage (oneOfEachFile oneOfEach) (fun _ => 0) rfl oneOfEach_apart
  exact ⟨hexact, horder (oneOfEachFile oneOfEach.reverse) _ _ oneOfEach.reverse rfl rfl
    (oneOfEach.reverse_perm.flatMap_right _)⟩

end ReWizard
