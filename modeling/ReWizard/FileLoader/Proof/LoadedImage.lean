import ReWizard.Lib.Overlay
import ReWizard.FileLoader.Proof.CopyBounds
import ReWizard.FileLoader.Proof.FailedLoads
import ReWizard.FileLoader.Proof.RelocationEffect

/-!
# The image of a loaded file

What `Load` has put into the memory when it succeeds:

* `load_image`: over zeros lie the header and the contents of the sections, the last one on top, and
  of these bytes only the values of the relocations are changed. Memory outside of the mapping is as
  before;
* `load_sections_perm`: when no contents overlap, the order of the sections does not matter.
-/

namespace ReWizard

namespace LoaderState

/-! ## Copies as patches -/

/-- The bytes that `memcpy` puts over the memory. -/
def copied (dest : Nat) (bytes : List UInt8) : Nat → Option UInt8 := fun a => bytes[distance dest a]?

theorem copyMemory_eq_patch (memory : Nat → UInt8) (dest : Nat) (bytes : List UInt8) :
    copyMemory memory dest bytes = Overlay.patch memory (copied dest bytes) := rfl

theorem copied_nil (dest : Nat) : copied dest [] = fun _ => none := rfl

/-- A copy whose end does not wrap is a range of addresses. -/
theorem copied_apply {dest a : Nat} {bytes : List UInt8} (hfits : dest + bytes.length ≤ addrSpace)
    (ha : a < addrSpace) : copied dest bytes a = Overlay.range dest bytes a := by
  have hinside := distance_lt_iff hfits ha
  unfold copied Overlay.range
  by_cases hlt : distance dest a < bytes.length
  · obtain ⟨hlow, hhigh⟩ := hinside.mp hlt
    have hdistance : distance dest a = a - dest := by
      have hsum : addrAdd dest (a - dest) = a := by
        rw [addrAdd_of_lt (by omega)]
        omega
      rw [← distance_addrAdd dest (show a - dest < addrSpace by omega), hsum]
    rw [if_pos hlow, hdistance]
  · rw [List.getElem?_eq_none (not_lt.mp hlt)]
    split
    · rw [List.getElem?_eq_none]
      rw [hinside] at hlt
      omega
    · rfl

variable {content : Nat → Nat → List UInt8} {base : Nat}

/-- The loop, when it comes to its end: it has changed the memory and its log. -/
theorem loadSections_loaded : ∀ (sections : List LiefSection) (s : LoaderState),
    (loadSections content base sections s).1 = true → ∃ writes,
      (loadSections content base sections s).2 = { s with
        memory := Overlay.stack s.memory (sections.map fun sec =>
          copied (base + sec.virtualAddress) (content sec.virtualAddress sec.size))
        writes := writes }
  | [], s, _ => ⟨s.writes, rfl⟩
  | sec :: rest, s, h => by
    dsimp only [loadSections] at h ⊢
    rw [List.map_cons, Overlay.stack_cons]
    generalize content sec.virtualAddress sec.size = data at h ⊢
    split at h
    · rename_i hempty
      rw [if_pos hempty, hempty, copied_nil]
      exact loadSections_loaded rest s h
    · rename_i hdata
      rw [if_neg hdata]
      split at h
      · cases h
      · rename_i hpass
        rw [if_neg hpass]
        exact loadSections_loaded rest (s.copySection base sec.virtualAddress data) h

end LoaderState

/-! ## The image -/

/-- The entries of the relocation directory, by page. -/
def LiefBinary.relocations (t : LiefBinary) : List (Nat × List PeRelocationEntry) :=
  match t.format with
  | .pe _ _ relocations => relocations
  | _ => []

/-- What is copied into a mapping, the header first. -/
def LiefBinary.layers (t : LiefBinary) (header : List UInt8) (base : Nat) :
    List (Nat → Option UInt8) :=
  Overlay.range base header :: t.sections.map fun sec =>
    Overlay.range (base + sec.virtualAddress) (t.content sec.virtualAddress sec.size)

/-- The memory with the file in the mapping, before the relocations: where nothing is copied, the
mapping has zeros. -/
def LiefBinary.image (t : LiefBinary) (header : List UInt8) (m : Mapping) (memory : Nat → UInt8) :
    Nat → UInt8 := fun a =>
  if m.base ≤ a ∧ a < m.base + m.size then (Overlay.top (t.layers header m.base) a).getD 0
  else memory a


section

variable {t : LiefBinary} {m : Mapping} {memory memory' : Nat → UInt8}

theorem applyRelocations_memory (m : Mapping) (t : LiefBinary) (memory : Nat → UInt8) :
    (applyRelocations m t memory).memory = if m.base = t.imagebase then memory
      else LocalUpdate.run (relocate m (baseDelta m t)) (relocationEntries t.relocations) memory := by
  unfold applyRelocations LiefBinary.relocations baseDelta
  cases t.format with
  | pe sizeofHeaders virtualSize relocations =>
    dsimp only
    split
    · rfl
    · exact foldl_pages_memory relocations { memory }
  | elf headerSize virtualSize => exact (ite_self memory).symm
  | macho magic sizeofCmds virtualSize => exact (ite_self memory).symm
  | other => exact (ite_self memory).symm

/-- The relocations, from a memory that may differ behind the address space. -/
theorem applyRelocations_from (h : RelocationsApart m t.relocations)
    (hsame : ∀ a < addrSpace, memory a = memory' a) :
    RelocatedExactly m (baseDelta m t) t.relocations memory'
      (applyRelocations m t memory).memory := by
  have hexact : RelocatedExactly m (baseDelta m t) t.relocations memory
      (applyRelocations m t memory).memory := by
    rw [applyRelocations_memory]
    split
    · rename_i hbase
      have hdelta : baseDelta m t = 0 := by
        unfold baseDelta addrSpace
        rw [hbase]
        omega
      rw [hdelta]
      exact ⟨fun e _ w hwidth => (relocatedValue_zero hwidth (loadLE_lt _ _ _)).symm,
        fun _ _ _ => rfl⟩
    · exact h.run_exact (baseDelta m t) memory
  constructor
  · intro e he w hwidth
    rw [hexact.values e he w hwidth]
    congr 1
    exact loadLE_congr (addrAdd_lt _ _) fun k _ => hsame _ (addrAdd_lt _ _)
  · exact fun a ha hnot => (hexact.rest a ha hnot).trans (hsame a ha)

/-- The copies into a mapping of zeros, when none of them leaves the mapping. -/
theorem stack_copied_eq_image {header : List UInt8} (hheader : header.length ≤ m.size)
    (hsections : ∀ sec ∈ t.sections, t.content sec.virtualAddress sec.size ≠ [] →
      sec.virtualAddress + (t.content sec.virtualAddress sec.size).length ≤ m.size)
    {a : Nat} (ha : a < addrSpace) :
    Overlay.stack (copyMemory (zeroMemory memory m.base m.size) m.base header)
        (t.sections.map fun sec => LoaderState.copied (m.base + sec.virtualAddress)
          (t.content sec.virtualAddress sec.size)) a =
      t.image header m memory a := by
  have hfits := m.fits
  have hcopies : Overlay.stack (copyMemory (zeroMemory memory m.base m.size) m.base header)
      (t.sections.map fun sec => LoaderState.copied (m.base + sec.virtualAddress)
        (t.content sec.virtualAddress sec.size)) a =
      Overlay.stack (zeroMemory memory m.base m.size) (t.layers header m.base) a := by
    unfold LiefBinary.layers
    rw [Overlay.stack_cons]
    refine Overlay.stack_congr (fun sec hsec => ?_) ?_
    · by_cases hempty : t.content sec.virtualAddress sec.size = []
      · rw [hempty, LoaderState.copied_nil]
        exact (Overlay.range_eq_none.mpr (by rw [List.length_nil]; omega)).symm
      · have := hsections sec hsec hempty
        exact LoaderState.copied_apply (by omega) ha
    · rw [LoaderState.copyMemory_eq_patch]
      unfold Overlay.patch
      rw [LoaderState.copied_apply (by omega) ha]
  rw [hcopies]
  unfold LiefBinary.image
  split
  · rename_i hinside
    rw [Overlay.stack_apply]
    unfold zeroMemory
    rw [if_pos hinside]
  · rename_i houtside
    rw [Overlay.stack_outside]
    · unfold zeroMemory
      rw [if_neg houtside]
    · intro p hp
      unfold LiefBinary.layers at hp
      rcases List.mem_cons.mp hp with rfl | hp
      · exact Overlay.range_eq_none.mpr (by omega)
      · obtain ⟨sec, hsec, rfl⟩ := List.mem_map.mp hp
        by_cases hempty : t.content sec.virtualAddress sec.size = []
        · rw [hempty]
          exact Overlay.range_eq_none.mpr (by rw [List.length_nil]; omega)
        · have := hsections sec hsec hempty
          exact Overlay.range_eq_none.mpr (by omega)

end

/-! ## Load -/

namespace LoaderState

/-- What a `Load` that succeeded with the mapping `m` has done. -/
structure Loaded (s s' : LoaderState) (t : LiefBinary) (m : Mapping) (headerSize : Nat) : Prop where
  mappedPtr : s'.mappedPtr = some m.base
  mappedSpan : s'.mappedSpan = (m.base, m.size)
  regions : s'.regions = s.regions ++ [(m.base, m.size)]
  arch : s'.arch = t.modes
  memory : RelocatedExactly m (baseDelta m t) t.relocations
    (t.image (s.raw.take headerSize) m s.memory) s'.memory

/-- The bytes of the header, when the file has them. -/
theorem header_bytes {raw : List UInt8} {headerSize : Nat} (h : headerSize ≤ raw.length) :
    ((List.range headerSize).map fun i => raw.getD i 0) = raw.take headerSize := by
  refine List.ext_getElem ?_ fun i h1 h2 => ?_
  · rw [List.length_map, List.length_range, List.length_take]
    exact (Nat.min_eq_left h).symm
  · rw [List.length_map, List.length_range] at h1
    rw [List.getElem_map, List.getElem_range, List.getElem_take]
    exact (List.getElem_eq_getD 0).symm

theorem mapped_pos {size : Nat} (base : { base : Nat // 0 < base ∧ base + size ≤ addrSpace }) :
    0 < base.1 := base.2.1

theorem mapped_fits {size : Nat} (base : { base : Nat // 0 < base ∧ base + size ≤ addrSpace }) :
    base.1 + size ≤ addrSpace := base.2.2

/-- The mapping that the memory mapper gives. -/
def mappingAt {size : Nat} (base : { base : Nat // 0 < base ∧ base + size ≤ addrSpace }) : Mapping :=
  ⟨base.1, size, mapped_pos base, mapped_fits base⟩

/-- The sections of a binary that loads, when no end of a content wraps. -/
theorem SectionsPass.inside {content : Nat → Nat → List UInt8} {size : Nat}
    (hsize : size < addrSpace) : ∀ {sections : List LiefSection},
    SectionsPass content size sections → SectionsFit content size sections →
      ∀ sec ∈ sections, content sec.virtualAddress sec.size ≠ [] →
        sec.virtualAddress + (content sec.virtualAddress sec.size).length ≤ size
  | [], _, _, _, h => by cases h
  | x :: rest, hpass, hfit, sec, hsec => by
    have hpass : _ ∧ SectionsPass content size rest := List.forall_mem_cons.mp hpass
    dsimp only [SectionsFit] at hfit
    split at hfit
    · rename_i hempty
      rcases List.mem_cons.mp hsec with rfl | hsec
      · exact fun hne => absurd hempty hne
      · exact SectionsPass.inside hsize hpass.2 hfit sec hsec
    · rename_i hdata
      have hle := hpass.1.resolve_left hdata
      have hfit := hfit.resolve_left (not_lt.mpr hle)
      rcases List.mem_cons.mp hsec with rfl | hsec
      · exact fun _ => (passes_iff hsize (not_lt.mpr hle)).mpr hfit.1
      · exact SectionsPass.inside hsize hpass.2 hfit.2 sec hsec

section

variable {mapper : MemoryMapper} {exec : Bool} {s : LoaderState} {t : LiefBinary}
  {size headerSize : Nat}

/-- `Load` when memory is mapped, with the mapping that the mapper gives. -/
theorem load_eq (hmaps : Maps mapper exec s t size headerSize)
    {base : { base : Nat // 0 < base ∧ base + size ≤ addrSpace }}
    (hmap : mapper.map size t.imagebase exec = some base) : s.load mapper exec =
      ({ s with rawReads := [], writes := [], mappedSize := size }).loadMapped t (mappingAt base)
        headerSize := by
  have hbounds : ¬ (size = 0 ∨ 2 ^ 32 < size) := fun hor =>
    hor.elim hmaps.size_ne (not_lt.mpr hmaps.size_le)
  unfold load
  simp only [hmaps.target_eq, hmaps.size_eq, hmaps.headerSize_eq, if_neg hbounds, hmap]
  rfl

/-- A `Load` that succeeds has mapped memory. -/
theorem Maps.of_load (h : (s.load mapper exec).1 = true) :
    ∃ t size headerSize, Maps mapper exec s t size headerSize := by
  unfold load at h
  dsimp only at h
  split at h
  · cases h
  · rename_i t ht
    split at h
    · rename_i size headerSize hsize hheader
      split at h
      · cases h
      · rename_i hbounds
        split at h
        · cases h
        · rename_i base hmap
          refine ⟨t, size, headerSize, ht, hsize, hheader, ?_, ?_, ?_⟩
          · exact fun h0 => hbounds (.inl h0)
          · exact not_lt.mp fun hlt => hbounds (.inr hlt)
          · rw [hmap]
            exact Option.some_ne_none _
    · cases h

/-- When `Load` succeeds. -/
theorem load_succeeds_iff (hmaps : Maps mapper exec s t size headerSize) :
    (s.load mapper exec).1 = true ↔ s.raw ≠ [] ∧ SectionsPass t.content size t.sections := by
  obtain ⟨m, hload⟩ := load_mapped hmaps
  rw [hload]
  exact (loadMapped_spec hmaps.size_ne hmaps.size_le).1

/-- The memory once everything is copied, before the relocations. -/
def copiedMemory (s : LoaderState) (t : LiefBinary) (base size headerSize : Nat) : Nat → UInt8 :=
  Overlay.stack
    (copyMemory (zeroMemory s.memory base size) base
      ((List.range headerSize).map fun i => s.raw.getD i 0))
    (t.sections.map fun sec =>
      copied (base + sec.virtualAddress) (t.content sec.virtualAddress sec.size))

/-- What a `Load` that succeeds leaves. -/
theorem load_loaded (hmaps : Maps mapper exec s t size headerSize)
    {base : { base : Nat // 0 < base ∧ base + size ≤ addrSpace }}
    (hmap : mapper.map size t.imagebase exec = some base) (hload : (s.load mapper exec).1 = true) :
    ∃ reads writes, (s.load mapper exec).2 = { s with
      mappedSize := size
      mappedPtr := some base.1
      mappedSpan := (base.1, size)
      regions := s.regions ++ [(base.1, size)]
      arch := t.modes
      rawReads := reads
      writes := writes
      memory := (applyRelocations (mappingAt base) t
        (s.copiedMemory t base.1 size headerSize)).memory } := by
  obtain ⟨hraw, hpass⟩ := (load_succeeds_iff hmaps).mp hload
  rw [load_eq hmaps hmap]
  unfold loadMapped
  dsimp only
  split
  · rename_i hempty
    exact absurd hempty hraw
  · unfold loadInto
    generalize hs' : copyHeader _ _ _ = s'
    have hloop : (loadSections t.content base.1 t.sections s').1 = true := by
      refine (loadSections_spec t.sections s').1.mpr ?_
      rw [← hs']
      exact hpass
    obtain ⟨writes, hlast⟩ := loadSections_loaded t.sections s' hloop
    have hbase : (mappingAt base).base = base.1 := rfl
    rw [hbase]
    generalize loadSections t.content base.1 t.sections s' = r at hloop hlast ⊢
    obtain ⟨b, last⟩ := r
    cases hloop
    cases hlast
    rw [← hs']
    exact ⟨_, writes, rfl⟩

/-- **Load**: when `Load` succeeds, its copies fit and the values of the relocations do not overlap,
the mapping has the header and the sections over zeros with the values relocated, and the memory
outside of the mapping is as before. -/
theorem load_image (hmaps : Maps mapper exec s t size headerSize)
    {base : { base : Nat // 0 < base ∧ base + size ≤ addrSpace }}
    (hmap : mapper.map size t.imagebase exec = some base) (hload : (s.load mapper exec).1 = true)
    (hfit : s.CopiesFit mapper exec) (hrel : RelocationsApart (mappingAt base) t.relocations) :
    Loaded s (s.load mapper exec).2 t (mappingAt base) headerSize := by
  obtain ⟨hraw, hpass⟩ := (load_succeeds_iff hmaps).mp hload
  obtain ⟨hheaderRaw, hheader, hsections⟩ := hfit t size headerSize hmaps.target_eq hmaps.size_eq
    hmaps.headerSize_eq hmaps.size_ne hmaps.size_le hmaps.mapped hraw
  obtain ⟨reads, writes, hlast⟩ := load_loaded hmaps hmap hload
  have hsize : size < addrSpace := lt_of_le_of_lt hmaps.size_le (by decide)
  rw [hlast]
  refine ⟨rfl, rfl, rfl, rfl, applyRelocations_from hrel fun a ha => ?_⟩
  unfold copiedMemory
  rw [header_bytes hheaderRaw]
  refine stack_copied_eq_image (m := mappingAt base) ?_ (hpass.inside hsize hsections) ha
  exact (List.length_take_le headerSize s.raw).trans hheader

/-- Copies that end inside the mapping and do not overlap are apart. -/
theorem copied_apart {base offset offset' : Nat} {bytes bytes' : List UInt8}
    (hfits : base + offset + bytes.length ≤ addrSpace)
    (hfits' : base + offset' + bytes'.length ≤ addrSpace)
    (hapart : Overlay.Apart (Overlay.range offset bytes) (Overlay.range offset' bytes')) :
    Overlay.Apart (copied (base + offset) bytes) (copied (base + offset') bytes') := by
  intro a
  have hmod : a % addrSpace < addrSpace := Nat.mod_lt _ (by decide)
  have hwrapped : ∀ (dest : Nat) (bytes : List UInt8),
      copied dest bytes a = copied dest bytes (a % addrSpace) := fun dest bytes => by
    unfold copied
    rw [distance_mod]
  rw [hwrapped, hwrapped, copied_apply hfits hmod, copied_apply hfits' hmod, Overlay.range_eq_none,
    Overlay.range_eq_none]
  have := hapart (a % addrSpace - base)
  rw [Overlay.range_eq_none, Overlay.range_eq_none] at this
  omega

/-- **Order of the sections**: when the contents do not overlap and none of their ends wraps, another
order of the sections loads if and only if this one does, and gives the same memory. -/
theorem load_sections_perm (mapper : MemoryMapper) (exec : Bool) {sections : List LiefSection}
    (htarget : s.target = some t) (hperm : sections.Perm t.sections)
    (hwrap : ∀ sec ∈ t.sections,
      sec.virtualAddress + (t.content sec.virtualAddress sec.size).length < addrSpace)
    (hapart : t.sections.Pairwise fun sec sec' =>
      Overlay.Apart (Overlay.range sec.virtualAddress (t.content sec.virtualAddress sec.size))
        (Overlay.range sec'.virtualAddress (t.content sec'.virtualAddress sec'.size))) :
    let s' : LoaderState := { s with target := some { t with sections := sections } }
    (s'.load mapper exec).1 = (s.load mapper exec).1 ∧
      ((s.load mapper exec).1 = true →
        (s'.load mapper exec).2.memory = (s.load mapper exec).2.memory) := by
  intro s'
  have hpasses : ∀ {size}, SectionsPass t.content size sections ↔
      SectionsPass t.content size t.sections := fun {size} =>
    ⟨fun h sec hsec => h sec (hperm.mem_iff.mpr hsec), fun h sec hsec =>
      h sec (hperm.mem_iff.mp hsec)⟩
  have hmaps' : ∀ {size headerSize}, Maps mapper exec s t size headerSize →
      Maps mapper exec s' { t with sections := sections } size headerSize := fun h =>
    ⟨rfl, h.size_eq, h.headerSize_eq, h.size_ne, h.size_le, h.mapped⟩
  by_cases hmaps : ∃ size headerSize, Maps mapper exec s t size headerSize
  · obtain ⟨size, headerSize, hmaps⟩ := hmaps
    have hsame : (s'.load mapper exec).1 = true ↔ (s.load mapper exec).1 = true := by
      rw [load_succeeds_iff hmaps, load_succeeds_iff (hmaps' hmaps)]
      exact and_congr_right fun _ => hpasses
    refine ⟨Bool.eq_iff_iff.mpr hsame, fun hload => ?_⟩
    obtain ⟨base, hmap⟩ := Option.ne_none_iff_exists'.mp hmaps.mapped
    obtain ⟨_, _, hlast⟩ := load_loaded hmaps hmap hload
    obtain ⟨_, _, hlast'⟩ := load_loaded (hmaps' hmaps) hmap (hsame.mpr hload)
    obtain ⟨-, hpass⟩ := (load_succeeds_iff hmaps).mp hload
    rw [hlast, hlast']
    have hcopied : s'.copiedMemory { t with sections := sections } base.1 size headerSize =
        s.copiedMemory t base.1 size headerSize := by
      refine Overlay.stack_perm (hperm.map _) ?_ _
      refine List.pairwise_map.mpr (List.Pairwise.imp_of_mem (fun {sec sec'} hsec hsec' h => ?_)
        ((hperm.pairwise_iff Overlay.Apart.symm).mpr hapart))
      have hinside : ∀ sec ∈ sections, base.1 + sec.virtualAddress +
          (t.content sec.virtualAddress sec.size).length ≤ addrSpace ∨
            t.content sec.virtualAddress sec.size = [] := fun sec hsec => by
        by_cases hempty : t.content sec.virtualAddress sec.size = []
        · exact .inr hempty
        · have hle := (hpass sec (hperm.mem_iff.mp hsec)).resolve_left hempty
          rw [addrAdd_of_lt (hwrap sec (hperm.mem_iff.mp hsec))] at hle
          have := base.2.2
          exact .inl (by omega)
      rcases hinside sec hsec with hfits | hempty
      · rcases hinside sec' hsec' with hfits' | hempty'
        · exact copied_apart hfits hfits' h
        · rw [hempty', copied_nil]
          exact fun _ => .inr rfl
      · rw [hempty, copied_nil]
        exact fun _ => .inl rfl
    rw [hcopied, applyRelocations_memory, applyRelocations_memory]
    rfl
  · have hnot : (s.load mapper exec).1 = false := Bool.eq_false_iff.mpr fun h => by
      obtain ⟨t', size, headerSize, hm⟩ := Maps.of_load h
      cases htarget.symm.trans hm.target_eq
      exact hmaps ⟨size, headerSize, hm⟩
    have hnot' : (s'.load mapper exec).1 = false := Bool.eq_false_iff.mpr fun h => by
      obtain ⟨t', size, headerSize, hm⟩ := Maps.of_load h
      cases hm.target_eq
      exact hmaps ⟨size, headerSize, htarget, hm.size_eq, hm.headerSize_eq, hm.size_ne, hm.size_le,
        hm.mapped⟩
    rw [hnot, hnot']
    exact ⟨rfl, fun h => by cases h⟩

end

/-! ## Outside of the mapping -/

section

variable {t : LiefBinary} {m : Mapping} {a : Nat}

/-- The loop writes nothing outside, however it ends. -/
theorem loadSections_outside {content : Nat → Nat → List UInt8} (ha : a < addrSpace)
    (hout : ¬ (m.base ≤ a ∧ a < m.base + m.size)) (hsize : m.size < addrSpace) :
    ∀ (sections : List LiefSection) (s : LoaderState), s.mappedSize = m.size →
      SectionsFit content m.size sections →
        (loadSections content m.base sections s).2.memory a = s.memory a
  | [], _, _, _ => rfl
  | sec :: rest, s, hs, hfit => by
    dsimp only [loadSections, SectionsFit] at hfit ⊢
    generalize content sec.virtualAddress sec.size = data at hfit ⊢
    split at hfit
    · rename_i hempty
      rw [if_pos hempty]
      exact loadSections_outside ha hout hsize rest s hs hfit
    · rename_i hdata
      rw [if_neg hdata, hs]
      split
      · rfl
      · rename_i hpass
        obtain ⟨hwrap, hfit⟩ := hfit.resolve_left hpass
        have hinside := (passes_iff hsize hpass).mpr hwrap
        have hend := m.fits
        refine (loadSections_outside ha hout hsize rest
          (s.copySection m.base sec.virtualAddress data) hs hfit).trans ?_
        refine copyMemory_outside fun hlt => hout ?_
        have := (distance_lt_iff (by omega) ha).mp hlt
        omega

/-- An entry that fits touches nothing outside. -/
theorem not_touches_outside {e : Nat × PeRelocationEntry} (hfit : EntryFits m e.1 e.2)
    (ha : a < addrSpace) (hout : ¬ (m.base ≤ a ∧ a < m.base + m.size)) : ¬ Touches m e a := by
  rintro ⟨w, hwidth, hpass, hlt⟩
  have hle := hfit w hwidth hpass
  have hend := m.fits
  have haddr : relocationAddr m e.1 e.2 = addrAdd m.base (addrAdd e.1 e.2.position) := by
    unfold relocationAddr addrAdd
    rw [Nat.add_mod_mod, Nat.add_assoc]
  have hw : w ≠ 0 := fun h0 => by
    rw [h0] at hlt
    exact absurd hlt (Nat.not_lt_zero _)
  rw [haddr, addrAdd_of_lt (by omega)] at hlt
  have := (distance_lt_iff (by omega) ha).mp hlt
  omega

theorem applyRelocations_outside (hfit : RelocationsFit m t) (ha : a < addrSpace)
    (hout : ¬ (m.base ≤ a ∧ a < m.base + m.size)) (memory : Nat → UInt8) :
    (applyRelocations m t memory).memory a = memory a := by
  rw [applyRelocations_memory]
  split
  · rfl
  · rename_i hbase
    refine LocalUpdate.run_outside relocate_isLocal fun e he => ?_
    unfold relocationEntries LiefBinary.relocations at he
    cases hformat : t.format with
    | pe sizeofHeaders virtualSize relocations =>
      rw [hformat] at he
      obtain ⟨page, hpage, he⟩ := List.mem_flatMap.mp he
      obtain ⟨entry, hentry, rfl⟩ := List.mem_map.mp he
      exact not_touches_outside (hfit _ _ _ hformat hbase page hpage entry hentry) ha hout
    | _ =>
      rw [hformat] at he
      cases he

/-- **Frame**: a `Load` whose copies and relocations fit writes nothing outside of the mapping,
whether it succeeds or not. -/
theorem loadMapped_outside {s : LoaderState} {headerSize : Nat} (hs : s.mappedSize = m.size)
    (hsize : m.size < addrSpace)
    (hfit : s.raw ≠ [] → headerSize ≤ m.size ∧ SectionsFit t.content m.size t.sections)
    (hrel : RelocationsFit m t) (ha : a < addrSpace)
    (hout : ¬ (m.base ≤ a ∧ a < m.base + m.size)) :
    (s.loadMapped t m headerSize).2.memory a = s.memory a := by
  have hzero : zeroMemory s.memory m.base s.mappedSize a = s.memory a := by
    unfold zeroMemory
    rw [hs]
    exact if_neg hout
  unfold loadMapped
  dsimp only
  split
  · exact hzero
  · rename_i hraw
    obtain ⟨hheader, hsections⟩ := hfit hraw
    unfold loadInto
    generalize hs' : copyHeader _ _ _ = s'
    have hcopied : s'.memory a = s.memory a ∧ s'.mappedSize = m.size := by
      rw [← hs']
      refine ⟨(copyMemory_outside fun hlt => hout ?_).trans hzero, hs⟩
      rw [List.length_map, List.length_range] at hlt
      have hend := m.fits
      have := (distance_lt_iff (by omega) ha).mp hlt
      omega
    have hloop := loadSections_outside ha hout hsize t.sections s' hcopied.2 hsections
    generalize loadSections t.content m.base t.sections s' = r at hloop ⊢
    obtain ⟨b, last⟩ := r
    cases b with
    | false => exact hloop.trans hcopied.1
    | true => exact (applyRelocations_outside hrel ha hout _).trans (hloop.trans hcopied.1)

end

/-! ## A file that is moved -/

/-- Memory is mapped at one address only. -/
def mapMoved : MemoryMapper where
  map := fun size _ _ =>
    if h : 0 < 0x10000 ∧ 0x10000 + size ≤ addrSpace then some ⟨0x10000, h⟩ else none

/-- A PE file with the given sections, filled with `nop`s. -/
def movedFile (sections : List LiefSection) : LoaderState where
  raw := [0x4D, 0x5A] ++ List.replicate 1022 0
  target := some ⟨.pe 512 0x1000 oneOfEach, 0x140000000, some .long64, sections,
    fun _ size => List.replicate size 0x90⟩

theorem movedFile_maps (sections : List LiefSection) :
    Maps mapMoved false (movedFile sections) ⟨.pe 512 0x1000 oneOfEach, 0x140000000, some .long64,
      sections, fun _ size => List.replicate size 0x90⟩ 0x1000 512 :=
  ⟨rfl, rfl, rfl, by decide, by decide, Option.some_ne_none _⟩

/-- The second section lies over the end of the first. -/
theorem movedFile_loaded : ∃ t, Loaded (movedFile [⟨0x200, 0x20⟩, ⟨0x210, 0x20⟩])
    ((movedFile [⟨0x200, 0x20⟩, ⟨0x210, 0x20⟩]).load mapMoved false).2 t movedPage 512 := by
  refine ⟨_, load_image (movedFile_maps _) rfl (by decide +kernel) ?_ oneOfEach_apart⟩
  rintro t size headerSize ht hsize hheader - - - -
  cases ht
  cases hsize
  cases hheader
  refine ⟨by decide +kernel, by decide, ?_⟩
  exact .inr ⟨by decide, .inr ⟨by decide, trivial⟩⟩

/-- Sections that do not overlap, in both orders. -/
theorem movedFile_perm :
    ((movedFile [⟨0x210, 0x20⟩, ⟨0x200, 0x10⟩]).load mapMoved false).1 =
        ((movedFile [⟨0x200, 0x10⟩, ⟨0x210, 0x20⟩]).load mapMoved false).1 ∧
      ((movedFile [⟨0x210, 0x20⟩, ⟨0x200, 0x10⟩]).load mapMoved false).2.memory =
        ((movedFile [⟨0x200, 0x10⟩, ⟨0x210, 0x20⟩]).load mapMoved false).2.memory := by
  have h := load_sections_perm mapMoved false (s := movedFile [⟨0x200, 0x10⟩, ⟨0x210, 0x20⟩]) rfl
    (List.Perm.swap (LiefSection.mk 0x200 0x10) ⟨0x210, 0x20⟩ []) (by decide) ?_
  · exact ⟨h.1, h.2 (by decide +kernel)⟩
  · refine List.pairwise_pair.mpr (Overlay.range_apart ?_)
    exact .inl (by decide)

end LoaderState

end ReWizard
