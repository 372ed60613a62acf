import ReWizard.FileLoader.FileLoader

/-!
# The copies of Load

The header is copied without a check, and the check of a section's content adds two numbers that
may wrap. `load_inside_iff` says when every copy of `Load` stays inside the raw file and inside the
mapping.
-/

namespace ReWizard

namespace LoaderState

/-- The last `Load` read only raw bytes that are there, and wrote only inside the mapping. -/
def CopiesInside (s : LoaderState) : Prop :=
  (∀ r ∈ s.rawReads, r.1 + r.2 ≤ s.raw.length) ∧ ∀ w ∈ s.writes, w.1 + w.2 ≤ s.mappedSize

/-- Up to the section at which the check ends the loop, no end of a content wraps. -/
def SectionsFit (content : Nat → Nat → List UInt8) (size : Nat) : List LiefSection → Prop
  | [] => True
  | sec :: rest =>
    let data := content sec.virtualAddress sec.size
    if data = [] then SectionsFit content size rest
    else size < addrAdd sec.virtualAddress data.length ∨
      (sec.virtualAddress + data.length < addrSpace ∧ SectionsFit content size rest)

/-- If `Load` gets to the copies, the header is no longer than the raw file and the mapping, and the
sections fit. -/
def CopiesFit (mapper : MemoryMapper) (exec : Bool) (s : LoaderState) : Prop :=
  ∀ t size headerSize, s.target = some t → t.size? = some size → t.headerSize? = some headerSize →
    size ≠ 0 → size ≤ 2 ^ 32 → mapper.map size t.imagebase exec ≠ none → s.raw ≠ [] →
      headerSize ≤ s.raw.length ∧ headerSize ≤ size ∧ SectionsFit t.content size t.sections

variable {content : Nat → Nat → List UInt8} {base : Nat}

/-- What the loop leaves alone. -/
theorem loadSections_rest : ∀ (sections : List LiefSection) (s : LoaderState),
    (loadSections content base sections s).2.raw = s.raw ∧
      (loadSections content base sections s).2.mappedSize = s.mappedSize ∧
      (loadSections content base sections s).2.rawReads = s.rawReads
  | [], _ => ⟨rfl, rfl, rfl⟩
  | sec :: rest, s => by
    dsimp only [loadSections]
    split
    · exact loadSections_rest rest s
    · split
      · exact ⟨rfl, rfl, rfl⟩
      · exact loadSections_rest rest (s.copySection base sec.virtualAddress _)

/-- A content that passes the check ends inside unless its end wraps. -/
theorem passes_iff {size offset length : Nat} (hsize : size < addrSpace)
    (hpass : ¬ size < addrAdd offset length) :
    offset + length ≤ size ↔ offset + length < addrSpace := by
  constructor
  · exact fun h => lt_of_le_of_lt h hsize
  · intro h
    rw [addrAdd_of_lt h] at hpass
    exact not_lt.mp hpass

theorem copySection_writes (s : LoaderState) (offset : Nat) (data : List UInt8) (size : Nat) :
    (∀ w ∈ (s.copySection base offset data).writes, w.1 + w.2 ≤ size) ↔
      (∀ w ∈ s.writes, w.1 + w.2 ≤ size) ∧ offset + data.length ≤ size := by
  show (∀ w ∈ s.writes ++ [(offset, data.length)], w.1 + w.2 ≤ size) ↔ _
  rw [List.forall_mem_append, List.forall_mem_singleton]

/-- The writes of the loop. -/
theorem loadSections_writes : ∀ (sections : List LiefSection) (s : LoaderState),
    s.mappedSize < addrSpace →
      ((∀ w ∈ (loadSections content base sections s).2.writes, w.1 + w.2 ≤ s.mappedSize) ↔
        (∀ w ∈ s.writes, w.1 + w.2 ≤ s.mappedSize) ∧ SectionsFit content s.mappedSize sections)
  | [], s, _ => ⟨fun h => ⟨h, trivial⟩, And.left⟩
  | sec :: rest, s, hsize => by
    dsimp only [loadSections, SectionsFit]
    generalize content sec.virtualAddress sec.size = data
    split
    · exact loadSections_writes rest s hsize
    · split
      · rename_i hstop
        exact ⟨fun h => ⟨h, .inl hstop⟩, And.left⟩
      · rename_i hpass
        refine (loadSections_writes rest (s.copySection base sec.virtualAddress data)
          hsize).trans ?_
        show (∀ w ∈ (s.copySection base sec.virtualAddress data).writes,
          w.1 + w.2 ≤ s.mappedSize) ∧ SectionsFit content s.mappedSize rest ↔ _
        rw [copySection_writes, passes_iff hsize hpass, and_assoc]
        exact and_congr_right fun _ => ⟨.inr, fun h => h.resolve_left hpass⟩

variable {s : LoaderState} {t : LiefBinary} {m : Mapping} {headerSize : Nat}

/-- `Load` from the copy of the header on. -/
theorem loadInto_inside (hsize : s.mappedSize < addrSpace) (hreads : s.rawReads = [])
    (hwrites : s.writes = [(0, s.mappedSize)]) :
    (s.loadInto t m headerSize).2.CopiesInside ↔
      headerSize ≤ s.raw.length ∧ headerSize ≤ s.mappedSize ∧
        SectionsFit t.content s.mappedSize t.sections := by
  let s' := s.copyHeader m.base headerSize
  have hloop : (∀ w ∈ (loadSections t.content m.base t.sections s').2.writes,
      w.1 + w.2 ≤ s'.mappedSize) ↔ _ := loadSections_writes t.sections s' hsize
  have hrest : (loadSections t.content m.base t.sections s').2.raw = s'.raw ∧ _ :=
    loadSections_rest t.sections s'
  obtain ⟨hraw, hmapped, hread⟩ := hrest
  have hout : (s.loadInto t m headerSize).2.CopiesInside ↔
      (loadSections t.content m.base t.sections s').2.CopiesInside := by
    unfold loadInto
    generalize loadSections t.content m.base t.sections s' = r
    obtain ⟨b, last⟩ := r
    cases b <;> exact Iff.rfl
  rw [hout]
  unfold CopiesInside
  rw [hraw, hmapped, hread]
  have hcopied : s'.rawReads = [(0, headerSize)] ∧
      s'.writes = [(0, s.mappedSize), (0, headerSize)] := by
    show s.rawReads ++ [(0, headerSize)] = _ ∧ s.writes ++ [(0, headerSize)] = _
    rw [hreads, hwrites]
    exact ⟨rfl, rfl⟩
  rw [hcopied.1, List.forall_mem_singleton, Nat.zero_add]
  refine and_congr_right fun _ => hloop.trans ?_
  show (∀ w ∈ s'.writes, w.1 + w.2 ≤ s.mappedSize) ∧
    SectionsFit t.content s.mappedSize t.sections ↔ _
  rw [hcopied.2, List.forall_mem_cons, List.forall_mem_singleton, Nat.zero_add, Nat.zero_add]
  exact and_congr_left fun _ => ⟨And.right, fun h => ⟨Nat.le_refl _, h⟩⟩

/-- `Load` once the memory is mapped. -/
theorem loadMapped_inside (hsize : s.mappedSize < addrSpace) (hreads : s.rawReads = [])
    (hwrites : s.writes = []) :
    (s.loadMapped t m headerSize).2.CopiesInside ↔ (s.raw ≠ [] →
      headerSize ≤ s.raw.length ∧ headerSize ≤ s.mappedSize ∧
        SectionsFit t.content s.mappedSize t.sections) := by
  unfold loadMapped
  dsimp only
  split
  · rename_i hraw
    refine ⟨fun _ hne => absurd hraw hne, fun _ => ⟨?_, ?_⟩⟩
    · show ∀ r ∈ s.rawReads, _
      rw [hreads]
      exact fun r hr => by cases hr
    · show ∀ w ∈ s.writes ++ [(0, s.mappedSize)], w.1 + w.2 ≤ s.mappedSize
      rw [hwrites, List.nil_append, List.forall_mem_singleton, Nat.zero_add]
  · rename_i hraw
    refine (loadInto_inside ?_ ?_ ?_).trans ?_
    · exact hsize
    · exact hreads
    · show s.writes ++ [(0, s.mappedSize)] = [(0, s.mappedSize)]
      rw [hwrites, List.nil_append]
    · exact ⟨fun h _ => h, fun h => h hraw⟩

/-- The checks before the mapping pass, and the memory is mapped. -/
structure Maps (mapper : MemoryMapper) (exec : Bool) (s : LoaderState) (t : LiefBinary)
    (size headerSize : Nat) : Prop where
  target_eq : s.target = some t
  size_eq : t.size? = some size
  headerSize_eq : t.headerSize? = some headerSize
  size_ne : size ≠ 0
  size_le : size ≤ 2 ^ 32
  mapped : mapper.map size t.imagebase exec ≠ none

variable {mapper : MemoryMapper} {exec : Bool}

/-- Before the mapping `Load` copies nothing. -/
theorem load_early (h : ∀ t size headerSize, ¬ Maps mapper exec s t size headerSize) :
    (s.load mapper exec).2.rawReads = [] ∧ (s.load mapper exec).2.writes = [] := by
  unfold load
  dsimp only
  split
  · exact ⟨rfl, rfl⟩
  · rename_i t ht
    split
    · rename_i size headerSize hsize hheader
      split
      · exact ⟨rfl, rfl⟩
      · rename_i hbounds
        split
        · exact ⟨rfl, rfl⟩
        · rename_i base hmap
          refine absurd ⟨ht, hsize, hheader, ?_, ?_, ?_⟩ (h t size headerSize)
          · exact fun h0 => hbounds (.inl h0)
          · exact not_lt.mp fun hlt => hbounds (.inr hlt)
          · rw [hmap]
            exact Option.some_ne_none _
    · exact ⟨rfl, rfl⟩

/-- `Load` with a mapping. -/
theorem load_mapped {size : Nat} (h : Maps mapper exec s t size headerSize) :
    ∃ m : Mapping, s.load mapper exec =
      ({ s with rawReads := [], writes := [], mappedSize := size }).loadMapped t m headerSize := by
  obtain ⟨base, hbase⟩ := Option.ne_none_iff_exists'.mp h.mapped
  refine ⟨⟨base.1, size, base.2.1, base.2.2⟩, ?_⟩
  have hbounds : ¬ (size = 0 ∨ 2 ^ 32 < size) := fun hor =>
    hor.elim h.size_ne (not_lt.mpr h.size_le)
  unfold load
  simp only [h.target_eq, h.size_eq, h.headerSize_eq, if_neg hbounds, hbase]

/-- **The copies of Load**: they stay inside the raw file and the mapping if and only if the header
and the sections fit, or `Load` does not get to them. -/
theorem load_inside_iff (mapper : MemoryMapper) (exec : Bool) (s : LoaderState) :
    (s.load mapper exec).2.CopiesInside ↔ s.CopiesFit mapper exec := by
  by_cases h : ∃ t size headerSize, Maps mapper exec s t size headerSize
  · obtain ⟨t, size, headerSize, hmaps⟩ := h
    obtain ⟨m, hload⟩ := load_mapped hmaps
    have hsize : size < addrSpace := lt_of_le_of_lt hmaps.size_le (by decide)
    rw [hload, loadMapped_inside hsize rfl rfl]
    constructor
    · intro hfit t' size' headerSize' ht hs hh _ _ _ hraw
      cases hmaps.target_eq.symm.trans ht
      cases hmaps.size_eq.symm.trans hs
      cases hmaps.headerSize_eq.symm.trans hh
      exact hfit hraw
    · exact fun hfit hraw => hfit t size headerSize hmaps.target_eq hmaps.size_eq
        hmaps.headerSize_eq hmaps.size_ne hmaps.size_le hmaps.mapped hraw
  · have hnone : ∀ t size headerSize, ¬ Maps mapper exec s t size headerSize :=
      fun t size headerSize hmaps => h ⟨t, size, headerSize, hmaps⟩
    obtain ⟨hreads, hwrites⟩ := load_early hnone
    constructor
    · exact fun _ t size headerSize h1 h2 h3 h4 h5 h6 _ =>
        absurd ⟨h1, h2, h3, h4, h5, h6⟩ (hnone t size headerSize)
    · intro _
      unfold CopiesInside
      rw [hreads, hwrites]
      exact ⟨fun r hr => (by cases hr), fun w hw => (by cases hw)⟩

/-! ## A header that is longer than the file -/

/-- A PE file of 1024 bytes whose header is said to be 4096 bytes long. -/
def shortFile : LoaderState where
  raw := [0x4D, 0x5A] ++ List.replicate 1022 0
  target := some ⟨.pe 4096 8192 [], 0x140000000, some .long64, [], fun _ _ => []⟩

/-- Memory that is mapped where it is asked for, when it fits there. -/
def mapAsked : MemoryMapper where
  map := fun size preferredBase _ =>
    if h : 0 < preferredBase ∧ preferredBase + size ≤ addrSpace then some ⟨preferredBase, h⟩
    else none

/-- The copy of the header reads behind the file. -/
theorem shortFile_not_inside : ¬ (shortFile.load mapAsked false).2.CopiesInside := by
  intro h
  exact absurd (h.1 (0, 4096) (by decide +kernel)) (by decide +kernel)

end LoaderState

end ReWizard
