import ReWizard.Lib.History
import ReWizard.Analysis.AnalysisContext
import ReWizard.FileLoader.Proof.LoadedImage

/-!
# The lives of contexts

Contexts are created and destroyed in any order, and each has the memory that its loader mapped. A
fixed mapping replaces what is there, and the pages of two contexts may then be the same:

* `contexts_apart_iff`: all along a session, what is mapped is what was mapped before and the pages
  of the contexts, none of them twice, exactly when every mapping was made where nothing was mapped;
* `win32_contexts_apart`: with the mapper of Windows that is always so;
* `contexts_intact`: then every context has the bytes that its `Load` has left.
-/

namespace ReWizard

open History

/-! ## What Load does to the pointer -/

namespace LoaderState

variable {s : LoaderState}

theorem mapRequest?_eq_some {size preferredBase : Nat}
    (h : s.mapRequest? = some (size, preferredBase)) :
    ∃ t headerSize, s.target = some t ∧ t.size? = some size ∧ t.headerSize? = some headerSize ∧
      size ≠ 0 ∧ size ≤ 2 ^ 32 ∧ preferredBase = t.imagebase := by
  unfold mapRequest? at h
  split at h
  · cases h
  · rename_i t ht
    split at h
    · rename_i size' headerSize hsize hheader
      split at h
      · cases h
      · rename_i hbounds
        cases h
        exact ⟨t, headerSize, ht, hsize, hheader, fun h0 => hbounds (.inl h0),
          not_lt.mp fun hlt => hbounds (.inr hlt), rfl⟩
    · cases h

/-- A `Load` that does not ask for memory fails, and has no pointer if it had none. -/
theorem load_of_noRequest (mapper : MemoryMapper) (exec : Bool) (h : s.mapRequest? = none)
    (hptr : s.mappedPtr = none) :
    (s.load mapper exec).1 = false ∧ (s.load mapper exec).2.mappedPtr = none := by
  unfold mapRequest? at h
  unfold load
  cases ht : s.target with
  | none => exact ⟨rfl, hptr⟩
  | some t =>
    simp only [ht] at h ⊢
    cases hsize : t.size? with
    | none => exact ⟨rfl, hptr⟩
    | some size =>
      cases hheader : t.headerSize? with
      | none => exact ⟨rfl, hptr⟩
      | some headerSize =>
        simp only [hsize, hheader] at h ⊢
        by_cases hbounds : size = 0 ∨ 2 ^ 32 < size
        · rw [if_pos hbounds]
          exact ⟨rfl, hptr⟩
        · rw [if_neg hbounds] at h
          cases h

/-- What a request and the answer of the mapper come to. -/
theorem load_of_request (mapper : MemoryMapper) (exec : Bool) {size preferredBase : Nat}
    (h : s.mapRequest? = some (size, preferredBase)) :
    (mapper.map size preferredBase exec = none →
      (s.load mapper exec).1 = false ∧ (s.load mapper exec).2.mappedPtr = none) ∧
      ∀ base, mapper.map size preferredBase exec = some base → ∃ t headerSize,
        Maps mapper exec s t size headerSize ∧ preferredBase = t.imagebase := by
  obtain ⟨t, headerSize, ht, hsize, hheader, hpos, hle, rfl⟩ := mapRequest?_eq_some h
  constructor
  · intro hmap
    have hbounds : ¬ (size = 0 ∨ 2 ^ 32 < size) := fun hor => hor.elim hpos (not_lt.mpr hle)
    unfold load
    simp only [ht, hsize, hheader, if_neg hbounds, hmap]
    exact ⟨trivial, trivial⟩
  · intro base hmap
    refine ⟨t, headerSize, ⟨ht, hsize, hheader, hpos, hle, ?_⟩, rfl⟩
    rw [hmap]
    exact Option.some_ne_none _

/-- What the mapping has become: the pointer of a `Load` that succeeds, and at most of one that
fails. -/
theorem loadMapped_pointer (t : LiefBinary) (m : Mapping) (headerSize : Nat) :
    (s.loadMapped t m headerSize).2.mappedSize = s.mappedSize ∧
      ((s.loadMapped t m headerSize).2.mappedPtr = some m.base ∨
        (s.loadMapped t m headerSize).1 = false ∧
          (s.loadMapped t m headerSize).2.mappedPtr = none) := by
  unfold loadMapped
  dsimp only
  split
  · exact ⟨rfl, .inl rfl⟩
  · unfold loadInto
    generalize hs' : copyHeader _ _ _ = s'
    have hptr : s'.mappedPtr = some m.base ∧ s'.mappedSize = s.mappedSize := by
      rw [← hs']
      exact ⟨rfl, rfl⟩
    have hrest : _ ∧ (loadSections t.content m.base t.sections s').2.mappedSize = _ ∧ _ :=
      loadSections_rest t.sections s'
    have hloaded : (loadSections t.content m.base t.sections s').1 = true → _ :=
      loadSections_loaded t.sections s'
    generalize loadSections t.content m.base t.sections s' = r at hrest hloaded ⊢
    obtain ⟨b, last⟩ := r
    cases b with
    | false => exact ⟨hrest.2.1.trans hptr.2, .inr ⟨rfl, rfl⟩⟩
    | true =>
      obtain ⟨writes, hlast⟩ := hloaded rfl
      cases hlast
      exact ⟨hptr.2, .inl hptr.1⟩

end LoaderState

/-! ## What Create does to the memory -/

/-- Where the mapping of a `Create` is made, if it comes to that. -/
def createMapping? (S : SystemMapper) (parse : List UInt8 → Option LiefBinary)
    (mapped : Nat → Bool) (content : Option (List UInt8)) : Option (Nat × Nat) :=
  (FileLoader.create parse content).bind fun l => l.mapRequest?.bind fun q =>
    (S.map mapped q.1 q.2).map fun base => (base, q.1)

namespace ProcessMemory

variable {S : SystemMapper} {parse : List UInt8 → Option LiefBinary}

/-- The bytes are those that the `Load` of a file has left in new pages. -/
def LoadedInto (S : SystemMapper) (parse : List UInt8 → Option LiefBinary) (p : ProcessMemory)
    (content : Option (List UInt8)) (base size : Nat) (bytes : Nat → UInt8) : Prop :=
  ∃ l, FileLoader.create parse content = some l ∧
    bytes = (({ l with memory := (p.mapPages base size).bytes }).load (S.mapper p.mapped)
      false).2.memory

/-- What comes of a mapping: it stays with the new context, or is gone again. -/
inductive CreateOut (S : SystemMapper) (parse : List UInt8 → Option LiefBinary)
    (p : ProcessMemory) (content : Option (List UInt8)) :
    Option (Nat × Nat) → Option LoadedContext × ProcessMemory → Prop
  | refused : CreateOut S parse p content none (none, p)
  | undone {base size : Nat} {bytes : Nat → UInt8}
    (hbytes : LoadedInto S parse p content base size bytes) :
    CreateOut S parse p content (some (base, size))
      (none, ⟨((p.mapPages base size).unmapPages base size).mapped, bytes⟩)
  | created {base size : Nat} {x : LoadedContext} (hptr : x.loader.mappedPtr = some base)
    (hsize : x.loader.mappedSize = size)
    (hbytes : LoadedInto S parse p content base size x.loader.memory) :
    CreateOut S parse p content (some (base, size))
      (some x, ⟨(p.mapPages base size).mapped, x.loader.memory⟩)

theorem SystemMapper.mapper_map (S : SystemMapper) (mapped : Nat → Bool)
    (size preferredBase : Nat) (exec : Bool) :
    ((S.mapper mapped).map size preferredBase exec).map Subtype.val =
      S.map mapped size preferredBase := by
  unfold SystemMapper.mapper
  dsimp only
  split
  · rename_i h
    exact h.symm
  · rename_i base h
    exact h.symm

theorem create_mappedPtr {content : Option (List UInt8)} {l : LoaderState}
    (h : FileLoader.create parse content = some l) : l.mappedPtr = none := by
  unfold FileLoader.create at h
  dsimp only at h
  split at h
  · cases h
  · cases h
    unfold FileLoader.open
    split
    · rfl
    · split
      · rfl
      · split
        · rfl
        · rfl

theorem closeLoader_of_some {l : LoaderState} {base : Nat} (h : l.mappedPtr = some base)
    (p : ProcessMemory) : p.closeLoader l = p.unmapPages base l.mappedSize := by
  unfold closeLoader
  rw [h]

theorem closeLoader_of_none {l : LoaderState} (h : l.mappedPtr = none) (p : ProcessMemory) :
    p.closeLoader l = p := by
  unfold closeLoader
  rw [h]

/-- A `Load` whose mapping is made at `base`. -/
theorem load_at {l : LoaderState} {mapped : Nat → Bool} {size preferredBase base : Nat}
    (hrequest : l.mapRequest? = some (size, preferredBase))
    (hmap : S.map mapped size preferredBase = some base) :
    ∃ (t : LiefBinary) (m : Mapping) (headerSize : Nat), m.base = base ∧ m.size = size ∧
      LoaderState.Maps (S.mapper mapped) false l t size headerSize ∧
      l.load (S.mapper mapped) false =
        ({ l with rawReads := [], writes := [], mappedSize := size }).loadMapped t m headerSize := by
  have hbase := SystemMapper.mapper_map S mapped size preferredBase false
  rw [hmap] at hbase
  obtain ⟨base', hbase', heq⟩ := Option.map_eq_some_iff.mp hbase
  obtain ⟨t, headerSize, hmaps, rfl⟩ :=
    (LoaderState.load_of_request _ false hrequest).2 base' hbase'
  exact ⟨t, LoaderState.mappingAt base', headerSize, heq, rfl, hmaps,
    LoaderState.load_eq hmaps hbase'⟩

/-- `Create`, by where its mapping is made. -/
theorem createContext_out (S : SystemMapper) (parse : List UInt8 → Option LiefBinary)
    (target : String) (content : Option (List UInt8)) (p : ProcessMemory) :
    CreateOut S parse p content (createMapping? S parse p.mapped content)
      (p.createContext S parse target content) := by
  unfold createContext createMapping?
  cases hcreate : FileLoader.create parse content with
  | none => exact .refused
  | some l =>
    have hptr := create_mappedPtr hcreate
    dsimp only [Option.bind_some]
    unfold loadBinary
    cases hrequest : l.mapRequest? with
    | none =>
      have hload := LoaderState.load_of_noRequest (S.mapper p.mapped) false
        (s := { l with memory := p.bytes }) hrequest hptr
      dsimp only [Option.bind_none]
      generalize LoaderState.load (S.mapper p.mapped) false { l with memory := p.bytes } = r
        at hload ⊢
      obtain ⟨b, last⟩ := r
      obtain ⟨rfl, hlast⟩ := hload
      dsimp only
      rw [closeLoader_of_none hlast]
      exact .refused
    | some q =>
      obtain ⟨size, preferredBase⟩ := q
      dsimp only [Option.bind_some]
      cases hmap : S.map p.mapped size preferredBase with
      | none =>
        have hnone : (S.mapper p.mapped).map size preferredBase false = none := by
          have := SystemMapper.mapper_map S p.mapped size preferredBase false
          rw [hmap] at this
          exact Option.map_eq_none_iff.mp this
        have hload := (LoaderState.load_of_request _ false (s := { l with memory := p.bytes })
          hrequest).1 hnone
        dsimp only [Option.map_none]
        generalize LoaderState.load (S.mapper p.mapped) false { l with memory := p.bytes } = r
          at hload ⊢
        obtain ⟨b, last⟩ := r
        obtain ⟨rfl, hlast⟩ := hload
        dsimp only
        rw [closeLoader_of_none hlast]
        exact .refused
      | some base =>
        dsimp only [Option.map_some]
        obtain ⟨t, m, headerSize, rfl, rfl, -, hload⟩ := load_at (l := { l with
          memory := (p.mapPages base size).bytes }) hrequest hmap
        have hinto : LoadedInto S parse p content m.base m.size
            (({ l with memory := (p.mapPages m.base m.size).bytes }).load (S.mapper p.mapped)
              false).2.memory := ⟨l, hcreate, rfl⟩
        rw [hload] at hinto ⊢
        obtain ⟨hsize, hpointer⟩ := LoaderState.loadMapped_pointer t m headerSize
          (s := { l with
            memory := (p.mapPages m.base m.size).bytes
            rawReads := []
            writes := []
            mappedSize := m.size })
        generalize LoaderState.loadMapped _ t m headerSize = r at hsize hpointer hinto ⊢
        obtain ⟨b, last⟩ := r
        have hsize : last.mappedSize = m.size := hsize
        rcases hpointer with hlast | ⟨hfail, hlast⟩
        · -- the loader has the pages until it is destroyed
          have hlast : last.mappedPtr = some m.base := hlast
          have hsome : ¬ last.mappedPtr = none := by
            rw [hlast]
            exact Option.some_ne_none _
          cases b with
          | false =>
            dsimp only
            rw [if_neg hsome, closeLoader_of_some hlast, hsize]
            exact .undone hinto
          | true =>
            dsimp only
            rw [if_neg hsome]
            split
            · rw [closeLoader_of_some hlast, hsize]
              exact .undone hinto
            · exact .created hlast hsize hinto
        · have hfail : b = false := hfail
          have hlast : last.mappedPtr = none := hlast
          subst hfail
          dsimp only
          rw [if_pos hlast, closeLoader_of_none hlast]
          exact .undone hinto

/-- A call that makes its mapping, from the start. -/
theorem createMapping?_eq_some {mapped : Nat → Bool} {content : Option (List UInt8)}
    {base size : Nat} (h : createMapping? S parse mapped content = some (base, size)) :
    ∃ l preferredBase, FileLoader.create parse content = some l ∧
      l.mapRequest? = some (size, preferredBase) ∧ S.map mapped size preferredBase = some base := by
  obtain ⟨l, hcreate, h⟩ := Option.bind_eq_some_iff.mp h
  obtain ⟨⟨size', preferredBase⟩, hrequest, h⟩ := Option.bind_eq_some_iff.mp h
  obtain ⟨base', hmap, heq⟩ := Option.map_eq_some_iff.mp h
  cases heq
  exact ⟨l, preferredBase, hcreate, hrequest, hmap⟩

/-- The copies and the relocations of a `Create` fit. -/
def CreateFits (S : SystemMapper) (parse : List UInt8 → Option LiefBinary) (mapped : Nat → Bool)
    (content : Option (List UInt8)) : Prop :=
  ∀ l, FileLoader.create parse content = some l → l.CopiesFit (S.mapper mapped) false ∧
    ∀ t (m : Mapping), l.target = some t →
      createMapping? S parse mapped content = some (m.base, m.size) → RelocationsFit m t

/-- Outside of its pages a `Create` that fits writes nothing. -/
theorem loadedInto_outside {p : ProcessMemory} {content : Option (List UInt8)} {base size a : Nat}
    {bytes : Nat → UInt8} (h : LoadedInto S parse p content base size bytes)
    (hmapping : createMapping? S parse p.mapped content = some (base, size))
    (hfits : CreateFits S parse p.mapped content) (ha : a < addrSpace)
    (hout : inPages base size a = false) : bytes a = p.bytes a := by
  obtain ⟨l, hcreate, rfl⟩ := h
  obtain ⟨l', preferredBase, hcreate', hrequest, hmap⟩ := createMapping?_eq_some hmapping
  cases hcreate.symm.trans hcreate'
  obtain ⟨t, m, headerSize, rfl, rfl, hmaps, hload⟩ := load_at (l := { l with
    memory := (p.mapPages base size).bytes }) hrequest hmap
  obtain ⟨hcopies, hrelocations⟩ := hfits l hcreate
  rw [hload]
  have hcopiesFit : l.raw ≠ [] → headerSize ≤ m.size ∧
      LoaderState.SectionsFit t.content m.size t.sections := fun hraw =>
    (hcopies t m.size headerSize hmaps.target_eq hmaps.size_eq hmaps.headerSize_eq hmaps.size_ne
      hmaps.size_le hmaps.mapped hraw).2
  have hpage : ¬ (m.base ≤ a ∧ a < m.base + m.size) := fun hin => by
    have hle := le_wholePages m.size
    have hpages : inPages m.base m.size a = true := decide_eq_true ⟨hin.1, by omega⟩
    rw [hout] at hpages
    cases hpages
  refine (LoaderState.loadMapped_outside (s := { l with
    memory := (p.mapPages m.base m.size).bytes
    rawReads := []
    writes := []
    mappedSize := m.size }) rfl (lt_of_le_of_lt hmaps.size_le (by decide)) hcopiesFit
    (hrelocations t m hmaps.target_eq hmapping) ha hpage).trans ?_
  show (if inPages m.base m.size a then 0 else p.bytes a) = p.bytes a
  rw [hout]
  rfl

end ProcessMemory

/-! ## Who has which pages -/

/-- The address is in the pages of the context. -/
def LoadedContext.Holds (x : LoadedContext) (a : Nat) : Prop :=
  ∃ base, x.loader.mappedPtr = some base ∧ inPages base x.loader.mappedSize a = true

namespace ContextProcess

variable {ι : Type}

/-- What is mapped is what was mapped without contexts, and the pages of the contexts, and no page
belongs to two. -/
structure Owned (other : Nat → Bool) (s : ContextProcess ι) : Prop where
  mapped : ∀ a, s.memory.mapped a = true ↔
    other a = true ∨ ∃ e x, s.contexts e = some x ∧ x.Holds a
  others : ∀ e x a, s.contexts e = some x → x.Holds a → other a = false
  apart : ∀ e e' x x' a, s.contexts e = some x → s.contexts e' = some x' → x.Holds a → x'.Holds a →
    e = e'

/-- The call makes its mapping where nothing is mapped. -/
def MapsFree (S : SystemMapper) (parse : List UInt8 → Option LiefBinary) (s : ContextProcess ι) :
    ContextCall ι → Prop
  | .create _ _ content => ∀ base size,
    createMapping? S parse s.memory.mapped content = some (base, size) →
      ∀ a, inPages base size a = true → s.memory.mapped a = false
  | .destroy _ => True

variable {other : Nat → Bool} {s s' : ContextProcess ι}

/-- Only the contexts and what is mapped matter. -/
theorem Owned.congr (h : s.Owned other) (hcontexts : s'.contexts = s.contexts)
    (hmapped : ∀ a, s'.memory.mapped a = s.memory.mapped a) : s'.Owned other where
  mapped := fun a => by
    rw [hmapped, hcontexts]
    exact h.mapped a
  others := by
    rw [hcontexts]
    exact h.others
  apart := by
    rw [hcontexts]
    exact h.apart

/-- Pages that come and go again leave everything as it was, if nothing was there. -/
theorem Owned.undone_iff (h : s.Owned other) {base size : Nat}
    (hcontexts : s'.contexts = s.contexts)
    (hmapped : s'.memory.mapped = ((s.memory.mapPages base size).unmapPages base size).mapped) :
    s'.Owned other ↔ ∀ a, inPages base size a = true → s.memory.mapped a = false := by
  have hmapped : ∀ a, s'.memory.mapped a =
      ((s.memory.mapped a || inPages base size a) && !inPages base size a) := fun a =>
    congrFun hmapped a
  constructor
  · intro h' a ha
    have hgone : ¬ s'.memory.mapped a = true := by
      rw [hmapped, ha]
      simp
    rw [h'.mapped, hcontexts, ← h.mapped, Bool.not_eq_true] at hgone
    exact hgone
  · intro hfree
    refine h.congr hcontexts fun a => ?_
    rw [hmapped]
    cases ha : inPages base size a with
    | true =>
      rw [hfree a ha]
      rfl
    | false => simp

variable [DecidableEq ι]

/-- The pages of a new context belong to nobody else, if nothing was there. -/
theorem Owned.created_iff (h : s.Owned other) {e : ι} (he : s.contexts e = none)
    {x : LoadedContext} {base : Nat} (hptr : x.loader.mappedPtr = some base)
    (hcontexts : s'.contexts = fun e' => if e' = e then some x else s.contexts e')
    (hmapped : s'.memory.mapped = (s.memory.mapPages base x.loader.mappedSize).mapped) :
    s'.Owned other ↔
      ∀ a, inPages base x.loader.mappedSize a = true → s.memory.mapped a = false := by
  have hholds : ∀ a, x.Holds a ↔ inPages base x.loader.mappedSize a = true := fun a => by
    unfold LoadedContext.Holds
    rw [hptr]
    exact ⟨fun ⟨_, heq, ha⟩ => by cases heq; exact ha, fun ha => ⟨base, rfl, ha⟩⟩
  have hself : s'.contexts e = some x := by
    rw [hcontexts]
    exact if_pos rfl
  have hother : ∀ {e' x'}, s.contexts e' = some x' → e' ≠ e ∧ s'.contexts e' = some x' :=
    fun {e' x'} hx' => by
      have hne : e' ≠ e := fun heq => by
        rw [heq, he] at hx'
        cases hx'
      rw [hcontexts]
      exact ⟨hne, (if_neg hne).trans hx'⟩
  have hcases : ∀ {e' x'}, s'.contexts e' = some x' →
      (e' = e ∧ x' = x) ∨ s.contexts e' = some x' := fun {e' x'} hx' => by
    rw [hcontexts] at hx'
    dsimp only at hx'
    split at hx'
    · rename_i heq
      exact .inl ⟨heq, (Option.some.inj hx').symm⟩
    · exact .inr hx'
  constructor
  · intro h' a ha
    rw [← Bool.not_eq_true, h.mapped]
    rintro (hno | ⟨e', x', hx', ha'⟩)
    · rw [h'.others e x a hself ((hholds a).mpr ha)] at hno
      cases hno
    · obtain ⟨hne, hx'⟩ := hother hx'
      exact hne (h'.apart e' e x' x a hx' hself ha' ((hholds a).mpr ha))
  · intro hfree
    have hclash : ∀ {e' x' a}, s.contexts e' = some x' → x'.Holds a → ¬ x.Holds a :=
      fun {e' x' a} hx' ha' ha => by
        have hmap := (h.mapped a).mpr (.inr ⟨e', x', hx', ha'⟩)
        rw [hfree a ((hholds a).mp ha)] at hmap
        cases hmap
    refine ⟨fun a => ?_, fun e' x' a hx' ha' => ?_, fun e₁ e₂ x₁ x₂ a h₁ h₂ ha₁ ha₂ => ?_⟩
    · have hor : s'.memory.mapped a = true ↔
          s.memory.mapped a = true ∨ inPages base x.loader.mappedSize a = true := by
        rw [hmapped]
        exact Bool.or_eq_true_iff
      rw [hor, h.mapped]
      constructor
      · rintro ((hno | ⟨e', x', hx', ha'⟩) | ha)
        · exact .inl hno
        · exact .inr ⟨e', x', (hother hx').2, ha'⟩
        · exact .inr ⟨e, x, hself, (hholds a).mpr ha⟩
      · rintro (hno | ⟨e', x', hx', ha'⟩)
        · exact .inl (.inl hno)
        · rcases hcases hx' with ⟨rfl, rfl⟩ | hx'
          · exact .inr ((hholds a).mp ha')
          · exact .inl (.inr ⟨e', x', hx', ha'⟩)
    · rcases hcases hx' with ⟨rfl, rfl⟩ | hx'
      · have hmap := mt (h.mapped a).mpr (by
          rw [hfree a ((hholds a).mp ha')]
          exact Bool.false_ne_true)
        exact Bool.not_eq_true _ ▸ fun hno => hmap (.inl hno)
      · exact h.others e' x' a hx' ha'
    · rcases hcases h₁ with ⟨rfl, rfl⟩ | h₁
      · rcases hcases h₂ with ⟨rfl, rfl⟩ | h₂
        · rfl
        · exact absurd ha₁ (hclash h₂ ha₂)
      · rcases hcases h₂ with ⟨rfl, rfl⟩ | h₂
        · exact absurd ha₂ (hclash h₁ ha₁)
        · exact h.apart e₁ e₂ x₁ x₂ a h₁ h₂ ha₁ ha₂

/-- A context that is destroyed takes its pages along, and nothing else. -/
theorem Owned.destroyed (h : s.Owned other) {e : ι} {x : LoadedContext}
    (hx : s.contexts e = some x) :
    Owned other ⟨fun e' => if e' = e then none else s.contexts e',
      s.memory.closeLoader x.loader⟩ := by
  have hcases : ∀ {e' x'}, (if e' = e then none else s.contexts e') = some x' →
      e' ≠ e ∧ s.contexts e' = some x' := fun {e' x'} hx' => by
    split at hx'
    · cases hx'
    · rename_i hne
      exact ⟨hne, hx'⟩
  have hmapped : ∀ a, (s.memory.closeLoader x.loader).mapped a = true ↔
      s.memory.mapped a = true ∧ ¬ x.Holds a := fun a => by
    unfold LoadedContext.Holds
    cases hptr : x.loader.mappedPtr with
    | none =>
      rw [ProcessMemory.closeLoader_of_none hptr]
      exact ⟨fun ha => ⟨ha, fun ⟨_, heq, _⟩ => by cases heq⟩, And.left⟩
    | some base =>
      rw [ProcessMemory.closeLoader_of_some hptr]
      show (s.memory.mapped a && !inPages base x.loader.mappedSize a) = true ↔ _
      simp
  refine ⟨fun a => ?_, fun e' x' a hx' => ?_, fun e₁ e₂ x₁ x₂ a h₁ h₂ => ?_⟩
  · show (s.memory.closeLoader x.loader).mapped a = true ↔ _
    rw [hmapped, h.mapped]
    constructor
    · rintro ⟨hno | ⟨e', x', hx', ha'⟩, hnot⟩
      · exact .inl hno
      · have hne : e' ≠ e := fun heq => by
          rw [heq, hx] at hx'
          cases hx'
          exact hnot ha'
        exact .inr ⟨e', x', (if_neg hne).trans hx', ha'⟩
    · rintro (hno | ⟨e', x', hx', ha'⟩)
      · refine ⟨.inl hno, fun ha => ?_⟩
        rw [h.others e x a hx ha] at hno
        cases hno
      · obtain ⟨hne, hx'⟩ := hcases hx'
        exact ⟨.inr ⟨e', x', hx', ha'⟩, fun ha => hne (h.apart e' e x' x a hx' hx ha' ha)⟩
  · exact h.others e' x' a (hcases hx').2
  · exact h.apart e₁ e₂ x₁ x₂ a (hcases h₁).2 (hcases h₂).2

variable {S : SystemMapper} {parse : List UInt8 → Option LiefBinary}

theorem step_owned_iff (h : s.Owned other) {c : ContextCall ι} {r : Bool}
    (hs : s.step S parse c = some (r, s')) : s'.Owned other ↔ s.MapsFree S parse c := by
  cases c with
  | destroy e =>
    obtain ⟨x, hx, heq⟩ := Option.map_eq_some_iff.mp hs
    cases heq
    exact iff_of_true (h.destroyed hx) trivial
  | create e target content =>
    unfold step at hs
    dsimp only at hs
    split at hs
    · cases hs
    · rename_i he
      cases hs
      have hout := ProcessMemory.createContext_out S parse target content s.memory
      have hnone : (fun e' => if e' = e then none else s.contexts e') = s.contexts := by
        funext e'
        split
        · rename_i heq
          rw [heq, he]
        · rfl
      unfold MapsFree
      dsimp only
      generalize createMapping? S parse s.memory.mapped content = q at hout ⊢
      generalize s.memory.createContext S parse target content = r at hout ⊢
      cases hout with
      | refused => exact iff_of_true (h.congr hnone fun _ => rfl) fun _ _ hq => by cases hq
      | @undone base size bytes hbytes =>
        rw [h.undone_iff hnone rfl]
        exact ⟨fun hfree _ _ hq => by cases hq; exact hfree, fun hfree => hfree base size rfl⟩
      | @created base size x hptr hsize hbytes =>
        subst hsize
        rw [h.created_iff he hptr rfl rfl]
        exact ⟨fun hfree _ _ hq => by cases hq; exact hfree, fun hfree => hfree base _ rfl⟩

end ContextProcess

/-! ## Sessions -/

/-- A process without contexts. -/
def ContextProcess.start {ι : Type} (memory : ProcessMemory) : ContextProcess ι :=
  ⟨fun _ => none, memory⟩

theorem ContextProcess.start_owned {ι : Type} (memory : ProcessMemory) :
    (ContextProcess.start (ι := ι) memory).Owned memory.mapped where
  mapped := fun a => ⟨.inl, fun h => h.resolve_right fun ⟨_, _, hx, _⟩ => by cases hx⟩
  others := fun _ _ _ hx => by cases hx
  apart := fun _ _ _ _ _ hx => by cases hx

section

variable {ι : Type} {S : SystemMapper} {parse : List UInt8 → Option LiefBinary}
  {memory : ProcessMemory} {h : List (ContextCall ι × Bool)} {s : ContextProcess ι}

/-- Where the mapper of Windows maps, nothing is mapped. -/
theorem win32_mapsFree (K : Win32Kernel) (u : ContextProcess ι) (c : ContextCall ι) :
    u.MapsFree (win32MemoryMapper K) parse c := by
  cases c with
  | destroy e => trivial
  | create e target content =>
    intro base size hmap a ha
    obtain ⟨l, -, hmap⟩ := Option.bind_eq_some_iff.mp hmap
    obtain ⟨q, -, hmap⟩ := Option.bind_eq_some_iff.mp hmap
    obtain ⟨base', hbase, heq⟩ := Option.map_eq_some_iff.mp hmap
    cases heq
    unfold win32MemoryMapper at hbase
    dsimp only at hbase
    split at hbase
    · rename_i hpreferred
      cases hbase
      exact K.free hpreferred ha
    · exact K.free hbase ha

variable [DecidableEq ι]

/-- **Windows**: in every session with its mapper the contexts are apart. -/
theorem win32_contexts_apart {K : Win32Kernel}
    (hrun : Run (ContextProcess.step (win32MemoryMapper K) parse) (.start memory) h s) :
    s.Owned memory.mapped :=
  hrun.inv (fun _ => True) (ContextProcess.start_owned memory) (fun _ _ => trivial)
    fun u c _ _ hu _ hs => (ContextProcess.step_owned_iff hu hs).mpr (win32_mapsFree K u c)

/-! ## Bytes -/

/-- Every context has the bytes that its `Load` has left. -/
structure ContextProcess.Intact (s : ContextProcess ι) : Prop where
  fits : ∀ e x base, s.contexts e = some x → x.loader.mappedPtr = some base →
    base + wholePages x.loader.mappedSize ≤ addrSpace
  bytes : ∀ e x a, s.contexts e = some x → x.Holds a → s.memory.bytes a = x.loader.memory a

/-- The copies and relocations of the call fit. -/
def ContextProcess.LoadsInside (S : SystemMapper) (parse : List UInt8 → Option LiefBinary)
    (s : ContextProcess ι) : ContextCall ι → Prop
  | .create _ _ content => ProcessMemory.CreateFits S parse s.memory.mapped content
  | .destroy _ => True

/-- Contexts that stay, with their bytes. -/
theorem ContextProcess.Intact.stay {u u' : ContextProcess ι} (h : u.Intact) {e : ι}
    (hcontexts : u'.contexts = fun e' => if e' = e then none else u.contexts e')
    (hbytes : ∀ e' x' a, u.contexts e' = some x' → x'.Holds a →
      u'.memory.bytes a = x'.loader.memory a) : u'.Intact := by
  have hcases : ∀ {e' x'}, u'.contexts e' = some x' → u.contexts e' = some x' :=
    fun {e' x'} hx' => by
      rw [hcontexts] at hx'
      dsimp only at hx'
      split at hx'
      · cases hx'
      · exact hx'
  exact ⟨fun e' x' base hx' => h.fits e' x' base (hcases hx'),
    fun e' x' a hx' => hbytes e' x' a (hcases hx')⟩

theorem ContextProcess.step_intact {u u' : ContextProcess ι} {other : Nat → Bool}
    (howned : u.Owned other) (h : u.Intact) {c : ContextCall ι} {r : Bool}
    (hfree : u.MapsFree S parse c) (hinside : u.LoadsInside S parse c)
    (hs : u.step S parse c = some (r, u')) : u'.Intact := by
  cases c with
  | destroy e =>
    obtain ⟨x, -, heq⟩ := Option.map_eq_some_iff.mp hs
    cases heq
    have hbytes : (u.memory.closeLoader x.loader).bytes = u.memory.bytes := by
      unfold ProcessMemory.closeLoader
      split
      · rfl
      · rfl
    exact h.stay rfl fun e' x' a hx' => by
      rw [hbytes]
      exact h.bytes e' x' a hx'
  | create e target content =>
    unfold step at hs
    dsimp only at hs
    split at hs
    · cases hs
    · cases hs
      have hout := ProcessMemory.createContext_out S parse target content u.memory
      -- a byte of another context is mapped, and so not in the new pages
      have hkept : ∀ {base size : Nat} {bytes : Nat → UInt8},
          createMapping? S parse u.memory.mapped content = some (base, size) →
            ProcessMemory.LoadedInto S parse u.memory content base size bytes →
              ∀ e' x' a, u.contexts e' = some x' → x'.Holds a → bytes a = x'.loader.memory a := by
        intro base size bytes hmapping hbytes e' x' a hx' ha'
        obtain ⟨base', hptr', hin'⟩ := ha'
        have hmapped := (howned.mapped a).mpr (.inr ⟨e', x', hx', base', hptr', hin'⟩)
        have hlt : a < addrSpace := by
          have := h.fits e' x' base' hx' hptr'
          have := of_decide_eq_true hin'
          omega
        have houtside : inPages base size a = false := by
          rw [← Bool.not_eq_true]
          intro hin
          rw [hfree base size hmapping a hin] at hmapped
          cases hmapped
        exact (ProcessMemory.loadedInto_outside hbytes hmapping hinside hlt houtside).trans
          (h.bytes e' x' a hx' ⟨base', hptr', hin'⟩)
      generalize hq : createMapping? S parse u.memory.mapped content = q at hout hkept
      generalize u.memory.createContext S parse target content = r at hout ⊢
      cases hout with
      | refused => exact h.stay rfl h.bytes
      | @undone base size bytes hbytes => exact h.stay rfl (hkept rfl hbytes)
      | @created base size x hptr hsize hbytes =>
        refine ⟨fun e' x' base' hx' hptr' => ?_, fun e' x' a hx' ha' => ?_⟩
        · dsimp only at hx'
          split at hx'
          · cases hx'
            cases hptr.symm.trans hptr'
            obtain ⟨l, preferredBase, -, -, hmap⟩ := ProcessMemory.createMapping?_eq_some hq
            rw [hsize]
            exact (S.fits hmap).2
          · exact h.fits e' x' base' hx' hptr'
        · dsimp only at hx'
          split at hx'
          · cases hx'
            rfl
          · exact hkept rfl hbytes e' x' a hx' ha'

/-- **Contexts intact**: in every session whose mappings are made where nothing is mapped and whose
copies and relocations fit, every page of a context is mapped and has the bytes that the `Load` of
the context has left. -/
theorem contexts_intact (hrun : Run (ContextProcess.step S parse) (.start memory) h s)
    (hfree : AllClear (ContextProcess.step S parse) (.start memory) h
      (ContextProcess.MapsFree S parse))
    (hinside : AllClear (ContextProcess.step S parse) (.start memory) h
      (ContextProcess.LoadsInside S parse)) {e : ι} {x : LoadedContext}
    (hx : s.contexts e = some x) {a : Nat} (ha : x.Holds a) :
    s.memory.mapped a = true ∧ s.memory.bytes a = x.loader.memory a := by
  have hall : Always (ContextProcess.step S parse) (.start memory) h fun u =>
      u.Owned memory.mapped ∧ u.Intact := by
    refine Run.always (fun u c => u.MapsFree S parse c ∧ u.LoadsInside S parse c)
      ⟨ContextProcess.start_owned memory, fun _ _ _ hx => (by cases hx),
        fun _ _ _ hx => (by cases hx)⟩ (fun u c r u' hu hc hs => ?_) fun h₁ c r h₂ u heq hu =>
      ⟨hfree h₁ c r h₂ u heq hu, hinside h₁ c r h₂ u heq hu⟩
    exact ⟨(ContextProcess.step_owned_iff hu.1 hs).mpr hc.1,
      ContextProcess.step_intact hu.1 hu.2 hc.1 hc.2 hs⟩
  obtain ⟨howned, hintact⟩ := hall h [] s (List.append_nil h).symm hrun
  exact ⟨(howned.mapped a).mpr (.inr ⟨e, x, hx, ha⟩), hintact.bytes e x a hx ha⟩

end

/-! ## Two files with the same base -/

/-- A kernel that makes every fixed mapping that fits, and no other. -/
def fixedKernel : PosixKernel where
  fixed := fun _ size base => decide (0 < base ∧ base + wholePages size ≤ addrSpace)
  anywhere := fun _ _ => none
  fixed_fits := fun h => of_decide_eq_true h
  anywhere_fits := fun h => by cases h
  anywhere_free := fun h => by cases h

/-- A kernel that reserves the page that is asked for if it is free, and nothing else. -/
def freeKernel : Win32Kernel where
  virtualAlloc := fun mapped size address => address.bind fun base =>
    if (wholePages size = 0x1000 ∧ 0 < base ∧ base + 0x1000 ≤ addrSpace) ∧
        ((List.range 64).all fun i => (List.range 64).all fun j =>
          !mapped (base + (64 * i + j))) = true then some base
    else none
  fits := fun {mapped size address base} h => by
    obtain ⟨base', -, h⟩ := Option.bind_eq_some_iff.mp h
    split at h
    · rename_i hfits
      cases h
      exact ⟨hfits.1.2.1, hfits.1.1 ▸ hfits.1.2.2⟩
    · cases h
  free := fun {mapped size address base a} h ha => by
    obtain ⟨base', -, h⟩ := Option.bind_eq_some_iff.mp h
    split at h
    · rename_i hfits
      cases h
      obtain ⟨⟨hpage, -⟩, hfree⟩ := hfits
      have ha := of_decide_eq_true ha
      rw [hpage] at ha
      have hline := List.all_eq_true.mp hfree ((a - base) / 64) (List.mem_range.mpr (by omega))
      have := List.all_eq_true.mp hline ((a - base) % 64) (List.mem_range.mpr (by omega))
      rw [Nat.div_add_mod, Nat.add_sub_cancel' ha.1] at this
      simpa using this
    · cases h

/-- Every file is a header at `0x400000`. -/
def parseHeader (_ : List UInt8) : Option LiefBinary :=
  some ⟨.elf 4 0x1000, 0x400000, some .long64, [], fun _ _ => []⟩

/-- An ELF file of which only the magic number is left. -/
def elfMagic : List UInt8 := [0x7F, 0x45, 0x4C, 0x46]

/-- The same file, twice. -/
def sameBase : List (ContextCall Nat × Bool) :=
  [(.create 0 "first" (some elfMagic), true), (.create 1 "second" (some elfMagic), true)]

/-- A process in which nothing is mapped. -/
def emptyMemory : ProcessMemory := ⟨fun _ => false, fun _ => 0⟩

/-- Every file is a header and a section with `nop; ret`, at `0x400000` or, if it has a fifth byte,
at `0x500000`. -/
def parseCode (raw : List UInt8) : Option LiefBinary :=
  some ⟨.elf 4 0x1000, if raw.length = 4 then 0x400000 else 0x500000, some .long64, [⟨0x10, 2⟩],
    fun _ _ => [0x90, 0xC3]⟩

/-- Files that have the header fit. -/
theorem parseCode_fits (S : SystemMapper) (mapped : Nat → Bool) {content : Option (List UInt8)}
    (h : ∀ raw, content = some raw → 4 ≤ raw.length) :
    ProcessMemory.CreateFits S parseCode mapped content := by
  intro l hl
  cases content with
  | none => cases hl
  | some raw =>
    have hraw : raw ≠ [] := fun hnil => by
      have := h raw rfl
      rw [hnil] at this
      cases this
    have hopen : FileLoader.open parseCode (some raw) = { raw := raw, target := parseCode raw } := by
      unfold FileLoader.open
      dsimp only
      rw [if_neg hraw]
      rfl
    unfold FileLoader.create at hl
    rw [hopen] at hl
    cases hl
    refine ⟨fun t size headerSize ht hsize hheader _ _ _ _ => ?_, fun t m ht _ => ?_⟩
    · cases ht
      cases hsize
      cases hheader
      have hroom : 0x10 + [0x90, 0xC3].length < addrSpace := by decide
      exact ⟨h raw rfl, by decide, .inr ⟨hroom, trivial⟩⟩
    · cases ht
      intro header size relocations hformat
      cases hformat

/-- Two files are loaded, a third cannot be opened, and the first is closed. -/
def twoBases : List (ContextCall Nat) :=
  [.create 0 "first" (some elfMagic), .create 1 "second" (some (elfMagic ++ [1])),
    .create 2 "third" none, .destroy 0]

/-- What is left of the contexts on Windows, and a byte of the second one's code. -/
theorem twoBases_replay : ∃ s x,
    Run (ContextProcess.step (win32MemoryMapper freeKernel) parseCode) (.start emptyMemory)
      (twoBases.zip [true, true, false, false]) s ∧
    s.contexts 1 = some x ∧ x.Holds 0x500011 := by
  have hreplay : (replay (ContextProcess.step (win32MemoryMapper freeKernel) parseCode)
      (.start emptyMemory) twoBases).map (fun r => (r.1, (r.2.contexts 1).map fun x =>
        (x.loader.mappedPtr, x.loader.mappedSize))) =
      some ([true, true, false, false], some (some 0x500000, 0x1000)) := by
    decide +kernel
  obtain ⟨⟨replies, s⟩, hrun, heq⟩ := Option.map_eq_some_iff.mp hreplay
  obtain ⟨hreplies, hcontext⟩ := Prod.mk.inj heq
  obtain ⟨x, hx, hloader⟩ := Option.map_eq_some_iff.mp hcontext
  obtain ⟨hptr, hsize⟩ := Prod.mk.inj hloader
  cases hreplies
  refine ⟨s, x, .of_replay hrun, hx, 0x500000, hptr, ?_⟩
  rw [hsize]
  decide

theorem twoBases_apart : ∃ s,
    Run (ContextProcess.step (win32MemoryMapper freeKernel) parseCode) (.start emptyMemory)
      (twoBases.zip [true, true, false, false]) s ∧ s.Owned emptyMemory.mapped := by
  obtain ⟨s, -, hrun, -⟩ := twoBases_replay
  exact ⟨s, hrun, win32_contexts_apart hrun⟩

/-- The second context has its code after the first one is destroyed. -/
theorem twoBases_intact : ∃ s x,
    Run (ContextProcess.step (win32MemoryMapper freeKernel) parseCode) (.start emptyMemory)
      (twoBases.zip [true, true, false, false]) s ∧ s.contexts 1 = some x ∧
    s.memory.mapped 0x500011 = true ∧ s.memory.bytes 0x500011 = x.loader.memory 0x500011 := by
  obtain ⟨s, x, hrun, hx, hholds⟩ := twoBases_replay
  refine ⟨s, x, hrun, hx, contexts_intact hrun
    (fun h₁ c r h₂ u _ _ => win32_mapsFree freeKernel u c) (fun h₁ c r h₂ u heq _ => ?_) hx hholds⟩
  have hc : c ∈ twoBases := by
    have hmem : (c, r) ∈ twoBases.zip [true, true, false, false] := by
      rw [heq]
      exact List.mem_append_right _ List.mem_cons_self
    exact (List.of_mem_zip hmem).1
  have hfits : ∀ raw ∈ [elfMagic, elfMagic ++ [1]], 4 ≤ raw.length := by decide
  have hopens : ∀ content ∈ [some elfMagic, some (elfMagic ++ [1]), none],
      ProcessMemory.CreateFits (win32MemoryMapper freeKernel) parseCode u.memory.mapped content :=
    fun content hcontent => parseCode_fits _ _ fun raw hraw => hfits raw (by simpa [hraw] using hcontent)
  have hall : ∀ c ∈ twoBases, u.LoadsInside (win32MemoryMapper freeKernel) parseCode c := by
    simp only [twoBases, List.forall_mem_cons]
    exact ⟨hopens _ (by simp), hopens _ (by simp), hopens _ (by simp), trivial, by simp⟩
  exact hall c hc

end ReWizard
