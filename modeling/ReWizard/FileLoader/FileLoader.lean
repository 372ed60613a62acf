import ReWizard.Analysis.Module

/-!
# Loading a binary

`FileLoader::Load` on a binary as the parser reports it: the checks of the sizes, the copies of the
header and of the sections into the mapping, and the base relocations. The state keeps a log of the
bytes that a call of `Load` copies. Sizes and addresses are `size_t`: their sums wrap.
-/

namespace ReWizard

inductive FileLoaderStatus
  | success | emptyFile | invalidSize | fileOpenError | liefParserError | allocationError
  | sectionLoaderError | outOfBoundsError
  deriving DecidableEq, Repr

/-! ## The parsed binary -/

structure LiefSection where
  virtualAddress : Nat
  size : Nat

/-- What is read of the class of the format. -/
inductive LiefFormat
  | elf (headerSize virtualSize : Nat)
  | macho (magic sizeofCmds virtualSize : Nat)
  | pe (sizeofHeaders virtualSize : Nat) (relocations : List (Nat × List PeRelocationEntry))
  | other

inductive ZydisMachineMode
  | long64 | legacy32 | real16
  deriving DecidableEq, Repr

/-- `content` is `get_content_from_virtual_address`; `modes` is absent for modes that `ArchMap` does
not have. -/
structure LiefBinary where
  format : LiefFormat
  imagebase : Nat
  modes : Option ZydisMachineMode
  sections : List LiefSection
  content : Nat → Nat → List UInt8

/-- `GetSize`. -/
def LiefBinary.size? (t : LiefBinary) : Option Nat :=
  match t.format with
  | .elf _ virtualSize => some virtualSize
  | .macho _ _ virtualSize => some virtualSize
  | .pe _ virtualSize _ => some virtualSize
  | .other => none

/-- `GetHeaderSize`. -/
def LiefBinary.headerSize? (t : LiefBinary) : Option Nat :=
  match t.format with
  | .elf headerSize _ => some headerSize
  | .macho magic sizeofCmds _ =>
    some ((if magic = 0xFEEDFACF ∨ magic = 0xCFFAEDFE then 32 else 28) + sizeofCmds)
  | .pe sizeofHeaders _ _ => some sizeofHeaders
  | .other => none

/-! ## Memory -/

/-- A range of addresses that the operating system has mapped: not at the null address, and within
the address space. -/
structure Mapping where
  base : Nat
  size : Nat
  base_pos : 0 < base
  fits : base + size ≤ addrSpace

/-- `MemoryMapper::Map`: it may fail, or map the size somewhere. -/
structure MemoryMapper where
  map : (size preferredBase : Nat) → Bool → Option { base : Nat // 0 < base ∧ base + size ≤ addrSpace }

/-- `Zero`. -/
def zeroMemory (memory : Nat → UInt8) (ptr size : Nat) : Nat → UInt8 :=
  fun a => if ptr ≤ a ∧ a < ptr + size then 0 else memory a

/-- `memcpy` to `dest`. -/
def copyMemory (memory : Nat → UInt8) (dest : Nat) (bytes : List UInt8) : Nat → UInt8 :=
  fun a => bytes[(a + addrSpace - dest % addrSpace) % addrSpace]?.getD (memory a)

/-- A little-endian value of `n` bytes. -/
def loadLE (memory : Nat → UInt8) : Nat → Nat → Nat
  | _, 0 => 0
  | a, n + 1 => (memory a).toNat + 256 * loadLE memory (addrAdd a 1) n

/-- The little-endian bytes of a value. -/
def bytesLE : Nat → Nat → List UInt8
  | 0, _ => []
  | n + 1, v => UInt8.ofNat v :: bytesLE n (v / 256)

/-! ## Relocations -/

structure RelocationState where
  memory : Nat → UInt8
  /-- The address and the width of every value that is read and written back. -/
  fixups : List (Nat × Nat) := []

/-- Read the `width` bytes at `addr`, and write them back changed. -/
def RelocationState.fixup (s : RelocationState) (addr width : Nat) (f : Nat → Nat) :
    RelocationState where
  memory := copyMemory s.memory addr (bytesLE width (f (loadLE s.memory addr width)))
  fixups := s.fixups ++ [(addr, width)]

section

variable (m : Mapping)

/-- The address that an entry of the page at `pageRva` is about. -/
def relocationAddr (pageRva : Nat) (entry : PeRelocationEntry) : Nat :=
  addrAdd (m.base + pageRva) entry.position

/-- The one bounds check, made before the type is looked at. -/
def relocationPasses (addr : Nat) : Bool := decide (addrAdd addr 4 ≤ addrAdd m.base m.size)

/-- The pass of the inner loop. `delta` is the difference of the bases, as 64 bits. -/
def applyRelocation (delta pageRva : Nat) (s : RelocationState) (entry : PeRelocationEntry) :
    RelocationState :=
  let addr := relocationAddr m pageRva entry
  if relocationPasses m addr then
    match entry.type with
    | 3 => s.fixup addr 4 fun v => (v + delta) % 2 ^ 32
    | 10 => s.fixup addr 8 fun v => (v + delta) % 2 ^ 64
    | 1 => s.fixup addr 2 fun v => (v * 2 ^ 16 + delta) % 2 ^ 32 / 2 ^ 16
    | 2 => s.fixup addr 2 fun v => (v + delta) % 2 ^ 16
    | _ => s
  else s

/-- `ApplyRelocations`. -/
def applyRelocations (t : LiefBinary) (memory : Nat → UInt8) : RelocationState :=
  match t.format with
  | .pe _ _ relocations =>
    if m.base = t.imagebase then { memory }
    else
      let delta := (m.base + addrSpace - t.imagebase % addrSpace) % addrSpace
      relocations.foldl (fun s page => page.2.foldl (applyRelocation m delta page.1) s) { memory }
  | _ => { memory }

end

/-! ## Executable sections -/

structure PeSection where
  virtualAddress : UInt32
  virtualSize : UInt32
  characteristics : UInt32
  deriving DecidableEq, Repr

structure ElfSection where
  virtualAddress : UInt64
  size : UInt64
  flags : UInt64
  deriving DecidableEq, Repr

/-- The section headers, by format. -/
inductive SectionTable
  | pe (sections : List PeSection)
  | elf (sections : List ElfSection)
  | other

/-- The address and the size of each section that is marked as executable. -/
def SectionTable.executable : SectionTable → List (Nat × Nat)
  | .pe sections =>
    (sections.filter fun s => s.characteristics &&& 0x20000000 ≠ 0).map fun s =>
      (s.virtualAddress.toNat, s.virtualSize.toNat)
  | .elf sections =>
    (sections.filter fun s => s.flags &&& 0x4 ≠ 0).map fun s =>
      (s.virtualAddress.toNat, s.size.toNat)
  | .other => []

/-- The range of an executable section, when it passes the check. -/
def sectionRange? (m : Mapping) (virtualAddress size : Nat) : Option (Nat × Nat) :=
  let start := addrAdd m.base virtualAddress
  let stop := addrAdd start size
  if start < stop ∧ stop ≤ addrAdd m.base m.size then some (start, stop) else none

/-- `GetExecutableSections`. -/
def getExecutableSections (m : Mapping) (t : SectionTable) : List (Nat × Nat) :=
  t.executable.filterMap fun s => sectionRange? m s.1 s.2

/-- `IsExecutableAddress`. -/
def isExecutableAddress (ranges : List (Nat × Nat)) (addr : Nat) : Bool :=
  ranges.any fun r => decide (r.1 ≤ addr ∧ addr < r.2)

/-- `IsWithinMapping`, for `m_mappedPtr` and `m_mappedSize`. -/
def isWithinMapping (mappedPtr mappedSize addr : Nat) : Bool :=
  decide (mappedPtr ≤ addr ∧ addr < addrAdd mappedPtr mappedSize)

/-! ## Load -/

/-- The fields of a `FileLoader`, the memory of the process, the regions that its mapper has mapped,
and what the last `Load` copied: ranges read of the raw file, and ranges written from the start of
the mapping on, as offset and length. -/
structure LoaderState where
  raw : List UInt8
  target : Option LiefBinary
  mappedSize : Nat := 0
  mappedPtr : Option Nat := none
  /-- `m_mappedSpan`, which `Raw` gives out: the address and the length. -/
  mappedSpan : Nat × Nat := (0, 0)
  status : FileLoaderStatus := .success
  arch : Option ZydisMachineMode := none
  memory : Nat → UInt8 := fun _ => 0
  regions : List (Nat × Nat) := []
  rawReads : List (Nat × Nat) := []
  writes : List (Nat × Nat) := []

namespace LoaderState

/-- `Zero` on the mapping. -/
def zero (s : LoaderState) (base : Nat) : LoaderState :=
  { s with
    memory := zeroMemory s.memory base s.mappedSize
    writes := s.writes ++ [(0, s.mappedSize)] }

/-- The copy of the header. What lies behind the raw bytes is not defined. -/
def copyHeader (s : LoaderState) (base headerSize : Nat) : LoaderState :=
  { s with
    memory := copyMemory s.memory base ((List.range headerSize).map fun i => s.raw.getD i 0)
    rawReads := s.rawReads ++ [(0, headerSize)]
    writes := s.writes ++ [(0, headerSize)] }

/-- The copy of a section's content. -/
def copySection (s : LoaderState) (base offset : Nat) (data : List UInt8) : LoaderState :=
  { s with
    memory := copyMemory s.memory (base + offset) data
    writes := s.writes ++ [(offset, data.length)] }

/-- The loop of `LoadSections`: empty contents are passed over, and a content that does not pass the
check ends it. -/
def loadSections (content : Nat → Nat → List UInt8) (base : Nat) :
    List LiefSection → LoaderState → Bool × LoaderState
  | [], s => (true, s)
  | sec :: rest, s =>
    let data := content sec.virtualAddress sec.size
    if data = [] then loadSections content base rest s
    else if s.mappedSize < addrAdd sec.virtualAddress data.length then
      (false, { s with status := .outOfBoundsError })
    else loadSections content base rest (s.copySection base sec.virtualAddress data)

/-- `Load` from the copy of the header on. -/
def loadInto (s : LoaderState) (t : LiefBinary) (m : Mapping) (headerSize : Nat) :
    Bool × LoaderState :=
  match loadSections t.content m.base t.sections (s.copyHeader m.base headerSize) with
  | (false, s) =>
    (false, { s with
      regions := s.regions.erase (m.base, s.mappedSize)
      mappedPtr := none
      status := .sectionLoaderError })
  | (true, s) => (true, { s with memory := (applyRelocations m t s.memory).memory, arch := t.modes })

/-- `Load` once the memory is mapped. -/
def loadMapped (s : LoaderState) (t : LiefBinary) (m : Mapping) (headerSize : Nat) :
    Bool × LoaderState :=
  let s := { s with mappedPtr := some m.base, regions := s.regions ++ [(m.base, s.mappedSize)] }
  let s : LoaderState := { s.zero m.base with mappedSpan := (m.base, s.mappedSize) }
  if s.raw = [] then (false, { s with status := .invalidSize })
  else s.loadInto t m headerSize

/-- `Load`. -/
def load (mapper : MemoryMapper) (exec : Bool) (s : LoaderState) : Bool × LoaderState :=
  let s := { s with rawReads := [], writes := [] }
  match s.target with
  | none => (false, { s with status := .invalidSize })
  | some t =>
    match t.size?, t.headerSize? with
    | some size, some headerSize =>
      let s := { s with mappedSize := size }
      if size = 0 ∨ 2 ^ 32 < size then (false, { s with status := .invalidSize })
      else
        match mapper.map size t.imagebase exec with
        | none => (false, { s with mappedPtr := none, status := .allocationError })
        | some base => s.loadMapped t ⟨base.1, size, base.2.1, base.2.2⟩ headerSize
    | _, _ => (false, { s with status := .invalidSize })

end LoaderState

end ReWizard
