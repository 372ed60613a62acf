import ReWizard.FileLoader.FileLoader

/-!
# The memory of the process

Which addresses are mapped, what they hold, and how the two memory mappers ask the kernel for more.
The kernels are parameters. A mapping takes up whole pages.
-/

namespace ReWizard

/-- The length of the pages that a mapping of the size takes up. -/
def wholePages (size : Nat) : Nat := (size + 4095) / 4096 * 4096

theorem le_wholePages (size : Nat) : size ≤ wholePages size := by
  unfold wholePages
  omega

/-- The addresses of the pages of a mapping. -/
def inPages (base size a : Nat) : Bool := decide (base ≤ a ∧ a < base + wholePages size)

/-! ## Kernels -/

/-- `mmap`. A fixed mapping is made where it is asked for, whatever is mapped there; others are made
where nothing is mapped. The null page is never given out. -/
structure PosixKernel where
  fixed : (mapped : Nat → Bool) → (size base : Nat) → Bool
  anywhere : (mapped : Nat → Bool) → (size : Nat) → Option Nat
  fixed_fits : ∀ {mapped size base}, fixed mapped size base = true →
    0 < base ∧ base + wholePages size ≤ addrSpace
  anywhere_fits : ∀ {mapped size base}, anywhere mapped size = some base →
    0 < base ∧ base + wholePages size ≤ addrSpace
  anywhere_free : ∀ {mapped size base a}, anywhere mapped size = some base →
    inPages base size a = true → mapped a = false

/-- `VirtualAlloc`, at an address or at any: it reserves only what is free. -/
structure Win32Kernel where
  virtualAlloc : (mapped : Nat → Bool) → (size : Nat) → (address : Option Nat) → Option Nat
  fits : ∀ {mapped size address base}, virtualAlloc mapped size address = some base →
    0 < base ∧ base + wholePages size ≤ addrSpace
  free : ∀ {mapped size address base a}, virtualAlloc mapped size address = some base →
    inPages base size a = true → mapped a = false

/-- `Map`, for the addresses that are mapped at the time. -/
structure SystemMapper where
  map : (mapped : Nat → Bool) → (size preferredBase : Nat) → Option Nat
  fits : ∀ {mapped size preferredBase base}, map mapped size preferredBase = some base →
    0 < base ∧ base + wholePages size ≤ addrSpace

/-- `PosixMemoryMapper::Map`: at the preferred base first, else anywhere. -/
def posixMemoryMapper (K : PosixKernel) : SystemMapper where
  map := fun mapped size preferredBase =>
    if K.fixed mapped size preferredBase then some preferredBase else K.anywhere mapped size
  fits := fun {mapped size preferredBase base} h => by
    split at h
    · rename_i hfixed
      cases h
      exact K.fixed_fits hfixed
    · exact K.anywhere_fits h

/-- `Win32MemoryMapper::Map`. -/
def win32MemoryMapper (K : Win32Kernel) : SystemMapper where
  map := fun mapped size preferredBase =>
    match K.virtualAlloc mapped size (some preferredBase) with
    | some base => some base
    | none => K.virtualAlloc mapped size none
  fits := fun {mapped size preferredBase base} h => by
    split at h
    · rename_i base' hpreferred
      cases h
      exact K.fits hpreferred
    · exact K.fits h

/-- The mapper as `Load` sees it. Being executable is a matter of the protection only. -/
def SystemMapper.mapper (S : SystemMapper) (mapped : Nat → Bool) : MemoryMapper where
  map := fun size preferredBase _ =>
    match h : S.map mapped size preferredBase with
    | none => none
    | some base => some ⟨base, (S.fits h).1,
        (Nat.add_le_add_left (le_wholePages size) base).trans (S.fits h).2⟩

/-! ## Mapped memory -/

structure ProcessMemory where
  mapped : Nat → Bool
  bytes : Nat → UInt8

namespace ProcessMemory

/-- New pages, which replace what is mapped there. -/
def mapPages (p : ProcessMemory) (base size : Nat) : ProcessMemory where
  mapped := fun a => p.mapped a || inPages base size a
  bytes := fun a => if inPages base size a then 0 else p.bytes a

/-- `Unmap`: the pages are gone, whoever else had mapped them. -/
def unmapPages (p : ProcessMemory) (base size : Nat) : ProcessMemory where
  mapped := fun a => p.mapped a && !inPages base size a
  bytes := p.bytes

end ProcessMemory

end ReWizard
