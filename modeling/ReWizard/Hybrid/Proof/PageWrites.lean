import ReWizard.Hybrid.BochsExecutor

/-!
# Pages of guest memory

`LoadBinary` cuts the data into pages from its first byte on, and not from the first byte of a page
of the guest. `loadBinary_paged_iff` says when every call stays in one page; the bytes get to their
places in any case.
-/

namespace ReWizard

namespace BochsExecutor

/-- Each byte of the data is written once and in order, to its place from `baseAddress` on, and each
call stays in one page. -/
structure WritesPaged (data : List UInt8) (baseAddress : Nat) (writes : List PageWrite) : Prop where
  stores : writes.flatMap PageWrite.stores = data.mapIdx fun i b => (addrAdd baseAddress i, b)
  inPage : ∀ w ∈ writes, w.addr % pageSize + w.bytes.length ≤ pageSize

/-- If `LoadBinary` reports success, its calls are as they should be. -/
def LoadPaged (coreInitialized : Bool) (data : List UInt8) (baseAddress : Nat) : Prop :=
  (loadBinary coreInitialized data baseAddress).1 = true →
    WritesPaged data baseAddress (loadBinary coreInitialized data baseAddress).2

/-- The data begin at a page, or end in the page in which they begin. -/
def FitsPages (data : List UInt8) (baseAddress : Nat) : Prop :=
  baseAddress % pageSize = 0 ∨ baseAddress % pageSize + data.length ≤ pageSize

theorem addrAdd_assoc (a b c : Nat) : addrAdd (addrAdd a b) c = addrAdd a (b + c) := by
  unfold addrAdd
  rw [Nat.mod_add_mod, Nat.add_assoc]

/-- A page divides the address space. -/
theorem addrAdd_mod_pageSize (a b : Nat) : addrAdd a b % pageSize = (a + b) % pageSize :=
  Nat.mod_mod_of_dvd _ (by decide)

/-- The calls from `offset` on write the data from there on. -/
theorem writePages_stores (data : List UInt8) (baseAddress offset : Nat) :
    (writePages data baseAddress offset).flatMap PageWrite.stores =
      (data.drop offset).mapIdx fun i b => (addrAdd baseAddress (offset + i), b) := by
  induction offset using writePages.induct data with
  | case1 offset hlt ih =>
    let chunk := min pageSize (data.length - offset)
    rw [writePages, if_pos hlt, List.flatMap_cons, ih]
    have hstores : PageWrite.stores ⟨addrAdd baseAddress offset, (data.drop offset).take chunk⟩ =
        ((data.drop offset).take chunk).mapIdx fun i b => (addrAdd baseAddress (offset + i), b) :=
      congrArg (fun f => List.mapIdx f ((data.drop offset).take chunk))
        (funext fun i => funext fun b => by rw [addrAdd_assoc])
    have hsplit := List.take_append_drop chunk (data.drop offset)
    conv =>
      rhs
      rw [← hsplit, List.mapIdx_append]
    refine congr (congrArg _ hstores) ?_
    by_cases hlast : data.length - offset ≤ pageSize
    · -- the last call
      have hnil : data.drop (offset + pageSize) = [] := List.drop_eq_nil_of_le (by omega)
      have hnil' : (data.drop offset).drop chunk = [] := List.drop_eq_nil_of_le (by
        rw [List.length_drop]
        omega)
      rw [hnil, hnil']
      rfl
    · have hchunk : chunk = pageSize := Nat.min_eq_left (by omega)
      have hlength : ((data.drop offset).take chunk).length = pageSize := by
        rw [List.length_take, List.length_drop, hchunk]
        omega
      rw [List.drop_drop, hlength, hchunk]
      refine congrArg (fun f => List.mapIdx f (data.drop (offset + pageSize)))
        (funext fun i => funext fun b => ?_)
      rw [Nat.add_assoc, Nat.add_comm i pageSize]
  | case2 offset hend =>
    rw [writePages, if_neg hend, List.drop_eq_nil_of_le (Nat.not_lt.mp hend)]
    rfl

/-- Every call begins a number of pages behind the first one, and has a page of data at most. -/
theorem writePages_bounds {data : List UInt8} {baseAddress : Nat} {w : PageWrite} (offset : Nat)
    (hoffset : offset % pageSize = 0) (hw : w ∈ writePages data baseAddress offset) :
    w.addr % pageSize = baseAddress % pageSize ∧ w.bytes.length ≤ pageSize ∧
      w.bytes.length ≤ data.length := by
  induction offset using writePages.induct data with
  | case1 offset hlt ih =>
    rw [writePages, if_pos hlt, List.mem_cons] at hw
    rcases hw with rfl | hw
    · refine ⟨?_, ?_, ?_⟩
      · show addrAdd baseAddress offset % pageSize = _
        rw [addrAdd_mod_pageSize, Nat.add_mod, hoffset, Nat.add_zero, Nat.mod_mod]
      · exact Nat.le_trans (List.length_take_le _ _) (Nat.min_le_left _ _)
      · exact Nat.le_trans (List.length_take_le _ _)
          (Nat.le_trans (Nat.min_le_right _ _) (Nat.sub_le _ _))
    · exact ih (by rw [Nat.add_mod_right, hoffset]) hw
  | case2 offset hend =>
    rw [writePages, if_neg hend] at hw
    cases hw

/-- The calls stay in one page each exactly when the data fit. -/
theorem writePages_inPage_iff (data : List UInt8) (baseAddress : Nat) (hdata : data ≠ []) :
    (∀ w ∈ writePages data baseAddress 0, w.addr % pageSize + w.bytes.length ≤ pageSize) ↔
      FitsPages data baseAddress := by
  have hpos : 0 < data.length := List.length_pos_iff.mpr hdata
  constructor
  · intro h
    -- the first call decides
    have hfirst := h ⟨addrAdd baseAddress 0, (data.drop 0).take (min pageSize (data.length - 0))⟩ (by
      rw [writePages, if_pos hpos]
      exact List.mem_cons_self)
    rw [addrAdd_mod_pageSize, Nat.add_zero, List.drop_zero, List.length_take] at hfirst
    unfold FitsPages
    omega
  · intro h w hw
    obtain ⟨haddr, hpage, hlength⟩ := writePages_bounds 0 (Nat.zero_mod pageSize) hw
    rw [haddr]
    rcases h with h | h
    · rw [h, Nat.zero_add]
      exact hpage
    · omega

/-- **Pages of the guest**: for all data and every base address, the calls of `LoadBinary` are as
they should be if and only if there are none, the base address is that of a page, or the data end
in the page of their first byte. -/
theorem loadBinary_paged_iff (coreInitialized : Bool) (data : List UInt8) (baseAddress : Nat) :
    LoadPaged coreInitialized data baseAddress ↔
      (coreInitialized = true → FitsPages data baseAddress) := by
  unfold LoadPaged loadBinary
  split
  · rename_i hnil
    refine ⟨fun _ _ => .inr ?_, fun _ h => (by cases h)⟩
    rw [hnil]
    exact Nat.le_of_lt (Nat.mod_lt baseAddress (by decide : 0 < pageSize))
  · rename_i hdata
    split
    · rename_i hcore
      exact ⟨fun _ h => absurd h (by simp [hcore]), fun _ h => (by cases h)⟩
    · rename_i hcore
      rw [Bool.not_eq_false] at hcore
      rw [← writePages_inPage_iff data baseAddress hdata]
      have hstores := writePages_stores data baseAddress 0
      simp only [List.drop_zero, Nat.zero_add] at hstores
      exact ⟨fun h _ => (h rfl).inPage, fun h _ => ⟨hstores, h hcore⟩⟩

/-! ## Two bytes at the end of a page -/

/-- The one call crosses into the next page. -/
theorem twoBytes_not_paged : ¬ LoadPaged true [0x90, 0x90] 0xfff := by
  intro h
  have hpage := (h rfl).inPage ⟨0xfff, [0x90, 0x90]⟩ (by
    show _ ∈ writePages [0x90, 0x90] 0xfff 0
    rw [writePages]
    exact List.mem_cons_self)
  exact absurd hpage (by decide)

end BochsExecutor

end ReWizard
