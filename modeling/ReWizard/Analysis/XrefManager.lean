import ReWizard.Lib.Multimap
import ReWizard.Analysis.Module

/-!
# The cross-reference manager

The operations of `XrefManager` besides `AddXref`, and its queries. `Indexed` is the invariant of
its three containers, and `QueriesAgree` what the queries then return.
-/

namespace ReWizard

open Multimap

namespace XrefManager

/-! ## Operations -/

/-- `RemoveXref`: in a bucket, only the other end and the type are compared. -/
def removeXref (m : XrefManager) (src dst : Nat) (type : String) : XrefManager :=
  let x : Xref := ⟨src, dst, type⟩
  if x ∈ m.all then
    { all := m.all.erase x
      byFrom := eraseFirst m.byFrom src fun y => decide (y.dst = dst ∧ y.type = type)
      byTo := eraseFirst m.byTo dst fun y => decide (y.src = src ∧ y.type = type) }
  else m

def clear (_ : XrefManager) : XrefManager := {}

def getXrefsTo (m : XrefManager) (address : Nat) : List Xref := equalRange m.byTo address

def getXrefsFrom (m : XrefManager) (address : Nat) : List Xref := equalRange m.byFrom address

/-- The elements of a bucket that have the type. -/
def ofType (bucket : List Xref) (type : String) : List Xref :=
  bucket.filter fun x => decide (x.type = type)

def getCallsTo (m : XrefManager) (address : Nat) : List Xref :=
  ofType (equalRange m.byTo address) "call"

def getCallsFrom (m : XrefManager) (address : Nat) : List Xref :=
  ofType (equalRange m.byFrom address) "call"

def getJumpsTo (m : XrefManager) (address : Nat) : List Xref :=
  ofType (equalRange m.byTo address) "jump"

def getJumpsFrom (m : XrefManager) (address : Nat) : List Xref :=
  ofType (equalRange m.byFrom address) "jump"

def getDataRefsTo (m : XrefManager) (address : Nat) : List Xref :=
  ofType (equalRange m.byTo address) "data"

def getXrefCountTo (m : XrefManager) (address : Nat) : Nat :=
  m.byTo.countP fun e => decide (e.1 = address)

def getXrefCountFrom (m : XrefManager) (address : Nat) : Nat :=
  m.byFrom.countP fun e => decide (e.1 = address)

def hasXrefsTo (m : XrefManager) (address : Nat) : Bool :=
  (m.byTo.find? fun e => decide (e.1 = address)).isSome

def hasXrefsFrom (m : XrefManager) (address : Nat) : Bool :=
  (m.byFrom.find? fun e => decide (e.1 = address)).isSome

/-! ## The index invariant -/

/-- `all` has no repetition, and the two multimaps hold each of its elements once, under its source
and under its destination. -/
structure Indexed (m : XrefManager) : Prop where
  nodup : m.all.Nodup
  byFrom : Indexes Xref.src m.byFrom m.all
  byTo : Indexes Xref.dst m.byTo m.all

variable {m : XrefManager}

theorem indexed_empty : Indexed {} := ⟨List.nodup_nil, Indexes.nil, Indexes.nil⟩

theorem mem_addXref {src dst : Nat} {type : String} {x : Xref} :
    x ∈ (m.addXref src dst type).all ↔ x = ⟨src, dst, type⟩ ∨ x ∈ m.all := by
  dsimp only [addXref]
  split
  · rename_i h
    exact ⟨.inr, fun hx => hx.elim (fun he => he ▸ h) id⟩
  · rw [List.mem_append, List.mem_singleton]
    exact or_comm

theorem Indexed.addXref (h : m.Indexed) (src dst : Nat) (type : String) :
    (m.addXref src dst type).Indexed := by
  dsimp only [XrefManager.addXref]
  split
  · exact h
  · rename_i hnew
    exact ⟨List.nodup_append_comm.mp (List.nodup_cons.mpr ⟨hnew, h.nodup⟩),
      h.byFrom.concat ⟨src, dst, type⟩, h.byTo.concat ⟨src, dst, type⟩⟩

theorem Indexed.removeXref (h : m.Indexed) (src dst : Nat) (type : String) :
    (m.removeXref src dst type).Indexed := by
  dsimp only [XrefManager.removeXref]
  split
  · have hfrom : ∀ y ∈ m.all, y.src = src →
        (decide (y.dst = dst ∧ y.type = type) = true ↔ y = ⟨src, dst, type⟩) := by
      rintro ⟨s, d, t⟩ - rfl
      simp
    have hto : ∀ y ∈ m.all, y.dst = dst →
        (decide (y.src = src ∧ y.type = type) = true ↔ y = ⟨src, dst, type⟩) := by
      rintro ⟨s, d, t⟩ - rfl
      simp
    exact ⟨h.nodup.erase _, Indexes.eraseFirst h.byFrom (v := ⟨src, dst, type⟩) hfrom,
      Indexes.eraseFirst h.byTo (v := ⟨src, dst, type⟩) hto⟩
  · exact h

theorem mem_removeXref (h : m.Indexed) {src dst : Nat} {type : String} {x : Xref} :
    x ∈ (m.removeXref src dst type).all ↔ x ∈ m.all ∧ x ≠ ⟨src, dst, type⟩ := by
  dsimp only [removeXref]
  split
  · exact (h.nodup.mem_erase_iff).trans and_comm
  · rename_i hnot
    exact ⟨fun hx => ⟨hx, fun he => hnot (he ▸ hx)⟩, And.left⟩

/-! ## The queries -/

/-- At one end: the bucket holds the cross-references with that end, each once, and so do the count
and the test. -/
structure BucketAgrees (key : Xref → Nat) (all : List Xref) (address : Nat) (bucket : List Xref)
    (count : Nat) (has : Bool) : Prop where
  nodup : bucket.Nodup
  mem : ∀ x, x ∈ bucket ↔ x ∈ all ∧ key x = address
  count : count = bucket.length
  has : has = true ↔ bucket ≠ []

/-- The answers of all queries about an address. -/
structure QueriesAgree (m : XrefManager) (a : Nat) : Prop where
  xrefsTo : BucketAgrees Xref.dst m.all a (m.getXrefsTo a) (m.getXrefCountTo a) (m.hasXrefsTo a)
  xrefsFrom :
    BucketAgrees Xref.src m.all a (m.getXrefsFrom a) (m.getXrefCountFrom a) (m.hasXrefsFrom a)
  callsTo : m.getCallsTo a = (m.getXrefsTo a).filter fun x => decide (x.type = "call")
  callsFrom : m.getCallsFrom a = (m.getXrefsFrom a).filter fun x => decide (x.type = "call")
  jumpsTo : m.getJumpsTo a = (m.getXrefsTo a).filter fun x => decide (x.type = "jump")
  jumpsFrom : m.getJumpsFrom a = (m.getXrefsFrom a).filter fun x => decide (x.type = "jump")
  dataRefsTo : m.getDataRefsTo a = (m.getXrefsTo a).filter fun x => decide (x.type = "data")

theorem bucketAgrees {key : Xref → Nat} {index : List (Nat × Xref)} {all : List Xref}
    (hnd : all.Nodup) (h : Indexes key index all) (a : Nat) :
    BucketAgrees key all a (equalRange index a) (index.countP fun e => decide (e.1 = a))
      (index.find? fun e => decide (e.1 = a)).isSome := by
  have hperm := h.equalRange a
  refine ⟨hperm.nodup_iff.mpr (hnd.filter _), fun x => ?_, ?_, ?_⟩
  · rw [hperm.mem_iff, List.mem_filter, decide_eq_true_eq]
  · rw [equalRange, List.length_map, List.countP_eq_length_filter]
  · rw [List.find?_isSome, equalRange, ne_eq, List.map_eq_nil_iff, List.filter_eq_nil_iff]
    push Not
    rfl

/-- The queries rest on the index invariant. -/
theorem Indexed.queriesAgree (h : m.Indexed) (a : Nat) : m.QueriesAgree a where
  xrefsTo := bucketAgrees h.nodup h.byTo a
  xrefsFrom := bucketAgrees h.nodup h.byFrom a
  callsTo := rfl
  callsFrom := rfl
  jumpsTo := rfl
  jumpsFrom := rfl
  dataRefsTo := rfl

end XrefManager

end ReWizard
