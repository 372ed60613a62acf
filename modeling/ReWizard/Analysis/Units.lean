import ReWizard.Lib.Loop
import ReWizard.Lib.OrdMap
import Mathlib.Algebra.GroupWithZero.Nat
import Mathlib.Data.Prod.Lex
import Mathlib.Order.Nat

/-!
# Basic blocks and functions

`BasicBlock` and `Function` with the operations that change the block list: splitting a block at
an address (`BasicBlock.split`, `Function.getBasicBlockForAddress`), the splitting pass
`Function.normalizeBasicBlocks` with its restarts, and `Function.buildCFG`.

The code keeps blocks behind pointers and iterates over the vector that it extends; here a block is
known by its position in the list, which never changes once the block is in it.
-/

namespace ReWizard

/-- `std::hex` output. -/
def hex (n : Nat) : String := String.ofList (Nat.toDigits 16 n)

/-! ## Basic blocks -/

structure BasicBlock where
  name : String
  startAddress : Nat
  endAddress : Nat := 0
  lastInsnAddr : Nat := 0
  containsIndirectCalls : Bool := false
  containsIndirectJumps : Bool := false
  successors : List Nat := []
  predecessors : List Nat := []
  deriving DecidableEq, Repr

namespace BasicBlock

def create (start : Nat) : BasicBlock := { name := "loc_" ++ hex start, startAddress := start }

/-- `address` lies in the block's range. -/
def Contains (b : BasicBlock) (address : Nat) : Prop :=
  b.startAddress ≤ address ∧ address < b.endAddress

instance (b : BasicBlock) (address : Nat) : Decidable (b.Contains address) :=
  inferInstanceAs (Decidable (_ ∧ _))

def addSuccessor (b : BasicBlock) (address : Nat) : BasicBlock :=
  { b with successors := b.successors ++ [address] }

def addPredecessor (b : BasicBlock) (address : Nat) : BasicBlock :=
  { b with predecessors := b.predecessors ++ [address] }

def removeSuccessor (b : BasicBlock) (address : Nat) : BasicBlock :=
  { b with successors := b.successors.filter fun a => decide (a ≠ address) }

/-- The old block up to `address`, and the new block from there on. -/
def split (b : BasicBlock) (address : Nat) : BasicBlock × BasicBlock :=
  ({ b with endAddress := address, successors := [address] },
   { create address with
      endAddress := b.endAddress
      predecessors := [b.startAddress]
      successors := b.successors })

end BasicBlock

/-! ## The control-flow graph -/

/-- The graph over the blocks: one vertex a block, in list order, and directed edges, which may be
parallel. -/
structure CFGGraph where
  vertices : Nat
  edges : List (Nat × Nat)
  deriving DecidableEq, Repr

/-- The block that `GetBasicBlockForAddress` finds without splitting: the first that contains the
address. -/
def resolveBlock (blocks : List BasicBlock) (address : Nat) : Option Nat :=
  blocks.findIdx? fun b => decide (b.Contains address)

/-- State of the walk of `BuildCFG`: the edges so far, the blocks expanded and the queue. -/
structure CFGWalk where
  edges : List (Nat × Nat)
  visited : List Nat
  toVisit : List Nat

/-- One block of the queue: every successor adds an edge, and is queued unless it was expanded. -/
def cfgStep (blocks : List BasicBlock) (w : CFGWalk) : Loop.Out CFGWalk :=
  match w.toVisit with
  | [] => .done w
  | u :: rest =>
    let succs := match blocks[u]? with
      | none => []
      | some b => b.successors.filterMap (resolveBlock blocks)
    .next
      { edges := w.edges ++ succs.map fun v => (u, v)
        visited := u :: w.visited
        toVisit := rest ++ succs.filter fun v => decide (v ∉ w.visited) }

/-- A bound on the passes: a block can be queued again until it is expanded, so the queue may grow
by a factor each time. -/
def cfgFuel (blocks : List BasicBlock) : Nat :=
  ((blocks.map fun b => b.successors.length).sum + 1) ^ (2 * blocks.length) + 1

/-- `BuildCFG` for a function that starts at `start`. -/
def buildCFG (start : Nat) (blocks : List BasicBlock) : CFGGraph :=
  match resolveBlock blocks start with
  | none => ⟨blocks.length, []⟩
  | some entry =>
    ⟨blocks.length, (Loop.exec (cfgStep blocks) (cfgFuel blocks) ⟨[], [], [entry]⟩).edges⟩

/-! ## Functions -/

/-- `std::pair` of addresses with its lexicographic order. -/
abbrev AddrPair := Nat ×ₗ Nat

def addrPair (a b : Nat) : AddrPair := toLex (a, b)

theorem addrPair_inj {a b c d : Nat} : addrPair a b = addrPair c d ↔ a = c ∧ b = d := by
  unfold addrPair
  rw [toLex_inj, Prod.mk.injEq]

structure Function where
  name : String
  startAddress : Nat := 0
  endAddress : Nat := 0
  lastInsnAddr : Nat := 0
  basicBlocks : List BasicBlock := []
  cfgGraph : CFGGraph := ⟨0, []⟩
  callSites : OrdSet AddrPair := OrdSet.empty
  containsIndirectCalls : Bool := false
  containsIndirectJumps : Bool := false
  markedForHybridAnalysis : Bool := false
  hybridVerified : Bool := false
  hasOpaquePredicates : Bool := false
  isTrampoline : Bool := false
  opaquePredicateAddresses : OrdSet Nat := OrdSet.empty
  opaquePredicateResults : OrdMap Nat Bool := OrdMap.empty

namespace Function

def create (name : String) : Function := { name := name }

/-- `SetStart`: a function without a name is named after its start. -/
def setStart (f : Function) (start : Nat) : Function :=
  { f with
    startAddress := start
    name := if f.name = "" then "sub_" ++ hex start else f.name }

/-- `AddCallSite`: a resolved target replaces the placeholder of an unresolved one. -/
def addCallSite (f : Function) (callAddr targetAddr : Nat) : Function :=
  let rest := f.callSites.erase (addrPair callAddr 0)
  { f with callSites := rest.insert (addrPair callAddr targetAddr) }

theorem mem_addCallSite {f : Function} {a b c d : Nat} :
    addrPair a b ∈ (f.addCallSite c d).callSites ↔
      (a = c ∧ b = d) ∨ (addrPair a b ∈ f.callSites ∧ ¬ (a = c ∧ b = 0)) := by
  unfold addCallSite
  rw [OrdSet.mem_insert, OrdSet.mem_erase, addrPair_inj, Ne, addrPair_inj]

def addBasicBlock (f : Function) (b : BasicBlock) : Function :=
  { f with basicBlocks := f.basicBlocks ++ [b] }

end Function

/-! ## Splitting blocks

The splitting variant of `GetBasicBlockForAddress` looks for the first block that starts at the
address or has it strictly inside, and splits it in the second case. -/

/-- The first block that starts at `address` or has it strictly inside. -/
def findForSplit (blocks : List BasicBlock) (address : Nat) : Option Nat :=
  blocks.findIdx? fun b =>
    decide (address = b.startAddress ∨ (b.startAddress < address ∧ address < b.endAddress))

/-- The result of the splitting lookup: the block's position, the block list after it and whether
a block was split. -/
structure SplitResult where
  index : Option Nat
  blocks : List BasicBlock
  wasSplit : Bool

def getBasicBlockForAddress (blocks : List BasicBlock) (address : Nat) : SplitResult :=
  match findForSplit blocks address with
  | none => ⟨none, blocks, false⟩
  | some k =>
    match blocks[k]? with
    | none => ⟨none, blocks, false⟩
    | some b =>
      if address = b.startAddress then ⟨some k, blocks, false⟩
      else
        let (old, new) := b.split address
        ⟨some blocks.length, blocks.set k old ++ [new], true⟩

/-! ## Normalisation -/

/-- Every block start and every successor. -/
def collectEntries (blocks : List BasicBlock) : OrdSet Nat :=
  blocks.foldl (fun s b => b.successors.foldl OrdSet.insert (s.insert b.startAddress)) OrdSet.empty

/-- The inner loop over the entries for one block: the block list after the first split, if an
entry lies strictly inside the block. -/
def splitAtEntry (blocks : List BasicBlock) (b : BasicBlock) : List Nat → Option (List BasicBlock)
  | [] => none
  | entry :: rest =>
    if b.startAddress < entry ∧ entry < b.endAddress then
      let r := getBasicBlockForAddress blocks entry
      if r.wasSplit then some r.blocks else splitAtEntry blocks b rest
    else splitAtEntry blocks b rest

/-- The inner loop over the successors of one block: the block that a successor belongs to gets a
predecessor. The flag says that a block was split. -/
def linkSuccessors (start : Nat) : List BasicBlock → List Nat → List BasicBlock × Bool
  | blocks, [] => (blocks, false)
  | blocks, succ :: rest =>
    let r := getBasicBlockForAddress blocks succ
    match r.index with
    | none => linkSuccessors start blocks rest
    | some k =>
      let linked := r.blocks.modify k fun b => b.addPredecessor start
      if r.wasSplit then (linked, true) else linkSuccessors start linked rest

/-- State of the loop of `NormalizeBasicBlocks`: the blocks and the position of the next block. -/
structure NormState where
  blocks : List BasicBlock
  index : Nat

/-- The loop body for one block. A split starts the loop over the blocks again. -/
def normalizeStep (entries : List Nat) (s : NormState) : Loop.Out NormState :=
  match s.blocks[s.index]? with
  | none => .done s
  | some b =>
    match splitAtEntry s.blocks b entries with
    | some blocks => .next ⟨blocks, 0⟩
    | none =>
      match linkSuccessors b.startAddress s.blocks b.successors with
      | (blocks, true) => .next ⟨blocks, 0⟩
      | (blocks, false) => .next ⟨blocks, s.index + 1⟩

/-- A bound on the passes: each split makes one of the entries a block start, and between two
splits each block is visited at most once. -/
def normalizeFuel (blocks : List BasicBlock) (entries : List Nat) : Nat :=
  (blocks.length * entries.length + 1) * (blocks.length * (entries.length + 1) + 2)

def normalizeBlocks (blocks : List BasicBlock) : List BasicBlock :=
  let entries := (collectEntries blocks).toList
  (Loop.exec (normalizeStep entries) (normalizeFuel blocks entries) ⟨blocks, 0⟩).blocks

/-- `NormalizeBasicBlocks`. -/
def Function.normalizeBasicBlocks (f : Function) : Function :=
  let blocks := normalizeBlocks f.basicBlocks
  { f with basicBlocks := blocks, cfgGraph := buildCFG f.startAddress blocks }

end ReWizard
