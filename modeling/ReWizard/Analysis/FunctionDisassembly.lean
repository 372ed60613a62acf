import ReWizard.Analysis.HybridAnalysis
import ReWizard.Analysis.SymbolTable

/-!
# The listing of a function

`GetDisassembly` goes through the blocks of a function from the first one on, always to the one with
the lowest start, and prints their instructions. The text of an instruction is that of the
formatter, which is not part of the repository and a parameter here. The lines are kept for the next
call.
-/

namespace ReWizard

/-! ## Symbols of call targets -/

/-- The address that a call is to, or names the slot of: 0 when it is not known. -/
def callTarget (addr : Nat) (insn : Instruction) : Nat :=
  match (insn.op 0).value with
  | .immediate imm => addrAdd (addrAdd addr insn.length) imm.toNat
  | .memory mem =>
    if mem.base = .rip then addrAdd (addrAdd addr insn.length) mem.disp.toNat
    else if mem.base = .none ∧ mem.index = .none then mem.disp.toNat
    else 0
  | _ => 0

/-- The symbol at the target of a call. -/
def callSymbol (t : SymbolTable) (target : Nat) : String :=
  match t.getImportByAddress target with
  | some imp => " ; " ++ imp.dll ++ "!" ++ imp.name
  | none =>
    match t.getExportByAddress target with
    | some exp => " ; " ++ exp.name
    | none => ""

/-! ## Lines -/

/-- `std::left` with `std::setw`. -/
def padRight (width : Nat) (s : String) : String :=
  s ++ String.ofList (List.replicate (width - s.length) ' ')

/-- The line of an instruction, with the text that the formatter has for it at its address. -/
def instructionLine (instructionToString : ExtendedInstruction → Nat → String) (t : SymbolTable)
    (insn : ExtendedInstruction) : String :=
  "\t\t" ++ padRight 64 (instructionToString insn insn.address) ++
    (if insn.isIndirect = true ∧ insn.indirectValue ≠ 0 then
      " --> 0x" ++ hex insn.indirectValue
    else "") ++
    (if insn.instruction.category = .call then
      let target := callTarget insn.address insn.instruction
      if target ≠ 0 then callSymbol t target else ""
    else "")

/-- The line over the instructions of a block. -/
def blockLabel (isTrampoline : Bool) (b : BasicBlock) : List String :=
  if b.startAddress ≠ b.endAddress ∧ isTrampoline = false then ["\t" ++ b.name ++ ":"] else []

/-- The line under the instructions of a block. -/
def blockEnd (isTrampoline : Bool) : List String := if isTrampoline then [] else ["\n"]

/-! ## The walk -/

/-- State of the walk of `GetDisassembly`: the blocks, which a lookup may split, the lines so far,
the block starts printed, and the blocks to visit, in the order of their starts. -/
structure DisassemblyWalk where
  blocks : List BasicBlock
  lines : List String
  visited : List Nat
  toVisit : OrdMap Nat Nat

/-- One successor of a block: its block is one to visit, unless one with that start is already. -/
def visitSuccessor (w : DisassemblyWalk) (next : Nat) : DisassemblyWalk :=
  let r := getBasicBlockForAddress w.blocks next
  let w := { w with blocks := r.blocks }
  match r.index with
  | none => w
  | some k =>
    match w.blocks[k]? with
    | none => w
    | some b =>
      if w.toVisit.contains b.startAddress then w
      else { w with toVisit := w.toVisit.insert b.startAddress k }

/-- The block with the lowest start of those to visit. -/
def disassemblyStep (instructionToString : ExtendedInstruction → Nat → String) (m : Module)
    (isTrampoline : Bool) (w : DisassemblyWalk) : Loop.Out DisassemblyWalk :=
  match w.toVisit.toList with
  | [] => .done w
  | (start, k) :: _ =>
    let w := { w with toVisit := w.toVisit.erase start }
    match w.blocks[k]? with
    | none => .next w
    | some bb =>
      if bb.startAddress ∈ w.visited then .next w
      else
        let lines := blockLabel isTrampoline bb ++
          (m.blockInsns bb).map (instructionLine instructionToString m.symbolTable)
        let w :=
          { w with
            visited := bb.startAddress :: w.visited
            lines := w.lines ++ lines }
        let w := bb.successors.foldl visitSuccessor w
        .next { w with lines := w.lines ++ blockEnd isTrampoline }

/-- The lines that a function keeps, and whether they are up to date. -/
structure DisassemblyCache where
  lines : List String := []
  isCached : Bool := false

/-- `GetDisassembly`: the lines that it leaves, which it gives back, and the function. -/
def getDisassembly (instructionToString : ExtendedInstruction → Nat → String) (m : Module)
    (f : Function) (cache : DisassemblyCache) (forceRecompute : Bool) :
    DisassemblyCache × Function :=
  if cache.isCached = false ∨ forceRecompute = true then
    match f.basicBlocks with
    | [] => ({ cache with lines := [] }, f)
    | front :: _ =>
      let w := Loop.exec (disassemblyStep instructionToString m f.isTrampoline)
        (indirectFuel f.basicBlocks)
        ⟨f.basicBlocks, ["start " ++ f.name ++ "\n"], [],
          OrdMap.empty.insert front.startAddress 0⟩
      (⟨w.lines ++ ["end " ++ f.name ++ "\n"], true⟩, { f with basicBlocks := w.blocks })
  else (cache, f)

end ReWizard
