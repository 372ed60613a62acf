import ReWizard.Analysis.Module

/-!
# The DOT export

`AnalysisResult::ToDot`: a cluster for each function, with a line that declares a node for each
block and a line for each edge. A line of a cluster keeps its node names apart until it is printed.
-/

namespace ReWizard

/-- What `SerializeBasicBlock` writes. -/
structure BlockResult where
  start : Nat
  endAddr : Nat
  lastInsnAddr : Nat
  containsIndirectCalls : Bool
  containsIndirectJumps : Bool
  successors : List Nat
  predecessors : List Nat
  deriving DecidableEq, Repr

/-- The part of a serialized function that `ToDot` reads. -/
structure FunctionResult where
  name : String
  start : Nat
  basicBlocks : List BlockResult
  deriving DecidableEq, Repr

structure AnalysisResult where
  functions : List FunctionResult

def serializeBasicBlock (b : BasicBlock) : BlockResult :=
  ⟨b.startAddress, b.endAddress, b.lastInsnAddr, b.containsIndirectCalls, b.containsIndirectJumps,
    b.successors, b.predecessors⟩

def serializeFunction (f : Function) : FunctionResult :=
  ⟨f.name, f.startAddress, f.basicBlocks.map serializeBasicBlock⟩

/-- `FromContext`. -/
def AnalysisResult.fromContext (ctx : AnalysisContext) : AnalysisResult :=
  ⟨ctx.module.functions.map serializeFunction⟩

/-! ## Names -/

/-- What is left of a name: its letters and digits, and an underscore for every other byte. -/
def safeName (name : String) : String :=
  String.ofList (name.toList.flatMap fun c =>
    if c.isAlphanum ∨ c = '_' then [c] else List.replicate c.utf8Size '_')

namespace FunctionResult

variable (f : FunctionResult)

/-- The name of the node that is declared for the block that starts at `start`. -/
def nodeName (start : Nat) : String := safeName f.name ++ "_0x" ++ hex start

/-! ## Lines -/

inductive DotLine
  | node (name label : String)
  | edge (src dst : String) (red : Bool)
  deriving DecidableEq, Repr

def DotLine.print : DotLine → String
  | .node name label => "    \"" ++ name ++ "\" [label=\"" ++ label ++ "\"];\n"
  | .edge src dst true => "    \"" ++ src ++ "\" -> \"" ++ dst ++ "\" [color=red];\n"
  | .edge src dst false => "    \"" ++ src ++ "\" -> \"" ++ dst ++ "\";\n"

def nodeLine (b : BlockResult) : DotLine :=
  .node (f.nodeName b.start) ("0x" ++ hex b.start ++ " - 0x" ++ hex b.endAddr)

/-- The search for the target block: the first with the address in its range, its end included. -/
def targetBlock (succAddr : Nat) : Option BlockResult :=
  f.basicBlocks.find? fun b => decide (b.start ≤ succAddr ∧ succAddr ≤ b.endAddr)

/-- The name of the target node: `std::to_string` of the start is decimal. -/
def edgeTarget (succAddr : Nat) : String :=
  match f.targetBlock succAddr with
  | none => "0x" ++ hex succAddr
  | some b => safeName f.name ++ "_0x" ++ toString b.start

def edgeLine (b : BlockResult) (succAddr : Nat) : DotLine :=
  .edge (f.nodeName b.start) (f.edgeTarget succAddr) (f.targetBlock succAddr).isNone

def nodeLines : List DotLine := f.basicBlocks.map f.nodeLine

def edgeLines : List DotLine := f.basicBlocks.flatMap fun b => b.successors.map (f.edgeLine b)

/-- A cluster of `ToDot`. -/
def cluster : String :=
  "  subgraph cluster_" ++ safeName f.name ++ " \x7b\n" ++
  "    label=\"" ++ f.name ++ " (0x" ++ hex f.start ++ ")\";\n" ++
  "    style=filled;\n" ++
  "    color=lightgrey;\n" ++
  String.join ((f.nodeLines ++ f.edgeLines).map DotLine.print) ++
  "  \x7d\n\n"

end FunctionResult

def AnalysisResult.toDot (r : AnalysisResult) : String :=
  "digraph CFG \x7b\n" ++ "  rankdir=TB;\n" ++ "  node [shape=box];\n\n" ++
  String.join (r.functions.map FunctionResult.cluster) ++ "\x7d\n"

end ReWizard
