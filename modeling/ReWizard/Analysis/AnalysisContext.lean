import ReWizard.Memory.MemoryMapper

/-!
# Contexts

The constructor and the destructor of `FileLoader`, `AnalysisContext::Create` and the contexts of a
process. `AnalysisManager::Create` makes a context and keeps it. The parser of the files is a
parameter, and so is the mapper of the system.
-/

namespace ReWizard

/-- The constructor of `FileLoader`. The content is absent when the file cannot be opened. -/
def FileLoader.open (parse : List UInt8 → Option LiefBinary) : Option (List UInt8) → LoaderState
  | none => { raw := [], target := none, status := .fileOpenError }
  | some raw =>
    if raw = [] then { raw := [], target := none, status := .emptyFile }
    else
      match parse raw with
      | none => { raw := raw, target := none, status := .liefParserError }
      | some t => { raw := raw, target := some t }

/-- `FileLoader::Create`. -/
def FileLoader.create (parse : List UInt8 → Option LiefBinary) (content : Option (List UInt8)) :
    Option LoaderState :=
  let l := FileLoader.open parse content
  if l.status ≠ .success then none else some l

/-- The size and the base with which `Load` calls `Map`, if it does. -/
def LoaderState.mapRequest? (l : LoaderState) : Option (Nat × Nat) :=
  match l.target with
  | none => none
  | some t =>
    match t.size?, t.headerSize? with
    | some size, some _ => if size = 0 ∨ 2 ^ 32 < size then none else some (size, t.imagebase)
    | _, _ => none

/-- `binary->format() == UNKNOWN`. -/
def LiefBinary.isUnknown (t : LiefBinary) : Bool :=
  match t.format with
  | .other => true
  | _ => false

/-- A context, with its loader. The disassembler is shared by all contexts of the same mode. -/
structure LoadedContext where
  loader : LoaderState
  targetName : String
  context : AnalysisContext := {}

/-- The contexts of a process. -/
structure ContextProcess (ι : Type) where
  contexts : ι → Option LoadedContext
  memory : ProcessMemory

namespace ProcessMemory

/-- The destructor of `FileLoader`. -/
def closeLoader (p : ProcessMemory) (l : LoaderState) : ProcessMemory :=
  match l.mappedPtr with
  | some base => p.unmapPages base l.mappedSize
  | none => p

/-- `Load` in the memory of the process. A `Load` that maps and has no pointer in the end has called
`Unmap`. -/
def loadBinary (S : SystemMapper) (p : ProcessMemory) (l : LoaderState) :
    Bool × LoaderState × ProcessMemory :=
  let mapper := S.mapper p.mapped
  match l.mapRequest? with
  | none =>
    let r := ({ l with memory := p.bytes }).load mapper false
    (r.1, r.2, p)
  | some (size, preferredBase) =>
    match S.map p.mapped size preferredBase with
    | none =>
      let r := ({ l with memory := p.bytes }).load mapper false
      (r.1, r.2, p)
    | some base =>
      let p := p.mapPages base size
      let r := ({ l with memory := p.bytes }).load mapper false
      let p := { p with bytes := r.2.memory }
      (r.1, r.2, if r.2.mappedPtr = none then p.unmapPages base size else p)

/-- `AnalysisContext::Create`: the context, if there is one, and the memory. -/
def createContext (S : SystemMapper) (parse : List UInt8 → Option LiefBinary) (target : String)
    (content : Option (List UInt8)) (p : ProcessMemory) : Option LoadedContext × ProcessMemory :=
  match FileLoader.create parse content with
  | none => (none, p)
  | some l =>
    match p.loadBinary S l with
    | (false, l, p) => (none, p.closeLoader l)
    | (true, l, p) =>
      if (l.target.map LiefBinary.isUnknown).getD true then (none, p.closeLoader l)
      else (some { loader := l, targetName := target }, p)

end ProcessMemory

/-- A call in a process with several contexts. -/
inductive ContextCall (ι : Type)
  | create (e : ι) (target : String) (content : Option (List UInt8))
  | destroy (e : ι)

namespace ContextProcess

variable {ι : Type} [DecidableEq ι]

/-- A call that can be made, and whether it gives a context. -/
def step (S : SystemMapper) (parse : List UInt8 → Option LiefBinary) (s : ContextProcess ι) :
    ContextCall ι → Option (Bool × ContextProcess ι)
  | .create e target content =>
    match s.contexts e with
    | some _ => none
    | none =>
      let r := s.memory.createContext S parse target content
      some (r.1.isSome,
        ⟨fun e' => if e' = e then r.1 else s.contexts e', r.2⟩)
  | .destroy e => (s.contexts e).map fun x =>
    (false, ⟨fun e' => if e' = e then none else s.contexts e', s.memory.closeLoader x.loader⟩)

end ContextProcess

end ReWizard
