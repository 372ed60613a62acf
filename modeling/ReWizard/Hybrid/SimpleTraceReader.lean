import ReWizard.Analysis.HybridAnalysis
import ReWizard.Lib.PositionIndex

/-!
# Reading a trace

`SimpleTraceReader`: the records of a trace from a JSON file, with an index of their positions by
pc. The JSON parser is not part of the repository: it is a parameter that gives the value in a
file, or none when it throws. What `Load` throws on its way through the entries is caught at its
end, so the entries before the bad one stay.
-/

namespace ReWizard

/-! ## JSON values -/

/-- `nlohmann::json`: the members of an object are in the order of its map. -/
inductive Json
  | null
  | boolean (b : Bool)
  | number
  | string (s : String)
  | array (elems : List Json)
  | object (members : List (String × Json))

/-- What stops `Load` in the middle of an entry. -/
inductive TraceError
  | typeError
  | invalidArgument
  | outOfRange
  deriving DecidableEq, Repr

namespace Json

/-- `contains` and `operator[]`: what is not an object contains nothing. -/
def member? (j : Json) (key : String) : Option Json :=
  match j with
  | .object members => members.lookup key
  | _ => none

/-- `get<std::string>`. -/
def getString : Json → Except TraceError String
  | .string s => .ok s
  | _ => .error .typeError

/-- `get<bool>`. -/
def getBool : Json → Except TraceError Bool
  | .boolean b => .ok b
  | _ => .error .typeError

end Json

/-! ## Numbers -/

/-- `std::isspace` in the "C" locale. -/
def isSpace (c : Char) : Bool :=
  c = ' ' || (decide (9 ≤ c.toNat) && decide (c.toNat ≤ 13))

/-- The value of a hexadecimal digit. -/
def hexDigit? (c : Char) : Option Nat :=
  if '0' ≤ c ∧ c ≤ '9' then some (c.toNat - '0'.toNat)
  else if 'a' ≤ c ∧ c ≤ 'f' then some (c.toNat - 'a'.toNat + 10)
  else if 'A' ≤ c ∧ c ≤ 'F' then some (c.toNat - 'A'.toNat + 10)
  else none

/-- The number that the digits at the front make, after those in `n`. -/
def takeHex (n : Nat) : List Char → Nat
  | [] => n
  | c :: rest =>
    match hexDigit? c with
    | none => n
    | some d => takeHex (16 * n + d) rest

/-- A sign: whether it is a minus, and what follows. -/
def takeSign : List Char → Bool × List Char
  | '-' :: rest => (true, rest)
  | '+' :: rest => (false, rest)
  | cs => (false, cs)

/-- The number at the front, if there is one. The digits may come after `0x`, which counts only in
front of a digit: the number is the 0 otherwise. -/
def takeNumber : List Char → Option Nat
  | [] => none
  | c :: rest => (hexDigit? c).map fun d =>
    match rest with
    | x :: c' :: rest' =>
      if c = '0' ∧ (x = 'x' ∨ x = 'X') ∧ (hexDigit? c').isSome then takeHex 0 (c' :: rest')
      else takeHex d rest
    | _ => takeHex d rest

/-- `std::stoull` in base 16: a minus sign negates modulo `2 ^ 64`. -/
def stoull (s : String) : Except TraceError Nat :=
  let (negative, digits) := takeSign (s.toList.dropWhile isSpace)
  match takeNumber digits with
  | none => .error .invalidArgument
  | some n =>
    if addrSpace ≤ n then .error .outOfRange
    else .ok (if negative then (addrSpace - n) % addrSpace else n)

example : stoull " -0x10" = .ok (2 ^ 64 - 16) := rfl

example : stoull "0xg" = .ok 0 := rfl

/-- A number in a JSON string. -/
def Json.getHex (j : Json) : Except TraceError Nat := j.getString >>= stoull

/-! ## Entries -/

/-- The register names that a trace may use. -/
def registerOfName : String → ZydisRegister
  | "RAX" => .gpr64 .rax
  | "EAX" => .gpr32 .rax
  | "RCX" => .gpr64 .rcx
  | "ECX" => .gpr32 .rcx
  | "RDX" => .gpr64 .rdx
  | "EDX" => .gpr32 .rdx
  | "RBX" => .gpr64 .rbx
  | "EBX" => .gpr32 .rbx
  | "RSP" => .gpr64 .rsp
  | "ESP" => .gpr32 .rsp
  | "RBP" => .gpr64 .rbp
  | "EBP" => .gpr32 .rbp
  | "RSI" => .gpr64 .rsi
  | "ESI" => .gpr32 .rsi
  | "RDI" => .gpr64 .rdi
  | "EDI" => .gpr32 .rdi
  | "R8" => .gpr64 .r8
  | "R8D" => .gpr32 .r8
  | "R9" => .gpr64 .r9
  | "R9D" => .gpr32 .r9
  | "R10" => .gpr64 .r10
  | "R10D" => .gpr32 .r10
  | "R11" => .gpr64 .r11
  | "R11D" => .gpr32 .r11
  | "R12" => .gpr64 .r12
  | "R12D" => .gpr32 .r12
  | "R13" => .gpr64 .r13
  | "R13D" => .gpr32 .r13
  | "R14" => .gpr64 .r14
  | "R14D" => .gpr32 .r14
  | "R15" => .gpr64 .r15
  | "R15D" => .gpr32 .r15
  | "RIP" => .rip
  | "EIP" => .eip
  | _ => .none

/-- One member of "registers": a name that is not known is skipped, but its value is read. -/
def readRegister (registers : ZydisRegister → Option Nat) (member : String × Json) :
    Except TraceError (ZydisRegister → Option Nat) := do
  let regVal ← member.2.getHex
  let reg := registerOfName member.1
  pure fun r => if reg ≠ .none ∧ r = reg then some regVal else registers r

/-- One entry of "memory". -/
def readMemoryAccess (memEntry : Json) : Except TraceError MemoryAccess := do
  let address ← match memEntry.member? "addr" with
    | none => pure 0
    | some addr => addr.getHex
  let value ← match memEntry.member? "val" with
    | none => pure 0
    | some val => val.getHex
  let isWrite ← match memEntry.member? "write" with
    | none => pure false
    | some write => write.getBool
  pure ⟨address, value, isWrite⟩

/-- The record of one entry of the file. -/
def readEntry (entry : Json) : Except TraceError TraceRecord := do
  let pc ← match entry.member? "pc" with
    | none => pure 0
    | some pc => pc.getHex
  let registers ← match entry.member? "registers" with
    | some (.object members) => members.foldlM readRegister fun _ => none
    | _ => pure fun _ => none
  let memoryAccesses ← match entry.member? "memory" with
    | some (.array elems) => elems.mapM readMemoryAccess
    | _ => pure []
  pure ⟨pc, registers, memoryAccesses⟩

/-! ## The reader -/

/-- The records, and their positions by pc. -/
structure SimpleTraceReader where
  records : List TraceRecord := []
  pcIndex : Nat → Option (List Nat) := fun _ => none

namespace SimpleTraceReader

/-- The end of the loop body: the record's position goes into the index, and then the record to the
end of the records. -/
def pushRecord (r : SimpleTraceReader) (rec : TraceRecord) : SimpleTraceReader :=
  { pcIndex := PositionIndex.file r.pcIndex rec.pc r.records.length
    records := r.records ++ [rec] }

/-- The loop over the entries: whether it came to the end, and the reader. -/
def loadEntries (r : SimpleTraceReader) : List Json → Bool × SimpleTraceReader
  | [] => (true, r)
  | entry :: rest =>
    match readEntry entry with
    | .error _ => (false, r)
    | .ok rec => (r.pushRecord rec).loadEntries rest

/-- `Load`, for a file with these bytes, if it can be opened. Only an array at the root replaces
the records that the reader has. -/
def load (parse : List UInt8 → Option Json) (r : SimpleTraceReader)
    (file : Option (List UInt8)) : Bool × SimpleTraceReader :=
  match file.bind parse with
  | some (.array entries) => loadEntries {} entries
  | _ => (false, r)

/-- `GetRecordsForPC`: a pointer to a record is its position. -/
def getRecordsForPC (r : SimpleTraceReader) (pc : Nat) : List Nat :=
  PositionIndex.bucket r.pcIndex pc

/-- The reader after the calls of `Load`, which each find a file or none. -/
def loadAll (parse : List UInt8 → Option Json) (files : List (Option (List UInt8))) :
    SimpleTraceReader :=
  files.foldl (fun r file => (r.load parse file).2) {}

end SimpleTraceReader

end ReWizard
