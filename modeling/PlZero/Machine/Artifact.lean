import PlZero.Cbor.Item
import PlZero.Machine.Assembly
import PlZero.Machine.Listing

/-! Artifacts: programs as files, in the text form or in the binary form. The binary form is a magic
word and the canonical CBOR map of the format version and the instructions; an instruction is the map
of its opcode and, unless it is zero, its operand. Reading the binary form takes any well-formed CBOR
with these fields: unknown keys are skipped, the first of two equal keys counts, and a null leaves a
field at zero. -/

namespace PlZero.Machine

open PlZero.Text PlZero.Cbor

namespace Artifact

/-- The bytes that every binary artifact starts with. -/
def magic : Bytes := [0x50, 0x4C, 0x43, 0x30]

/-- Why bytes are no artifact. -/
inductive DecodeError where
  | badMagic
  | malformed
  | newerVersion (version : Nat)
  | text (error : Assembly.ReadError)
  deriving DecidableEq, Repr

namespace DecodeError

def message : DecodeError → String
  | badMagic => "bytecode: invalid program magic"
  | malformed => "bytecode: unmarshal program"
  | newerVersion version =>
    "bytecode: program version " ++ showNat version ++ " is newer than supported version "
      ++ showNat formatVersion
  | text error => error.message

end DecodeError

/-- The CBOR map of an instruction. -/
def instructionBytes (instruction : Instruction) : Bytes :=
  let opcode := headBytes 0 1 ++ headBytes 0 instruction.opcode.toNat
  if instruction.operand = 0 then headBytes 5 1 ++ opcode
  else headBytes 5 2 ++ opcode ++ headBytes 0 2 ++ integerBytes instruction.operand.toInt

/-- The binary form of a program. -/
def binary (code : Code) : Bytes :=
  magic ++ headBytes 5 2 ++ headBytes 0 1 ++ headBytes 0 formatVersion ++ headBytes 0 2
    ++ headBytes 4 code.length ++ code.flatMap instructionBytes

/-- The tag that only says that the data is CBOR. -/
def selfDescription : Nat := 55799

def isText : Item → Bool
  | .text _ => true
  | _ => false

def isNumber : Item → Bool
  | .integer _ | .float => true
  | _ => false

/-- An item without its tags: big numbers become integers, dates must hold what dates hold, and other
tags say nothing. -/
def untag : Item → Option Item
  | .tag number content =>
    if number = selfDescription then untag content
    else
      match number with
      | 0 => if isText content then untag content else none
      | 1 => if isNumber content then untag content else none
      | 2 =>
        match content with
        | .bytes digits => some (.integer (BigEndian.number digits))
        | _ => none
      | 3 =>
        match content with
        | .bytes digits => some (.integer (-1 - BigEndian.number digits))
        | _ => none
      | _ => untag content
  | item => some item

/-- Null and undefined stand for a value that is not there. -/
def isAbsent : Item → Bool
  | .simple number => number == 22 || number == 23
  | _ => false

/-- The integer of an item, from `least` to `greatest`; simple values other than truth values count as
their numbers. -/
def integerIn (least greatest : Int) (item : Item) : Option Int := do
  let item ← untag item
  if isAbsent item then some 0
  else
    let value ←
      match item with
      | .integer value => some value
      | .simple number => if number = 20 ∨ number = 21 then none else some (number : Int)
      | _ => none
    if least ≤ value ∧ value ≤ greatest then some value else none

/-- The least integer that may be a key. -/
def leastKey : Int := -9223372036854775808

/-- The field that a key names: integers by their value, texts by their spelling, and other keys are
refused. -/
def fieldOf : Item → Option (Option Int)
  | .integer value => if leastKey ≤ value then some (some value) else none
  | .text chunks =>
    if chunks.all fun chunk => (chars? chunk).isSome then
      match chunks.flatten with
      | [0x31] => some (some 1)
      | [0x32] => some (some 2)
      | _ => some none
    else none
  | _ => none

/-- The fields of a map with their values, in order. -/
def fieldsOf (pairs : List (Item × Item)) : Option (List (Option Int × Item)) :=
  pairs.mapM fun (key, value) => (fieldOf key).map fun field => (field, value)

/-- The value of a field as `read` sees it, or `absent` when the map does not have the field. -/
def fieldValue {α : Type} (fields : List (Option Int × Item)) (field : Int) (absent : α)
    (read : Item → Option α) : Option α :=
  match fields.lookup (some field) with
  | some value => read value
  | none => some absent

/-- The instruction of an item. -/
def instructionOf (item : Item) : Option Instruction := do
  let item ← untag item
  if isAbsent item then some ⟨0, 0⟩
  else
    match item with
    | .map pairs => do
      let fields ← fieldsOf pairs
      let opcode ← fieldValue fields 1 0 (integerIn 0 255)
      let operand ← fieldValue fields 2 0 (integerIn (-2147483648) 2147483647)
      some ⟨opcode.toNat.toUInt8, Int32.ofInt operand⟩
    | _ => none

/-- The instructions of an item. -/
def codeOf (item : Item) : Option Code := do
  let item ← untag item
  if isAbsent item then some []
  else
    match item with
    | .array items => items.mapM instructionOf
    | _ => none

/-- The format version and the instructions of an item. -/
def envelopeOf (item : Item) : Option (Nat × Code) := do
  let item ← untag item
  if isAbsent item then some (0, [])
  else
    match item with
    | .map pairs => do
      let fields ← fieldsOf pairs
      let version ← fieldValue fields 1 0 (integerIn 0 65535)
      let code ← fieldValue fields 2 [] codeOf
      some (version.toNat, code)
    | _ => none

/-- Whether bytes start with the magic word. -/
def isBinary (bytes : Bytes) : Bool :=
  magic.isPrefixOf bytes

/-- The program of a binary artifact. -/
def readBinary (bytes : Bytes) : Except DecodeError Code :=
  if isBinary bytes then
    match (read? (bytes.drop magic.length)).bind envelopeOf with
    | none => .error .malformed
    | some (version, code) =>
      if formatVersion < version then .error (.newerVersion version) else .ok code
  else .error .badMagic

/-- The program of an artifact in either form. -/
def decode (bytes : Bytes) : Except DecodeError Code :=
  if isBinary bytes then readBinary bytes
  else
    match Assembly.read bytes with
    | .ok code => .ok code
    | .error error => .error (.text error)

end Artifact

end PlZero.Machine
