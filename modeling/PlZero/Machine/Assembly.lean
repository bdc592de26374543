import PlZero.Machine.Instruction
import PlZero.Text.Blank
import PlZero.Text.Line
import PlZero.Text.Quoted

/-! Assembly: the text form of a program, one instruction a line. Reading skips blank lines, splits the
others at blanks, and names the first line that is no instruction. -/

namespace PlZero.Machine

open PlZero.Text

namespace Assembly

/-- The text form of a program. -/
def render (code : Code) : String :=
  String.join (code.map fun instruction => instruction.render ++ "\n")

/-- Why a line is no instruction. -/
inductive Defect where
  | unknownMnemonic (word : List Glyph)
  | surplusOperand (operation : Operation)
  | operandCount (operation : Operation)
  | operandRange (operation : Operation) (word : List Glyph)
  deriving DecidableEq, Repr

namespace Defect

def describe : Defect → String
  | unknownMnemonic word => "unknown mnemonic " ++ quoteGlyphs word
  | surplusOperand operation => operation.mnemonic ++ " takes no operand"
  | operandCount operation => operation.mnemonic ++ " requires exactly one operand"
  | operandRange operation word =>
    operation.mnemonic ++ " operand " ++ quoteGlyphs word ++ " is not a 32-bit integer"

end Defect

/-- Why a text is no program: a line that is no instruction, or a line too long to be read. -/
inductive ReadError where
  | line (number : Nat) (defect : Defect)
  | lineTooLong
  deriving DecidableEq, Repr

namespace ReadError

def message : ReadError → String
  | line number defect => "line " ++ showNat number ++ ": " ++ defect.describe
  | lineTooLong => "reading program text: bufio.Scanner: token too long"

end ReadError

/-- The operation that a word names. -/
def operation? (word : List Glyph) : Option Operation := do
  let letters ← word.mapM Glyph.char?
  Operation.ofMnemonic? (String.ofList letters)

/-- The 32-bit integer that a word spells in decimal. -/
def operand? (word : List Glyph) : Option Int32 := do
  let value ← readInt? (← word.mapM Glyph.char?)
  if -2147483648 ≤ value ∧ value ≤ 2147483647 then some (Int32.ofInt value) else none

/-- The instruction that starts with the word `first`. -/
def instruction (first : List Glyph) (operands : List (List Glyph)) : Except Defect Instruction :=
  match operation? first with
  | none => .error (.unknownMnemonic first)
  | some operation =>
    if operation.hasOperand then
      match operands with
      | [word] =>
        match operand? word with
        | some value => .ok (.of operation value)
        | none => .error (.operandRange operation word)
      | _ => .error (.operandCount operation)
    else
      match operands with
      | [] => .ok (.of operation)
      | _ => .error (.surplusOperand operation)

/-- The instruction on a line; a blank line holds none. -/
def readLine (line : Bytes) : Except Defect (Option Instruction) :=
  match fields (glyphs (dropReturn line)) with
  | [] => .ok none
  | first :: operands => (instruction first operands).map some

/-- Lines of this many bytes are too long to be read. -/
def lineLimit : Nat := 65536

/-- Reads lines, the first of which has the given number; `found` holds the instructions before, the
latest first. -/
def readFrom (number : Nat) : List Bytes → List Instruction → Except ReadError Code
  | [], found => .ok found.reverse
  | line :: rest, found =>
    if lineLimit ≤ line.length then .error .lineTooLong
    else
      match readLine line with
      | .error defect => .error (.line number defect)
      | .ok none => readFrom (number + 1) rest found
      | .ok (some instruction) => readFrom (number + 1) rest (instruction :: found)

/-- The program of a text. -/
def read (text : Bytes) : Except ReadError Code :=
  readFrom 1 (rawLines text) []

end Assembly

end PlZero.Machine
