import PlZero.Source.Position
import PlZero.Text.Line

/-! Places in a document as editors give them: lines and characters counted from zero in 32-bit
numbers, a character being a byte of the line. A cursor selects the word it stands in or touches. -/

namespace PlZero.Editor

open PlZero.Text PlZero.Source

structure Cursor where
  line : UInt32 := 0
  character : UInt32 := 0
  deriving DecidableEq, Repr

/-- A stretch of a document from one place to another. -/
structure Span where
  start : Cursor
  stop : Cursor
  deriving DecidableEq, Repr

/-- A byte of an ASCII letter or digit. -/
def isWordByte (byte : UInt8) : Bool :=
  let code := byte.toNat
  (0x61 ≤ code && code ≤ 0x7A) || (0x41 ≤ code && code ≤ 0x5A) || (0x30 ≤ code && code ≤ 0x39)

/-- A byte of ASCII white space. -/
def isSpaceByte (byte : UInt8) : Bool :=
  let code := byte.toNat
  code == 0x20 || (0x09 ≤ code && code ≤ 0x0D)

namespace Cursor

/-- The line that a cursor stands in, cut where it stands. -/
def halves? (text : Bytes) (cursor : Cursor) : Option (Bytes × Bytes) :=
  (pieces text)[cursor.line.toNat]?.map fun line =>
    (line.take cursor.character.toNat, line.drop cursor.character.toNat)

/-- The end of a line that is part of a word. -/
def wordEnd (line : Bytes) : Bytes :=
  (line.reverse.takeWhile isWordByte).reverse

/-- The part of the word at a cursor that stands before it. -/
def stem (text : Bytes) (cursor : Cursor) : Bytes :=
  match cursor.halves? text with
  | some (before, _) => wordEnd before
  | none => []

/-- The word at a cursor, empty if there is none. -/
def word (text : Bytes) (cursor : Cursor) : Bytes :=
  match cursor.halves? text with
  | some (before, after) => wordEnd before ++ after.takeWhile isWordByte
  | none => []

end Cursor

/-- How many bytes belong to the word, or to the run of signs, that starts at an offset. -/
def lexemeLength (text : Bytes) (offset : Nat) : Nat :=
  match text.drop offset with
  | [] => 0
  | first :: rest =>
    if isWordByte first then ((first :: rest).takeWhile isWordByte).length
    else
      ((first :: rest).takeWhile fun byte => !isWordByte byte && !isSpaceByte byte).length

/-- A number counted from one, counted from zero in 32 bits. -/
def fromZero (number : Int) : UInt32 :=
  (max (number - 1) 0).toNat.toUInt32

/-- The span of a lexeme of the given length at a position. -/
def Span.at (position : Position) (length : Int) : Span :=
  let line := fromZero position.line
  let character := fromZero position.column
  ⟨⟨line, character⟩, ⟨line, character + (length % 4294967296).toNat.toUInt32⟩⟩

end PlZero.Editor
