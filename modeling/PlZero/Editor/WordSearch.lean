import PlZero.Editor.Cursor

/-! Words searched byte by byte. From the place of a cursor one search goes back over its line and one goes
on, and each looks at one byte at a time by its index. There is no result if an index is outside the line. -/

namespace PlZero.Editor

open PlZero.Text

/-- The index to which letters and digits go back from an index. -/
def wordStart? (bytes : Bytes) : Nat → Option Nat
  | 0 => some 0
  | before + 1 => do
    let byte ← bytes[before]?
    if isWordByte byte then wordStart? bytes before else return before + 1

/-- The index up to which letters and digits go on from an index. -/
def wordStop? (bytes : Bytes) (index : Nat) : Option Nat :=
  if index < bytes.length then do
    let byte ← bytes[index]?
    if isWordByte byte then wordStop? bytes (index + 1) else return index
  else some index
  termination_by bytes.length - index

/-- The bytes from one index up to another. -/
def between? (bytes : Bytes) (start stop : Nat) : Option Bytes :=
  if start ≤ stop && stop ≤ bytes.length then some (bytes.extract start stop) else none

namespace Cursor

/-- Where a cursor stands in a line, behind its end at most. -/
def column (cursor : Cursor) (line : Bytes) : Nat :=
  min cursor.character.toNat line.length

/-- The part of the word at a cursor that stands before it, searched byte by byte. -/
def stem? (text : Bytes) (cursor : Cursor) : Option Bytes :=
  let lines := pieces text
  if lines.length ≤ cursor.line.toNat then some []
  else do
    let line ← lines[cursor.line.toNat]?
    let start ← wordStart? line (cursor.column line)
    between? line start (cursor.column line)

/-- The word at a cursor, searched byte by byte. -/
def word? (text : Bytes) (cursor : Cursor) : Option Bytes :=
  let lines := pieces text
  if lines.length ≤ cursor.line.toNat then some []
  else do
    let line ← lines[cursor.line.toNat]?
    let start ← wordStart? line (cursor.column line)
    let stop ← wordStop? line (cursor.column line)
    between? line start stop

end Cursor

end PlZero.Editor
