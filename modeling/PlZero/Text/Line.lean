import PlZero.Text.Glyph

/-! Lines of a text. A line ends at a line feed or at the end of the text, and an empty piece behind
the last line feed is no line. -/

namespace PlZero.Text

/-- The line feed. -/
def lineFeed : UInt8 := 0x0A

/-- The carriage return. -/
def carriageReturn : UInt8 := 0x0D

/-- Cuts a text at its line feeds; `line` is the piece being read and `found` the pieces before it,
both the latest first. -/
def piecesFrom : Bytes → Bytes → List Bytes → List Bytes
  | [], line, found => (line.reverse :: found).reverse
  | byte :: rest, line, found =>
    if byte == lineFeed then piecesFrom rest [] (line.reverse :: found)
    else piecesFrom rest (byte :: line) found

/-- The pieces of a text between its line feeds; there is always one more than there are line feeds. -/
def pieces (text : Bytes) : List Bytes :=
  piecesFrom text [] []

/-- A list without its last member if that is empty. -/
def dropLastEmpty (pieces : List Bytes) : List Bytes :=
  match pieces.getLast? with
  | some [] => pieces.dropLast
  | _ => pieces

/-- A line without the carriage return that ends it. -/
def dropReturn (line : Bytes) : Bytes :=
  match line.getLast? with
  | some byte => if byte == carriageReturn then line.dropLast else line
  | none => line

/-- The lines of a text, with their carriage returns. -/
def rawLines (text : Bytes) : List Bytes :=
  dropLastEmpty (pieces text)

end PlZero.Text
