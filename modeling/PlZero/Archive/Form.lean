import PlZero.Archive.Table
import PlZero.Text.Blank
import PlZero.Text.Line

/-! The file form of an archive: a line that names the form, and a line for each row with its fields
between spaces, the program in hexadecimal. -/

namespace PlZero.Archive

open PlZero.Text

/-- The first line of an archive file. -/
def formLine : String := "plc0 archive 1"

/-- A row on a line; a dot ends the digits of the program, which may be none. -/
def Row.render (row : Row) : String :=
  row.hash ++ " " ++ showInt row.version ++ " " ++ showNat row.instructions ++ " "
    ++ showInt row.created ++ " " ++ showNat row.hits ++ " " ++ Digest.hexText row.program ++ ".\n"

/-- The file form of a table. -/
def Table.render (table : Table) : String :=
  formLine ++ "\n" ++ String.join (table.map Row.render)

/-- The value of a lower-case hexadecimal digit. -/
def hexDigit? (digit : Char) : Option Nat :=
  if isDigit digit then some (digitValue digit)
  else if 'a' ≤ digit && digit ≤ 'f' then some (digit.toNat - 0x57)
  else none

/-- The bytes of hexadecimal digits up to a dot; `found` holds those before, the latest first. -/
def hexBytes? : List Char → Bytes → Option Bytes
  | ['.'], found => some found.reverse
  | high :: low :: rest, found =>
    match hexDigit? high, hexDigit? low with
    | some upper, some lower => hexBytes? rest ((16 * upper + lower).toUInt8 :: found)
    | _, _ => none
  | _, _ => none

/-- The row on a line. -/
def rowOfLine? (line : Bytes) : Option Row := do
  let words ← (fields (glyphs line)).mapM fun word => word.mapM Glyph.char?
  match words with
  | [hash, version, instructions, created, hits, program] => do
    some ⟨String.ofList hash, ← readInt? version, ← readNat? instructions, ← hexBytes? program [],
      ← readInt? created, ← readNat? hits⟩
  | _ => none

/-- The table of an archive file. -/
def Table.read? (text : Bytes) : Option Table :=
  match rawLines text with
  | first :: rows => if first = encode formLine then rows.mapM rowOfLine? else none
  | [] => none

end PlZero.Archive
