import PlZero.Text.Blank
import PlZero.Text.Graphic
import PlZero.Text.Numeral

/-! Quoted text, as messages show it: between quotes, with graphic characters as they are and all
others escaped, so that a quoted text is one line and shows stray bytes. -/

namespace PlZero.Text

/-- The control characters that have an escape of one letter. -/
def letterEscape (value : Char) : Option Char :=
  match value.toNat with
  | 0x07 => some 'a'
  | 0x08 => some 'b'
  | 0x0C => some 'f'
  | 0x0A => some 'n'
  | 0x0D => some 'r'
  | 0x09 => some 't'
  | 0x0B => some 'v'
  | _ => none

/-- How a character is shown between quotes of the given kind. -/
def quoteChar (quote value : Char) : List Char :=
  if value == quote || value == '\\' then ['\\', value]
  else if isGraphic value then [value]
  else
    match letterEscape value with
    | some letter => ['\\', letter]
    | none =>
      let code := value.toNat
      if code < 0x80 then '\\' :: 'x' :: hexDigits 2 code
      else if code < 0x10000 then '\\' :: 'u' :: hexDigits 4 code
      else '\\' :: 'U' :: hexDigits 8 code

/-- How a glyph is shown between double quotes. -/
def quoteGlyph : Glyph → List Char
  | .char value => quoteChar '"' value
  | .stray byte => '\\' :: 'x' :: hexDigits 2 byte.toNat

/-- A text between double quotes. -/
def quoteGlyphs (text : List Glyph) : String :=
  String.ofList ('"' :: text.flatMap quoteGlyph ++ ['"'])

/-- A string between double quotes. -/
def quote (text : String) : String :=
  quoteGlyphs (ofChars text.toList)

/-- A character between single quotes. -/
def quoteLone (value : Char) : String :=
  String.ofList ('\'' :: quoteChar '\'' value ++ ['\''])

end PlZero.Text
