import PlZero.Text.Glyph
import PlZero.Text.Numeral

/-! Places in a source text. The scanner starts at offset 0, line 1, column 1 and moves over glyphs;
offsets and columns count bytes. Places given from outside may be any integers. -/

namespace PlZero.Source

open PlZero.Text

structure Position where
  offset : Int
  line : Int
  column : Int
  deriving DecidableEq, Repr

namespace Position

/-- The start of a text. -/
def start : Position := ⟨0, 1, 1⟩

/-- The place of no token at all. -/
def none : Position := ⟨0, 0, 0⟩

/-- The place after a glyph: a new line starts after a line feed. -/
def after (position : Position) (glyph : Glyph) : Position :=
  match glyph with
  | .char '\n' => ⟨position.offset + 1, position.line + 1, 1⟩
  | _ => ⟨position.offset + glyph.width, position.line, position.column + glyph.width⟩

/-- The place after a run of glyphs. -/
def advance (position : Position) (run : List Glyph) : Position :=
  run.foldl after position

/-- A place as `line:column`. -/
def render (position : Position) : String :=
  showInt position.line ++ ":" ++ showInt position.column

end Position

end PlZero.Source
