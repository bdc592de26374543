import PlZero.Text.Glyph

/-! White space: the characters with the Unicode property `White_Space`. A stray byte is never
blank. Trimming and splitting at blanks work on glyphs. -/

namespace PlZero.Text

/-- The Unicode property `White_Space`. -/
def isBlank (value : Char) : Bool :=
  let code := value.toNat
  (0x09 ≤ code && code ≤ 0x0D) || code == 0x20 || code == 0x85 || code == 0xA0 || code == 0x1680
    || (0x2000 ≤ code && code ≤ 0x200A) || code == 0x2028 || code == 0x2029 || code == 0x202F
    || code == 0x205F || code == 0x3000

namespace Glyph

def isBlank : Glyph → Bool :=
  satisfies Text.isBlank

end Glyph

/-- Collects the maximal runs of glyphs that are not blank; `word` is the run being read and `found`
the runs before it, both the latest first. -/
def fieldsFrom : List Glyph → List Glyph → List (List Glyph) → List (List Glyph)
  | [], [], found => found.reverse
  | [], word, found => (word.reverse :: found).reverse
  | glyph :: rest, word, found =>
    if glyph.isBlank then
      match word with
      | [] => fieldsFrom rest [] found
      | _ => fieldsFrom rest [] (word.reverse :: found)
    else fieldsFrom rest (glyph :: word) found

/-- The maximal runs of glyphs that are not blank, in order. -/
def fields (text : List Glyph) : List (List Glyph) :=
  fieldsFrom text [] []

end PlZero.Text
