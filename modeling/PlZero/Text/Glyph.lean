/-! Texts are byte lists that need not be valid UTF-8. A text is read as a list of glyphs: the
characters it holds, and the stray bytes at which no character starts. Nothing is lost on the way:
the bytes of the glyphs, in order, are the bytes of the text. -/

namespace PlZero.Text

abbrev Bytes := List UInt8

/-- One unit of a text: a character, or a byte at which no UTF-8 character starts. -/
inductive Glyph where
  | char (value : Char)
  | stray (byte : UInt8)
  deriving DecidableEq, Repr

/-- The UTF-8 bytes of a character. -/
def encodeChar (value : Char) : Bytes :=
  let code := value.toNat
  if code < 0x80 then [code.toUInt8]
  else if code < 0x800 then [(0xC0 + code / 64).toUInt8, (0x80 + code % 64).toUInt8]
  else if code < 0x10000 then
    [(0xE0 + code / 4096).toUInt8, (0x80 + code / 64 % 64).toUInt8, (0x80 + code % 64).toUInt8]
  else
    [(0xF0 + code / 262144).toUInt8, (0x80 + code / 4096 % 64).toUInt8,
      (0x80 + code / 64 % 64).toUInt8, (0x80 + code % 64).toUInt8]

/-- The bytes of a list of characters. -/
def encodeChars (values : List Char) : Bytes :=
  values.flatMap encodeChar

/-- The bytes of a string. -/
def encode (value : String) : Bytes :=
  encodeChars value.toList

/-- A byte that continues a character of several bytes. -/
def isContinuation (byte : UInt8) : Bool :=
  0x80 ≤ byte.toNat && byte.toNat ≤ 0xBF

/-- The character that starts with `first`, when `rest` continues it in shortest form and the code
is a Unicode scalar value. -/
def character? (first : UInt8) (rest : Bytes) : Option Char :=
  let lead := first.toNat
  if lead < 0x80 then some (Char.ofNat lead)
  else if 0xC2 ≤ lead && lead ≤ 0xDF then
    match rest with
    | second :: _ =>
      if isContinuation second then
        some (Char.ofNat ((lead - 0xC0) * 64 + (second.toNat - 0x80)))
      else none
    | [] => none
  else if 0xE0 ≤ lead && lead ≤ 0xEF then
    match rest with
    | second :: third :: _ =>
      let code := (lead - 0xE0) * 4096 + (second.toNat - 0x80) * 64 + (third.toNat - 0x80)
      if isContinuation second && isContinuation third && 0x800 ≤ code
          && !(0xD800 ≤ code && code ≤ 0xDFFF) then
        some (Char.ofNat code)
      else none
    | _ => none
  else if 0xF0 ≤ lead && lead ≤ 0xF4 then
    match rest with
    | second :: third :: fourth :: _ =>
      let code := (lead - 0xF0) * 262144 + (second.toNat - 0x80) * 4096
        + (third.toNat - 0x80) * 64 + (fourth.toNat - 0x80)
      if isContinuation second && isContinuation third && isContinuation fourth
          && 0x10000 ≤ code && code ≤ 0x10FFFF then
        some (Char.ofNat code)
      else none
    | _ => none
  else none

namespace Glyph

/-- The bytes that a glyph stands for. -/
def bytes : Glyph → Bytes
  | char value => encodeChar value
  | stray byte => [byte]

/-- How many bytes a glyph takes. -/
def width : Glyph → Nat
  | char value =>
    if value.toNat < 0x80 then 1
    else if value.toNat < 0x800 then 2
    else if value.toNat < 0x10000 then 3
    else 4
  | stray _ => 1

/-- The glyph at the start of the text `first :: rest`. -/
def start (first : UInt8) (rest : Bytes) : Glyph :=
  match character? first rest with
  | some value => char value
  | none => stray first

/-- Whether a glyph is a character with the given property. -/
def satisfies (property : Char → Bool) : Glyph → Bool
  | char value => property value
  | stray _ => false

/-- The character of a glyph. -/
def char? : Glyph → Option Char
  | char value => some value
  | stray _ => none

theorem width_eq_length_bytes (glyph : Glyph) : glyph.width = glyph.bytes.length := by
  cases glyph with
  | stray => rfl
  | char value =>
    simp only [width, bytes, encodeChar]
    split
    · rfl
    · split
      · rfl
      · split <;> rfl

theorem width_pos (glyph : Glyph) : 0 < glyph.width := by
  cases glyph with
  | stray => exact Nat.one_pos
  | char value =>
    simp only [width]
    split
    · decide
    · split
      · decide
      · split <;> decide

end Glyph

/-- Reads glyphs from the head of a text: the first `skip` bytes belong to the glyph read last, and
`found` holds the glyphs read so far, the latest first. -/
def glyphsFrom (skip : Nat) : Bytes → List Glyph → List Glyph
  | [], found => found.reverse
  | byte :: rest, found =>
    match skip with
    | 0 =>
      let glyph := Glyph.start byte rest
      glyphsFrom (glyph.width - 1) rest (glyph :: found)
    | left + 1 => glyphsFrom left rest found

/-- The glyphs of a text. -/
def glyphs (text : Bytes) : List Glyph :=
  glyphsFrom 0 text []

/-- The bytes of a list of glyphs. -/
def unread (text : List Glyph) : Bytes :=
  text.flatMap Glyph.bytes

/-- The glyphs of a list of characters. -/
def ofChars (values : List Char) : List Glyph :=
  values.map Glyph.char

/-- The characters of a text, unless it holds a stray byte. -/
def chars? (text : Bytes) : Option (List Char) :=
  (glyphs text).mapM Glyph.char?

end PlZero.Text
