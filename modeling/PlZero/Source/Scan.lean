import PlZero.Source.Fault

/-! Scanning: a source text is cut into lexemes, the longest runs of their kind, with blanks between
them. Each lexeme is a token or a fault, and scanning goes on after a fault. -/

namespace PlZero.Source

open PlZero.Text

/-- A piece of source text that is not blank. -/
inductive Lexeme where
  | number (digits : List Char)
  | word (letters : List Char)
  | mark (kind : TokenKind) (sign : Char)
  | stray (run : List Glyph)
  deriving DecidableEq, Repr

/-- Whether a glyph belongs to no kind of token and is not blank. -/
def isStray : Glyph → Bool
  | .stray _ => true
  | .char value =>
    !(isBlank value || isLetter value || isDigit value || (TokenKind.ofMark? value).isSome)

def isWordPart (value : Char) : Bool :=
  isLetter value || isDigit value

namespace Lexeme

/-- The glyphs of a lexeme. -/
def glyphs : Lexeme → List Glyph
  | number digits => ofChars digits
  | word letters => ofChars letters
  | mark _ sign => [.char sign]
  | stray run => run

/-- The characters at the head of a text that have a property. -/
def charsWhile (property : Char → Bool) (text : List Glyph) : List Char :=
  (text.takeWhile (Glyph.satisfies property)).filterMap Glyph.char?

/-- The lexeme at the head of the text `first :: rest`, which is not blank. -/
def read (first : Glyph) (rest : List Glyph) : Lexeme :=
  match first with
  | .stray _ => stray (first :: rest.takeWhile isStray)
  | .char value =>
    if isDigit value then number (value :: charsWhile isDigit rest)
    else if isLetter value then word (value :: charsWhile isWordPart rest)
    else
      match TokenKind.ofMark? value with
      | some kind => mark kind value
      | none => stray (first :: rest.takeWhile isStray)

/-- The text behind the lexeme at the head of `first :: rest`. -/
def remainder (first : Glyph) (rest : List Glyph) : List Glyph :=
  match read first rest with
  | number _ => rest.dropWhile (Glyph.satisfies isDigit)
  | word _ => rest.dropWhile (Glyph.satisfies isWordPart)
  | mark _ _ => rest
  | stray _ => rest.dropWhile isStray

/-- The token that a lexeme spells, or what is wrong with it. -/
def token : Lexeme → Except Cause TokenKind
  | number digits =>
    let value := digitsValue digits
    if value ≤ maxLiteral then .ok (.integer (Int32.ofNat value))
    else .error (.literalOverflow digits)
  | word letters => .ok (TokenKind.ofWord (String.ofList letters))
  | mark kind _ => .ok kind
  | stray run => .error (.strayText run)

theorem length_remainder_le (first : Glyph) (rest : List Glyph) :
    (remainder first rest).length ≤ rest.length := by
  unfold remainder
  split
  · exact (List.dropWhile_sublist _).length_le
  · exact (List.dropWhile_sublist _).length_le
  · exact Nat.le_refl _
  · exact (List.dropWhile_sublist _).length_le

end Lexeme

/-- What scanning finds at one place. -/
abbrev Scanned := Except Fault Token

/-- The lexeme's token or fault at a place. -/
def Lexeme.place (lexeme : Lexeme) (position : Position) : Scanned :=
  match lexeme.token with
  | .ok kind => .ok ⟨kind, position⟩
  | .error cause => .error ⟨cause, position⟩

/-- What scanning finds in a whole text, and the place where the text ends. -/
structure Scan where
  results : List Scanned
  finish : Position

/-- Scans a text from a place on; `found` holds what was found before, the latest first. -/
def scanFrom (position : Position) (text : List Glyph) (found : List Scanned) : Scan :=
  match text with
  | [] => ⟨found.reverse, position⟩
  | first :: rest =>
    if first.isBlank then scanFrom (position.after first) rest found
    else
      let lexeme := Lexeme.read first rest
      scanFrom (position.advance lexeme.glyphs) (Lexeme.remainder first rest)
        (lexeme.place position :: found)
  termination_by text.length
  decreasing_by
    · simp
    · have := Lexeme.length_remainder_le first rest
      simp only [List.length_cons]
      omega

/-- Scans a whole text. -/
def scan (text : Bytes) : Scan :=
  scanFrom Position.start (glyphs text) []

namespace Scan

/-- The end-of-input token of a scan. -/
def last (scanned : Scan) : Token :=
  ⟨.endOfInput, scanned.finish⟩

/-- The tokens of a scan with the end of input behind them, or the first fault. -/
def tokens (scanned : Scan) : Except Fault (List Token) :=
  (scanned.results.mapM id).map fun found => found ++ [scanned.last]

end Scan

/-- The tokens of a source text, the last of which is the end of input. -/
def tokenize (text : Bytes) : Except Fault (List Token) :=
  (scan text).tokens

end PlZero.Source
