import PlZero.Source.Scan

/-! Scanning on demand. A reader stands at one glyph of a text at a time and keeps count of bytes and
lines as it goes; asked for a result, it goes over blanks to the next token or fault, and on behind it.
At the end of the text it gives the end of input, however often it is asked. -/

namespace PlZero.Source

open PlZero.Text

/-- A number that is being read: its digits, the latest first, and their value in 64 bits. The value
stays as it is behind the digit with which it exceeds every literal. -/
structure Tally where
  digits : List Char := []
  value : UInt64 := 0
  overflowed : Bool := false
  deriving DecidableEq, Repr

namespace Tally

/-- Takes one more digit. -/
def add (tally : Tally) (digit : Char) : Tally :=
  if tally.overflowed then { tally with digits := digit :: tally.digits }
  else
    let value := tally.value * 10 + (digitValue digit).toUInt64
    ⟨digit :: tally.digits, value, maxLiteral.toUInt64 < value⟩

/-- The token of the digits, or what is wrong with them. -/
def token (tally : Tally) : Except Cause TokenKind :=
  if tally.overflowed then .error (.literalOverflow tally.digits.reverse)
  else .ok (.integer (Int32.ofNat tally.value.toNat))

end Tally

/-- A reader at work. It stands at a glyph, from the byte at `offset` up to that at `stop`, or at the
end; the bytes from `stop` on lie ahead. The line is that of the glyph. -/
structure Reader where
  current : Option Glyph
  offset : Nat
  stop : Nat
  ahead : Bytes
  line : Nat
  lineStart : Nat
  deriving DecidableEq, Repr

namespace Reader

/-- Counts a line when the line feed before it is left. -/
def turn (reader : Reader) : Reader :=
  if reader.current = some (.char '\n') then
    { reader with line := reader.line + 1, lineStart := reader.stop }
  else reader

/-- Goes on by one glyph; at the end a reader stays. -/
def advance (reader : Reader) : Reader :=
  match reader.ahead with
  | [] => { reader.turn with current := none, offset := reader.stop }
  | first :: rest =>
    let glyph := Glyph.start first rest
    { reader.turn with
      current := some glyph
      offset := reader.stop
      stop := reader.stop + glyph.width
      ahead := rest.drop (glyph.width - 1) }

/-- A reader at the first glyph of a text. It comes there from a NUL that is not in the text. -/
def start (text : Bytes) : Reader :=
  advance ⟨some (.char (Char.ofNat 0)), 0, 0, text, 1, 0⟩

/-- The place at which a reader stands. -/
def position (reader : Reader) : Position :=
  ⟨reader.offset, reader.line, reader.offset - reader.lineStart + 1⟩

/-- No more glyphs than this come from the current one on. -/
def left (reader : Reader) : Nat :=
  reader.ahead.length + (if reader.current.isSome then 1 else 0)

@[simp] theorem ahead_turn (reader : Reader) : reader.turn.ahead = reader.ahead := by
  unfold turn
  split <;> rfl

theorem left_advance_lt {reader : Reader} {glyph : Glyph} (h : reader.current = some glyph) :
    reader.advance.left < reader.left := by
  unfold advance
  split
  · simp only [left, ahead_turn, h, Option.isSome_none, Option.isSome_some, if_true,
      Bool.false_eq_true, if_false]
    omega
  · rename_i first rest hcons
    simp only [left, h, hcons, List.length_drop, List.length_cons, Option.isSome_some, if_true]
    omega

/-- Goes on as long as the current glyph has a property, and takes every such glyph into a value. -/
def goOn {α : Type} (property : Glyph → Bool) (take : α → Glyph → α) (value : α) (reader : Reader) :
    α × Reader :=
  match _hcurrent : reader.current with
  | none => (value, reader)
  | some glyph =>
    if property glyph then goOn property take (take value glyph) reader.advance
    else (value, reader)
  termination_by reader.left
  decreasing_by exact left_advance_lt _hcurrent

/-- The run of glyphs with a property, and the reader behind it. -/
def takeRun (property : Glyph → Bool) (reader : Reader) : List Glyph × Reader :=
  let (found, behind) := reader.goOn property (fun found glyph => glyph :: found) []
  (found.reverse, behind)

/-- The characters with a property, and the reader behind them. -/
def takeChars (property : Char → Bool) (reader : Reader) : List Char × Reader :=
  let (run, behind) := reader.takeRun (Glyph.satisfies property)
  (run.filterMap Glyph.char?, behind)

/-- The tally of the digits from the current glyph on, and the reader behind them. -/
def takeNumber (reader : Reader) : Tally × Reader :=
  reader.goOn (Glyph.satisfies isDigit) (fun tally glyph => glyph.char?.elim tally tally.add) {}

/-- Reads glyphs that belong to no token. -/
def takeStray (reader : Reader) : Except Cause TokenKind × Reader :=
  let (run, behind) := reader.takeRun isStray
  (.error (.strayText run), behind)

/-- What the text spells from the current glyph on, which is not blank, and the reader behind it. -/
def spell (reader : Reader) (glyph : Glyph) : Except Cause TokenKind × Reader :=
  match glyph with
  | .stray _ => reader.takeStray
  | .char value =>
    if isDigit value then
      let (tally, behind) := reader.takeNumber
      (tally.token, behind)
    else if isLetter value then
      let (letters, behind) := reader.takeChars isWordPart
      (.ok (TokenKind.ofWord (String.ofList letters)), behind)
    else
      match TokenKind.ofMark? value with
      | some kind => (.ok kind, reader.advance)
      | none => reader.takeStray

/-- The reader at the first glyph from the current one on that is not blank. -/
def skipBlanks (reader : Reader) : Reader :=
  (reader.takeRun Glyph.isBlank).2

/-- The result at the current glyph, which is not blank, and the reader behind it. -/
def here (reader : Reader) : Scanned × Reader :=
  match reader.current with
  | none => (.ok ⟨.endOfInput, reader.position⟩, reader)
  | some glyph =>
    match reader.spell glyph with
    | (.ok kind, behind) => (.ok ⟨kind, reader.position⟩, behind)
    | (.error cause, behind) => (.error ⟨cause, reader.position⟩, behind)

/-- The next result, and the reader behind it. -/
def next (reader : Reader) : Scanned × Reader :=
  reader.skipBlanks.here

/-- The result with a number, counted from 0, whatever the results before it are. -/
def result (reader : Reader) : Nat → Scanned
  | 0 => reader.next.1
  | count + 1 => reader.next.2.result count

end Reader

end PlZero.Source
