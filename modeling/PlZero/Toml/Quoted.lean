import PlZero.Text.Numeral

/-! Quoted text of TOML. Basic strings stand between double quotes and know escapes; literal strings
stand between single quotes and know none. Both come on one line or, between three quotes, on several:
then the line break behind the opening quotes is dropped, and up to two quotes may stand before the
closing ones, or three behind an escaped backslash. Each reader starts behind the opening quotes and gives the text with what follows the
closing quotes. -/

namespace PlZero.Toml

open PlZero.Text

/-- The number that hexadecimal digits spell. -/
def hexNumber? (digits : List Char) : Option Nat :=
  digits.foldlM (fun value digit => (hexValue? digit).map fun unit => 16 * value + unit) 0

/-- The character with the code that hexadecimal digits spell. -/
def hexChar? (digits : List Char) : Option Char := do
  let code ← hexNumber? digits
  if code < 0xD800 ∨ (0xDFFF < code ∧ code < 0x110000) then some (Char.ofNat code) else none

/-- The character that an escape of one letter stands for. -/
def escaped? : Char → Option Char
  | 'b' => some (Char.ofNat 0x08)
  | 't' => some (Char.ofNat 0x09)
  | 'n' => some (Char.ofNat 0x0A)
  | 'f' => some (Char.ofNat 0x0C)
  | 'r' => some (Char.ofNat 0x0D)
  | 'e' => some (Char.ofNat 0x1B)
  | '"' => some '"'
  | '\\' => some '\\'
  | _ => none

def isLineBreak (sign : Char) : Bool :=
  sign == '\n' || sign == '\r'

/-- A space or a tab. -/
def isGap (sign : Char) : Bool :=
  sign == ' ' || sign == '\t'

/-- What may stand between a backslash and the text it is joined to. -/
def isGapOrBreak (sign : Char) : Bool :=
  isGap sign || isLineBreak sign

/-- Reads a basic string on one line; `found` holds the characters before, the latest first. -/
def basic : List Char → List Char → Option (String × List Char)
  | '"' :: rest, found => some (String.ofList found.reverse, rest)
  | '\\' :: 'x' :: a :: b :: rest, found =>
    match hexChar? [a, b] with
    | some value => basic rest (value :: found)
    | none => none
  | '\\' :: 'u' :: a :: b :: c :: d :: rest, found =>
    match hexChar? [a, b, c, d] with
    | some value => basic rest (value :: found)
    | none => none
  | '\\' :: 'U' :: a :: b :: c :: d :: e :: f :: g :: h :: rest, found =>
    match hexChar? [a, b, c, d, e, f, g, h] with
    | some value => basic rest (value :: found)
    | none => none
  | '\\' :: letter :: rest, found =>
    match escaped? letter with
    | some value => basic rest (value :: found)
    | none => none
  | sign :: rest, found =>
    if isLineBreak sign || sign == '\\' then none else basic rest (sign :: found)
  | [], _ => none

/-- Reads a literal string on one line. -/
def literal : List Char → List Char → Option (String × List Char)
  | [], _ => none
  | sign :: rest, found =>
    if sign = '\'' then some (String.ofList found.reverse, rest)
    else if isLineBreak sign then none
    else literal rest (sign :: found)

/-- A text without the line break that it starts with. -/
def dropBreak : List Char → List Char
  | '\n' :: rest => rest
  | '\r' :: '\n' :: rest => rest
  | text => text

/-- What a quote means inside a text between three quotes: it ends the text, or is part of it, or there
are too many. -/
inductive QuoteRole where
  | closing
  | content
  | surplus
  deriving DecidableEq, Repr

/-- The meaning of the first of `count` quotes in a row, of which `room` may stand before the closing
ones. -/
def quoteRole (room count : Nat) : QuoteRole :=
  if count = 3 then .closing
  else if count ≤ room + 3 then .content
  else .surplus

/-- How many quotes start a text. -/
def leading (quote : Char) (text : List Char) : Nat :=
  (text.takeWhile fun sign => sign == quote).length

/-- Reads a literal string of several lines. -/
def literalLines : List Char → List Char → Option (String × List Char)
  | [], _ => none
  | sign :: rest, found =>
    if sign = '\'' then
      match quoteRole 2 (leading '\'' (sign :: rest)) with
      | .closing => some (String.ofList found.reverse, rest.drop 2)
      | .content => literalLines rest (sign :: found)
      | .surplus => none
    else literalLines rest (sign :: found)

/-- Whether a line ends before anything but gaps. -/
def endsLine (text : List Char) : Bool :=
  (text.takeWhile isGapOrBreak).contains '\n'

/-- What stands directly before a character of a basic string of several lines: text, an escaped
backslash, or a backslash that joins the lines before and behind it. -/
inductive Lead where
  | text
  | backslash
  | joint
  deriving DecidableEq, Repr

/-- How many quotes may stand before the closing ones. -/
def Lead.room : Lead → Nat
  | backslash => 3
  | text | joint => 2

/-- What a character that was written as an escape of one letter is to the next one. -/
def Lead.ofEscape (letter : Char) : Lead :=
  if letter = '\\' then .backslash else .text

/-- Reads a basic string of several lines; behind a joint, gaps and line breaks are skipped. -/
def basicLines (lead : Lead) : List Char → List Char → Option (String × List Char)
  | '\\' :: 'x' :: a :: b :: rest, found =>
    match hexChar? [a, b] with
    | some value => basicLines .text rest (value :: found)
    | none => none
  | '\\' :: 'u' :: a :: b :: c :: d :: rest, found =>
    match hexChar? [a, b, c, d] with
    | some value => basicLines .text rest (value :: found)
    | none => none
  | '\\' :: 'U' :: a :: b :: c :: d :: e :: f :: g :: h :: rest, found =>
    match hexChar? [a, b, c, d, e, f, g, h] with
    | some value => basicLines .text rest (value :: found)
    | none => none
  | '\\' :: letter :: rest, found =>
    if isGapOrBreak letter then
      if endsLine (letter :: rest) then basicLines .joint rest found else none
    else
      match escaped? letter with
      | some value => basicLines (.ofEscape letter) rest (value :: found)
      | none => none
  | sign :: rest, found =>
    if sign = '"' then
      match quoteRole lead.room (leading '"' (sign :: rest)) with
      | .closing => some (String.ofList found.reverse, rest.drop 2)
      | .content => basicLines .text rest (sign :: found)
      | .surplus => none
    else if sign = '\\' then none
    else if lead = .joint && isGapOrBreak sign then basicLines .joint rest found
    else basicLines .text rest (sign :: found)
  | [], _ => none

/-- Reads a quoted text from its opening quotes on. -/
def quoted? : List Char → Option (String × List Char)
  | '"' :: '"' :: '"' :: rest => basicLines .text (dropBreak rest) []
  | '"' :: rest => basic rest []
  | '\'' :: '\'' :: '\'' :: rest => literalLines (dropBreak rest) []
  | '\'' :: rest => literal rest []
  | _ => none

/-- How a character is written in a basic string. -/
def writeChar (value : Char) : List Char :=
  if value = '"' || value = '\\' then ['\\', value]
  else
    match value.toNat with
    | 0x08 => ['\\', 'b']
    | 0x09 => ['\\', 't']
    | 0x0A => ['\\', 'n']
    | 0x0C => ['\\', 'f']
    | 0x0D => ['\\', 'r']
    | code =>
      if code < 0x20 || code = 0x7F then '\\' :: 'u' :: hexDigits 4 code else [value]

/-- A text as a basic string. -/
def writeString (text : String) : String :=
  String.ofList ('"' :: text.toList.flatMap writeChar ++ ['"'])

end PlZero.Toml
