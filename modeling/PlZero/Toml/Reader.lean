import PlZero.Toml.Scalar
import PlZero.Toml.Value

/-! The statements of a TOML document: headers of tables and of arrays of tables, and keys with their
terms. Reading here minds the form only; what the statements build is told elsewhere. -/

namespace PlZero.Toml

open PlZero.Text

/-- A value as it is written. -/
inductive Term where
  | string (text : String)
  | scalar (value : Scalar)
  | array (items : List Term)
  | inline (entries : List (Key × Term))

inductive Statement where
  | table (key : Key)
  | arrayTable (key : Key)
  | entry (key : Key) (term : Term)

/-- What may stand in a key without quotes. -/
def isBareKeySign (sign : Char) : Bool :=
  isLetter sign || isDigit sign || sign == '_' || sign == '-'

/-- A text without the gaps it starts with. -/
def skipGaps (text : List Char) : List Char :=
  text.dropWhile isGap

/-- A text from its first line break on. -/
def skipComment (text : List Char) : List Char :=
  text.dropWhile fun sign => !isLineBreak sign

/-- Skips gaps, line breaks and comments; `commented` tells whether the text starts in a comment. -/
def skipAll (commented : Bool) : List Char → List Char
  | [] => []
  | sign :: rest =>
    if commented then skipAll (!isLineBreak sign) rest
    else if isGapOrBreak sign then skipAll false rest
    else if sign = '#' then skipAll true rest
    else sign :: rest

/-- Reads one name of a key. -/
def name? (text : List Char) : Option (String × List Char) :=
  match text with
  | '"' :: rest => basic rest []
  | '\'' :: rest => literal rest []
  | _ =>
    match text.takeWhile isBareKeySign with
    | [] => none
    | name => some (String.ofList name, text.dropWhile isBareKeySign)

/-- Reads names with dots between them; there are at most `fuel`. -/
def key? : Nat → List Char → Option (Key × List Char)
  | 0, _ => none
  | fuel + 1, text => do
    let (name, rest) ← name? (skipGaps text)
    match skipGaps rest with
    | '.' :: more => (key? fuel more).map fun (key, behind) => (name :: key, behind)
    | behind => some ([name], behind)

mutual

/-- Reads a term. -/
def term? : Nat → List Char → Option (Term × List Char)
  | 0, _ => none
  | fuel + 1, text =>
    match text with
    | '[' :: rest => (items? fuel rest []).map fun (items, behind) => (.array items, behind)
    | '\x7b' :: rest => (entries? fuel rest []).map fun (found, behind) => (.inline found, behind)
    | '"' :: _ | '\'' :: _ => (quoted? text).map fun (content, behind) => (.string content, behind)
    | _ => (scalar? text).map fun (value, behind) => (.scalar value, behind)

/-- Reads the items of an array up to its end; `found` holds those before, the latest first. -/
def items? : Nat → List Char → List Term → Option (List Term × List Char)
  | 0, _, _ => none
  | fuel + 1, text, found =>
    match skipAll false text with
    | ']' :: behind => some (found.reverse, behind)
    | start =>
      match term? fuel start with
      | none => none
      | some (item, rest) =>
        match skipAll false rest with
        | ',' :: more => items? fuel more (item :: found)
        | ']' :: behind => some ((item :: found).reverse, behind)
        | _ => none

/-- Reads the entries of an inline table up to its end; `found` holds those before, the latest
first. -/
def entries? : Nat → List Char → List (Key × Term) → Option (List (Key × Term) × List Char)
  | 0, _, _ => none
  | fuel + 1, text, found =>
    match skipAll false text with
    | '\x7d' :: behind => some (found.reverse, behind)
    | start =>
      match key? fuel start with
      | some (key, '=' :: value) =>
        match term? fuel (skipGaps value) with
        | none => none
        | some (term, rest) =>
          match skipAll false rest with
          | ',' :: more => entries? fuel more ((key, term) :: found)
          | '\x7d' :: behind => some (((key, term) :: found).reverse, behind)
          | _ => none
      | _ => none

end

/-- Reads one statement. -/
def statement? (fuel : Nat) (text : List Char) : Option (Statement × List Char) :=
  match text with
  | '[' :: '[' :: rest =>
    match key? fuel rest with
    | some (key, ']' :: ']' :: behind) => some (.arrayTable key, behind)
    | _ => none
  | '[' :: rest =>
    match key? fuel rest with
    | some (key, ']' :: behind) => some (.table key, behind)
    | _ => none
  | _ =>
    match key? fuel text with
    | some (key, '=' :: value) =>
      (term? fuel (skipGaps value)).map fun (term, behind) => (.entry key term, behind)
    | _ => none

/-- What follows a statement on its line: nothing but a comment. -/
def endOfLine? (text : List Char) : Option (List Char) :=
  match skipGaps text with
  | [] => some []
  | '#' :: comment => some (skipComment comment)
  | sign :: rest => if isLineBreak sign then some rest else none

/-- Reads statements to the end of a text; `found` holds those before, the latest first. -/
def statements? : Nat → List Char → List Statement → Option (List Statement)
  | 0, _, _ => none
  | fuel + 1, text, found =>
    match skipAll false text with
    | [] => some found.reverse
    | start =>
      match statement? fuel start with
      | none => none
      | some (statement, rest) =>
        match endOfLine? rest with
        | none => none
        | some behind => statements? fuel behind (statement :: found)

/-- Whether a text holds no control characters but tabs and line breaks, and no carriage return without
a line feed. -/
def isPlain : List Char → Bool
  | [] => true
  | '\r' :: rest => rest.head? == some '\n' && isPlain rest
  | sign :: rest =>
    (0x20 ≤ sign.toNat || sign == '\t' || sign == '\n') && sign.toNat != 0x7F && isPlain rest

/-- The statements of a document. No step of reading goes more than two deep for each character. -/
def parse? (text : List Char) : Option (List Statement) :=
  if isPlain text then statements? (2 * text.length + 1) text [] else none

end PlZero.Toml
