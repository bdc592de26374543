import PlZero.Text.Quoted

/-! Values of flags: truth values and integers of 64 bits. Integers may be written in hexadecimal,
octal or binary with a marked base, and with underscores between digits. -/

namespace PlZero.Command

open PlZero.Text

/-- Why a text is no value. -/
inductive ValueError where
  | notBoolean (text : String)
  | notInteger (text : String)
  | outOfRange (text : String)
  deriving DecidableEq, Repr

namespace ValueError

def message : ValueError → String
  | notBoolean text => "strconv.ParseBool: parsing " ++ quote text ++ ": invalid syntax"
  | notInteger text => "strconv.ParseInt: parsing " ++ quote text ++ ": invalid syntax"
  | outOfRange text => "strconv.ParseInt: parsing " ++ quote text ++ ": value out of range"

end ValueError

/-- The truth value that a text spells. -/
def boolean (text : String) : Except ValueError Bool :=
  if ["1", "t", "T", "TRUE", "true", "True"].contains text then .ok true
  else if ["0", "f", "F", "FALSE", "false", "False"].contains text then .ok false
  else .error (.notBoolean text)

/-- The value of a digit or a letter, counting letters of either case on from ten. -/
def digit? (sign : Char) : Option Nat :=
  if isDigit sign then some (digitValue sign)
  else if 'a' ≤ sign && sign ≤ 'z' then some (sign.toNat - 0x57)
  else if 'A' ≤ sign && sign ≤ 'Z' then some (sign.toNat - 0x37)
  else none

/-- The base that the start of a number marks, and the digits behind the mark. -/
def splitBase : List Char → Nat × List Char
  | '0' :: mark :: first :: rest =>
    if mark = 'x' ∨ mark = 'X' then (16, first :: rest)
    else if mark = 'o' ∨ mark = 'O' then (8, first :: rest)
    else if mark = 'b' ∨ mark = 'B' then (2, first :: rest)
    else (8, mark :: first :: rest)
  | '0' :: rest => (8, rest)
  | text => (10, text)

/-- The last thing seen in a number. -/
inductive Seen where
  | start
  | digit
  | underscore
  deriving DecidableEq, Repr

/-- Whether underscores stand between digits only; a mark of the base counts as a digit. -/
def underscoresFit : Seen → List Char → Bool
  | seen, [] => seen != .underscore
  | seen, sign :: rest =>
    if sign = '_' then seen == .digit && underscoresFit .underscore rest
    else underscoresFit .digit rest

/-- The number that digits spell in a base, underscores skipped, as long as it fits into 64 bits. -/
def magnitude (text : String) (base : Nat) : List Char → Nat → Except ValueError Nat
  | [], value => .ok value
  | sign :: rest, value =>
    if sign = '_' then magnitude text base rest value
    else
      match digit? sign with
      | none => .error (.notInteger text)
      | some digit =>
        if base ≤ digit then .error (.notInteger text)
        else if 18446744073709551616 ≤ base * value + digit then .error (.outOfRange text)
        else magnitude text base rest (base * value + digit)

/-- Whether the digits of a number carry a mark of their base. -/
def isMarked (text : List Char) : Bool :=
  match text with
  | '0' :: mark :: _ => "xXoObB".toList.contains mark
  | _ => false

/-- The integer that a text spells. -/
def integer (text : String) : Except ValueError Int := do
  let (isNegative, digits) :=
    match text.toList with
    | '-' :: rest => (true, rest)
    | '+' :: rest => (false, rest)
    | all => (false, all)
  if digits.isEmpty then .error (.notInteger text)
  else
    let (base, shown) := splitBase digits
    let value ← magnitude text base shown 0
    let fits :=
      if isMarked digits then underscoresFit .digit (digits.drop 2)
      else underscoresFit .start digits
    if !fits then .error (.notInteger text)
    else if isNegative then
      if 9223372036854775808 < value then .error (.outOfRange text) else .ok (-value)
    else if 9223372036854775808 ≤ value then .error (.outOfRange text)
    else .ok value

end PlZero.Command
