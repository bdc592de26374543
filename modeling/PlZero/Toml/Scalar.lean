import PlZero.Text.Calendar
import PlZero.Toml.Quoted

/-! Unquoted values of TOML: truth values, integers of 64 bits, floats, dates and times. Of floats,
dates and times it is only checked that they are well written. -/

namespace PlZero.Toml

open PlZero.Text

/-- An unquoted value. -/
inductive Scalar where
  | boolean (value : Bool)
  | integer (value : Int)
  | float
  | moment
  deriving DecidableEq, Repr

/-- Digits with single underscores between them, without the underscores. -/
def digitRun? (isDigit : Char → Bool) : List Char → Option (List Char)
  | [] => none
  | [digit] => if isDigit digit then some [digit] else none
  | digit :: '_' :: rest =>
    if isDigit digit then (digitRun? isDigit rest).map (digit :: ·) else none
  | digit :: rest =>
    if isDigit digit then (digitRun? isDigit rest).map (digit :: ·) else none

/-- A number that fits into 64 bits. -/
def fitting? (value : Int) : Option Scalar :=
  if -9223372036854775808 ≤ value ∧ value ≤ 9223372036854775807 then some (.integer value)
  else none

/-- The number that digits spell in a base. -/
def inBase (base : Nat) (digits : List Char) : Nat :=
  digits.foldl (fun value digit => base * value + (hexValue? digit).getD 0) 0

/-- Whether a character is a digit of a base. -/
def isDigitOf (base : Nat) (sign : Char) : Bool :=
  match hexValue? sign with
  | some value => value < base
  | none => false

/-- Decimal digits without a leading zero. -/
def plainDigits? (text : List Char) : Option (List Char) :=
  match digitRun? isDigit text with
  | some ('0' :: _ :: _) => none
  | digits => digits

/-- A number without its sign, and whether that was a minus. -/
def splitSign : List Char → Bool × List Char
  | '-' :: rest => (true, rest)
  | '+' :: rest => (false, rest)
  | text => (false, text)

/-- An integer: decimal with an optional sign, or hexadecimal, octal or binary. -/
def integer? : List Char → Option Scalar
  | '0' :: 'x' :: digits =>
    (digitRun? (isDigitOf 16) digits).bind fun digits => fitting? (inBase 16 digits)
  | '0' :: 'o' :: digits =>
    (digitRun? (isDigitOf 8) digits).bind fun digits => fitting? (inBase 8 digits)
  | '0' :: 'b' :: digits =>
    (digitRun? (isDigitOf 2) digits).bind fun digits => fitting? (inBase 2 digits)
  | text =>
    let (isNegative, digits) := splitSign text
    (plainDigits? digits).bind fun digits =>
      let value : Int := inBase 10 digits
      fitting? (if isNegative then -value else value)

/-- The mantissa and the exponent of a float. -/
def splitExponent (text : List Char) : List Char × Option (List Char) :=
  let isMark := fun sign => sign == 'e' || sign == 'E'
  let mantissa := text.takeWhile fun sign => !isMark sign
  match text.dropWhile fun sign => !isMark sign with
  | [] => (mantissa, none)
  | _ :: exponent => (mantissa, some exponent)

/-- The whole and the fractional digits of a mantissa. -/
def mantissaDigits? (text : List Char) : Option (List Char × List Char) := do
  let whole ← plainDigits? (text.takeWhile fun sign => sign != '.')
  match text.dropWhile fun sign => sign != '.' with
  | [] => some (whole, [])
  | _ :: fraction => do some (whole, ← digitRun? isDigit fraction)

/-- The value of an exponent. -/
def exponent? (text : List Char) : Option Int :=
  let (isNegative, digits) := splitSign text
  (digitRun? isDigit digits).map fun digits =>
    let value : Int := inBase 10 digits
    if isNegative then -value else value

/-- The least number that rounds to no finite double: half a unit above the greatest one. -/
def doubleBound : Nat :=
  Nat.pow 2 1024 - Nat.pow 2 970

/-- Whether `mantissa · 10 ^ exponent` rounds to a finite double. -/
def isFinite (mantissa : Nat) (exponent : Int) : Bool :=
  let size : Int := (decimalDigits mantissa).length + exponent
  if mantissa = 0 ∨ size < 308 then true
  else if 310 < size then false
  else
    mantissa * Nat.pow 10 exponent.toNat < doubleBound * Nat.pow 10 (-exponent).toNat

/-- Whether a text is a float: a number with a fraction or an exponent, or no finite number. -/
def isFloat (text : List Char) : Bool :=
  let (_, unsigned) := splitSign text
  if unsigned = ['i', 'n', 'f'] ∨ unsigned = ['n', 'a', 'n'] then true
  else if unsigned.any fun sign => sign == '.' || sign == 'e' || sign == 'E' then
    let (mantissa, power) := splitExponent unsigned
    match mantissaDigits? mantissa, (power.map exponent?).getD (some 0) with
    | some (whole, fraction), some exponent =>
      isFinite (inBase 10 (whole ++ fraction)) (exponent - fraction.length)
    | _, _ => false
  else false

/-- Reads a number of two digits, below a bound. -/
def pair? (bound : Nat) : List Char → Option (Nat × List Char)
  | tens :: ones :: rest =>
    if isDigit tens && isDigit ones then
      let value := 10 * digitValue tens + digitValue ones
      if value < bound then some (value, rest) else none
    else none
  | _ => none

/-- Reads a sign. -/
def sign? (wanted : Char) : List Char → Option (List Char)
  | sign :: rest => if sign = wanted then some rest else none
  | [] => none

/-- Reads a date. -/
def date? (text : List Char) : Option (List Char) := do
  let (century, rest) ← pair? 100 text
  let (year, rest) ← pair? 100 rest
  let (month, rest) ← pair? 13 (← sign? '-' rest)
  let (day, rest) ← pair? 32 (← sign? '-' rest)
  if 1 ≤ month ∧ 1 ≤ day ∧ day ≤ Calendar.daysIn (100 * century + year) month then some rest
  else none

/-- Reads the seconds of a time, with their fraction. -/
def seconds? (text : List Char) : Option (List Char) := do
  let (_, rest) ← pair? 60 text
  match rest with
  | '.' :: digit :: _ =>
    if isDigit digit then some ((rest.drop 1).dropWhile isDigit) else some rest
  | _ => some rest

/-- Reads a time; the seconds may be missing. -/
def time? (text : List Char) : Option (List Char) := do
  let (_, rest) ← pair? 24 text
  let (_, rest) ← pair? 60 (← sign? ':' rest)
  match rest with
  | ':' :: seconds => seconds? seconds
  | _ => some rest

/-- Whether a text is an offset from universal time. -/
def isOffset : List Char → Bool
  | ['Z'] => true
  | sign :: rest =>
    if sign = '+' ∨ sign = '-' then
      match pair? 25 rest with
      | some (_, ':' :: minutes) =>
        match pair? 61 minutes with
        | some (_, []) => true
        | _ => false
      | _ => false
    else false
  | [] => false

/-- Whether a text is a date, a time, or both with or without an offset. -/
def isMoment (text : List Char) : Bool :=
  match date? text with
  | some [] => true
  | some ('T' :: rest) =>
    match time? rest with
    | some [] => true
    | some offset => isOffset offset
    | none => false
  | some _ => false
  | none => time? text == some []

/-- The capital letters of dates; a space stands for the letter between a date and a time. -/
def momentSign (sign : Char) : Char :=
  if sign = 't' ∨ sign = ' ' then 'T'
  else if sign = 'z' then 'Z'
  else sign

/-- What dates and times are written with. -/
def isMomentSign (sign : Char) : Bool :=
  isDigit sign || "-:Tt .Zz+".toList.contains sign

/-- What the other unquoted values are written with. -/
def isScalarSign (sign : Char) : Bool :=
  isDigit sign || isLetter sign || "_+-.:".toList.contains sign

/-- A text without the spaces it ends with. -/
def trimEnd (text : List Char) : List Char :=
  (text.reverse.dropWhile fun sign => sign == ' ').reverse

/-- Whether a text goes on like a date or a time: digits and a dash or a colon. -/
def startsMoment (text : List Char) : Bool :=
  match text with
  | first :: _ =>
    isDigit first &&
      match text.dropWhile isDigit with
      | sign :: _ => sign == '-' || sign == ':'
      | [] => false
  | [] => false

/-- The value of an unquoted word. -/
def word? (word : List Char) : Option Scalar :=
  if word = ['t', 'r', 'u', 'e'] then some (.boolean true)
  else if word = ['f', 'a', 'l', 's', 'e'] then some (.boolean false)
  else
    match integer? word with
    | some value => some value
    | none => if isFloat word then some .float else none

/-- Reads an unquoted value. -/
def scalar? (text : List Char) : Option (Scalar × List Char) :=
  if startsMoment text then
    if isMoment ((trimEnd (text.takeWhile isMomentSign)).map momentSign) then
      some (.moment, text.dropWhile isMomentSign)
    else none
  else
    (word? (text.takeWhile isScalarSign)).map fun value => (value, text.dropWhile isScalarSign)

end PlZero.Toml
