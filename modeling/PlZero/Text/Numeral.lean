import PlZero.Text.Glyph

/-! Numerals: decimal and hexadecimal text of numbers, padding, reading decimal digits back, and numbers as
bytes, the most significant byte first. -/

namespace PlZero.Text

/-- The lower-case hexadecimal digit of a number below sixteen. -/
def hexDigit (value : Nat) : Char :=
  if value < 10 then Char.ofNat (0x30 + value) else Char.ofNat (0x57 + value)

/-- The last `width` hexadecimal digits of a number. -/
def hexDigits : Nat → Nat → List Char
  | 0, _ => []
  | width + 1, value => hexDigits width (value / 16) ++ [hexDigit (value % 16)]

/-- A number in hexadecimal, `width` digits wide. -/
def hex (width value : Nat) : String :=
  String.ofList (hexDigits width value)

/-- The decimal digits of a natural number. -/
def decimalDigits (value : Nat) : List Char :=
  Nat.toDigits 10 value

/-- An integer in decimal, with a minus sign when it is negative. -/
def decimal : Int → List Char
  | .ofNat value => decimalDigits value
  | .negSucc value => '-' :: decimalDigits (value + 1)

/-- An integer in decimal. -/
def showInt (value : Int) : String :=
  String.ofList (decimal value)

/-- A natural number in decimal. -/
def showNat (value : Nat) : String :=
  String.ofList (decimalDigits value)

/-- A text filled up on the left to at least `width` characters. -/
def padLeft (width : Nat) (filler : Char) (text : String) : String :=
  String.ofList (List.replicate (width - text.length) filler) ++ text

/-- A text filled up with spaces on the right to at least `width` characters. -/
def padRight (width : Nat) (text : String) : String :=
  text ++ String.ofList (List.replicate (width - text.length) ' ')

def isDigit (value : Char) : Bool :=
  '0' ≤ value && value ≤ '9'

def isLetter (value : Char) : Bool :=
  ('a' ≤ value && value ≤ 'z') || ('A' ≤ value && value ≤ 'Z')

/-- The number that a digit stands for. -/
def digitValue (digit : Char) : Nat :=
  digit.toNat - 0x30

/-- The value of a hexadecimal digit. -/
def hexValue? (digit : Char) : Option Nat :=
  if isDigit digit then some (digitValue digit)
  else if 'a' ≤ digit && digit ≤ 'f' then some (digit.toNat - 0x57)
  else if 'A' ≤ digit && digit ≤ 'F' then some (digit.toNat - 0x37)
  else none

/-- The number that decimal digits spell, leading zeros included. -/
def digitsValue (digits : List Char) : Nat :=
  digits.foldl (fun value digit => 10 * value + digitValue digit) 0

/-- The natural number of a non-empty run of decimal digits. -/
def readNat? (text : List Char) : Option Nat :=
  match text with
  | [] => none
  | _ => if text.all isDigit then some (digitsValue text) else none

/-- The integer of a decimal numeral with an optional sign. -/
def readInt? : List Char → Option Int
  | '-' :: digits => (readNat? digits).map fun value => -(value : Int)
  | '+' :: digits => (readNat? digits).map fun value => (value : Int)
  | digits => (readNat? digits).map fun value => (value : Int)

namespace BigEndian

/-- The number that bytes spell. -/
def number (digits : Bytes) : Nat :=
  digits.foldl (fun value digit => 256 * value + digit.toNat) 0

/-- The last `width` bytes of a number. -/
def bytes : Nat → Nat → Bytes
  | 0, _ => []
  | width + 1, value => bytes width (value / 256) ++ [(value % 256).toUInt8]

end BigEndian

end PlZero.Text
