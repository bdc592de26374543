/-! The case of letters. Names are compared without regard to case: of the characters outside ASCII only two
share their folded form with an ASCII letter, so folding these and the capitals decides equality with ASCII
names. What is typed is compared with names in ASCII by the bytes of its small letters, so there those
capitals outside ASCII count whose small form is an ASCII letter or takes another number of bytes. -/

namespace PlZero.Text

/-- A character as names are compared: capitals become small letters, the long s is an s and the
Kelvin sign a k. -/
def foldChar (value : Char) : Char :=
  if 'A' ≤ value && value ≤ 'Z' then Char.ofNat (value.toNat + 32)
  else if value.toNat = 0x17F then 's'
  else if value.toNat = 0x212A then 'k'
  else value

/-- A text as names are compared. -/
def fold (text : String) : String :=
  String.ofList (text.toList.map foldChar)

/-- The capitals outside ASCII whose small forms take another number of bytes, with these forms. -/
def shiftedForms : List (Nat × Nat) :=
  [(0x0130, 0x0069), (0x023A, 0x2C65), (0x023E, 0x2C66), (0x1E9E, 0x00DF), (0x2126, 0x03C9),
    (0x212A, 0x006B), (0x212B, 0x00E5), (0x2C62, 0x026B), (0x2C64, 0x027D), (0x2C6D, 0x0251),
    (0x2C6E, 0x0271), (0x2C6F, 0x0250), (0x2C70, 0x0252), (0x2C7E, 0x023F), (0x2C7F, 0x0240),
    (0xA78D, 0x0265), (0xA7AA, 0x0266), (0xA7AB, 0x025C), (0xA7AC, 0x0261), (0xA7AD, 0x026C),
    (0xA7AE, 0x026A), (0xA7B0, 0x029E), (0xA7B1, 0x0287), (0xA7B2, 0x029D), (0xA7C5, 0x0282),
    (0xA7CB, 0x0264), (0xA7DC, 0x019B)]

/-- The small form of a character, as far as its bytes can be compared with ASCII. -/
def smallChar (value : Char) : Char :=
  match shiftedForms.lookup value.toNat with
  | some code => Char.ofNat code
  | none => value.toLower

/-- A text in small letters. -/
def small (text : String) : String :=
  String.ofList (text.toList.map smallChar)

end PlZero.Text
