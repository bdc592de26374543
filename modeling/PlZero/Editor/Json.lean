import PlZero.Text.LetterCase

/-! JSON values and their fields. A field is named exactly or but for case, and may be given more than
once: later values take the place of earlier ones, and objects are laid over each other. -/

namespace PlZero.Editor

open PlZero.Text

/-- A JSON value; a number is a whole number divided by a power of ten. -/
inductive Json where
  | null
  | bool (value : Bool)
  | number (value : Int) (decimals : Nat)
  | string (value : String)
  | array (items : List Json)
  | object (fields : List (String × Json))
  deriving Inhabited

namespace Json

/-- A whole number. -/
def ofNat (value : Nat) : Json :=
  .number value 0

/-- A list, or null in place of an empty one. -/
def listOrNull : List Json → Json
  | [] => null
  | items => array items

def isNull : Json → Bool
  | null => true
  | _ => false

/-- The fields of an object; other values have none. -/
def fields : Json → List (String × Json)
  | object fields => fields
  | _ => []

/-- The items of an array; other values have none. -/
def items : Json → List Json
  | array items => items
  | _ => []

def string? : Json → Option String
  | string value => some value
  | _ => none

def bool? : Json → Option Bool
  | bool value => some value
  | _ => none

/-- A number written without a fraction, between two bounds. -/
def integer? (least greatest : Int) : Json → Option Int
  | number value 0 => if least ≤ value ∧ value ≤ greatest then some value else none
  | _ => none

/-- An unsigned 32-bit number. -/
def unsigned? (value : Json) : Option UInt32 :=
  (value.integer? 0 4294967295).map fun number => number.toNat.toUInt32

/-- A signed 32-bit number. -/
def signed? (value : Json) : Option Int :=
  value.integer? (-2147483648) 2147483647

/-- A value that was given after another: null leaves the earlier one, and an object adds its fields to
it. -/
def overlay (earlier later : Json) : Json :=
  match earlier, later with
  | earlier, null => earlier
  | object before, object behind => object (before ++ behind)
  | _, later => later

/-- The values that are given under a name. -/
def given (value : Json) (name : String) : List Json :=
  (value.fields.filter fun entry => fold entry.1 == fold name).map Prod.snd

/-- The value of a field: what is given under its name, laid over each other. -/
def field (value : Json) (name : String) : Json :=
  (value.given name).foldl overlay null

/-- The value that is given last under a name. -/
def latest (value : Json) (name : String) : Json :=
  (value.given name).getLast?.getD null

end Json

end PlZero.Editor
