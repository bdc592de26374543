import PlZero.Editor.Json

/-! The shapes of JSON values. A value has a shape if each part of it that the shape speaks of is of the
right kind; null stands for a value that is not given, so it has every shape, and fields that a record
does not know may hold anything. -/

namespace PlZero.Editor

open PlZero.Text

inductive Shape where
  | any
  | boolean
  | text
  | integer
  | unsigned
  | list (item : Shape)
  | record (fields : List (String × Shape))
  | either (left right : Shape)

namespace Shape

mutual

/-- Whether a value has a shape. -/
def admits : Shape → Json → Bool
  | any, _ => true
  | boolean, value => value.isNull || value.bool?.isSome
  | text, value => value.isNull || value.string?.isSome
  | integer, value => value.isNull || value.signed?.isSome
  | unsigned, value => value.isNull || value.unsigned?.isSome
  | list item, value =>
    match value with
    | .null => true
    | .array items => items.all fun entry => admits item entry
    | _ => false
  | record fields, value =>
    match value with
    | .null => true
    | .object _ => admitsFields fields value
    | _ => false
  | either left right, value => admits left value || admits right value

/-- Whether all that is given under the names of fields has their shapes. -/
def admitsFields : List (String × Shape) → Json → Bool
  | [], _ => true
  | (name, shape) :: rest, value =>
    ((value.given name).all fun given => admits shape given) && admitsFields rest value

end

/-- A record of truth values. -/
def flags (names : List String) : List (String × Shape) :=
  names.map fun name => (name, boolean)

/-- A record with one field. -/
def only (name : String) (shape : Shape) : Shape :=
  record [(name, shape)]

end Shape

end PlZero.Editor
