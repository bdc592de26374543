import PlZero.Text.Glyph
import PlZero.Toml.Reader

/-! Building a document from its statements. A key is given once; but a table that came up only as part
of a longer key may be given itself, dotted keys may add to any table, and an array takes the place of
the tables that were built for its items. -/

namespace PlZero.Toml

open PlZero.Text

/-- A document being built: its tables, the table that entries go to, the keys of tables that came up
only as part of longer keys, and the keys that hold written-out arrays. -/
structure Builder where
  root : Table := []
  context : Key := []
  implied : List Key := []
  arrays : List Key := []

namespace Builder

/-- Records that a key came up only as part of a longer one. -/
def imply (builder : Builder) (key : Key) : Builder :=
  { builder with implied := key :: builder.implied }

/-- Gives a name in the current table a value, if it may have one. -/
def assign? (builder : Builder) (name : String) (value : Value) : Option Builder := do
  let key := builder.context ++ [name]
  let table ← Table.at? builder.context builder.root
  let put := Table.within (fun inner => some (Table.set inner name value)) builder.context
  match table.lookup name with
  | none => some { builder with root := ← put builder.root }
  | some _ =>
    if builder.implied.contains key then
      let settled := { builder with implied := builder.implied.filter fun other => other != key }
      if builder.arrays.contains key then some { settled with root := ← put builder.root }
      else some settled
    else none

/-- Records whether a name in the current table holds a written-out array; no name stands for the
current table itself. -/
def note (builder : Builder) (name : String) (isArray : Bool) : Builder :=
  let key :=
    match builder.context ++ (if name = "" then [] else [name]) with
    | [] => [""]
    | key => key
  let others := builder.arrays.filter fun other => other != key
  { builder with arrays := if isArray then key :: others else others }

/-- Adds one more table to the array of tables that a name holds. -/
def appendTable (name : String) (table : Table) : Option Table :=
  match table.lookup name with
  | none => some (Table.set table name (.tables [[]]))
  | some (.tables items) => some (Table.set table name (.tables (items ++ [[]])))
  | some _ => none

/-- Makes the table under a key the current one; tables on the way are put in place. -/
def open? (builder : Builder) (key : Key) (isArray : Bool) : Option Builder := do
  let name ← key.getLast?
  let (root, missing) ← Table.ensure [] key.dropLast builder.root
  let prepared :=
    { builder with root := root, context := key.dropLast, implied := missing ++ builder.implied }
  let opened ←
    if isArray then do
      some { prepared with root := ← Table.within (appendTable name) key.dropLast root }
    else prepared.assign? name (.table [])
  some { opened with context := key }

/-- Makes the table that the outer names of a dotted key lead to the current one. -/
def enter? (builder : Builder) (names : List String) : Option Builder :=
  names.foldlM (fun builder name =>
    let key := builder.context ++ [name]
    (builder.imply key).open? key false) builder

end Builder

/-- Whether a term is a written-out array. -/
def Term.isArray : Term → Bool
  | array _ => true
  | _ => false

/-- The value of an unquoted term. -/
def Scalar.value : Scalar → Value
  | boolean value => .boolean value
  | integer value => .integer value
  | float => .float
  | moment => .moment

mutual

/-- The value of a term that is given to a name in the current table. Inline tables are built in place,
as items of an array if they stand in one. -/
def evaluate? (name : String) (inArray : Bool) : Term → Builder → Option (Value × Builder)
  | .string text, builder => some (.string text, builder)
  | .scalar value, builder => some (value.value, builder)
  | .array items, builder => do
    let (values, filled) ← evaluateItems? name items (builder.note name true)
    some (.array values, filled)
  | .inline entries, builder => do
    let key := builder.context ++ [name]
    let opened ← (builder.imply key).open? key inArray
    let (table, filled) ← evaluateEntries? key entries opened []
    some (.table table, { filled with context := builder.context })

/-- The values of the items of an array. -/
def evaluateItems? (name : String) : List Term → Builder → Option (List Value × Builder)
  | [], builder => some ([], builder)
  | item :: rest, builder => do
    let (value, filled) ← evaluate? name true item builder
    let (values, done) ← evaluateItems? name rest filled
    some (value :: values, done)

/-- The table of the entries of an inline table, which is built under a key. -/
def evaluateEntries? (key : Key) :
    List (Key × Term) → Builder → Table → Option (Table × Builder)
  | [], builder, table => some (table, builder)
  | (names, term) :: rest, builder, table => do
    let name ← names.getLast?
    let entered ← builder.enter? names.dropLast
    let (value, filled) ← evaluate? name false term entered
    let assigned ← filled.assign? name value
    let grown ← Table.insert names.dropLast name value table
    evaluateEntries? key rest
      { assigned.note name term.isArray with context := key } grown

end

namespace Builder

/-- Carries out a statement. -/
def perform? (builder : Builder) : Statement → Option Builder
  | .table key => (builder.open? key false).map fun opened => opened.note "" false
  | .arrayTable key => (builder.open? key true).map fun opened => opened.note "" false
  | .entry key term => do
    let name ← key.getLast?
    let entered ← builder.enter? key.dropLast
    let (value, filled) ← evaluate? name false term entered
    let assigned ← filled.assign? name value
    some { assigned.note name term.isArray with context := builder.context }

end Builder

/-- A text without its byte order mark. -/
def dropMark : Bytes → Bytes
  | 0xFF :: 0xFE :: rest => rest
  | 0xFE :: 0xFF :: rest => rest
  | 0xEF :: 0xBB :: 0xBF :: rest => rest
  | text => text

/-- The table of a document. -/
def read? (text : Bytes) : Option Table := do
  let statements ← parse? (← chars? (dropMark text))
  let builder ← statements.foldlM Builder.perform? {}
  some builder.root

end PlZero.Toml
