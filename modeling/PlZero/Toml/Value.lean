/-! Values of TOML documents. A table keeps its keys in the order in which they came up; an array of
tables grows by headers, while any other array is written out. -/

namespace PlZero.Toml

inductive Value where
  | string (text : String)
  | integer (value : Int)
  | boolean (value : Bool)
  | float
  | moment
  | array (items : List Value)
  | table (entries : List (String × Value))
  | tables (items : List (List (String × Value)))

abbrev Table := List (String × Value)

/-- The names on the way to a value. -/
abbrev Key := List String

namespace Table

/-- Gives a key a value, in its place if the key is there and behind all others if not. -/
def set (table : Table) (name : String) (value : Value) : Table :=
  match table with
  | [] => [(name, value)]
  | entry :: rest =>
    if entry.1 = name then (name, value) :: rest else entry :: set rest name value

/-- Changes the table that a key leads to; of an array of tables that is the last one. -/
def within (change : Table → Option Table) : Key → Table → Option Table
  | [], table => change table
  | name :: key, table =>
    match table.lookup name with
    | some (.table inner) => (within change key inner).map fun new => set table name (.table new)
    | some (.tables items) =>
      match items.getLast? with
      | some last =>
        (within change key last).map fun new => set table name (.tables (items.dropLast ++ [new]))
      | none => none
    | _ => none

/-- The table that a key leads to. -/
def at? : Key → Table → Option Table
  | [], table => some table
  | name :: key, table =>
    match table.lookup name with
    | some (.table inner) => at? key inner
    | some (.tables items) => items.getLast?.bind (at? key)
    | _ => none

/-- The table with every table on the way of a key in place, and the keys of those that were missing;
`done` is the way to this table. -/
def ensure (done : Key) : Key → Table → Option (Table × List Key)
  | [], table => some (table, [])
  | name :: key, table =>
    let path := done ++ [name]
    match table.lookup name with
    | none => (ensure path key []).map fun (new, missing) =>
      (set table name (.table new), path :: missing)
    | some (.table inner) => (ensure path key inner).map fun (new, missing) =>
      (set table name (.table new), missing)
    | some (.tables items) =>
      match items.getLast? with
      | some last => (ensure path key last).map fun (new, missing) =>
        (set table name (.tables (items.dropLast ++ [new])), missing)
      | none => none
    | _ => none

/-- Puts a value under a dotted key of an inline table. -/
def insert : Key → String → Value → Table → Option Table
  | [], name, value, table => some (set table name value)
  | outer :: key, name, value, table =>
    match table.lookup outer with
    | none => (insert key name value []).map fun new => set table outer (.table new)
    | some (.table inner) => (insert key name value inner).map fun new => set table outer (.table new)
    | _ => none

end Table

end PlZero.Toml
