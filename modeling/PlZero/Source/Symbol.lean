import PlZero.Text.Numeral

/-! The symbol table of one compilation: the declared names in order. The place of a name in that
order is its slot, so slots are handed out from 0 across all classes. -/

namespace PlZero.Source

/-- What a declared name stands for. -/
inductive SymbolClass where
  | uninitialized
  | initialized
  | constant
  deriving DecidableEq, Repr

namespace SymbolClass

def describe : SymbolClass → String
  | uninitialized => "uninitialized variable"
  | initialized => "variable"
  | constant => "constant"

/-- The class with a number, counted from 0 in the order of the constructors. -/
def ofNumber? : Int → Option SymbolClass
  | 0 => some uninitialized
  | 1 => some initialized
  | 2 => some constant
  | _ => none

/-- The text of the class with a number. -/
def describeNumber (number : Int) : String :=
  ((ofNumber? number).map describe).getD "unknown"

/-- The class of a fresh declaration. -/
def ofDeclaration (isInitialized isConstant : Bool) : SymbolClass :=
  if isConstant then constant
  else if isInitialized then initialized
  else uninitialized

end SymbolClass

structure Symbol where
  name : String
  cls : SymbolClass
  slot : Int32
  deriving DecidableEq, Repr

/-- The declared names with their classes, in order of declaration. -/
structure SymbolTable where
  entries : List (String × SymbolClass) := []
  deriving DecidableEq, Repr

namespace SymbolTable

def empty : SymbolTable := {}

def size (table : SymbolTable) : Nat :=
  table.entries.length

/-- The class of a name. -/
def class? (table : SymbolTable) (name : String) : Option SymbolClass :=
  table.entries.lookup name

/-- The declared names, in order. -/
def names (table : SymbolTable) : List String :=
  table.entries.map Prod.fst

/-- The slot of a name: its place among the declared names. -/
def slot? (table : SymbolTable) (name : String) : Option Int32 :=
  (table.names.idxOf? name).map Int32.ofNat

def lookup? (table : SymbolTable) (name : String) : Option Symbol :=
  match table.class? name, table.slot? name with
  | some cls, some slot => some ⟨name, cls, slot⟩
  | _, _ => none

/-- Adds a name behind all others and gives its slot; a name that is already present is refused. -/
def declare? (table : SymbolTable) (name : String) (cls : SymbolClass) :
    Option (SymbolTable × Int32) :=
  match table.class? name with
  | some _ => none
  | none => some (⟨table.entries ++ [(name, cls)]⟩, Int32.ofNat table.size)

/-- Turns an uninitialized variable into an initialized one, and leaves all else as it is. -/
def markInitialized (table : SymbolTable) (name : String) : SymbolTable :=
  ⟨table.entries.map fun entry =>
    if entry.1 == name && entry.2 == .uninitialized then (entry.1, .initialized) else entry⟩

def isConstant (table : SymbolTable) (name : String) : Bool :=
  table.class? name == some .constant

def isUninitialized (table : SymbolTable) (name : String) : Bool :=
  table.class? name == some .uninitialized

/-- Every symbol, in slot order. -/
def symbols (table : SymbolTable) : List Symbol :=
  table.entries.mapIdx fun index entry => ⟨entry.1, entry.2, Int32.ofNat index⟩

end SymbolTable

end PlZero.Source
