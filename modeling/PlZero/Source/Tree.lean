import PlZero.Machine.Instruction

/-! Syntax trees of the source language, and the code they stand for. Constants and variables occupy
the bottom of the stack in order of declaration, so the slot of a name is its place among the declared
names. Every expression leaves one value on the stack. -/

namespace PlZero.Source

open PlZero.Machine

inductive Sign where
  | plus
  | minus
  deriving DecidableEq, Repr

namespace Sign

/-- The factor that a sign stands for. -/
def factor : Sign → Int32
  | plus => 1
  | minus => -1

/-- A signed literal, in 32-bit arithmetic. -/
def apply (sign : Sign) (value : Int32) : Int32 :=
  sign.factor * value

end Sign

inductive BinaryOperator where
  | add
  | subtract
  | multiply
  | divide
  deriving DecidableEq, Repr

/-- The machine's operation for an operator. -/
def BinaryOperator.operation : BinaryOperator → Operation
  | add => .add
  | subtract => .subtract
  | multiply => .multiply
  | divide => .divide

inductive Expression where
  | literal (value : Int32)
  | name (text : String)
  | signed (sign : Sign) (operand : Expression)
  | binary (operator : BinaryOperator) (left right : Expression)
  deriving DecidableEq, Repr

structure Constant where
  name : String
  value : Int32
  deriving DecidableEq, Repr

/-- A variable with its initial value, if its declaration gives one. -/
structure Variable where
  name : String
  initial : Option Expression
  deriving DecidableEq, Repr

inductive Statement where
  | assign (target : String) (value : Expression)
  | print (value : Expression)
  | empty
  deriving DecidableEq, Repr

/-- A whole program. -/
structure Block where
  constants : List Constant
  vars : List Variable
  statements : List Statement
  deriving DecidableEq, Repr

namespace Expression

/-- The code of an expression, for an assignment of slots to names. -/
def code (slot : String → Int32) : Expression → Code
  | literal value => [.of .literal value]
  | name used => [.of .load (slot used)]
  | signed sign operand => operand.code slot ++ [.of .literal sign.factor, .of .multiply]
  | binary operator left right =>
    left.code slot ++ (right.code slot ++ [.of operator.operation])

end Expression

/-- The code of a constant puts its value into its slot. -/
def Constant.code (constant : Constant) : Code :=
  [.of .literal constant.value]

/-- The code of a variable puts its initial value, or zero, into its slot. -/
def Variable.code (slot : String → Int32) (declared : Variable) : Code :=
  match declared.initial with
  | some value => value.code slot
  | none => [.of .literal 0]

def Statement.code (slot : String → Int32) : Statement → Code
  | assign target value => value.code slot ++ [.of .store (slot target)]
  | print value => value.code slot ++ [.of .write]
  | empty => []

namespace Block

/-- The declared names, in order of declaration. -/
def names (block : Block) : List String :=
  block.constants.map Constant.name ++ block.vars.map Variable.name

/-- The slot of a name. -/
def slot (block : Block) (name : String) : Int32 :=
  Int32.ofNat (block.names.idxOf name)

def code (block : Block) : Code :=
  block.constants.flatMap Constant.code ++ block.vars.flatMap (Variable.code block.slot)
    ++ block.statements.flatMap (Statement.code block.slot)

end Block

end PlZero.Source
