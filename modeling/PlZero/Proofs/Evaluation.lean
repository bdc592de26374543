import Mathlib
import PlZero.Source.Tree

/-! What a program means, said on its syntax tree alone. Names stand for 32-bit integers, operands are
evaluated from left to right in exact arithmetic, and the first division by zero or the first result
that does not fit into 32 bits stops the program. -/

namespace PlZero.Source

/-- Why a program stops before its end. -/
inductive Trouble where
  | divisionByZero
  | overflow
  deriving DecidableEq, Repr

/-- The 32-bit integer with an exact value, if there is one. -/
def fit (value : Int) : Except Trouble Int32 :=
  if -2 ^ 31 ≤ value ∧ value ≤ 2 ^ 31 - 1 then .ok (Int32.ofInt value) else .error .overflow

/-- The value of an operator on two integers; division truncates toward zero. -/
def BinaryOperator.evaluate (operator : BinaryOperator) (left right : Int) :
    Except Trouble Int32 :=
  match operator with
  | add => fit (left + right)
  | subtract => fit (left - right)
  | multiply => fit (left * right)
  | divide => if right = 0 then .error .divisionByZero else fit (left.tdiv right)

/-- The number that a sign multiplies with. -/
def Sign.unit : Sign → Int
  | plus => 1
  | minus => -1

/-- The values of names. -/
abbrev Environment := String → Int32

/-- The value of an expression. -/
def Expression.evaluate (values : Environment) : Expression → Except Trouble Int32
  | literal value => .ok value
  | name used => .ok (values used)
  | signed sign operand => do
    let value ← operand.evaluate values
    fit (value.toInt * sign.unit)
  | binary operator left right => do
    let first ← left.evaluate values
    let second ← right.evaluate values
    operator.evaluate first.toInt second.toInt

/-- A program on its way: the values of its names and the numbers printed so far. -/
structure Memory where
  values : Environment := fun _ => 0
  printed : List Int32 := []

namespace Memory

/-- The memory with a new value for a name. -/
def assign (memory : Memory) (name : String) (value : Int32) : Memory :=
  { memory with values := Function.update memory.values name value }

@[simp] theorem values_assign (memory : Memory) (name : String) (value : Int32) :
    (memory.assign name value).values = Function.update memory.values name value := rfl

/-- The memory after a number was printed. -/
def print (memory : Memory) (value : Int32) : Memory :=
  { memory with printed := memory.printed ++ [value] }

end Memory

/-- A program that stopped: why, and the numbers printed before. -/
structure Interruption where
  trouble : Trouble
  printed : List Int32
  deriving DecidableEq, Repr

/-- The value of an expression with the present values of names. -/
def Memory.evaluate (memory : Memory) (tree : Expression) : Except Interruption Int32 :=
  (tree.evaluate memory.values).mapError fun trouble => ⟨trouble, memory.printed⟩

/-- A constant has its value from its declaration on. -/
def Constant.evaluate (memory : Memory) (constant : Constant) : Except Interruption Memory :=
  .ok (memory.assign constant.name constant.value)

/-- A variable without an initial value starts with zero. -/
def Variable.evaluate (memory : Memory) (declared : Variable) : Except Interruption Memory :=
  match declared.initial with
  | some tree => do
    let value ← memory.evaluate tree
    return memory.assign declared.name value
  | none => .ok (memory.assign declared.name 0)

def Statement.evaluate (memory : Memory) : Statement → Except Interruption Memory
  | assign target tree => do
    let value ← memory.evaluate tree
    return memory.assign target value
  | print tree => do
    let value ← memory.evaluate tree
    return memory.print value
  | empty => .ok memory

/-- The memory at the end of a program, or what stopped it. -/
def Block.evaluate (block : Block) : Except Interruption Memory := do
  let constants ← block.constants.foldlM Constant.evaluate {}
  let declared ← block.vars.foldlM Variable.evaluate constants
  block.statements.foldlM Statement.evaluate declared

/-- The numbers that a program prints until it ends or stops. -/
def printedNumbers : Except Interruption Memory → List Int32
  | .ok memory => memory.printed
  | .error interruption => interruption.printed

end PlZero.Source
