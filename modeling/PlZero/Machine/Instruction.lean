import PlZero.Text.Numeral

/-! The instruction set of the stack machine. An instruction is an opcode byte with a 32-bit operand;
nine bytes name an operation and all others are illegal, and the operand means something to three
operations only. -/

namespace PlZero.Machine

open PlZero.Text

/-- The operations of the machine. -/
inductive Operation where
  | illegal
  | literal
  | load
  | store
  | add
  | subtract
  | multiply
  | divide
  | write
  deriving DecidableEq, Repr

namespace Operation

/-- All operations, in the order of their opcodes. -/
def all : List Operation :=
  [illegal, literal, load, store, add, subtract, multiply, divide, write]

def opcode : Operation → UInt8
  | illegal => 0
  | literal => 1
  | load => 2
  | store => 3
  | add => 4
  | subtract => 5
  | multiply => 6
  | divide => 7
  | write => 8

/-- The operation that an opcode names. -/
def ofOpcode? : UInt8 → Option Operation
  | 0 => some illegal
  | 1 => some literal
  | 2 => some load
  | 3 => some store
  | 4 => some add
  | 5 => some subtract
  | 6 => some multiply
  | 7 => some divide
  | 8 => some write
  | _ => none

def mnemonic : Operation → String
  | illegal => "ILL"
  | literal => "LIT"
  | load => "LOD"
  | store => "STO"
  | add => "ADD"
  | subtract => "SUB"
  | multiply => "MUL"
  | divide => "DIV"
  | write => "WRT"

/-- The operation with a mnemonic. -/
def ofMnemonic? (name : String) : Option Operation :=
  all.find? fun operation => operation.mnemonic == name

/-- How many values an operation takes off the stack. -/
def pops : Operation → Nat
  | store | write => 1
  | add | subtract | multiply | divide => 2
  | _ => 0

/-- How many values an operation puts on the stack. -/
def pushes : Operation → Nat
  | literal | load | add | subtract | multiply | divide => 1
  | _ => 0

/-- Whether the operand means something to an operation. -/
def hasOperand : Operation → Bool
  | literal | load | store => true
  | _ => false

def isArithmetic : Operation → Bool
  | add | subtract | multiply | divide => true
  | _ => false

theorem ofOpcode?_opcode (operation : Operation) :
    ofOpcode? operation.opcode = some operation := by
  cases operation <;> rfl

theorem ofMnemonic?_mnemonic (operation : Operation) :
    ofMnemonic? operation.mnemonic = some operation := by
  cases operation <;> rfl

end Operation

/-- The name of an opcode: its mnemonic, or the byte itself when it names no operation. -/
def opcodeName (opcode : UInt8) : String :=
  match Operation.ofOpcode? opcode with
  | some operation => operation.mnemonic
  | none => "UNKNOWN(0x" ++ (hex 2 opcode.toNat).toUpper ++ ")"

structure Instruction where
  opcode : UInt8
  operand : Int32 := 0
  deriving DecidableEq, Repr

/-- A program of the machine; instructions are addressed by their place, from 0. -/
abbrev Code := List Instruction

namespace Instruction

/-- The instruction of an operation, with no operand unless one is given. -/
def of (operation : Operation) (operand : Int32 := 0) : Instruction :=
  ⟨operation.opcode, operand⟩

def operation? (instruction : Instruction) : Option Operation :=
  Operation.ofOpcode? instruction.opcode

/-- Whether the operand means something. -/
def hasOperand (instruction : Instruction) : Bool :=
  (instruction.operation?.map Operation.hasOperand).getD false

def pops (instruction : Instruction) : Nat :=
  (instruction.operation?.map Operation.pops).getD 0

def pushes (instruction : Instruction) : Nat :=
  (instruction.operation?.map Operation.pushes).getD 0

/-- The name of the operation and, if it takes one, the operand. -/
def render (instruction : Instruction) : String :=
  if instruction.hasOperand then
    opcodeName instruction.opcode ++ " " ++ showInt instruction.operand.toInt
  else opcodeName instruction.opcode

end Instruction

end PlZero.Machine
