import PlZero.Machine.Instruction

/-! Execution. One stack of at most 1024 cells serves as operand stack and as slot storage: slot `i`
is the cell at height `i`, counted from the bottom. A run goes from address 0 to the end of the code
unless an instruction halts it, faults, or prints to a sink that takes no more. -/

namespace PlZero.Machine

open PlZero.Text

/-- The cells from the bottom up. -/
abbrev Stack := Array Int32

/-- The greatest height of the stack. -/
def capacity : Nat := 1024

/-- Why an instruction cannot be carried out. -/
inductive Trap where
  | accessViolation
  | stackOverflow
  | divisionByZero
  | arithmeticOverflow
  deriving DecidableEq, Repr

namespace Trap

def describe : Trap → String
  | accessViolation => "access violation"
  | stackOverflow => "stack overflow"
  | divisionByZero => "division by zero"
  | arithmeticOverflow => "arithmetic overflow"

/-- The text of a numbered reason to stop: 1 is the illegal instruction, which halts a run, and the
traps follow it. -/
def describeNumber : Int → String
  | 1 => "illegal instruction"
  | 2 => accessViolation.describe
  | 3 => stackOverflow.describe
  | 4 => divisionByZero.describe
  | 5 => arithmeticOverflow.describe
  | number => "RuntimeErrorKind(" ++ showInt number ++ ")"

/-- A reason to stop as part of a message. -/
def label (text : String) : String :=
  "vm: " ++ text

end Trap

/-- The result of an arithmetic operation in 64 bits; division truncates toward zero. -/
def wide : Operation → Int64 → Int64 → Except Trap Int64
  | .add, left, right => .ok (left + right)
  | .subtract, left, right => .ok (left - right)
  | .multiply, left, right => .ok (left * right)
  | .divide, left, right => if right = 0 then .error .divisionByZero else .ok (left / right)
  | _, _, _ => .ok 0

/-- The cell value of a result in 64 bits, if it fits into 32. -/
def narrow (result : Int64) : Except Trap Int32 :=
  if 2147483647 < result || result < -2147483648 then .error .arithmeticOverflow
  else .ok result.toInt32

/-- The checked result of an arithmetic operation on two cells, computed in 64 bits. -/
def arithmetic (operation : Operation) (left right : Int32) : Except Trap Int32 := do
  narrow (← wide operation left.toInt64 right.toInt64)

/-- What carrying out one instruction comes to. -/
inductive Effect where
  | next (stack : Stack)
  | print (value : Int32) (stack : Stack)
  | halt
  | trap (reason : Trap)
  deriving DecidableEq, Repr

/-- The cell of a slot, if the stack is higher than the slot. -/
def slot? (stack : Stack) (slot : Int32) : Option Int32 :=
  if slot.toInt < 0 then none else stack[slot.toInt.toNat]?

/-- Puts a value on the stack unless it is full. -/
def push (stack : Stack) (value : Int32) : Effect :=
  if capacity ≤ stack.size then .trap .stackOverflow else .next (stack.push value)

/-- Carries out an operation on a stack. -/
def perform (stack : Stack) (operation : Operation) (operand : Int32) : Effect :=
  match operation with
  | .illegal => .halt
  | .literal => push stack operand
  | .load =>
    match slot? stack operand with
    | some value => push stack value
    | none => .trap .accessViolation
  | .store =>
    match stack.back?, slot? stack operand with
    | some top, some _ => .next (stack.setIfInBounds operand.toInt.toNat top).pop
    | _, _ => .trap .accessViolation
  | .write =>
    match stack.back? with
    | some top => .print top stack.pop
    | none => .trap .accessViolation
  | .add | .subtract | .multiply | .divide =>
    match stack.pop.back?, stack.back? with
    | some left, some right =>
      match arithmetic operation left right with
      | .ok value => .next (stack.pop.pop.push value)
      | .error reason => .trap reason
    | _, _ => .trap .accessViolation

/-- Carries out one instruction; an opcode that names no operation halts. -/
def step (stack : Stack) (instruction : Instruction) : Effect :=
  match instruction.operation? with
  | some operation => perform stack operation instruction.operand
  | none => .halt

/-- How many more values a sink takes; with no number given it takes all. A run ends at the first value
that is refused, so nothing else about a sink shows in it. -/
structure Sink where
  room : Option Nat := none
  deriving DecidableEq, Repr

namespace Sink

/-- A sink that takes every value. -/
def endless : Sink := {}

/-- The sink after one more value, unless it is closed. -/
def accept? (sink : Sink) : Option Sink :=
  match sink.room with
  | none => some sink
  | some 0 => none
  | some (left + 1) => some ⟨some left⟩

end Sink

/-- The machine after an instruction was carried out: the address of the next one, the height and the
top of the stack. -/
structure Mark where
  next : Nat
  height : Nat
  top : Option Int32
  deriving DecidableEq, Repr

/-- How a run ends. -/
inductive Ending where
  | finished
  | halted
  | trapped (reason : Trap) (instruction : Instruction)
  | sinkClosed
  deriving DecidableEq, Repr

/-- What a run leaves behind: the address of the next instruction, the stack, what is left of the
sink, the values printed and the marks of the instructions carried out. -/
structure Outcome where
  next : Nat
  stack : Stack
  sink : Sink
  printed : List Int32
  marks : List Mark
  ending : Ending
  deriving DecidableEq, Repr

/-- A run in progress, with the values printed and the marks made so far, the latest first. -/
structure Progress where
  next : Nat := 0
  stack : Stack := #[]
  sink : Sink := Sink.endless
  printed : List Int32 := []
  marks : List Mark := []

namespace Progress

/-- Ends a run, with the address of the next instruction and the stack as they then are. -/
def finish (progress : Progress) (next : Nat) (stack : Stack) (ending : Ending) : Outcome :=
  ⟨next, stack, progress.sink, progress.printed.reverse, progress.marks.reverse, ending⟩

/-- Goes on behind an instruction that left `stack`. -/
def proceed (progress : Progress) (stack : Stack) : Progress :=
  { progress with
    next := progress.next + 1
    stack := stack
    marks := ⟨progress.next + 1, stack.size, stack.back?⟩ :: progress.marks }

/-- Goes on behind an instruction that printed a value into a sink that became `sink`. -/
def proceedPrinting (progress : Progress) (value : Int32) (stack : Stack) (sink : Sink) :
    Progress :=
  let after := progress.proceed stack
  { after with sink := sink, printed := value :: progress.printed }

end Progress

/-- Carries out the rest of a program. -/
def runFrom (progress : Progress) : Code → Outcome
  | [] => progress.finish progress.next progress.stack .finished
  | instruction :: rest =>
    match step progress.stack instruction with
    | .next stack => runFrom (progress.proceed stack) rest
    | .print value stack =>
      match progress.sink.accept? with
      | some sink => runFrom (progress.proceedPrinting value stack sink) rest
      | none => progress.finish (progress.next + 1) stack .sinkClosed
    | .halt => progress.finish (progress.next + 1) progress.stack .halted
    | .trap reason =>
      progress.finish (progress.next + 1) progress.stack (.trapped reason instruction)

/-- A machine between two runs, as the last run left it. -/
structure Processor where
  next : Nat := 0
  stack : Stack := #[]
  sink : Sink := Sink.endless
  isHalted : Bool := false
  deriving DecidableEq, Repr

namespace Processor

/-- Forgets the last run; what is left of the sink stays. -/
def reset (processor : Processor) : Processor :=
  { processor with next := 0, stack := #[], isHalted := false }

/-- Runs a program on a machine that may have run others before. -/
def execute (processor : Processor) (code : Code) : Outcome :=
  let ready := processor.reset
  runFrom { next := ready.next, stack := ready.stack, sink := ready.sink } code

end Processor

/-- Runs a program on a new machine. -/
def run (code : Code) (sink : Sink := Sink.endless) : Outcome :=
  Processor.execute { sink := sink } code

/-- Printed values as text, one decimal line each. -/
def printedText (values : List Int32) : String :=
  String.join (values.map fun value => showInt value.toInt ++ "\n")

/-- Why a run failed. -/
inductive Failure where
  | trap (reason : Trap) (address : Nat) (instruction : Instruction) (detail : String)
  | sinkClosed
  deriving DecidableEq, Repr

/-- What a trap has to do with the stack it happened on. -/
def trapDetail (reason : Trap) (instruction : Instruction) (stack : Stack) : String :=
  match reason with
  | .accessViolation =>
    if instruction.operation? = some .load ∨ instruction.operation? = some .store then
      "slot " ++ showInt instruction.operand.toInt ++ " with stack height " ++ showNat stack.size
    else "stack height " ++ showNat stack.size
  | .stackOverflow => "capacity " ++ showNat capacity ++ " exceeded"
  | .divisionByZero | .arithmeticOverflow =>
    "operands " ++ showInt ((stack.pop.back?.getD 0).toInt) ++ ", "
      ++ showInt ((stack.back?.getD 0).toInt)

namespace Outcome

def output (outcome : Outcome) : String :=
  printedText outcome.printed

def isHalted (outcome : Outcome) : Bool :=
  outcome.ending == .halted

/-- The machine after a run. -/
def processor (outcome : Outcome) : Processor :=
  ⟨outcome.next, outcome.stack, outcome.sink, outcome.isHalted⟩

/-- The failure of a run that did not end by itself. -/
def failure? (outcome : Outcome) : Option Failure :=
  match outcome.ending with
  | .finished | .halted => none
  | .sinkClosed => some .sinkClosed
  | .trapped reason instruction =>
    some (.trap reason (outcome.next - 1) instruction
      (trapDetail reason instruction outcome.stack))

end Outcome

namespace Failure

def message : Failure → String
  | trap reason address instruction detail =>
    "vm: " ++ Trap.label reason.describe ++ " at " ++ showNat address ++ " ("
      ++ instruction.render ++ "): " ++ detail
  | sinkClosed => "vm: write output: sink closed"

end Failure

end PlZero.Machine
