import PlZero.Machine.Run
import PlZero.Text.Grid

/-! What people read about a program and a machine: the listing of a program with the stack effect of
each instruction, and the tables that show a stack and a program with the places of the stack pointer
and the next instruction. -/

namespace PlZero.Machine

open PlZero.Text

/-- The version of the artifact format. -/
def formatVersion : Nat := 1

namespace Listing

/-- One line of a listing. -/
def line (address : Nat) (instruction : Instruction) : String :=
  padLeft 4 '0' (showNat address) ++ "  " ++ padRight 14 instruction.render ++ " ; pop "
    ++ showNat instruction.pops ++ " push " ++ showNat instruction.pushes ++ "\n"

/-- The listing of a program, under its name if it has one. -/
def render (name : String) (code : Code) : String :=
  (if name = "" then "" else "; === " ++ name ++ " ===\n")
    ++ "; PL/0 Bytecode v" ++ showNat formatVersion ++ "\n"
    ++ "; Instructions: " ++ showNat code.length ++ "\n\n"
    ++ String.join (code.mapIdx line)

/-- A sign at the place that it marks. -/
def pointer (sign : String) (marked : Int) (index : Nat) : Cell :=
  .text (if marked = index then sign else "")

/-- The table of a stack. -/
def stackGrid (stack : List Int32) : Grid where
  title := some "stack"
  headings := ["#", "value", "hex", ""]
  rows :=
    stack.mapIdx
      (fun index value =>
        [.number index, .number value.toInt, .text (hex 8 value.toUInt32.toNat), .text ""])
      ++ [[.number stack.length, .text "", .text "", .text "<== sp"]]

/-- The table of a program with the next instruction marked. -/
def codeGrid (code : Code) (next : Int) : Grid where
  title := some "code"
  headings := ["#", "instruction", ""]
  rows :=
    code.mapIdx
      (fun address instruction =>
        [.number address, .text instruction.render, pointer "<== ip" next address])
      ++ [[.number code.length, .text "", pointer "<== ip" next code.length]]

/-- The tables of a machine's stack and, if there is one, its program. -/
def state (code : Option Code) (next : Int) (stack : List Int32) : String :=
  (stackGrid stack).render ++ ((code.map fun program => (codeGrid program next).render).getD "")

end Listing

end PlZero.Machine
