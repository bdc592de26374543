import PlZero.Archive.Store
import PlZero.Machine.Listing
import PlZero.Project.Manifest
import PlZero.Source.Compile

/-! Running programs for a user: the output, and what goes to the error stream beside it. The code of a
source comes from the cache where the project has one. -/

namespace PlZero.Command

open PlZero.Text PlZero.Files PlZero.Machine PlZero.Project PlZero.Source

/-- What a run shows: its output, the text on the error stream, and why it failed if it did. -/
structure RunReport where
  output : String
  errors : String
  failure : Option Failure
  deriving DecidableEq, Repr

/-- The machine after one instruction, on a line. -/
def traceLine (instruction : Instruction) (mark : Mark) : String :=
  padLeft 4 '0' (showNat (mark.next - 1)) ++ "  " ++ padRight 14 instruction.render ++ " sp="
    ++ padRight 4 (showNat mark.height) ++ " top="
    ++ ((mark.top.map fun value => showInt value.toInt).getD "-") ++ "\n"

/-- Runs a program; a trace shows every instruction, and a failure shows the machine. -/
def execute (code : Code) (trace : Bool) : RunReport :=
  let outcome := run code
  let steps := if trace then String.join (List.zipWith traceLine code outcome.marks) else ""
  match outcome.failure? with
  | none => ⟨outcome.output, steps, none⟩
  | some failure =>
    ⟨outcome.output, steps ++ Listing.state (some code) outcome.next outcome.stack.toList,
      some failure⟩

/-- The code of a source text, through the cache of the project if it is enabled and can be opened. -/
def compileCached (disk : Disk) (manifest : Manifest) (source : Bytes) (now : Int)
    (cancelled : Bool := false) : Disk × Except Fault Code :=
  if manifest.cacheEnabled then
    match Archive.openAt disk manifest.fullCachePath with
    | (opened, .error _) => (opened, compile source)
    | (opened, .ok store) =>
      let (shelf, result) := (Archive.Shelf.mk opened store).compile source now cancelled
      (shelf.disk, result)
  else (disk, compile source)

end PlZero.Command
