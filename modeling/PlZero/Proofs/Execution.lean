import Mathlib
import PlZero.Machine.Run
import PlZero.Proofs.Attempt

/-! A run as a sequence of steps. Carrying out a piece of code leads to a further point of the run or
ends it, so a run through two pieces of code is a run through the one and then, from where it got to,
through the other. -/

namespace PlZero.Machine

open PlZero.Attempt

namespace Progress

/-- The run behind one instruction, or its outcome if the instruction ends it. -/
def step (progress : Progress) (instruction : Instruction) : Except Outcome Progress :=
  match Machine.step progress.stack instruction with
  | .next stack => .ok (progress.proceed stack)
  | .print value stack =>
    match progress.sink.accept? with
    | some sink => .ok (progress.proceedPrinting value stack sink)
    | none => .error (progress.finish (progress.next + 1) stack .sinkClosed)
  | .halt => .error (progress.finish (progress.next + 1) progress.stack .halted)
  | .trap reason =>
    .error (progress.finish (progress.next + 1) progress.stack (.trapped reason instruction))

/-- The run behind a piece of code. -/
def advance (progress : Progress) (code : Code) : Except Outcome Progress :=
  code.foldlM step progress

theorem advance_cons (progress : Progress) (instruction : Instruction) (rest : Code) :
    progress.advance (instruction :: rest) =
      progress.step instruction >>= fun after => after.advance rest :=
  List.foldlM_cons

theorem advance_append (progress : Progress) (first second : Code) :
    progress.advance (first ++ second) =
      progress.advance first >>= fun after => after.advance second :=
  List.foldlM_append

theorem advance_singleton (progress : Progress) (instruction : Instruction) :
    progress.advance [instruction] = progress.step instruction := by
  rw [advance_cons]
  cases progress.step instruction <;> rfl

theorem next_of_step {progress after : Progress} {instruction : Instruction}
    (h : progress.step instruction = .ok after) : after.next = progress.next + 1 := by
  rw [step] at h
  split at h
  · cases h
    rfl
  · split at h
    · cases h
      rfl
    · cases h
  · cases h
  · cases h

theorem next_of_advance {progress after : Progress} {code : Code}
    (h : progress.advance code = .ok after) : after.next = progress.next + code.length := by
  induction code generalizing progress with
  | nil =>
      cases h
      rfl
  | cons instruction rest ih =>
      rw [advance_cons, bind_eq_ok_iff] at h
      obtain ⟨behind, hstep, hrest⟩ := h
      rw [ih hrest, next_of_step hstep, List.length_cons, add_assoc, add_comm 1]

/-- A run that ends within code got through a part of it to the instruction that ended it. -/
theorem advance_eq_error_iff {progress : Progress} {code : Code} {outcome : Outcome} :
    progress.advance code = .error outcome ↔ ∃ before instruction after reached,
      code = before ++ instruction :: after ∧ progress.advance before = .ok reached ∧
        reached.step instruction = .error outcome := by
  constructor
  · intro h
    induction code generalizing progress with
    | nil => cases h
    | cons instruction rest ih =>
        rw [advance_cons] at h
        cases hstep : progress.step instruction with
        | error ended =>
            rw [hstep] at h
            exact ⟨[], instruction, rest, progress, rfl, rfl, hstep.trans h⟩
        | ok next =>
            rw [hstep, ok_bind] at h
            obtain ⟨before, last, after, reached, rfl, hreached, hlast⟩ := ih h
            refine ⟨instruction :: before, last, after, reached, rfl, ?_, hlast⟩
            rw [advance_cons, hstep, ok_bind, hreached]
  · rintro ⟨before, instruction, after, reached, rfl, hreached, hstep⟩
    rw [advance_append, hreached, ok_bind, advance_cons, hstep]
    rfl

/-- The outcome of a run that got behind all code, or that an instruction ended. -/
def outcome : Except Outcome Progress → Outcome
  | .ok progress => progress.finish progress.next progress.stack .finished
  | .error outcome => outcome

end Progress

theorem runFrom_eq_outcome_advance (progress : Progress) (code : Code) :
    runFrom progress code = Progress.outcome (progress.advance code) := by
  induction code generalizing progress with
  | nil => rfl
  | cons instruction rest ih =>
      rw [Progress.advance_cons, Progress.step, runFrom]
      cases step progress.stack instruction with
      | next stack => exact ih _
      | print value stack =>
          cases progress.sink.accept? with
          | none => rfl
          | some sink => exact ih _
      | halt => rfl
      | trap reason => rfl

theorem execute_eq_outcome_advance (processor : Processor) (code : Code) :
    processor.execute code = Progress.outcome (Progress.advance { sink := processor.sink } code) :=
  runFrom_eq_outcome_advance _ _

/-! ### Single instructions -/

theorem step_of (stack : Stack) (operation : Operation) (operand : Int32) :
    step stack (.of operation operand) = perform stack operation operand := by
  rw [step, Instruction.operation?, Instruction.of, Operation.ofOpcode?_opcode]

theorem step_literal (stack : Stack) (value : Int32) :
    step stack (.of .literal value) = push stack value :=
  step_of stack .literal value

theorem perform_of_back? {operation : Operation} (hoperation : operation.isArithmetic = true)
    {stack : Stack} {first second : Int32} (hfirst : stack.pop.back? = some first)
    (hsecond : stack.back? = some second) (operand : Int32) : perform stack operation operand =
      match arithmetic operation first second with
      | .ok value => .next (stack.pop.pop.push value)
      | .error reason => .trap reason := by
  generalize harithmetic : arithmetic operation first second = result
  cases operation with
  | add | subtract | multiply | divide =>
      cases result <;> simp only [perform, hfirst, hsecond, harithmetic]
  | _ => cases hoperation

theorem perform_arithmetic {operation : Operation} (h : operation.isArithmetic = true) (stack : Stack)
    (left right operand : Int32) : perform ((stack.push left).push right) operation operand =
      match arithmetic operation left right with
      | .ok value => .next (stack.push value)
      | .error reason => .trap reason := by
  have hleft : ((stack.push left).push right).pop.back? = some left := by
    rw [Array.pop_push, Array.back?_push]
  rw [perform_of_back? h hleft Array.back?_push, Array.pop_push, Array.pop_push]

theorem slot?_eq_some_iff {stack : Stack} {slot value : Int32} :
    slot? stack slot = some value ↔ 0 ≤ slot.toInt ∧ stack[slot.toInt.toNat]? = some value := by
  rw [slot?]
  by_cases hslot : slot.toInt < 0
  · simp [hslot, Int.not_le.mpr hslot]
  · simp [hslot, Int.not_lt.mp hslot]

/-- A cell keeps its slot when a value is put on the stack. -/
theorem slot?_push {stack : Stack} {slot value : Int32} (h : slot? stack slot = some value)
    (pushed : Int32) : slot? (stack.push pushed) slot = some value := by
  obtain ⟨hslot, hcell⟩ := slot?_eq_some_iff.mp h
  obtain ⟨hheight, -⟩ := Array.getElem?_eq_some_iff.mp hcell
  refine slot?_eq_some_iff.mpr ⟨hslot, ?_⟩
  rw [Array.getElem?_push_lt hheight, ← hcell, Array.getElem?_eq_getElem hheight]

end PlZero.Machine
