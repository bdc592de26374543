import PlZero.Proofs.Height

/-! What a run leaves behind when an instruction ends it. Beside the machine stands one that reaches the
cells of its stack by index and has no result if an index is outside the stack. Main statements: that
never happens, and an instruction that fails leaves the stack, what was printed and the marks as the
instructions before it made them. -/

namespace PlZero.Machine

open PlZero.Attempt PlZero.Text

namespace Indexed

/-- The cell at an index. -/
def cell? (stack : Stack) (index : Int) : Option Int32 :=
  if 0 ≤ index then stack[index.toNat]? else none

/-- The stack with another value in the cell at an index. -/
def assign? (stack : Stack) (index : Int) (value : Int32) : Option Stack :=
  if 0 ≤ index ∧ index < stack.size then some (stack.setIfInBounds index.toNat value) else none

/-- The cells below a height. -/
def below? (stack : Stack) (height : Int) : Option Stack :=
  if 0 ≤ height ∧ height ≤ stack.size then some (stack.extract 0 height.toNat) else none

/-- Whether a slot is one of the stack. -/
def isSlot (stack : Stack) (slot : Int32) : Bool :=
  0 ≤ slot.toInt && slot.toInt < stack.size

def load? (stack : Stack) (slot : Int32) : Option Effect :=
  if isSlot stack slot then do
    let value ← cell? stack slot.toInt
    return push stack value
  else some (.trap .accessViolation)

def store? (stack : Stack) (slot : Int32) : Option Effect :=
  if stack.size = 0 || !isSlot stack slot then some (.trap .accessViolation)
  else do
    let top ← cell? stack (stack.size - 1)
    let stored ← assign? stack slot.toInt top
    let lower ← below? stored (stored.size - 1)
    return .next lower

def write? (stack : Stack) : Option Effect :=
  if stack.size = 0 then some (.trap .accessViolation)
  else do
    let top ← cell? stack (stack.size - 1)
    let lower ← below? stack (stack.size - 1)
    return .print top lower

def compute? (stack : Stack) (operation : Operation) : Option Effect :=
  if stack.size < 2 then some (.trap .accessViolation)
  else do
    let right ← cell? stack (stack.size - 1)
    let left ← cell? stack (stack.size - 2)
    match arithmetic operation left right with
    | .error reason => return .trap reason
    | .ok value =>
      let lower ← below? stack (stack.size - 2)
      return .next (lower.push value)

/-- Carries out one instruction, unless it reaches outside the stack. -/
def step? (stack : Stack) (instruction : Instruction) : Option Effect :=
  match instruction.operation? with
  | none | some .illegal => some .halt
  | some .literal => some (push stack instruction.operand)
  | some .load => load? stack instruction.operand
  | some .store => store? stack instruction.operand
  | some .write => write? stack
  | some operation => compute? stack operation

/-- What a trap has to do with the stack it happened on, unless that is to name cells outside it. -/
def detail? (reason : Trap) (instruction : Instruction) (stack : Stack) : Option String :=
  match reason with
  | .divisionByZero | .arithmeticOverflow => do
    let left ← cell? stack (stack.size - 2)
    let right ← cell? stack (stack.size - 1)
    return "operands " ++ showInt left.toInt ++ ", " ++ showInt right.toInt
  | _ => some (trapDetail reason instruction stack)

/-- Carries out the rest of a program, with its failure if there is one, unless an instruction or the
description of a trap reaches outside the stack. -/
def runFrom? (progress : Progress) : Code → Option (Outcome × Option Failure)
  | [] => some (progress.finish progress.next progress.stack .finished, none)
  | instruction :: rest => do
    match ← step? progress.stack instruction with
    | .next stack => runFrom? (progress.proceed stack) rest
    | .print value stack =>
      match progress.sink.accept? with
      | some sink => runFrom? (progress.proceedPrinting value stack sink) rest
      | none => return (progress.finish (progress.next + 1) stack .sinkClosed, some .sinkClosed)
    | .halt => return (progress.finish (progress.next + 1) progress.stack .halted, none)
    | .trap reason =>
      let detail ← detail? reason instruction progress.stack
      return (progress.finish (progress.next + 1) progress.stack (.trapped reason instruction),
        some (.trap reason progress.next instruction detail))

/-- Runs a program on a machine that may have run others before. -/
def execute? (prior : Processor) (code : Code) : Option (Outcome × Option Failure) :=
  runFrom? { next := prior.reset.next, stack := prior.reset.stack, sink := prior.reset.sink } code

variable {stack : Stack}

theorem cell?_of_nonneg {index : Int} (h : 0 ≤ index) : cell? stack index = stack[index.toNat]? :=
  if_pos h

theorem cell?_top (h : stack.size ≠ 0) : cell? stack (stack.size - 1) = stack.back? := by
  have hindex : ((stack.size : Int) - 1).toNat = stack.size - 1 := by omega
  rw [cell?_of_nonneg (by omega), hindex, Array.back?_eq_getElem?]

theorem cell?_second (h : ¬stack.size < 2) : cell? stack (stack.size - 2) = stack.pop.back? := by
  have hindex : ((stack.size : Int) - 2).toNat = stack.size - 2 := by omega
  rw [cell?_of_nonneg (by omega), hindex, Array.back?_pop, if_neg (by omega)]

theorem below?_top (h : stack.size ≠ 0) : below? stack (stack.size - 1) = some stack.pop := by
  rw [below?, if_pos (by omega), Array.extract_eq_pop (by omega)]

theorem below?_second (h : ¬stack.size < 2) : below? stack (stack.size - 2) = some stack.pop.pop := by
  have hheight : ((stack.size : Int) - 2).toNat = min (stack.size - 2) (stack.size - 1) := by omega
  have hpop : stack.pop.extract 0 (stack.size - 2) = stack.pop.pop :=
    Array.extract_eq_pop (by rw [Array.size_pop]; omega)
  rw [below?, if_pos (by omega), hheight, ← hpop, ← Array.extract_eq_pop rfl, Array.extract_extract]
  simp

theorem cell?_slot {slot value : Int32} (h : slot? stack slot = some value) :
    isSlot stack slot = true ∧ cell? stack slot.toInt = some value := by
  obtain ⟨hslot, hcell⟩ := slot?_eq_some_iff.mp h
  have hinside : ¬(slot.toInt < 0 ∨ (stack.size : Int) ≤ slot.toInt) := by
    rw [← slot?_eq_none_iff, h]
    exact nofun
  refine ⟨?_, (cell?_of_nonneg hslot).trans hcell⟩
  simp only [isSlot, Bool.and_eq_true, decide_eq_true_eq]
  omega

theorem isSlot_eq_false {slot : Int32} (h : slot? stack slot = none) : isSlot stack slot = false := by
  have houtside := slot?_eq_none_iff.mp h
  simp only [isSlot, Bool.and_eq_false_iff, decide_eq_false_iff_not]
  omega

theorem exists_top (h : stack.size ≠ 0) : ∃ top, stack.back? = some top :=
  Option.ne_none_iff_exists'.mp fun hnone => h (back?_eq_none_iff.mp hnone)

theorem exists_operands (h : ¬stack.size < 2) :
    ∃ left right, stack.pop.back? = some left ∧ stack.back? = some right := by
  obtain ⟨left, hleft⟩ := @exists_top stack.pop (by rw [Array.size_pop]; omega)
  obtain ⟨right, hright⟩ := @exists_top stack (by omega)
  exact ⟨left, right, hleft, hright⟩

theorem load?_eq (stack : Stack) (slot : Int32) : load? stack slot = some (perform stack .load slot) := by
  rw [load?, perform]
  cases hslot : slot? stack slot with
  | none => simp [isSlot_eq_false hslot]
  | some value =>
      obtain ⟨hinside, hcell⟩ := cell?_slot hslot
      simp [hinside, hcell]

theorem store?_eq (stack : Stack) (slot : Int32) :
    store? stack slot = some (perform stack .store slot) := by
  rw [store?, perform]
  by_cases hsize : stack.size = 0
  · simp [back?_eq_none_iff.mpr hsize, hsize]
  obtain ⟨top, htop⟩ := exists_top hsize
  cases hslot : slot? stack slot with
  | none => simp [htop, isSlot_eq_false hslot]
  | some value =>
      obtain ⟨hinside, -⟩ := cell?_slot hslot
      have hassign : assign? stack slot.toInt top =
          some (stack.setIfInBounds slot.toInt.toNat top) :=
        if_pos (by simpa [isSlot] using hinside)
      have hlower := @below?_top (stack.setIfInBounds slot.toInt.toNat top)
        (by rwa [Array.size_setIfInBounds])
      rw [if_neg (by simp [hsize, hinside]), cell?_top hsize, htop, Option.bind_eq_bind, Option.bind_some,
        hassign, Option.bind_eq_bind, Option.bind_some, hlower]
      rfl

theorem write?_eq (stack : Stack) (operand : Int32) :
    write? stack = some (perform stack .write operand) := by
  rw [write?, perform]
  by_cases hsize : stack.size = 0
  · simp [back?_eq_none_iff.mpr hsize, hsize]
  obtain ⟨top, htop⟩ := exists_top hsize
  simp [htop, hsize, cell?_top hsize, below?_top hsize]

theorem compute?_eq {operation : Operation} (h : operation.isArithmetic = true) (stack : Stack)
    (operand : Int32) : compute? stack operation = some (perform stack operation operand) := by
  rw [compute?]
  by_cases hsize : stack.size < 2
  · obtain ⟨-, htrap⟩ | ⟨hmany, -⟩ := perform_arithmetic_cases h stack operand
    · rw [if_pos hsize, htrap]
    · exact absurd hsize hmany
  obtain ⟨left, right, hleft, hright⟩ := exists_operands hsize
  rw [if_neg hsize, perform_of_back? h hleft hright, cell?_top (by omega), cell?_second hsize, hleft,
    hright, below?_second hsize]
  simp only [Option.bind_eq_bind, Option.bind_some]
  cases arithmetic operation left right <;> rfl

/-- An instruction reaches for cells of the stack only. -/
theorem step?_eq (stack : Stack) (instruction : Instruction) :
    step? stack instruction = some (step stack instruction) := by
  rw [step?, step]
  cases instruction.operation? with
  | none => rfl
  | some operation =>
      cases operation with
      | illegal => rfl
      | literal => rfl
      | load => exact load?_eq stack _
      | store => exact store?_eq stack _
      | write => exact write?_eq stack _
      | add | subtract | multiply | divide => exact compute?_eq rfl stack _

theorem push_eq_trap {value : Int32} {reason : Trap} (h : push stack value = .trap reason) :
    reason = .stackOverflow := by
  rw [push] at h
  split at h <;> cases h
  rfl

/-- An operation that fails by itself had its operands. -/
theorem operands_of_trap {reason : Trap} {instruction : Instruction}
    (h : step stack instruction = .trap reason) (haccess : reason ≠ .accessViolation)
    (hfull : reason ≠ .stackOverflow) : ¬stack.size < 2 := by
  rw [step] at h
  split at h
  · rename_i operation _
    have harithmetic := @perform_arithmetic_cases operation
    cases operation with
    | illegal => cases h
    | literal => exact absurd (push_eq_trap h) hfull
    | load =>
        rw [perform] at h
        split at h
        · exact absurd (push_eq_trap h) hfull
        · exact absurd (Effect.trap.inj h).symm haccess
    | store =>
        rw [perform] at h
        split at h
        · cases h
        · exact absurd (Effect.trap.inj h).symm haccess
    | write =>
        rw [perform] at h
        split at h
        · cases h
        · exact absurd (Effect.trap.inj h).symm haccess
    | add | subtract | multiply | divide =>
        obtain ⟨-, htrap⟩ | ⟨hmany, -⟩ := harithmetic rfl stack instruction.operand
        · exact absurd (Effect.trap.inj (htrap.symm.trans h)).symm haccess
        · exact hmany
  · cases h

/-- A trap is described by cells of the stack only. -/
theorem detail?_eq {reason : Trap} {instruction : Instruction}
    (h : step stack instruction = .trap reason) :
    detail? reason instruction stack = some (trapDetail reason instruction stack) := by
  have hoperands := operands_of_trap h
  cases reason with
  | accessViolation | stackOverflow => rfl
  | divisionByZero | arithmeticOverflow =>
      have hsize := hoperands nofun nofun
      obtain ⟨left, right, hleft, hright⟩ := exists_operands hsize
      rw [detail?, trapDetail, cell?_top (by omega), cell?_second hsize, hleft, hright]
      rfl

theorem runFrom?_eq (progress : Progress) (code : Code) : runFrom? progress code =
    some (runFrom progress code, (runFrom progress code).failure?) := by
  induction code generalizing progress with
  | nil => rfl
  | cons instruction rest ih =>
      rw [runFrom?, runFrom, step?_eq]
      cases hstep : step progress.stack instruction with
      | next stack => exact ih _
      | print value stack =>
          cases progress.sink.accept? with
          | some sink => exact ih _
          | none => rfl
      | halt => rfl
      | trap reason =>
          simp only [Option.bind_eq_bind, Option.bind_some, detail?_eq hstep]
          rfl

/-- A run never reaches outside the stack, whatever the code and whatever ran before. -/
theorem execute?_eq (prior : Processor) (code : Code) : execute? prior code =
    some (prior.execute code, (prior.execute code).failure?) :=
  runFrom?_eq _ code

end Indexed

theorem step_eq_print_iff {stack after : Stack} {instruction : Instruction} {value : Int32} :
    step stack instruction = .print value after ↔
      instruction.operation? = some .write ∧ stack.back? = some value ∧ after = stack.pop := by
  rw [step]
  cases instruction.operation? with
  | none => simp
  | some operation =>
      have harithmetic := @perform_arithmetic_cases operation
      have hpush (value' : Int32) : push stack value' ≠ .print value after := by
        rw [push]
        split <;> simp
      cases operation with
      | illegal => simp [perform]
      | literal => simp [perform, hpush]
      | load => cases hslot : slot? stack instruction.operand <;> simp [perform, hslot, hpush]
      | store =>
          simp only [perform]
          split <;> simp
      | write => cases hback : stack.back? <;> simp [perform, hback, eq_comm]
      | add | subtract | multiply | divide =>
          rcases harithmetic rfl stack instruction.operand with
            ⟨-, h⟩ | ⟨-, ⟨after, h⟩ | h | h⟩ <;> simp [h]

/-- What an instruction prints: the top of the stack, if it is the one that writes. -/
def Instruction.written (instruction : Instruction) (stack : Stack) : Option Int32 :=
  if instruction.operation? = some .write then stack.back? else none

theorem written_of_next {stack after : Stack} {instruction : Instruction}
    (h : step stack instruction = .next after) : instruction.written stack = none := by
  refine if_neg fun hwrite => ?_
  rw [step, hwrite] at h
  simp only [perform] at h
  split at h <;> cases h

theorem Progress.step_records {progress after : Progress} {instruction : Instruction}
    (h : progress.step instruction = .ok after) :
    after.marks.map Mark.next = (progress.next + 1) :: progress.marks.map Mark.next ∧
      after.printed = (instruction.written progress.stack).toList ++ progress.printed := by
  rw [Progress.step] at h
  cases hstep : Machine.step progress.stack instruction with
  | next stack =>
      rw [hstep] at h
      cases h
      rw [written_of_next hstep]
      exact ⟨rfl, rfl⟩
  | print value stack =>
      obtain ⟨hwrite, htop, -⟩ := step_eq_print_iff.mp hstep
      have hwritten : instruction.written progress.stack = some value := (if_pos hwrite).trans htop
      rw [hstep] at h
      dsimp only at h
      split at h
      · cases h
        rw [hwritten]
        exact ⟨rfl, rfl⟩
      · cases h
  | halt =>
      rw [hstep] at h
      cases h
  | trap reason =>
      rw [hstep] at h
      cases h

/-! ### Whole runs -/

/-- What the instruction at an address prints when a run gets there. -/
def printedAt (prior : Processor) (code : Code) (address : Nat) : Option Int32 :=
  code[address]?.bind fun instruction =>
    instruction.written (prior.execute (code.take address)).stack

theorem printedAt_append (prior : Processor) {first second : Code} {address : Nat}
    (h : address < first.length) :
    printedAt prior (first ++ second) address = printedAt prior first address := by
  rw [printedAt, printedAt, List.getElem?_append_left h, List.take_append_of_le_length h.le]

/-- What a run has recorded when it gets behind code: the values of the instructions that write, and a
mark behind each instruction. -/
structure Recorded (prior : Processor) (code : Code) (reached : Progress) : Prop where
  next : reached.next = code.length
  printed : reached.printed.reverse = (List.range code.length).filterMap (printedAt prior code)
  marks : (reached.marks.map Mark.next).reverse = List.range' 1 code.length

theorem execute_of_advance {prior : Processor} {code : Code} {reached : Progress}
    (h : Progress.advance { sink := prior.sink } code = .ok reached) :
    (prior.execute code).stack = reached.stack ∧ (prior.execute code).ending = .finished := by
  rw [execute_eq_outcome_advance, h]
  exact ⟨rfl, rfl⟩

/-- The induction is on the code from its end, so that what comes before an instruction is a run of its
own. -/
theorem recorded_advance {prior : Processor} {code : Code} {reached : Progress}
    (h : Progress.advance { sink := prior.sink } code = .ok reached) : Recorded prior code reached := by
  induction code using List.reverseRecOn generalizing reached with
  | nil =>
      cases h
      exact ⟨rfl, rfl, rfl⟩
  | append_singleton before last ih =>
      have hreached := Progress.next_of_advance h
      rw [Progress.advance_append, bind_eq_ok_iff] at h
      obtain ⟨middle, hmiddle, hlast⟩ := h
      rw [Progress.advance_singleton] at hlast
      obtain ⟨hnext, hprinted, hmarks⟩ := ih hmiddle
      obtain ⟨hmarks', hprinted'⟩ := Progress.step_records hlast
      have hlength : (before ++ [last]).length = before.length + 1 := List.length_append
      have hsame : ∀ address ∈ List.range before.length,
          printedAt prior (before ++ [last]) address = printedAt prior before address :=
        fun address haddress => printedAt_append prior (List.mem_range.mp haddress)
      have hwritten : printedAt prior (before ++ [last]) before.length = last.written middle.stack := by
        rw [printedAt, List.getElem?_concat_length, List.take_left, (execute_of_advance hmiddle).1,
          Option.bind_some]
      refine ⟨hreached.trans (Nat.zero_add _), ?_, ?_⟩
      · rw [hprinted', hlength, List.range_succ, List.filterMap_append, List.filterMap_congr hsame,
          List.reverse_append, hprinted]
        cases hvalue : last.written middle.stack <;> simp [hwritten, hvalue]
      · rw [hmarks', hlength, List.range'_concat, List.reverse_cons, hmarks, hnext]
        simp [add_comm]

/-- The outcome of a run that the instruction at an address ended: the code before it was carried out,
with a mark behind each of its instructions, and what was printed is what its instructions wrote. -/
structure Outcome.StoppedAt (outcome : Outcome) (prior : Processor) (code : Code) (address : Nat) :
    Prop where
  inside : address < code.length
  before : (prior.execute (code.take address)).ending = .finished
  next : outcome.next = address + 1
  printed : outcome.printed = (List.range address).filterMap (printedAt prior code)
  marks : outcome.marks.map Mark.next = List.range' 1 address

theorem stoppedAt_finish {prior : Processor} {before after : Code} {instruction : Instruction}
    {reached : Progress} (h : Progress.advance { sink := prior.sink } before = .ok reached)
    (stack : Stack) (ending : Ending) :
    (reached.finish (reached.next + 1) stack ending).StoppedAt prior (before ++ instruction :: after)
      before.length := by
  obtain ⟨hnext, hprinted, hmarks⟩ := recorded_advance h
  refine ⟨by simp, ?_, congrArg (· + 1) hnext, ?_, ?_⟩
  · rw [List.take_left]
    exact (execute_of_advance h).2
  · refine hprinted.trans (List.filterMap_congr fun address haddress => ?_)
    exact (printedAt_append prior (List.mem_range.mp haddress)).symm
  · rw [Progress.finish, List.map_reverse, hmarks]

/-- How a run ends before the end of its code: with a trap or a halt, which leave the stack as it was, or
with a value that the sink does not take, which was the top of the stack. -/
theorem execute_cases_of_advance (prior : Processor) (code : Code) :
    (prior.execute code).ending = .finished ∨
    ∃ address instruction, code[address]? = some instruction ∧
      (prior.execute code).StoppedAt prior code address ∧
      ((∃ reason, (prior.execute code).ending = .trapped reason instruction ∧
          (prior.execute code).stack = (prior.execute (code.take address)).stack) ∨
        ((prior.execute code).ending = .halted ∧
          (prior.execute code).stack = (prior.execute (code.take address)).stack) ∨
        (prior.execute code).ending = .sinkClosed ∧
          ∃ top, (prior.execute (code.take address)).stack = (prior.execute code).stack.push top) := by
  rw [execute_eq_outcome_advance]
  cases hadvance : Progress.advance { sink := prior.sink } code with
  | ok reached => exact .inl rfl
  | error outcome =>
      obtain ⟨before, instruction, after, reached, rfl, hreached, hstep⟩ :=
        Progress.advance_eq_error_iff.mp hadvance
      have hstack : (prior.execute ((before ++ instruction :: after).take before.length)).stack =
          reached.stack := by
        rw [List.take_left]
        exact (execute_of_advance hreached).1
      have hstopped := @stoppedAt_finish prior before after instruction reached hreached
      refine .inr ⟨before.length, instruction, by simp, ?_⟩
      rw [hstack]
      rw [Progress.step] at hstep
      cases heffect : Machine.step reached.stack instruction with
      | next stack =>
          rw [heffect] at hstep
          cases hstep
      | print value stack =>
          obtain ⟨-, htop, rfl⟩ := step_eq_print_iff.mp heffect
          rw [heffect] at hstep
          dsimp only at hstep
          split at hstep
          · cases hstep
          · cases hstep
            obtain ⟨lower, hlower⟩ := Array.back?_eq_some_iff.mp htop
            refine ⟨hstopped _ _, .inr (.inr ⟨rfl, value, ?_⟩)⟩
            rw [hlower, Array.pop_push]
            rfl
      | halt =>
          rw [heffect] at hstep
          cases hstep
          exact ⟨hstopped _ _, .inr (.inl ⟨rfl, rfl⟩)⟩
      | trap reason =>
          rw [heffect] at hstep
          cases hstep
          exact ⟨hstopped _ _, .inl ⟨reason, rfl, rfl⟩⟩

/-- A run never reaches outside the stack, and the instruction that ends it leaves the machine as the
instructions before it did: a trap is reported for its address with the stack as it was, a halt is no
failure, and when the sink takes no more the top of the stack is gone and nothing else. -/
theorem execute_snapshot (prior : Processor) (code : Code) :
    Indexed.execute? prior code = some (prior.execute code, (prior.execute code).failure?) ∧
    (∀ reason address instruction detail,
      (prior.execute code).failure? = some (.trap reason address instruction detail) →
      code[address]? = some instruction ∧ (prior.execute code).StoppedAt prior code address ∧
        (prior.execute code).stack = (prior.execute (code.take address)).stack) ∧
    ((prior.execute code).ending = .halted → (prior.execute code).failure? = none ∧
      ∃ address, (prior.execute code).StoppedAt prior code address ∧
        (prior.execute code).stack = (prior.execute (code.take address)).stack) ∧
    ((prior.execute code).ending = .sinkClosed → (prior.execute code).failure? = some .sinkClosed ∧
      ∃ address, (prior.execute code).StoppedAt prior code address ∧
        ∃ top, (prior.execute (code.take address)).stack = (prior.execute code).stack.push top) := by
  refine ⟨Indexed.execute?_eq prior code, ?_⟩
  rcases execute_cases_of_advance prior code with hfinished | ⟨address, instruction, hcode, hstopped, h⟩
  · simp [Outcome.failure?, hfinished]
  rcases h with ⟨reason, hending, hstack⟩ | ⟨hending, hstack⟩ | ⟨hending, hstack⟩
  · refine ⟨?_, by simp [hending], by simp [hending]⟩
    intro cause place failed detail hfailure
    rw [Outcome.failure?, hending, hstopped.next, Nat.add_sub_cancel] at hfailure
    cases hfailure
    exact ⟨hcode, hstopped, hstack⟩
  · refine ⟨by simp [Outcome.failure?, hending], fun _ => ?_, by simp [hending]⟩
    exact ⟨by rw [Outcome.failure?, hending], address, hstopped, hstack⟩
  · refine ⟨by simp [Outcome.failure?, hending], by simp [hending], fun _ => ?_⟩
    exact ⟨by rw [Outcome.failure?, hending], address, hstopped, hstack⟩

/-- A machine that halted before, with a sink that takes one more value. -/
def usedProcessor : Processor := ⟨3, #[5], ⟨some 1⟩, true⟩

/-- Code that prints once and then divides by zero. -/
def failingCode : Code :=
  [.of .literal 7, .of .write, .of .literal 1, .of .literal 0, .of .divide, .of .write]

theorem execute_snapshot_failing :
    (usedProcessor.execute failingCode).failure? =
      some (.trap .divisionByZero 4 (.of .divide) "operands 1, 0") ∧
    (usedProcessor.execute failingCode).StoppedAt usedProcessor failingCode 4 ∧
    (usedProcessor.execute failingCode).stack = #[1, 0] := by
  have hfailure : (usedProcessor.execute failingCode).failure? =
      some (.trap .divisionByZero 4 (.of .divide) "operands 1, 0") := by decide +kernel
  obtain ⟨-, htrap, -, -⟩ := execute_snapshot usedProcessor failingCode
  obtain ⟨-, hstopped, hstack⟩ := htrap _ _ _ _ hfailure
  exact ⟨hfailure, hstopped, hstack.trans (by decide +kernel)⟩

end PlZero.Machine
