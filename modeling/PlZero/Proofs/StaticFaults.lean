import PlZero.Proofs.Height

/-! Faults that code foretells. Apart from arithmetic, whether an instruction can be carried out
depends on the height of the stack alone, and the height is a sum over the code before it. Main
statement: a run reaches outside its stack, overfills it or halts exactly at the first address where
the opcodes and the slots say so, unless arithmetic has failed before. -/

namespace PlZero.Machine

open PlZero.Attempt

/-- The ways in which an instruction ends a run whatever the values on the stack are. -/
inductive StaticFault where
  | access
  | overflow
  | halt
  deriving DecidableEq, Repr

namespace StaticFault

/-- The instruction has the fault at the height: it takes more values than there are or refers to a
slot that is not in use, it puts a value on a full stack, or it names no legal operation. -/
def Occurs (height : Int) (instruction : Instruction) : StaticFault → Prop
  | access => height < instruction.pops ∨
      (instruction.operation? = some .load ∨ instruction.operation? = some .store) ∧
        (instruction.operand.toInt < 0 ∨ height ≤ instruction.operand.toInt)
  | overflow => height = capacity ∧ (instruction.operation? = some .literal ∨
      instruction.operation? = some .load ∧
        0 ≤ instruction.operand.toInt ∧ instruction.operand.toInt < height)
  | halt => instruction.operation? = some .illegal ∨ instruction.operation? = none

/-- The instruction with the address has the fault at the height that the code before it leaves. -/
def OccursAt (code : Code) (address : Nat) (fault : StaticFault) : Prop :=
  ∃ instruction, code[address]? = some instruction ∧
    fault.Occurs (height (code.take address)) instruction

/-- How a run ends that meets the fault. -/
def ending : StaticFault → Instruction → Ending
  | access, instruction => .trapped .accessViolation instruction
  | overflow, instruction => .trapped .stackOverflow instruction
  | halt, _ => .halted

def effect : StaticFault → Effect
  | access => .trap .accessViolation
  | overflow => .trap .stackOverflow
  | halt => .halt

end StaticFault

/-- The run ended at the instruction with the address, in the given way. -/
def Outcome.EndsAt (outcome : Outcome) (code : Code) (address : Nat)
    (ending : Instruction → Ending) : Prop :=
  outcome.next = address + 1 ∧
    ∃ instruction, code[address]? = some instruction ∧ outcome.ending = ending instruction

/-- Arithmetic failed at the address. -/
def Outcome.FailsArithmetic (outcome : Outcome) (code : Code) (address : Nat) : Prop :=
  outcome.EndsAt code address (.trapped .divisionByZero) ∨
    outcome.EndsAt code address (.trapped .arithmeticOverflow)

/-- An instruction ends a run by a fault exactly where the height says so. -/
theorem step_eq_effect_iff {stack : Stack} (hbound : stack.size ≤ capacity)
    {instruction : Instruction} {fault : StaticFault} :
    step stack instruction = fault.effect ↔ fault.Occurs stack.size instruction := by
  rw [step]
  cases hoperation : instruction.operation? with
  | none =>
      cases fault <;> simp [StaticFault.effect, StaticFault.Occurs, Instruction.pops, hoperation]
  | some operation =>
      cases fault with
      | halt => simp [StaticFault.effect, StaticFault.Occurs, hoperation, perform_eq_halt_iff]
      | access =>
          simp [StaticFault.effect, StaticFault.Occurs, Instruction.pops, hoperation,
            perform_eq_accessViolation_iff, slot?_eq_none_iff]
      | overflow =>
          simp [StaticFault.effect, StaticFault.Occurs, hoperation, slot?_eq_none_iff,
            perform_eq_stackOverflow_iff]
          intro _
          omega

theorem size_push_le {stack after : Stack} {value : Int32}
    (h : (push stack value).stack? = some after) : after.size ≤ capacity := by
  have hsize := size_push h
  rw [push] at h
  split at h
  · cases h
  · omega

theorem size_step_le {stack after : Stack} {instruction : Instruction}
    (hbound : stack.size ≤ capacity) (h : (step stack instruction).stack? = some after) :
    after.size ≤ capacity := by
  rw [step] at h
  split at h
  · rename_i operation _
    have hsize := size_perform h
    cases operation with
    | literal => exact size_push_le h
    | load =>
        simp only [perform] at h
        split at h
        · exact size_push_le h
        · cases h
    | _ =>
        simp only [Operation.pops, Operation.pushes] at hsize
        omega
  · cases h

/-- Where a run stands behind code that it was carried through. -/
structure Carried (start : Progress) (code : Code) (reached : Progress) : Prop where
  next : reached.next = start.next + code.length
  size : (reached.stack.size : Int) = start.stack.size + height code
  bound : reached.stack.size ≤ capacity
  sink : reached.sink = start.sink

theorem Progress.step_eq_ok {progress after : Progress} {instruction : Instruction}
    (hsink : progress.sink = Sink.endless) (hbound : progress.stack.size ≤ capacity)
    (h : progress.step instruction = .ok after) : Carried progress [instruction] after := by
  have hstack : (Machine.step progress.stack instruction).stack? = some after.stack ∧
      after.sink = progress.sink := by
    rw [Progress.step] at h
    split at h
    · rename_i hstep
      cases h
      simp [hstep, Effect.stack?, Progress.proceed]
    · rename_i hstep
      rw [hsink] at h
      cases h
      simp [hstep, Effect.stack?, Progress.proceedPrinting, Progress.proceed, hsink]
    · cases h
    · cases h
  obtain ⟨hstack, hsame⟩ := hstack
  refine ⟨Progress.next_of_step h, ?_, size_step_le hbound hstack, hsame⟩
  rw [size_step hstack, height_cons, height_nil, add_zero]

/-- A run is ended by an instruction that halts or traps, if its sink takes all values. -/
theorem Progress.step_eq_error {progress : Progress} {instruction : Instruction} {outcome : Outcome}
    (hsink : progress.sink = Sink.endless) (h : progress.step instruction = .error outcome) :
    outcome.next = progress.next + 1 ∧
      (Machine.step progress.stack instruction = .halt ∧ outcome.ending = .halted ∨
        ∃ reason, Machine.step progress.stack instruction = .trap reason ∧
          outcome.ending = .trapped reason instruction) := by
  rw [Progress.step] at h
  split at h
  · cases h
  · rw [hsink] at h
    cases h
  · rename_i hstep
    cases h
    exact ⟨rfl, .inl ⟨hstep, rfl⟩⟩
  · rename_i reason hstep
    cases h
    exact ⟨rfl, .inr ⟨reason, hstep, rfl⟩⟩

theorem carried_advance {start reached : Progress} {code : Code}
    (hsink : start.sink = Sink.endless) (hbound : start.stack.size ≤ capacity)
    (h : start.advance code = .ok reached) : Carried start code reached := by
  induction code generalizing start with
  | nil =>
      cases h
      exact ⟨rfl, by simp, hbound, rfl⟩
  | cons instruction rest ih =>
      have hnext := Progress.next_of_advance h
      rw [Progress.advance_cons, bind_eq_ok_iff] at h
      obtain ⟨behind, hstep, hrest⟩ := h
      have hfirst := Progress.step_eq_ok hsink hbound hstep
      have hothers := ih (hfirst.sink.trans hsink) hfirst.bound hrest
      refine ⟨hnext, ?_, hothers.bound, hothers.sink.trans hfirst.sink⟩
      rw [hothers.size, hfirst.size]
      simp only [height_cons, height_nil]
      omega

section Ends

variable {prior : Processor} (hsink : prior.sink = Sink.endless)
include hsink

/-- The height of the stack before an address is the height that the code before it leaves. -/
theorem carried_of_advance {code : Code} {reached : Progress}
    (h : Progress.advance { sink := prior.sink } code = .ok reached) :
    reached.next = code.length ∧ (reached.stack.size : Int) = height code ∧
      reached.stack.size ≤ capacity ∧ reached.sink = Sink.endless := by
  have hcarried := carried_advance hsink (Nat.zero_le _) h
  refine ⟨?_, ?_, hcarried.bound, hcarried.sink.trans hsink⟩
  · simpa using hcarried.next
  · simpa using hcarried.size

theorem occursAt_iff {before after : Code} {instruction : Instruction} {reached : Progress}
    (h : Progress.advance { sink := prior.sink } before = .ok reached) {fault : StaticFault} :
    fault.OccursAt (before ++ instruction :: after) before.length ↔
      step reached.stack instruction = fault.effect := by
  obtain ⟨-, hsize, hbound, -⟩ := carried_of_advance hsink h
  rw [step_eq_effect_iff hbound, hsize, StaticFault.OccursAt, List.take_left]
  simp

/-- A run passes over no instruction that has a fault where it stands. -/
theorem not_occursAt_of_advance {before rest : Code} {reached : Progress}
    (h : Progress.advance { sink := prior.sink } before = .ok reached) {address : Nat}
    (haddress : address < before.length) (fault : StaticFault) :
    ¬fault.OccursAt (before ++ rest) address := by
  obtain ⟨first, instruction, second, rfl, rfl⟩ : ∃ first instruction second,
      before = first ++ instruction :: second ∧ first.length = address :=
    ⟨before.take address, before[address], before.drop (address + 1),
      by rw [← List.drop_eq_getElem_cons haddress, List.take_append_drop],
      List.length_take_of_le haddress.le⟩
  rw [Progress.advance_append, bind_eq_ok_iff] at h
  obtain ⟨middle, hmiddle, h⟩ := h
  rw [Progress.advance_cons, bind_eq_ok_iff] at h
  obtain ⟨next, hnext, -⟩ := h
  rw [List.append_assoc, List.cons_append, occursAt_iff hsink hmiddle]
  intro hstep
  rw [Progress.step, hstep] at hnext
  cases fault <;> cases hnext

/-- A run gets through all code, or to an instruction that halts or traps. -/
theorem execute_cases (code : Code) :
    (∃ reached, Progress.advance { sink := prior.sink } code = .ok reached ∧
      (prior.execute code).ending = .finished) ∨
    ∃ before instruction after reached, code = before ++ instruction :: after ∧
      Progress.advance { sink := prior.sink } before = .ok reached ∧
      (prior.execute code).next = before.length + 1 ∧
      (step reached.stack instruction = .halt ∧ (prior.execute code).ending = .halted ∨
        ∃ reason, step reached.stack instruction = .trap reason ∧
          (prior.execute code).ending = .trapped reason instruction) := by
  rw [execute_eq_outcome_advance]
  cases hadvance : Progress.advance { sink := prior.sink } code with
  | ok reached => exact .inl ⟨reached, rfl, rfl⟩
  | error outcome =>
      obtain ⟨before, instruction, after, reached, rfl, hreached, hstep⟩ :=
        Progress.advance_eq_error_iff.mp hadvance
      obtain ⟨hnext, -, -, hendless⟩ := carried_of_advance hsink hreached
      obtain ⟨hlast, hending⟩ := Progress.step_eq_error hendless hstep
      refine .inr ⟨before, instruction, after, reached, rfl, hreached, ?_, hending⟩
      rw [← hnext]
      exact hlast

theorem endsAt_iff (code : Code) (fault : StaticFault) (address : Nat) :
    (prior.execute code).EndsAt code address fault.ending ↔
      fault.OccursAt code address ∧
      (∀ earlier < address, ∀ other : StaticFault, ¬other.OccursAt code earlier) ∧
      ∀ earlier < address, ¬(prior.execute code).FailsArithmetic code earlier := by
  constructor
  · rintro ⟨hnext, instruction, -, hending⟩
    rcases execute_cases hsink code with
      ⟨_, -, hfinished⟩ | ⟨before, last, after, reached, rfl, hreached, hlast, hcases⟩
    · rw [hfinished] at hending
      cases fault <;> cases hending
    obtain rfl : before.length = address := by omega
    have hstep : step reached.stack last = fault.effect := by
      rcases hcases with ⟨hstep, hends⟩ | ⟨reason, hstep, hends⟩ <;> rw [hends] at hending <;>
        cases fault <;> cases hending <;> exact hstep
    refine ⟨(occursAt_iff hsink hreached).mpr hstep,
      fun earlier hearlier => not_occursAt_of_advance hsink hreached hearlier, ?_⟩
    rintro earlier hearlier (⟨hother, -⟩ | ⟨hother, -⟩) <;> omega
  · rintro ⟨hoccurs, hnone, harithmetic⟩
    rcases execute_cases hsink code with
      ⟨reached, hreached, -⟩ | ⟨before, last, after, reached, rfl, hreached, hlast, hcases⟩
    · -- A run to the end passed over the address.
      obtain ⟨instruction, hinstruction, -⟩ := id hoccurs
      obtain ⟨haddress, -⟩ := List.getElem?_eq_some_iff.mp hinstruction
      have hpassed : ¬fault.OccursAt (code ++ []) address :=
        not_occursAt_of_advance hsink hreached haddress fault
      rw [List.append_nil] at hpassed
      exact absurd hoccurs hpassed
    have hat : (before ++ last :: after)[before.length]? = some last := by simp
    rcases Nat.lt_trichotomy before.length address with hbefore | rfl | hbehind
    · have hoccurs := fun other => mt (occursAt_iff hsink hreached).mpr (hnone _ hbefore other)
      have hfails := harithmetic _ hbefore
      rcases hcases with ⟨hstep, -⟩ | ⟨reason, hstep, hends⟩
      · exact absurd hstep (hoccurs .halt)
      · cases reason with
        | accessViolation => exact absurd hstep (hoccurs .access)
        | stackOverflow => exact absurd hstep (hoccurs .overflow)
        | divisionByZero => exact absurd (.inl ⟨hlast, last, hat, hends⟩) hfails
        | arithmeticOverflow => exact absurd (.inr ⟨hlast, last, hat, hends⟩) hfails
    · have hstep := (occursAt_iff hsink hreached).mp hoccurs
      refine ⟨hlast, last, hat, ?_⟩
      rcases hcases with ⟨hother, hends⟩ | ⟨reason, hother, hends⟩ <;> rw [hother] at hstep <;>
        cases fault <;> cases hstep <;> exact hends
    · exact absurd hoccurs (not_occursAt_of_advance hsink hreached hbehind fault)

end Ends

/-! ### Values do not matter -/

/-- The instruction without an operand that names no slot. -/
def Instruction.shape (instruction : Instruction) : Instruction :=
  if instruction.operation? = some .load ∨ instruction.operation? = some .store then instruction
  else ⟨instruction.opcode, 0⟩

theorem operation?_shape (instruction : Instruction) :
    instruction.shape.operation? = instruction.operation? := by
  unfold Instruction.shape
  split <;> rfl

theorem height_map_shape (code : Code) : height (code.map Instruction.shape) = height code := by
  have heffect (instruction : Instruction) : instruction.shape.effect = instruction.effect := by
    simp only [Instruction.effect, Instruction.pushes, Instruction.pops, operation?_shape]
  rw [height, height, List.map_map]
  exact congrArg List.sum (List.map_congr_left fun instruction _ => heffect instruction)

theorem occurs_shape {height : Int} {instruction : Instruction} {fault : StaticFault} :
    fault.Occurs height instruction.shape ↔ fault.Occurs height instruction := by
  have hoperand (h : instruction.operation? = some .load ∨ instruction.operation? = some .store) :
      instruction.shape = instruction := if_pos h
  cases fault with
  | halt => simp only [StaticFault.Occurs, operation?_shape]
  | access =>
      simp only [StaticFault.Occurs, Instruction.pops, operation?_shape]
      refine or_congr_right (and_congr_right fun h => ?_)
      rw [hoperand h]
  | overflow =>
      simp only [StaticFault.Occurs, operation?_shape]
      refine and_congr_right fun _ => or_congr_right (and_congr_right fun h => ?_)
      rw [hoperand (.inl h)]

theorem occursAt_map_shape {code : Code} {address : Nat} {fault : StaticFault} :
    fault.OccursAt (code.map Instruction.shape) address ↔ fault.OccursAt code address := by
  simp only [StaticFault.OccursAt, List.getElem?_map, Option.map_eq_some_iff, ← List.map_take,
    height_map_shape]
  constructor
  · rintro ⟨_, ⟨instruction, hinstruction, rfl⟩, hoccurs⟩
    exact ⟨instruction, hinstruction, occurs_shape.mp hoccurs⟩
  · rintro ⟨instruction, hinstruction, hoccurs⟩
    exact ⟨_, ⟨instruction, hinstruction, rfl⟩, occurs_shape.mpr hoccurs⟩

/-- A run on a sink that takes all values has, before each address, the height that the code before
the address leaves. It ends by a fault exactly at the first address where one occurs, unless
arithmetic failed before; so code that differs in values only, and whose arithmetic does not fail,
ends by the same fault at the same address. -/
theorem execute_ends_iff (code : Code) (prior : Processor) (hsink : prior.sink = Sink.endless) :
    (∀ address reached,
      Progress.advance { sink := prior.sink } (code.take address) = .ok reached →
        prior.execute code = runFrom reached (code.drop address) ∧
          (reached.stack.size : Int) = height (code.take address)) ∧
    (∀ (fault : StaticFault) (address : Nat),
      (prior.execute code).EndsAt code address fault.ending ↔
        fault.OccursAt code address ∧
        (∀ earlier < address, ∀ other : StaticFault, ¬other.OccursAt code earlier) ∧
        ∀ earlier < address, ¬(prior.execute code).FailsArithmetic code earlier) ∧
    ∀ other : Code, other.map Instruction.shape = code.map Instruction.shape →
      (∀ address, ¬(prior.execute code).FailsArithmetic code address) →
      (∀ address, ¬(prior.execute other).FailsArithmetic other address) →
      ∀ (fault : StaticFault) (address : Nat),
        (prior.execute code).EndsAt code address fault.ending ↔
          (prior.execute other).EndsAt other address fault.ending := by
  refine ⟨fun address reached hreached => ⟨?_, (carried_of_advance hsink hreached).2.1⟩,
    endsAt_iff hsink code, fun other hshape hcode hother fault address => ?_⟩
  · rw [execute_eq_outcome_advance, runFrom_eq_outcome_advance]
    nth_rewrite 1 [← List.take_append_drop address code]
    rw [Progress.advance_append, hreached, ok_bind]
  · have hoccurs (earlier : Nat) (found : StaticFault) :
        found.OccursAt other earlier ↔ found.OccursAt code earlier := by
      rw [← occursAt_map_shape, hshape, occursAt_map_shape]
    rw [endsAt_iff hsink, endsAt_iff hsink]
    simp only [hoccurs, hcode, hother]

/-- Code that refers to a slot above its stack, with an opcode behind that names no operation. -/
def strayCode : Code :=
  [.of .literal 7, .of .load 0, .of .divide, .of .literal (-3), .of .store 2, ⟨200, 5⟩]

theorem execute_ends_iff_stray :
    let prior : Processor := ⟨2, #[1], Sink.endless, true⟩
    prior.sink = Sink.endless ∧
      (prior.execute strayCode).EndsAt strayCode 4 StaticFault.access.ending ∧
      StaticFault.access.OccursAt strayCode 4 ∧
      (∀ earlier < 4, ∀ other : StaticFault, ¬other.OccursAt strayCode earlier) ∧
      ∀ earlier < 4, ¬(prior.execute strayCode).FailsArithmetic strayCode earlier := by
  intro prior
  have hends : (prior.execute strayCode).EndsAt strayCode 4 StaticFault.access.ending :=
    ⟨by decide +kernel, .of .store 2, rfl, by decide +kernel⟩
  exact ⟨rfl, hends, ((execute_ends_iff strayCode prior rfl).2.1 .access 4).mp hends⟩

end PlZero.Machine
