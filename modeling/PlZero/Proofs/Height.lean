import PlZero.Proofs.Admission
import PlZero.Proofs.ExactArithmetic
import PlZero.Proofs.Execution

/-! The height of the stack, read off the code alone. An instruction that is carried out changes the
height by what its operation puts on the stack and takes off, so code whose instructions are safe at
the heights where they stand neither halts nor reaches outside the stack. -/

namespace PlZero.Machine

/-- By how much an instruction changes the height of the stack. -/
def Instruction.effect (instruction : Instruction) : Int :=
  instruction.pushes - instruction.pops

/-- The height of the stack behind code that started on an empty one. -/
def height (code : Code) : Int :=
  (code.map Instruction.effect).sum

@[simp] theorem height_nil : height [] = 0 := rfl

@[simp] theorem height_cons (instruction : Instruction) (rest : Code) :
    height (instruction :: rest) = instruction.effect + height rest := by
  rw [height, List.map_cons, List.sum_cons, height]

@[simp] theorem height_append (first second : Code) :
    height (first ++ second) = height first + height second := by
  rw [height, List.map_append, List.sum_append, height, height]

/-- An instruction that a stack of the height can serve: it names a legal operation, there are values
enough to take off, and a slot that it refers to is in use. -/
structure SafeAt (height : Int) (instruction : Instruction) : Prop where
  legal : ∃ operation, instruction.operation? = some operation ∧ operation ≠ .illegal
  pops : (instruction.pops : Int) ≤ height
  load : instruction.operation? = some .load →
    0 ≤ instruction.operand.toInt ∧ instruction.operand.toInt < height
  store : instruction.operation? = some .store →
    0 ≤ instruction.operand.toInt ∧ instruction.operand.toInt < height - 1

/-- Every instruction is safe at the height where it stands, from a given height on. -/
def Disciplined (start : Int) (code : Code) : Prop :=
  Admits SafeAt (fun height instruction => height + instruction.effect) start code

theorem foldl_effect (start : Int) (code : Code) :
    code.foldl (fun height instruction => height + instruction.effect) start = start + height code := by
  induction code generalizing start with
  | nil => simp
  | cons instruction rest ih => rw [List.foldl_cons, ih, height_cons, add_assoc]

theorem disciplined_append {start : Int} {first second : Code} :
    Disciplined start (first ++ second) ↔
      Disciplined start first ∧ Disciplined (start + height first) second := by
  rw [Disciplined, admits_append, foldl_effect]
  rfl

theorem disciplined_singleton {start : Int} {instruction : Instruction} :
    Disciplined start [instruction] ↔ SafeAt start instruction := by
  simp [Disciplined, Admits]

theorem Disciplined.safeAt {code : Code} (h : Disciplined 0 code) {address : Nat}
    {instruction : Instruction} (hcode : code[address]? = some instruction) :
    SafeAt (height (code.take address)) instruction := by
  obtain ⟨haddress, rfl⟩ := List.getElem?_eq_some_iff.mp hcode
  have hsafe := admits_iff_split.mp h (code.take address) code[address] (code.drop (address + 1))
    (by rw [← List.drop_eq_getElem_cons haddress, List.take_append_drop])
  rwa [foldl_effect, zero_add] at hsafe

theorem safeAt_of {operation : Operation} {operand : Int32} {height : Int}
    (hlegal : operation ≠ .illegal) (hpops : (operation.pops : Int) ≤ height)
    (hload : operation = .load → 0 ≤ operand.toInt ∧ operand.toInt < height)
    (hstore : operation = .store → 0 ≤ operand.toInt ∧ operand.toInt < height - 1) :
    SafeAt height (.of operation operand) := by
  have hoperation : (Instruction.of operation operand).operation? = some operation :=
    Operation.ofOpcode?_opcode operation
  refine ⟨⟨operation, hoperation, hlegal⟩, ?_, ?_, ?_⟩
  · rwa [Instruction.pops, hoperation]
  · rw [hoperation, Option.some.injEq]
    exact hload
  · rw [hoperation, Option.some.injEq]
    exact hstore

theorem effect_of (operation : Operation) (operand : Int32) :
    (Instruction.of operation operand).effect = operation.pushes - operation.pops := by
  rw [Instruction.effect, Instruction.pushes, Instruction.pops, Instruction.operation?,
    Instruction.of, Operation.ofOpcode?_opcode]
  rfl

/-- From the height on, the code is disciplined and changes the height by the given amount. -/
def Nets (start : Int) (code : Code) (change : Int) : Prop :=
  Disciplined start code ∧ height code = change

theorem Nets.append {start change change' total : Int} {first second : Code}
    (h : Nets start first change) (h' : Nets (start + change) second change')
    (htotal : change + change' = total) : Nets start (first ++ second) total := by
  obtain ⟨hfirst, rfl⟩ := h
  obtain ⟨hsecond, rfl⟩ := h'
  exact ⟨disciplined_append.mpr ⟨hfirst, hsecond⟩, (height_append first second).trans htotal⟩

theorem nets_of {operation : Operation} {operand : Int32} {start : Int}
    (h : SafeAt start (.of operation operand)) :
    Nets start [.of operation operand] (operation.pushes - operation.pops) := by
  refine ⟨disciplined_singleton.mpr h, ?_⟩
  rw [height_cons, height_nil, effect_of, add_zero]

theorem nets_literal {start : Int} (hstart : 0 ≤ start) (value : Int32) :
    Nets start [.of .literal value] 1 :=
  nets_of (safeAt_of nofun hstart nofun nofun)

theorem nets_operation {start : Int} (hstart : 2 ≤ start) {operation : Operation}
    (h : operation.isArithmetic = true) : Nets start [.of operation] (-1) := by
  cases operation with
  | add | subtract | multiply | divide => exact nets_of (safeAt_of nofun hstart nofun nofun)
  | _ => cases h

theorem nets_store {start : Int} {slot : Int32} (hslot : 0 ≤ slot.toInt ∧ slot.toInt < start) :
    Nets (start + 1) [.of .store slot] (-1) := by
  refine nets_of (safeAt_of (by decide) ?_ ?_ fun _ => ?_)
  · rw [Operation.pops]
    omega
  · rintro ⟨⟩
  · omega

theorem nets_write {start : Int} (hstart : 0 ≤ start) : Nets (start + 1) [.of .write] (-1) := by
  refine nets_of (safeAt_of (by decide) ?_ ?_ ?_)
  · rw [Operation.pops]
    omega
  · rintro ⟨⟩
  · rintro ⟨⟩

/-- The code of items changes the height by as much as each of them does, times their number. -/
theorem nets_items {α : Type} {code : α → Code} {start change : Int} (items : List α)
    (hitem : ∀ before item after, items = before ++ item :: after →
      Nets (start + before.length * change) (code item) change) :
    Nets start (items.flatMap code) (items.length * change) := by
  induction items generalizing start with
  | nil => exact ⟨trivial, by simp⟩
  | cons item rest ih =>
      have hfirst : Nets start (code item) change := by simpa using hitem [] item rest rfl
      have hrest : Nets (start + change) (rest.flatMap code) (rest.length * change) := by
        refine ih fun before next after hsplit => ?_
        have hnext := hitem (item :: before) next after (by rw [hsplit]; rfl)
        rwa [List.length_cons, Nat.cast_add_one, add_one_mul, add_comm _ change, ← add_assoc] at hnext
      refine hfirst.append hrest ?_
      rw [List.length_cons, Nat.cast_add_one, add_one_mul, add_comm]

/-- The stack behind an instruction that was carried out. -/
def Effect.stack? : Effect → Option Stack
  | next stack => some stack
  | print _ stack => some stack
  | _ => none

theorem size_push {stack after : Stack} {value : Int32} (h : (push stack value).stack? = some after) :
    after.size = stack.size + 1 := by
  rw [push] at h
  split at h
  · cases h
  · cases h
    exact Array.size_push ..

theorem size_pos_of_back? {stack : Stack} {value : Int32} (h : stack.back? = some value) :
    0 < stack.size := by
  obtain ⟨rest, rfl⟩ := Array.back?_eq_some_iff.mp h
  rw [Array.size_push]
  omega

theorem size_perform {stack after : Stack} {operation : Operation} {operand : Int32}
    (h : (perform stack operation operand).stack? = some after) :
    after.size + operation.pops = stack.size + operation.pushes := by
  cases operation with
  | illegal => cases h
  | literal => exact size_push h
  | load =>
      simp only [perform] at h
      split at h
      · exact size_push h
      · cases h
  | store =>
      simp only [perform] at h
      split at h
      · rename_i htop _
        cases h
        have hsize := size_pos_of_back? htop
        simp only [Array.size_pop, Array.size_setIfInBounds, Operation.pops, Operation.pushes]
        omega
      · cases h
  | write =>
      simp only [perform] at h
      split at h
      · rename_i htop
        cases h
        have hsize := size_pos_of_back? htop
        simp only [Array.size_pop, Operation.pops, Operation.pushes]
        omega
      · cases h
  | add | subtract | multiply | divide =>
      simp only [perform] at h
      split at h
      · rename_i hleft _
        have hsize := size_pos_of_back? hleft
        rw [Array.size_pop] at hsize
        split at h
        · cases h
          simp only [Array.size_push, Array.size_pop, Operation.pops, Operation.pushes]
          omega
        · cases h
      · cases h

/-- An instruction changes the height of the stack by its effect. -/
theorem size_step {stack after : Stack} {instruction : Instruction}
    (h : (step stack instruction).stack? = some after) :
    (after.size : Int) = stack.size + instruction.effect := by
  rw [step] at h
  cases hoperation : instruction.operation? with
  | none =>
      rw [hoperation] at h
      cases h
  | some operation =>
      rw [hoperation] at h
      have hsize := size_perform h
      rw [Instruction.effect, Instruction.pushes, Instruction.pops, hoperation, Option.map_some,
        Option.map_some, Option.getD_some, Option.getD_some]
      omega

/-- The instruction neither halts the machine nor reaches outside the stack. -/
def Effect.StaysInside (effect : Effect) : Prop :=
  effect ≠ .halt ∧ effect ≠ .trap .accessViolation

theorem staysInside_push (stack : Stack) (value : Int32) : (push stack value).StaysInside := by
  rw [push]
  split <;> constructor <;> rintro ⟨⟩

theorem arithmetic_error {operation : Operation} (h : operation.isArithmetic = true)
    {left right : Int32} {reason : Trap} (herror : arithmetic operation left right = .error reason) :
    reason = .divisionByZero ∨ reason = .arithmeticOverflow := by
  cases hexact : result? operation left.toInt right.toInt with
  | none =>
      rw [arithmetic_of_none h hexact] at herror
      cases herror
      exact .inl rfl
  | some value =>
      rw [arithmetic_of_some h hexact] at herror
      split at herror <;> cases herror
      exact .inr rfl

theorem slot?_eq_none_iff {stack : Stack} {slot : Int32} :
    slot? stack slot = none ↔ slot.toInt < 0 ∨ (stack.size : Int) ≤ slot.toInt := by
  rw [slot?]
  by_cases hslot : slot.toInt < 0
  · simp [hslot]
  · rw [if_neg hslot, Array.getElem?_eq_none_iff]
    omega

theorem back?_eq_none_iff {stack : Stack} : stack.back? = none ↔ stack.size = 0 := by
  rw [Array.back?_eq_getElem?, Array.getElem?_eq_none_iff]
  omega

theorem push_eq_stackOverflow_iff {stack : Stack} {value : Int32} :
    push stack value = .trap .stackOverflow ↔ capacity ≤ stack.size := by
  rw [push]
  split <;> simp_all

/-- Arithmetic takes two values, and where it has them it fails only by itself. -/
theorem perform_arithmetic_cases {operation : Operation} (h : operation.isArithmetic = true)
    (stack : Stack) (operand : Int32) :
    stack.size < 2 ∧ perform stack operation operand = .trap .accessViolation ∨
    ¬stack.size < 2 ∧ ((∃ after, perform stack operation operand = .next after) ∨
      perform stack operation operand = .trap .divisionByZero ∨
      perform stack operation operand = .trap .arithmeticOverflow) := by
  by_cases hsize : stack.size < 2
  · have hnone : stack.pop.back? = none := by
      rw [back?_eq_none_iff, Array.size_pop]
      omega
    refine .inl ⟨hsize, ?_⟩
    cases operation with
    | add | subtract | multiply | divide => simp only [perform, hnone]
    | _ => cases h
  · refine .inr ⟨hsize, ?_⟩
    have hright : stack.back? ≠ none := by
      rw [Ne, back?_eq_none_iff]
      omega
    have hleft : stack.pop.back? ≠ none := by
      rw [Ne, back?_eq_none_iff, Array.size_pop]
      omega
    obtain ⟨right, hright⟩ := Option.ne_none_iff_exists'.mp hright
    obtain ⟨left, hleft⟩ := Option.ne_none_iff_exists'.mp hleft
    rw [perform_of_back? h hleft hright]
    cases harithmetic : arithmetic operation left right with
    | ok value => exact .inl ⟨_, rfl⟩
    | error reason =>
        rcases arithmetic_error h harithmetic with rfl | rfl
        · exact .inr (.inl rfl)
        · exact .inr (.inr rfl)

theorem perform_eq_halt_iff {stack : Stack} {operation : Operation} {operand : Int32} :
    perform stack operation operand = .halt ↔ operation = .illegal := by
  have harithmetic := @perform_arithmetic_cases operation
  cases operation with
  | illegal => simp [perform]
  | literal => simp [perform, (staysInside_push _ _).1]
  | load => cases hslot : slot? stack operand <;> simp [perform, hslot, (staysInside_push _ _).1]
  | store =>
      simp only [perform]
      split <;> simp
  | write => cases hback : stack.back? <;> simp [perform, hback]
  | add | subtract | multiply | divide =>
      rcases harithmetic rfl stack operand with
        ⟨-, h⟩ | ⟨-, ⟨after, h⟩ | h | h⟩ <;> simp [h]

theorem perform_eq_accessViolation_iff {stack : Stack} {operation : Operation} {operand : Int32} :
    perform stack operation operand = .trap .accessViolation ↔ stack.size < operation.pops ∨
      (operation = .load ∨ operation = .store) ∧ slot? stack operand = none := by
  have harithmetic := @perform_arithmetic_cases operation
  have htop := @back?_eq_none_iff stack
  cases operation with
  | illegal => simp [perform, Operation.pops]
  | literal => simp [perform, Operation.pops, (staysInside_push _ _).2]
  | load =>
      cases hslot : slot? stack operand <;>
        simp [perform, Operation.pops, hslot, (staysInside_push _ _).2]
  | store =>
      cases hslot : slot? stack operand <;> cases hback : stack.back? <;>
        simp_all [perform, Operation.pops]
  | write => cases hback : stack.back? <;> simp_all [perform, Operation.pops]
  | add | subtract | multiply | divide =>
      rcases harithmetic rfl stack operand with
        ⟨hsize, h⟩ | ⟨hsize, ⟨after, h⟩ | h | h⟩ <;> simp [h, Operation.pops, hsize]

theorem perform_eq_stackOverflow_iff {stack : Stack} {operation : Operation} {operand : Int32} :
    perform stack operation operand = .trap .stackOverflow ↔ capacity ≤ stack.size ∧
      (operation = .literal ∨ operation = .load ∧ slot? stack operand ≠ none) := by
  have harithmetic := @perform_arithmetic_cases operation
  cases operation with
  | illegal => simp [perform]
  | literal => simp [perform, push_eq_stackOverflow_iff]
  | load =>
      cases hslot : slot? stack operand <;> simp [perform, hslot, push_eq_stackOverflow_iff]
  | store =>
      simp only [perform]
      split <;> simp
  | write => cases hback : stack.back? <;> simp [perform, hback]
  | add | subtract | multiply | divide =>
      rcases harithmetic rfl stack operand with
        ⟨-, h⟩ | ⟨-, ⟨after, h⟩ | h | h⟩ <;> simp [h]

/-- A stack that can serve a legal operation does so, or it is full, or the arithmetic fails. -/
theorem staysInside_perform {stack : Stack} {operation : Operation} {operand : Int32}
    (hlegal : operation ≠ .illegal) (hpops : operation.pops ≤ stack.size)
    (hslot : operation = .load ∨ operation = .store →
      0 ≤ operand.toInt ∧ operand.toInt < stack.size) :
    (perform stack operation operand).StaysInside := by
  refine ⟨fun h => hlegal (perform_eq_halt_iff.mp h), fun h => ?_⟩
  rcases perform_eq_accessViolation_iff.mp h with hshort | ⟨huses, hnone⟩
  · exact absurd hpops (Nat.not_le.mpr hshort)
  · have hinside := hslot huses
    have houtside := slot?_eq_none_iff.mp hnone
    omega

theorem SafeAt.staysInside_step {stack : Stack} {instruction : Instruction}
    (h : SafeAt stack.size instruction) : (step stack instruction).StaysInside := by
  obtain ⟨operation, hoperation, hlegal⟩ := h.legal
  have hpops := h.pops
  rw [Instruction.pops, hoperation, Option.map_some, Option.getD_some] at hpops
  rw [step, hoperation]
  refine staysInside_perform hlegal (Int.ofNat_le.mp hpops) ?_
  rintro (rfl | rfl)
  · exact h.load hoperation
  · exact (h.store hoperation).imp_right fun hslot => by omega

/-! ### Runs -/

/-- A run that neither halted nor reached outside the stack. -/
def Outcome.StaysInside (outcome : Outcome) : Prop :=
  outcome.ending ≠ .halted ∧ ∀ instruction, outcome.ending ≠ .trapped .accessViolation instruction

/-- A safe instruction leads to the height that it promises, or ends the run inside the stack. -/
theorem SafeAt.step {progress : Progress} {instruction : Instruction}
    (h : SafeAt progress.stack.size instruction) :
    (∃ after, progress.step instruction = .ok after ∧
      (after.stack.size : Int) = progress.stack.size + instruction.effect) ∨
    ∃ outcome, progress.step instruction = .error outcome ∧ outcome.StaysInside := by
  have hinside := h.staysInside_step
  rw [Progress.step]
  cases hstep : Machine.step progress.stack instruction with
  | next stack => exact .inl ⟨_, rfl, size_step (hstep ▸ rfl)⟩
  | print value stack =>
      cases progress.sink.accept? with
      | none =>
          refine .inr ⟨_, rfl, ?_, ?_⟩
          · rintro ⟨⟩
          · rintro _ ⟨⟩
      | some sink => exact .inl ⟨_, rfl, size_step (hstep ▸ rfl)⟩
  | halt => exact absurd hstep hinside.1
  | trap reason =>
      refine .inr ⟨_, rfl, ?_, ?_⟩
      · rintro ⟨⟩
      · rintro _ ⟨⟩
        exact hinside.2 hstep

/-- Disciplined code stays inside the stack, whatever the sink takes. -/
theorem Disciplined.outcome_advance {code : Code} {progress : Progress}
    (h : Disciplined progress.stack.size code) :
    (Progress.outcome (progress.advance code)).StaysInside := by
  induction code generalizing progress with
  | nil => exact ⟨nofun, nofun⟩
  | cons instruction rest ih =>
      rw [Progress.advance_cons]
      obtain ⟨hsafe, hrest⟩ := h
      rcases hsafe.step with ⟨after, hstep, hsize⟩ | ⟨outcome, hstep, hinside⟩
      · rw [hstep, PlZero.Attempt.ok_bind]
        refine ih ?_
        rw [hsize]
        exact hrest
      · rw [hstep]
        exact hinside

theorem Disciplined.execute {code : Code} (h : Disciplined 0 code) (prior : Processor) :
    (prior.execute code).StaysInside := by
  rw [execute_eq_outcome_advance]
  exact outcome_advance h

end PlZero.Machine
