import PlZero.Proofs.Evaluation
import PlZero.Proofs.ExactArithmetic
import PlZero.Proofs.Execution
import PlZero.Proofs.Naming

/-! The machine carries out the code of a program as the program is evaluated. Between two items of a
block the stack holds the values of the names declared so far, in order of declaration; within an item
it holds the operands of the expression above them. The stack may run over at any push, and the
comparison ends there. -/

namespace PlZero.Source

open PlZero.Machine PlZero.Attempt

/-- The trap that a machine meets where an evaluation stops. -/
def Trouble.trap : Trouble → Trap
  | divisionByZero => .divisionByZero
  | overflow => .arithmeticOverflow

/-- The run ended because the stack was full. -/
def OverflowsStack (outcome : Outcome) : Prop :=
  ∃ instruction, outcome.ending = .trapped .stackOverflow instruction

/-- The run trapped, with the numbers printed before. -/
def StopsWith (printed : List Int32) (trouble : Trouble) (outcome : Outcome) : Prop :=
  outcome.printed = printed ∧ ∃ instruction, outcome.ending = .trapped trouble.trap instruction

/-- A piece of a run does what an evaluation says, unless the stack runs over. -/
inductive Follows {ε α : Type} (reaches : α → Progress → Prop) (stops : ε → Outcome → Prop) :
    Except ε α → Except Outcome Progress → Prop where
  | reached {value : α} {after : Progress} (h : reaches value after) :
      Follows reaches stops (.ok value) (.ok after)
  | stopped {cause : ε} {outcome : Outcome} (h : stops cause outcome) :
      Follows reaches stops (.error cause) (.error outcome)
  | overflown {result : Except ε α} {outcome : Outcome} (h : OverflowsStack outcome) :
      Follows reaches stops result (.error outcome)

namespace Follows

variable {ε δ α β : Type} {reaches : α → Progress → Prop} {reaches' : β → Progress → Prop}
  {stops : ε → Outcome → Prop} {stops' : δ → Outcome → Prop} {result : Except ε α}
  {attempt : Except Outcome Progress}

theorem bind (h : Follows reaches stops result attempt) {next : α → Except ε β}
    {more : Progress → Except Outcome Progress}
    (hnext : ∀ value after, reaches value after → Follows reaches' stops (next value) (more after)) :
    Follows reaches' stops (result >>= next) (attempt >>= more) := by
  cases h with
  | reached h => exact hnext _ _ h
  | stopped h => exact .stopped h
  | overflown h => exact .overflown h

theorem map (h : Follows reaches stops result attempt) {change : α → β}
    (hchange : ∀ value after, reaches value after → reaches' (change value) after) :
    Follows reaches' stops (result >>= fun value => pure (change value)) attempt := by
  cases h with
  | reached h => exact .reached (hchange _ _ h)
  | stopped h => exact .stopped h
  | overflown h => exact .overflown h

theorem mapError (h : Follows reaches stops result attempt) {change : ε → δ}
    (hstops : ∀ cause outcome, stops cause outcome → stops' (change cause) outcome) :
    Follows reaches stops' (result.mapError change) attempt := by
  cases h with
  | reached h => exact .reached h
  | stopped h => exact .stopped (hstops _ _ h)
  | overflown h => exact .overflown h

end Follows

/-- A run got from `start` to a stack, with the same sink and nothing printed. -/
structure Reaches (start : Progress) (stack : Stack) (after : Progress) : Prop where
  bound : stack.size ≤ capacity
  stack : after.stack = stack
  sink : after.sink = start.sink
  printed : after.printed = start.printed

section Steps

variable {start progress : Progress} {stack : Stack}

theorem follows_push {ε : Type} {stops : ε → Outcome → Prop} (h : Reaches start stack progress)
    {instruction : Instruction} {value : Int32} (hstep : step stack instruction = push stack value) :
    Follows (fun value => Reaches start (stack.push value)) stops (.ok value)
      (progress.step instruction) := by
  rw [Progress.step, h.stack, hstep, push]
  by_cases hfull : capacity ≤ stack.size
  · rw [if_pos hfull]
    exact .overflown ⟨instruction, rfl⟩
  · rw [if_neg hfull]
    refine .reached ⟨?_, rfl, h.sink, h.printed⟩
    rw [Array.size_push]
    omega

theorem arithmetic_operation (operator : BinaryOperator) (left right : Int32) :
    arithmetic operator.operation left right =
      (operator.evaluate left.toInt right.toInt).mapError Trouble.trap := by
  have hfit {value : Int}
      (hexact : result? operator.operation left.toInt right.toInt = some value) :
      arithmetic operator.operation left right = (fit value).mapError Trouble.trap := by
    rw [arithmetic_of_some operator.isArithmetic_operation hexact, fit]
    by_cases hfits : -2 ^ 31 ≤ value ∧ value ≤ 2 ^ 31 - 1
    · rw [if_pos hfits, if_pos (show FitsCell value from hfits)]
      rfl
    · rw [if_neg hfits, if_neg (show ¬FitsCell value from hfits)]
      rfl
  cases operator with
  | add => exact hfit rfl
  | subtract => exact hfit rfl
  | multiply => exact hfit rfl
  | divide =>
      rw [BinaryOperator.evaluate]
      by_cases hzero : right.toInt = 0
      · have hnone : result? (BinaryOperator.divide).operation left.toInt right.toInt = none :=
          if_pos hzero
        rw [if_pos hzero, arithmetic_of_none rfl hnone]
        rfl
      · rw [if_neg hzero]
        exact hfit (if_neg hzero)

theorem follows_operator (operator : BinaryOperator) {left right : Int32}
    (h : Reaches start ((stack.push left).push right) progress) :
    Follows (fun value => Reaches start (stack.push value)) (StopsWith start.printed.reverse)
      (operator.evaluate left.toInt right.toInt) (progress.step (.of operator.operation)) := by
  rw [Progress.step, h.stack, step_of, perform_arithmetic operator.isArithmetic_operation,
    arithmetic_operation]
  cases operator.evaluate left.toInt right.toInt with
  | error trouble => exact .stopped ⟨congrArg List.reverse h.printed, _, rfl⟩
  | ok value =>
      refine .reached ⟨?_, rfl, h.sink, h.printed⟩
      have hbound := h.bound
      rw [Array.size_push, Array.size_push] at hbound
      rw [Array.size_push]
      omega

end Steps

theorem Sign.toInt_factor (sign : Sign) : sign.factor.toInt = sign.unit := by
  cases sign <;> rfl

/-- The code of an expression puts its value on the stack, if the slots of its names hold their
values. -/
theorem Expression.follows {slot : String → Int32} {values : Environment} (tree : Expression)
    {start progress : Progress} {stack : Stack} (h : Reaches start stack progress)
    (hframe : ∀ used ∈ tree.names, slot? stack (slot used) = some (values used)) :
    Follows (fun value => Reaches start (stack.push value)) (StopsWith start.printed.reverse)
      (tree.evaluate values) (progress.advance (tree.code slot)) := by
  induction tree generalizing progress stack with
  | literal value =>
      rw [code, Progress.advance_singleton]
      exact follows_push h (step_literal _ _)
  | name used =>
      rw [code, Progress.advance_singleton]
      refine follows_push h ?_
      rw [step_of, perform, hframe used List.mem_cons_self]
  | signed sign operand ih =>
      rw [code, Progress.advance_append]
      refine (ih h hframe).bind fun value middle hmiddle => ?_
      have hfactor : fit (value.toInt * sign.unit) = Except.ok sign.factor >>= fun factor =>
          BinaryOperator.multiply.evaluate value.toInt factor.toInt := by
        rw [ok_bind, Sign.toInt_factor]
        rfl
      rw [hfactor, Progress.advance_cons]
      refine (follows_push hmiddle (step_literal _ _)).bind fun factor after hafter => ?_
      rw [Progress.advance_singleton]
      exact follows_operator .multiply hafter
  | binary operator left right ihleft ihright =>
      rw [code, Progress.advance_append]
      have hleft := ihleft h fun used hused => hframe used (List.mem_append_left _ hused)
      refine hleft.bind fun first middle hmiddle => ?_
      rw [Progress.advance_append]
      have hright := ihright hmiddle fun used hused =>
        slot?_push (hframe used (List.mem_append_right _ hused)) first
      refine hright.bind fun second after hafter => ?_
      rw [Progress.advance_singleton]
      exact follows_operator operator hafter

/-- Between two items the stack holds the values of the names declared so far. -/
structure Represents (names : List String) (memory : Memory) (progress : Progress) : Prop where
  cells : progress.stack.toList = names.map memory.values
  bound : progress.stack.size ≤ capacity
  sink : progress.sink = Sink.endless
  printed : progress.printed.reverse = memory.printed

/-- The run trapped where the evaluation stopped. -/
def Interrupts (interruption : Interruption) (outcome : Outcome) : Prop :=
  StopsWith interruption.printed interruption.trouble outcome

namespace Represents

variable {names : List String} {memory : Memory} {progress : Progress}

theorem reaches (h : Represents names memory progress) : Reaches progress progress.stack progress :=
  ⟨h.bound, rfl, rfl, rfl⟩

theorem size (h : Represents names memory progress) : progress.stack.size = names.length := by
  rw [← Array.length_toList, h.cells, List.length_map]

/-- A stack is far lower than the least place that is no slot. -/
theorem toInt_slot (h : Represents names memory progress) {name : String} (hname : name ∈ names) :
    (Int32.ofNat (names.idxOf name)).toInt = names.idxOf name := by
  refine Int32.toInt_ofNat_of_lt ?_
  have hindex := List.idxOf_lt_length_of_mem hname
  have hbound := h.bound
  rw [h.size, capacity] at hbound
  omega

theorem getElem?_idxOf (h : Represents names memory progress) {name : String}
    (hname : name ∈ names) : progress.stack[names.idxOf name]? = some (memory.values name) := by
  rw [← Array.getElem?_toList, h.cells, List.getElem?_map,
    List.getElem?_eq_getElem (List.idxOf_lt_length_of_mem hname), List.getElem_idxOf]
  rfl

theorem slot?_idxOf (h : Represents names memory progress) {name : String} (hname : name ∈ names) :
    slot? progress.stack (Int32.ofNat (names.idxOf name)) = some (memory.values name) := by
  rw [slot?_eq_some_iff, h.toInt_slot hname, Int.toNat_natCast]
  exact ⟨Int.natCast_nonneg _, h.getElem?_idxOf hname⟩

theorem follows_expression (h : Represents names memory progress) {slot : String → Int32}
    {tree : Expression} (hnames : ∀ used ∈ tree.names, used ∈ names)
    (hslot : ∀ used ∈ names, slot used = Int32.ofNat (names.idxOf used)) :
    Follows (fun value => Reaches progress (progress.stack.push value)) Interrupts
      (memory.evaluate tree) (progress.advance (tree.code slot)) := by
  have hframe : ∀ used ∈ tree.names,
      slot? progress.stack (slot used) = some (memory.values used) := by
    intro used hused
    rw [hslot used (hnames used hused)]
    exact h.slot?_idxOf (hnames used hused)
  refine (tree.follows h.reaches hframe).mapError fun trouble outcome hstops => ?_
  rw [h.printed] at hstops
  exact hstops

/-- The value on top of the stack becomes that of a name declared behind the others. -/
theorem declare (h : Represents names memory progress) {name : String} (hname : name ∉ names)
    {value : Int32} {after : Progress} (hafter : Reaches progress (progress.stack.push value) after) :
    Represents (names ++ [name]) (memory.assign name value) after := by
  refine ⟨?_, hafter.stack ▸ hafter.bound, hafter.sink.trans h.sink, ?_⟩
  · have hothers : names.map (Function.update memory.values name value) =
        names.map memory.values := by
      refine List.map_congr_left fun other hother => Function.update_of_ne ?_ _ _
      rintro rfl
      exact hname hother
    rw [hafter.stack, Array.toList_push, h.cells, Memory.values_assign, List.map_append, hothers,
      List.map_singleton, Function.update_self]
  · rw [hafter.printed]
    exact h.printed

/-- The value on top of the stack goes into the slot of a name. -/
theorem store (h : Represents names memory progress) (hnodup : names.Nodup) {target : String}
    (htarget : target ∈ names) {value : Int32} {after : Progress}
    (hafter : Reaches progress (progress.stack.push value) after) :
    ∃ final, after.step (.of .store (Int32.ofNat (names.idxOf target))) = .ok final ∧
      Represents names (memory.assign target value) final := by
  have hslot := slot?_push (h.slot?_idxOf htarget) value
  rw [Progress.step, step_of, perform, hafter.stack, Array.back?_push, hslot]
  simp only [h.toInt_slot htarget, Int.toNat_natCast]
  refine ⟨_, rfl, ?_, ?_, hafter.sink.trans h.sink, ?_⟩
  · have hindex := List.idxOf_lt_length_of_mem htarget
    have hset : names.map (Function.update memory.values target value) =
        (names.map memory.values).set (names.idxOf target) value := by
      rw [hnodup.map_update, if_pos htarget]
    have hlength : names.idxOf target < progress.stack.toList.length := by
      rwa [Array.length_toList, h.size]
    rw [Progress.proceed, Memory.values_assign, hset, ← h.cells, Array.toList_pop,
      Array.toList_setIfInBounds, Array.toList_push, List.set_append_left _ _ hlength,
      List.dropLast_concat]
  · simp only [Progress.proceed, Array.size_pop, Array.size_setIfInBounds, Array.size_push]
    exact h.bound
  · exact (congrArg List.reverse hafter.printed).trans h.printed

/-- The value on top of the stack is printed. -/
theorem write (h : Represents names memory progress) {value : Int32} {after : Progress}
    (hafter : Reaches progress (progress.stack.push value) after) :
    ∃ final, after.step (.of .write) = .ok final ∧
      Represents names (memory.print value) final := by
  have haccept : after.sink.accept? = some Sink.endless := by
    rw [hafter.sink, h.sink]
    rfl
  rw [Progress.step, step_of, perform, hafter.stack, Array.back?_push, Array.pop_push]
  simp only [haccept]
  refine ⟨_, rfl, h.cells, h.bound, rfl, ?_⟩
  simp only [Progress.proceedPrinting, Memory.print, List.reverse_cons]
  rw [hafter.printed, h.printed]

end Represents

/-- Items are carried out one behind the other. What holds between two of them may speak of the items
that were carried out before. -/
theorem follows_items {α : Type} {evaluate : Memory → α → Except Interruption Memory}
    {code : α → Code} (holds : List α → Memory → Progress → Prop) (items : List α)
    (hitem : ∀ before item after, items = before ++ item :: after → ∀ memory progress,
      holds before memory progress →
        Follows (holds (before ++ [item])) Interrupts (evaluate memory item)
          (progress.advance (code item)))
    {memory : Memory} {progress : Progress} (hstart : holds [] memory progress) :
    Follows (holds items) Interrupts (items.foldlM evaluate memory)
      (progress.advance (items.flatMap code)) := by
  have hrest : ∀ (rest before : List α) (memory : Memory) (progress : Progress),
      items = before ++ rest → holds before memory progress →
        Follows (holds items) Interrupts (rest.foldlM evaluate memory)
          (progress.advance (rest.flatMap code)) := by
    intro rest
    induction rest with
    | nil =>
        intro before memory progress hitems hholds
        rw [List.append_nil] at hitems
        exact .reached (hitems ▸ hholds)
    | cons item rest ih =>
        intro before memory progress hitems hholds
        rw [List.foldlM_cons, List.flatMap_cons, Progress.advance_append]
        refine (hitem before item rest hitems memory progress hholds).bind ?_
        intro next after hafter
        exact ih (before ++ [item]) next after (by rw [hitems, List.append_assoc]; rfl) hafter
  exact hrest items [] memory progress rfl hstart

namespace Block

variable {block : Block}

theorem follows_constants (hnames : block.WellNamed) {memory : Memory} {progress : Progress}
    (h : Represents [] memory progress) :
    Follows (Represents (block.constants.map Constant.name)) Interrupts
      (block.constants.foldlM Constant.evaluate memory)
      (progress.advance (block.constants.flatMap Constant.code)) := by
  refine follows_items (fun before => Represents (before.map Constant.name)) block.constants ?_ h
  intro before constant after hconstants memory progress h
  have hnew := notMem_of_nodup (names_eq_of_constants hconstants) hnames.distinct
  rw [List.map_append, List.map_singleton, Constant.code, Progress.advance_singleton]
  exact (follows_push h.reaches (step_literal _ _)).map fun value after => h.declare hnew

theorem follows_vars (hnames : block.WellNamed) {memory : Memory} {progress : Progress}
    (h : Represents (block.constants.map Constant.name) memory progress) :
    Follows (Represents block.names) Interrupts (block.vars.foldlM Variable.evaluate memory)
      (progress.advance (block.vars.flatMap (Variable.code block.slot))) := by
  refine follows_items
    (fun before => Represents (block.constants.map Constant.name ++ before.map Variable.name))
    block.vars ?_ (by rwa [List.map_nil, List.append_nil])
  intro before declared after hvars memory progress h
  have hsplit := names_eq_of_vars hvars
  have hnew := notMem_of_nodup hsplit hnames.distinct
  rw [List.map_append, List.map_singleton, ← List.append_assoc, Variable.code, Variable.evaluate]
  cases hinitial : declared.initial with
  | none =>
      rw [Progress.advance_singleton]
      exact (follows_push h.reaches (step_literal _ _)).map fun value after => h.declare hnew
  | some tree =>
      exact (h.follows_expression (hnames.mem_of_initializer hvars hinitial) (slot_eq hsplit)).map
        fun value after => h.declare hnew

theorem follows_statements (hnames : block.WellNamed) {memory : Memory} {progress : Progress}
    (h : Represents block.names memory progress) :
    Follows (Represents block.names) Interrupts (block.statements.foldlM Statement.evaluate memory)
      (progress.advance (block.statements.flatMap (Statement.code block.slot))) := by
  refine follows_items (fun _ => Represents block.names) block.statements ?_ h
  intro before statement after hstatements memory progress h
  have huses := hnames.mem_of_statement hstatements
  have hslot : ∀ used ∈ block.names, block.slot used = Int32.ofNat (block.names.idxOf used) :=
    fun _ _ => rfl
  cases statement with
  | assign target tree =>
      have htarget := hnames.mem_of_target hstatements
      rw [Statement.code, Progress.advance_append]
      refine (h.follows_expression huses hslot).bind fun value middle hmiddle => ?_
      rw [Progress.advance_singleton]
      obtain ⟨final, hstep, hfinal⟩ := h.store hnames.distinct htarget hmiddle
      rw [slot, hstep]
      exact .reached hfinal
  | print tree =>
      rw [Statement.code, Progress.advance_append]
      refine (h.follows_expression huses hslot).bind fun value middle hmiddle => ?_
      rw [Progress.advance_singleton]
      obtain ⟨final, hstep, hfinal⟩ := h.write hmiddle
      rw [hstep]
      exact .reached hfinal
  | empty => exact .reached h

/-- A machine whose sink takes every number carries out the code of a block as the block is
evaluated. -/
theorem follows (hnames : block.WellNamed) :
    Follows (Represents block.names) Interrupts block.evaluate
      (Progress.advance { sink := Sink.endless } block.code) := by
  have hstart : Represents [] {} { sink := Sink.endless } :=
    ⟨rfl, Nat.zero_le _, rfl, rfl⟩
  rw [code, List.append_assoc, Progress.advance_append]
  refine (follows_constants hnames hstart).bind fun memory progress h => ?_
  rw [Progress.advance_append]
  exact (follows_vars hnames h).bind fun memory progress h => follows_statements hnames h

end Block

end PlZero.Source
