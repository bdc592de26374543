import PlZero.Proofs.ConstantCells

/-! Where the values of cells come from. A cell has its value from an instruction that put it there, or from
an operation on two values that were on the stack before; loading and storing carry the value over as it is.
What came about so has an exact integer value, with no bound on it. Main statement: arithmetic on cells is
exact or fails, so in every state of every run each cell holds the exact value of what it came about from. -/

namespace PlZero.Machine

open PlZero.Attempt

/-- How a value came about: an instruction gave it, or an operation made it of two others. -/
inductive Origin where
  | given (value : Int32)
  | made (operation : Operation) (left right : Origin)
  deriving DecidableEq, Repr

namespace Origin

/-- The exact integer that comes about so, however great it and its parts are; there is none if the way to
it leads through a division by zero. -/
def value? : Origin → Option Int
  | given value => some value.toInt
  | made operation left right => do
    let first ← left.value?
    let second ← right.value?
    result? operation first second

/-- The origin of the cell of a slot, if there is such a cell. -/
def slot? (origins : Array Origin) (slot : Int32) : Option Origin :=
  if slot.toInt < 0 then none else origins[slot.toInt.toNat]?

/-- The origins of the cells behind an operation that was carried out. -/
def perform? (origins : Array Origin) (operation : Operation) (operand : Int32) :
    Option (Array Origin) :=
  match operation with
  | .illegal => none
  | .literal => some (origins.push (.given operand))
  | .load => do
    let origin ← slot? origins operand
    return origins.push origin
  | .store => do
    let top ← origins.back?
    let _ ← slot? origins operand
    return (origins.setIfInBounds operand.toInt.toNat top).pop
  | .write => do
    let _ ← origins.back?
    return origins.pop
  | .add | .subtract | .multiply | .divide => do
    let left ← origins.pop.back?
    let right ← origins.back?
    return origins.pop.pop.push (.made operation left right)

/-- The origins of the cells behind an instruction that was carried out. -/
def step? (origins : Array Origin) (instruction : Instruction) : Option (Array Origin) := do
  perform? origins (← instruction.operation?) instruction.operand

/-- The origins of the cells behind code that was carried out from its start. -/
def behind? (code : Code) : Option (Array Origin) :=
  code.foldlM step? #[]

theorem behind?_concat {code : Code} {origins next : Array Origin} {instruction : Instruction}
    (hbehind : behind? code = some origins) (hnext : step? origins instruction = some next) :
    behind? (code ++ [instruction]) = some next := by
  rw [behind?, List.foldlM_append, ← behind?, hbehind, Option.bind_eq_bind, Option.bind_some,
    List.foldlM_cons, hnext]
  rfl

end Origin

/-- Each cell holds the exact value of its origin. -/
def Explains (origins : Array Origin) (stack : Stack) : Prop :=
  origins.map Origin.value? = stack.map fun cell => some cell.toInt

/-- The cells of a stack hold the exact values of what they came about from when the code was carried out,
and these are integers of 32 bits. -/
def HoldsExact (code : Code) (stack : Stack) : Prop :=
  ∃ origins, Origin.behind? code = some origins ∧ origins.size = stack.size ∧
    ∀ (index : Nat) (cell : Int32), stack[index]? = some cell → ∃ origin,
      origins[index]? = some origin ∧ origin.value? = some cell.toInt ∧ FitsCell cell.toInt

namespace Explains

variable {origins : Array Origin} {stack : Stack} (h : Explains origins stack)
include h

theorem size_eq : origins.size = stack.size := by
  have hsize := congrArg Array.size h
  rwa [Array.size_map, Array.size_map] at hsize

theorem exists_of_getElem? {index : Nat} {cell : Int32} (hcell : stack[index]? = some cell) :
    ∃ origin, origins[index]? = some origin ∧ origin.value? = some cell.toInt := by
  have hvalue : (origins.map Origin.value?)[index]? = some (some cell.toInt) := by
    rw [h, Array.getElem?_map, hcell, Option.map_some]
  rwa [Array.getElem?_map, Option.map_eq_some_iff] at hvalue

theorem exists_of_back? {cell : Int32} (hcell : stack.back? = some cell) :
    ∃ origin, origins.back? = some origin ∧ origin.value? = some cell.toInt := by
  rw [Array.back?_eq_getElem?] at hcell ⊢
  rw [h.size_eq]
  exact h.exists_of_getElem? hcell

theorem exists_of_slot? {slot cell : Int32} (hcell : slot? stack slot = some cell) :
    ∃ origin, Origin.slot? origins slot = some origin ∧ origin.value? = some cell.toInt := by
  obtain ⟨hslot, hcell⟩ := slot?_eq_some_iff.mp hcell
  obtain ⟨origin, horigin, hvalue⟩ := h.exists_of_getElem? hcell
  exact ⟨origin, (if_neg (Int.not_lt.mpr hslot)).trans horigin, hvalue⟩

theorem pop : Explains origins.pop stack.pop := by
  rw [Explains, Array.map_pop, Array.map_pop, h]

theorem push {origin : Origin} {cell : Int32} (hvalue : origin.value? = some cell.toInt) :
    Explains (origins.push origin) (stack.push cell) := by
  rw [Explains, Array.map_push, Array.map_push, h, hvalue]

theorem set {origin : Origin} {cell : Int32} (hvalue : origin.value? = some cell.toInt)
    (index : Nat) : Explains (origins.setIfInBounds index origin) (stack.setIfInBounds index cell) := by
  rw [Explains, Array.map_setIfInBounds, Array.map_setIfInBounds, h, hvalue]

theorem pushed {origin : Origin} {cell : Int32} {after : Stack}
    (hvalue : origin.value? = some cell.toInt)
    (hafter : (Machine.push stack cell).stack? = some after) :
    Explains (origins.push origin) after := by
  rw [Machine.push] at hafter
  split at hafter
  · cases hafter
  · cases hafter
    exact h.push hvalue

/-- What an operation makes of two cells has the exact value of what it makes of their origins. -/
theorem arithmetic {operation : Operation} (hoperation : operation.isArithmetic = true)
    {operand : Int32} {after : Stack}
    (hafter : (Machine.perform stack operation operand).stack? = some after) :
    ∃ left right, origins.pop.back? = some left ∧ origins.back? = some right ∧
      Explains (origins.pop.pop.push (.made operation left right)) after := by
  obtain ⟨-, htrap⟩ | ⟨hsize, -⟩ := perform_arithmetic_cases hoperation stack operand
  · rw [htrap] at hafter
    cases hafter
  obtain ⟨first, second, hfirst, hsecond⟩ := Indexed.exists_operands hsize
  rw [perform_of_back? hoperation hfirst hsecond] at hafter
  obtain ⟨left, hleft, hleftvalue⟩ := h.pop.exists_of_back? hfirst
  obtain ⟨right, hright, hrightvalue⟩ := h.exists_of_back? hsecond
  refine ⟨left, right, hleft, hright, ?_⟩
  cases hresult : Machine.arithmetic operation first second with
  | error reason =>
      rw [hresult] at hafter
      cases hafter
  | ok value =>
      rw [hresult] at hafter
      cases hafter
      refine h.pop.pop.push ?_
      rw [Origin.value?, hleftvalue, hrightvalue]
      exact (arithmetic_eq_ok_iff hoperation).mp hresult

theorem perform {operation : Operation} {operand : Int32} {after : Stack}
    (hafter : (Machine.perform stack operation operand).stack? = some after) :
    ∃ next, Origin.perform? origins operation operand = some next ∧ Explains next after := by
  have harithmetic := @h.arithmetic
  cases operation with
  | illegal => cases hafter
  | literal => exact ⟨_, rfl, h.pushed rfl hafter⟩
  | load =>
      simp only [Machine.perform] at hafter
      split at hafter
      · rename_i cell hcell
        obtain ⟨origin, horigin, hvalue⟩ := h.exists_of_slot? hcell
        exact ⟨_, by rw [Origin.perform?, horigin]; rfl, h.pushed hvalue hafter⟩
      · cases hafter
  | store =>
      simp only [Machine.perform] at hafter
      split at hafter
      · rename_i top _ htop hslot
        cases hafter
        obtain ⟨origin, horigin, hvalue⟩ := h.exists_of_back? htop
        obtain ⟨_, hold, -⟩ := h.exists_of_slot? hslot
        exact ⟨_, by rw [Origin.perform?, horigin, hold]; rfl, (h.set hvalue _).pop⟩
      · cases hafter
  | write =>
      simp only [Machine.perform] at hafter
      split at hafter
      · rename_i top htop
        cases hafter
        obtain ⟨origin, horigin, -⟩ := h.exists_of_back? htop
        exact ⟨_, by rw [Origin.perform?, horigin]; rfl, h.pop⟩
      · cases hafter
  | add | subtract | multiply | divide =>
      obtain ⟨left, right, hleft, hright, hnext⟩ := harithmetic rfl hafter
      exact ⟨_, by rw [Origin.perform?, hleft, hright]; rfl, hnext⟩

/-- An instruction that is carried out leaves every cell with the exact value of its origin. -/
theorem step {instruction : Instruction} {after : Stack}
    (hafter : (Machine.step stack instruction).stack? = some after) :
    ∃ next, Origin.step? origins instruction = some next ∧ Explains next after := by
  rw [Machine.step] at hafter
  rw [Origin.step?]
  cases hoperation : instruction.operation? with
  | none =>
      rw [hoperation] at hafter
      cases hafter
  | some operation =>
      rw [hoperation] at hafter
      exact h.perform hafter

end Explains

theorem explains_empty : Explains #[] #[] := by
  rw [Explains, Array.map_empty, Array.map_empty]

theorem holdsExact_of_explains {code : Code} {origins : Array Origin} {stack : Stack}
    (hbehind : Origin.behind? code = some origins) (h : Explains origins stack) :
    HoldsExact code stack := by
  refine ⟨origins, hbehind, h.size_eq, fun index cell hcell => ?_⟩
  obtain ⟨origin, horigin, hvalue⟩ := h.exists_of_getElem? hcell
  exact ⟨origin, horigin, hvalue, fitsCell_toInt cell⟩

/-! ### Runs -/

/-- The origins along a run, by induction on the code that is carried out. -/
theorem Explains.advance {origins : Array Origin} {start reached : Progress}
    (h : Explains origins start.stack) {code : Code} (hreached : start.advance code = .ok reached) :
    ∃ next, code.foldlM Origin.step? origins = some next ∧ Explains next reached.stack := by
  induction code generalizing start origins with
  | nil =>
      cases hreached
      exact ⟨origins, rfl, h⟩
  | cons instruction rest ih =>
      rw [Progress.advance_cons, bind_eq_ok_iff] at hreached
      obtain ⟨middle, hstep, hrest⟩ := hreached
      obtain ⟨between, hbetween, hmiddle⟩ := h.step (Progress.stack?_of_step hstep)
      obtain ⟨next, hnext, hlast⟩ := ih hmiddle hrest
      exact ⟨next, by rw [List.foldlM_cons, hbetween]; exact hnext, hlast⟩

/-- How many instructions of a run had their effect on the stack: those before one that halts or traps, and
up to one whose value the sink did not take. -/
def Outcome.carried (outcome : Outcome) : Nat :=
  match outcome.ending with
  | .finished | .sinkClosed => outcome.next
  | .halted | .trapped _ _ => outcome.next - 1

/-- An instruction that ends a run has no effect on the stack, or it is counted among those that had. -/
theorem Progress.carried_of_step {progress : Progress} {instruction : Instruction} {outcome : Outcome}
    (h : progress.step instruction = .error outcome) :
    outcome.carried = progress.next ∧ outcome.stack = progress.stack ∨
    outcome.carried = progress.next + 1 ∧
      (Machine.step progress.stack instruction).stack? = some outcome.stack := by
  rw [Progress.step] at h
  cases hstep : Machine.step progress.stack instruction with
  | next stack =>
      rw [hstep] at h
      cases h
  | print value stack =>
      rw [hstep] at h
      dsimp only at h
      split at h
      · cases h
      · cases h
        exact .inr ⟨rfl, rfl⟩
  | halt =>
      rw [hstep] at h
      cases h
      exact .inl ⟨rfl, rfl⟩
  | trap reason =>
      rw [hstep] at h
      cases h
      exact .inl ⟨rfl, rfl⟩

theorem holdsExact_advance {sink : Sink} {code : Code} {reached : Progress}
    (h : Progress.advance { sink := sink } code = .ok reached) : HoldsExact code reached.stack := by
  obtain ⟨origins, hbehind, hexplains⟩ := explains_empty.advance h
  exact holdsExact_of_explains hbehind hexplains

theorem holdsExact_execute (prior : Processor) (code : Code) :
    HoldsExact (code.take (prior.execute code).carried) (prior.execute code).stack := by
  rw [execute_eq_outcome_advance]
  cases hadvance : Progress.advance { sink := prior.sink } code with
  | ok reached =>
      have hcarried : (Progress.outcome (.ok reached)).carried = code.length :=
        (recorded_advance hadvance).next
      rw [hcarried, List.take_length]
      exact holdsExact_advance hadvance
  | error outcome =>
      obtain ⟨before, instruction, after, reached, rfl, hreached, hstep⟩ :=
        Progress.advance_eq_error_iff.mp hadvance
      have hnext := (recorded_advance hreached).next
      show HoldsExact ((before ++ instruction :: after).take outcome.carried) outcome.stack
      rcases Progress.carried_of_step hstep with ⟨hcarried, hstack⟩ | ⟨hcarried, hstack⟩
      · rw [hcarried, hstack, hnext, List.take_left]
        exact holdsExact_advance hreached
      · obtain ⟨origins, hbehind, hexplains⟩ := explains_empty.advance hreached
        obtain ⟨next, hlast, hexplains⟩ := hexplains.step hstack
        rw [hcarried, hnext, List.take_length_add_append, List.take_succ_cons, List.take_zero]
        exact holdsExact_of_explains (Origin.behind?_concat hbehind hlast) hexplains

/-- In 64 bits nothing wraps. The result of an operation on two cells is the exact one; it is missing for a
division by zero, and where the exact one is none of 32 bits. So at every point of a run, and where it ends,
the cells hold the exact values of what they came about from. -/
theorem arithmetic_exact :
    (∀ (operation : Operation) (left right : Int32), operation.isArithmetic = true →
      (left.toInt64.toInt = left.toInt ∧ right.toInt64.toInt = right.toInt) ∧
      (∀ result, wide operation left.toInt64 right.toInt64 = .ok result →
        result? operation left.toInt right.toInt = some result.toInt) ∧
      (arithmetic operation left right = .error .divisionByZero ↔
        operation = .divide ∧ right = 0) ∧
      (arithmetic operation left right = .error .arithmeticOverflow ↔
        ∃ value, result? operation left.toInt right.toInt = some value ∧
          ¬(-2 ^ 31 ≤ value ∧ value ≤ 2 ^ 31 - 1)) ∧
      ∀ result, arithmetic operation left right = .ok result ↔
        result? operation left.toInt right.toInt = some result.toInt) ∧
    ∀ (prior : Processor) (code : Code),
      (∀ count reached, Progress.advance { sink := prior.sink } (code.take count) = .ok reached →
        HoldsExact (code.take count) reached.stack) ∧
      HoldsExact (code.take (prior.execute code).carried) (prior.execute code).stack := by
  refine ⟨fun operation left right h => ?_, fun prior code => ?_⟩
  · refine ⟨⟨left.toInt_toInt64, right.toInt_toInt64⟩, fun result hresult => ?_,
      arithmetic_eq_divisionByZero_iff h, arithmetic_eq_arithmeticOverflow_iff h,
      fun result => arithmetic_eq_ok_iff h⟩
    rcases wide_cases h left right with ⟨-, hwide, -⟩ | ⟨-, exactly, hwide, hexact⟩
    · cases hwide.symm.trans hresult
    · obtain rfl := Except.ok.inj (hwide.symm.trans hresult)
      exact hexact
  · exact ⟨fun count reached hreached => holdsExact_advance hreached, holdsExact_execute prior code⟩

/-- Code that squares the greatest number whose square fits into a cell, and adds the square to itself. -/
def squaringCode : Code :=
  [.of .literal 46340, .of .literal 46340, .of .multiply, .of .load 0, .of .add]

/-- The least cell divided by -1 is just too great, and its square takes 63 bits. The run fails on the last
instruction, with the square twice on the stack. -/
theorem arithmetic_exact_least :
    Operation.divide.isArithmetic = true ∧
    arithmetic .divide (-2147483648) (-1) = .error .arithmeticOverflow ∧
    Operation.multiply.isArithmetic = true ∧
    wide .multiply (Int32.toInt64 (-2147483648)) (Int32.toInt64 (-2147483648)) =
      .ok 4611686018427387904 ∧
    result? .multiply (-2147483648) (-2147483648) = some 4611686018427387904 ∧
    (∃ reached, Progress.advance { sink := usedProcessor.sink } (squaringCode.take 4) = .ok reached ∧
      reached.stack = #[2147395600, 2147395600] ∧
      HoldsExact (squaringCode.take 4) reached.stack) ∧
    (usedProcessor.execute squaringCode).ending = .trapped .arithmeticOverflow (.of .add) ∧
    HoldsExact (squaringCode.take 4) #[2147395600, 2147395600] := by
  obtain ⟨hcells, hruns⟩ := arithmetic_exact
  obtain ⟨-, -, -, hdivide, -⟩ := hcells .divide (-2147483648) (-1) rfl
  obtain ⟨-, hmultiply, -⟩ := hcells .multiply (-2147483648) (-2147483648) rfl
  have hwide : wide .multiply (Int32.toInt64 (-2147483648)) (Int32.toInt64 (-2147483648)) =
      .ok 4611686018427387904 := by decide
  obtain ⟨hpoints, hend⟩ := hruns usedProcessor squaringCode
  have hadvance : Progress.advance { sink := usedProcessor.sink } (squaringCode.take 4) =
      .ok ⟨4, #[2147395600, 2147395600], ⟨some 1⟩, [], [⟨4, 2, some 2147395600⟩,
        ⟨3, 1, some 2147395600⟩, ⟨2, 2, some 46340⟩, ⟨1, 1, some 46340⟩]⟩ := by rfl
  have hoverflow : (usedProcessor.execute squaringCode).ending =
      .trapped .arithmeticOverflow (.of .add) := by decide +kernel
  have hcarried : (usedProcessor.execute squaringCode).carried = 4 := by decide +kernel
  have hstack : (usedProcessor.execute squaringCode).stack = #[2147395600, 2147395600] := by
    decide +kernel
  rw [hcarried, hstack] at hend
  exact ⟨rfl, hdivide.mpr ⟨2147483648, by decide, by decide⟩, rfl, hwide, hmultiply _ hwide,
    ⟨_, hadvance, rfl, hpoints 4 _ hadvance⟩, hoverflow, hend⟩

end PlZero.Machine
