import PlZero.Proofs.Execution

/-! Two runs side by side. The stacks have one height and hold the same values except in blank cells,
and an instruction that reads no blank cell does the same in both runs: it goes on to stacks that again
differ in blank cells only, or it ends both runs with the same failure. -/

namespace PlZero.Machine

open PlZero.Attempt

/-- Two stacks of a height with the same values in all cells that are not blank. -/
structure Matches (blank : Nat → Prop) (height : Nat) (left right : Stack) : Prop where
  left_size : left.size = height
  right_size : right.size = height
  cells : ∀ place, ¬blank place → left[place]? = right[place]?

namespace Matches

variable {blank blank' : Nat → Prop} {height : Nat} {left right : Stack}

theorem push (h : Matches blank height left right) {value value' : Int32}
    (hblank : ∀ place, ¬blank' place → ¬blank place ∧ (place = height → value = value')) :
    Matches blank' (height + 1) (left.push value) (right.push value') := by
  refine ⟨by rw [Array.size_push, h.left_size], by rw [Array.size_push, h.right_size], ?_⟩
  intro place hplace
  obtain ⟨hsame, hvalue⟩ := hblank place hplace
  rw [Array.getElem?_push, Array.getElem?_push, h.left_size, h.right_size, h.cells place hsame]
  by_cases htop : place = height
  · rw [if_pos htop, if_pos htop, hvalue htop]
  · rw [if_neg htop, if_neg htop]

theorem push_same (h : Matches blank height left right) (value : Int32) :
    Matches blank (height + 1) (left.push value) (right.push value) :=
  h.push fun _ hplace => ⟨hplace, fun _ => rfl⟩

theorem pop (h : Matches blank (height + 1) left right) : Matches blank height left.pop right.pop := by
  refine ⟨by rw [Array.size_pop, h.left_size]; rfl, by rw [Array.size_pop, h.right_size]; rfl, ?_⟩
  intro place hplace
  rw [Array.getElem?_pop, Array.getElem?_pop, h.left_size, h.right_size, h.cells place hplace]

theorem back? (h : Matches blank (height + 1) left right) (htop : ¬blank height) :
    ∃ value, left.back? = some value ∧ right.back? = some value := by
  have hleft : left.back? = left[height]? := by
    rw [Array.back?_eq_getElem?, h.left_size, Nat.add_sub_cancel]
  have hright : right.back? = right[height]? := by
    rw [Array.back?_eq_getElem?, h.right_size, Nat.add_sub_cancel]
  have hheight : height < right.size := by
    rw [h.right_size]
    exact Nat.lt_succ_self height
  rw [hleft, hright, h.cells height htop, Array.getElem?_eq_getElem hheight]
  exact ⟨_, rfl, rfl⟩

theorem slot?_eq (h : Matches blank height left right) {slot : Int32}
    (hslot : ¬blank slot.toInt.toNat) : slot? left slot = slot? right slot := by
  rw [slot?, slot?, h.cells _ hslot]

/-- A cell that gets the same value in both stacks is blank no longer. -/
theorem set (h : Matches blank height left right) {place : Nat} {value : Int32}
    (hblank : ∀ other, ¬blank' other → other ≠ place → ¬blank other) :
    Matches blank' height (left.setIfInBounds place value) (right.setIfInBounds place value) := by
  refine ⟨by rw [Array.size_setIfInBounds, h.left_size],
    by rw [Array.size_setIfInBounds, h.right_size], ?_⟩
  intro other hother
  rw [Array.getElem?_setIfInBounds, Array.getElem?_setIfInBounds, h.left_size, h.right_size]
  by_cases hplace : place = other
  · rw [if_pos hplace, if_pos hplace]
  · rw [if_neg hplace, if_neg hplace]
    exact h.cells other (hblank other hother (Ne.symm hplace))

end Matches

/-- Two runs at the same point, with stacks that differ in blank cells only. -/
structure Alike (blank : Nat → Prop) (height : Nat) (left right : Progress) : Prop where
  matched : Matches blank height left.stack right.stack
  bound : height ≤ capacity
  next : left.next = right.next
  sink : left.sink = right.sink
  printed : left.printed = right.printed

/-- What two runs show is the same: the numbers printed, where and how the runs end, and why they fail.
Only a stack that runs over at an address where a literal `fills` a cell shows this literal, where the
other run has a zero. -/
structure SameConduct (fills : Nat → Int32 → Prop) (left right : Outcome) : Prop where
  printed : left.printed = right.printed
  next : left.next = right.next
  halted : left.isHalted = right.isHalted
  failure : left.failure? = right.failure? ∨ ∃ address value detail, fills address value ∧
    left.failure? = some (.trap .stackOverflow address (.of .literal 0) detail) ∧
      right.failure? = some (.trap .stackOverflow address (.of .literal value) detail)

/-- Two runs go on together or end together. -/
inductive Together (fills : Nat → Int32 → Prop) (reaches : Progress → Progress → Prop) :
    Except Outcome Progress → Except Outcome Progress → Prop where
  | reached {left right : Progress} (h : reaches left right) :
      Together fills reaches (.ok left) (.ok right)
  | ended {left right : Outcome} (h : SameConduct fills left right) :
      Together fills reaches (.error left) (.error right)

namespace Together

variable {fills : Nat → Int32 → Prop} {reaches reaches' : Progress → Progress → Prop}
  {first second : Except Outcome Progress}

theorem bind (h : Together fills reaches first second) {next next' : Progress → Except Outcome Progress}
    (hnext : ∀ left right, reaches left right → Together fills reaches' (next left) (next' right)) :
    Together fills reaches' (first >>= next) (second >>= next') := by
  cases h with
  | reached h => exact hnext _ _ h
  | ended h => exact .ended h

theorem mono (h : Together fills reaches first second)
    (hreaches : ∀ left right, reaches left right → reaches' left right) :
    Together fills reaches' first second := by
  cases h with
  | reached h => exact .reached (hreaches _ _ h)
  | ended h => exact .ended h

/-- Where two runs go on together, the first of them got there. -/
theorem arriving (h : Together fills reaches first second) :
    Together fills (fun left right => first = .ok left ∧ reaches left right) first second := by
  cases h with
  | reached h => exact .reached ⟨rfl, h⟩
  | ended h => exact .ended h

/-- Items of code are carried out one behind the other. What holds between two of them may speak of the
items that were carried out before. -/
theorem items {α : Type} {code code' : α → Code} (holds : List α → Progress → Progress → Prop)
    (items : List α) {left right : Progress}
    (hitem : ∀ before item after, items = before ++ item :: after → ∀ middle middle',
      left.advance (before.flatMap code) = .ok middle → holds before middle middle' →
        Together fills (holds (before ++ [item])) (middle.advance (code item))
          (middle'.advance (code' item)))
    (hstart : holds [] left right) :
    Together fills (holds items) (left.advance (items.flatMap code))
      (right.advance (items.flatMap code')) := by
  induction items using List.reverseRecOn with
  | nil => exact .reached hstart
  | append_singleton before item ih =>
      have hbefore := ih fun earlier other after hsplit => hitem earlier other (after ++ [item]) <| by
        rw [hsplit, List.append_assoc, List.cons_append]
      rw [List.flatMap_append, List.flatMap_append, List.flatMap_singleton, List.flatMap_singleton,
        Progress.advance_append, Progress.advance_append]
      exact hbefore.arriving.bind fun middle middle' harrived =>
        hitem before item [] rfl middle middle' harrived.1 harrived.2

end Together

theorem Alike.finished {blank : Nat → Prop} {height : Nat} {left right : Progress}
    (h : Alike blank height left right) (fills : Nat → Int32 → Prop) :
    SameConduct fills (Progress.outcome (.ok left)) (Progress.outcome (.ok right)) :=
  ⟨congrArg List.reverse h.printed, h.next, rfl, .inl rfl⟩

theorem Together.outcome {fills : Nat → Int32 → Prop} {blank : Nat → Prop} {height : Nat}
    {first second : Except Outcome Progress} (h : Together fills (Alike blank height) first second) :
    SameConduct fills (Progress.outcome first) (Progress.outcome second) := by
  cases h with
  | reached h => exact h.finished fills
  | ended h => exact h

/-! ### Single instructions -/

section Steps

variable {fills : Nat → Int32 → Prop} {blank blank' : Nat → Prop} {height : Nat} {left right : Progress}

theorem Alike.mono (h : Alike blank height left right) (hblank : ∀ place, blank place → blank' place) :
    Alike blank' height left right :=
  ⟨⟨h.matched.left_size, h.matched.right_size,
    fun place hplace => h.matched.cells place (mt (hblank place) hplace)⟩,
    h.bound, h.next, h.sink, h.printed⟩

theorem Alike.proceed (h : Alike blank height left right) {height' : Nat} {first second : Stack}
    (hmatched : Matches blank' height' first second) (hbound : height' ≤ capacity) :
    Alike blank' height' (left.proceed first) (right.proceed second) :=
  ⟨hmatched, hbound, congrArg (· + 1) h.next, h.sink, h.printed⟩

/-- Both runs trap at one instruction. -/
theorem Alike.trapped (h : Alike blank height left right) {reason : Trap} {instruction : Instruction}
    (hdetail : trapDetail reason instruction left.stack = trapDetail reason instruction right.stack) :
    SameConduct fills (left.finish (left.next + 1) left.stack (.trapped reason instruction))
      (right.finish (right.next + 1) right.stack (.trapped reason instruction)) := by
  refine ⟨congrArg List.reverse h.printed, congrArg (· + 1) h.next, rfl, .inl ?_⟩
  simp only [Outcome.failure?, Progress.finish, hdetail, h.next]

/-- The height alone decides whether a value can be put on a stack. -/
theorem Alike.step_push (h : Alike blank height left right) {instruction : Instruction} {value : Int32}
    (hleft : step left.stack instruction = push left.stack value)
    (hright : step right.stack instruction = push right.stack value) :
    Together fills (Alike blank (height + 1)) (left.step instruction) (right.step instruction) := by
  rw [Progress.step, Progress.step, hleft, hright, push, push, h.matched.left_size,
    h.matched.right_size]
  by_cases hfull : capacity ≤ height
  · have hdetail : trapDetail .stackOverflow instruction left.stack =
        trapDetail .stackOverflow instruction right.stack := rfl
    rw [if_pos hfull, if_pos hfull]
    exact .ended (h.trapped hdetail)
  · rw [if_neg hfull, if_neg hfull]
    exact .reached (h.proceed (h.matched.push_same value) (Nat.not_le.mp hfull))

/-- A cell becomes blank when the runs fill it with different values. -/
theorem Alike.step_fill (h : Alike blank height left right) {value : Int32}
    (hvalue : fills left.next value)
    (hblank : ∀ place, ¬blank' place → ¬blank place ∧ place ≠ height) :
    Together fills (Alike blank' (height + 1)) (left.step (.of .literal 0))
      (right.step (.of .literal value)) := by
  rw [Progress.step, Progress.step, step_literal, step_literal, push, push, h.matched.left_size,
    h.matched.right_size]
  by_cases hfull : capacity ≤ height
  · rw [if_pos hfull, if_pos hfull]
    -- Only here the two runs trap at instructions that differ.
    refine .ended ⟨congrArg List.reverse h.printed, congrArg (· + 1) h.next, rfl, .inr ?_⟩
    refine ⟨left.next, value, trapDetail .stackOverflow (.of .literal 0) left.stack, hvalue, rfl, ?_⟩
    rw [h.next]
    rfl
  · rw [if_neg hfull, if_neg hfull]
    have hmatched : Matches blank' (height + 1) (left.stack.push 0) (right.stack.push value) :=
      h.matched.push fun place hplace =>
        ⟨(hblank place hplace).1, fun htop => absurd htop (hblank place hplace).2⟩
    exact .reached (h.proceed hmatched (Nat.not_le.mp hfull))

theorem Alike.step_load (h : Alike blank height left right) {slot : Int32}
    (hslot : ¬blank slot.toInt.toNat) :
    Together fills (Alike blank (height + 1)) (left.step (.of .load slot))
      (right.step (.of .load slot)) := by
  have hsame := h.matched.slot?_eq hslot
  cases hvalue : slot? right.stack slot with
  | some value =>
      rw [hvalue] at hsame
      exact h.step_push (by rw [step_of, perform, hsame]) (by rw [step_of, perform, hvalue])
  | none =>
      rw [hvalue] at hsame
      rw [Progress.step, Progress.step, step_of, step_of, perform, perform, hsame, hvalue]
      refine .ended (h.trapped ?_)
      simp only [trapDetail, h.matched.left_size, h.matched.right_size]

theorem Alike.step_arithmetic (h : Alike blank (height + 2) left right)
    (hblank : ∀ place, blank place → place < height) {operation : Operation}
    (hoperation : operation.isArithmetic = true) :
    Together fills (Alike blank (height + 1)) (left.step (.of operation))
      (right.step (.of operation)) := by
  obtain ⟨second, hsecond, hsecond'⟩ :=
    h.matched.back? fun htop => absurd (hblank _ htop) (by omega)
  obtain ⟨first, hfirst, hfirst'⟩ :=
    h.matched.pop.back? fun htop => absurd (hblank _ htop) (by omega)
  rw [Progress.step, Progress.step, step_of, step_of, perform_of_back? hoperation hfirst hsecond,
    perform_of_back? hoperation hfirst' hsecond']
  cases arithmetic operation first second with
  | ok value =>
      exact .reached (h.proceed (h.matched.pop.pop.push_same value) (Nat.le_of_succ_le h.bound))
  | error reason =>
      refine .ended (h.trapped ?_)
      simp only [trapDetail, h.matched.left_size, h.matched.right_size, hfirst, hfirst', hsecond,
        hsecond']

theorem Alike.step_store (h : Alike blank (height + 1) left right) (htop : ¬blank height)
    {slot : Int32} {place : Nat} (hslot : slot.toInt = place) (hplace : place < height)
    (hblank : ∀ other, ¬blank' other → other ≠ place → ¬blank other) :
    Together fills (Alike blank' height) (left.step (.of .store slot))
      (right.step (.of .store slot)) := by
  obtain ⟨value, hleft, hright⟩ := h.matched.back? htop
  have hstep {stack : Stack} (hsize : stack.size = height + 1) (hback : stack.back? = some value) :
      step stack (.of .store slot) = .next (stack.setIfInBounds place value).pop := by
    have hinside : place < stack.size := by omega
    have hcell : slot? stack slot = some stack[place] := by
      rw [slot?_eq_some_iff, hslot, Int.toNat_natCast]
      exact ⟨Int.natCast_nonneg _, Array.getElem?_eq_getElem hinside⟩
    rw [step_of, perform, hback, hcell]
    simp only [hslot, Int.toNat_natCast]
  rw [Progress.step, Progress.step, hstep h.matched.left_size hleft,
    hstep h.matched.right_size hright]
  exact .reached (h.proceed (h.matched.set hblank).pop (Nat.le_of_succ_le h.bound))

theorem Alike.step_write (h : Alike blank (height + 1) left right) (htop : ¬blank height) :
    Together fills (Alike blank height) (left.step (.of .write)) (right.step (.of .write)) := by
  obtain ⟨value, hleft, hright⟩ := h.matched.back? htop
  rw [Progress.step, Progress.step, step_of, step_of, perform, perform, hleft, hright]
  simp only [h.sink]
  cases right.sink.accept? with
  | none =>
      exact .ended ⟨congrArg List.reverse h.printed, congrArg (· + 1) h.next, rfl, .inl rfl⟩
  | some sink =>
      exact .reached ⟨h.matched.pop, Nat.le_of_succ_le h.bound, congrArg (· + 1) h.next, rfl,
        congrArg (value :: ·) h.printed⟩

end Steps

end PlZero.Machine
