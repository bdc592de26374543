import PlZero.Proofs.Naming
import PlZero.Proofs.Snapshots
import PlZero.Proofs.StaticFaults

/-! Cells that a run never changes. An instruction leaves the cells below the values that it takes off
the stack, unless it stores into one of them. The code of an expression works above the stack on which
it starts, and the only slots that a program stores into are those of its variables. Main statement:
from the instruction that sets it on, the cell of a constant holds the value of the constant in every
state of every run. -/

namespace PlZero.Machine

open PlZero.Attempt

section Cells

variable {cells : List Int32} {stack : Stack}

theorem cells_pop (h : cells <+: stack.toList) (hsize : cells.length + 1 ≤ stack.size) :
    cells <+: stack.pop.toList := by
  rw [Array.toList_pop]
  refine List.prefix_of_prefix_length_le h (List.dropLast_prefix _) ?_
  have hlength : stack.toList.length = stack.size := Array.length_toList
  rw [List.length_dropLast]
  omega

theorem cells_push (h : cells <+: stack.toList) (value : Int32) :
    cells <+: (stack.push value).toList := by
  rw [Array.toList_push]
  exact h.trans (List.prefix_append _ _)

theorem cells_set (h : cells <+: stack.toList) {index : Nat} (hindex : cells.length ≤ index)
    (value : Int32) : cells <+: (stack.setIfInBounds index value).toList := by
  obtain ⟨above, habove⟩ := h
  rw [Array.toList_setIfInBounds, ← habove, List.set_append_right _ _ hindex]
  exact List.prefix_append _ _

theorem cells_pushed (h : cells <+: stack.toList) (value : Int32) :
    cells <+: ((push stack value).stack?.getD stack).toList := by
  rw [push]
  split
  · exact h
  · exact cells_push h value

/-- An operation leaves the cells below the values that it takes off, unless it stores into them. -/
theorem cells_perform {operation : Operation} {operand : Int32} (h : cells <+: stack.toList)
    (hpops : cells.length + operation.pops ≤ stack.size)
    (hstore : operation = .store → cells.length ≤ operand.toInt.toNat) :
    cells <+: ((perform stack operation operand).stack?.getD stack).toList := by
  cases operation with
  | illegal => exact h
  | literal => exact cells_pushed h operand
  | load =>
      simp only [perform]
      split
      · exact cells_pushed h _
      · exact h
  | store =>
      simp only [perform]
      split
      · refine cells_pop (cells_set h (hstore rfl) _) ?_
        rw [Array.size_setIfInBounds]
        exact hpops
      · exact h
  | write =>
      simp only [perform]
      split
      · exact cells_pop h hpops
      · exact h
  | add | subtract | multiply | divide =>
      have hpopped : cells <+: stack.pop.pop.toList := by
        rw [Operation.pops] at hpops
        refine cells_pop (cells_pop h (by omega)) ?_
        rw [Array.size_pop]
        omega
      simp only [perform]
      split
      · split
        · exact cells_push hpopped _
        · exact h
      · exact h

end Cells

/-- The stack behind an instruction, or the stack as it was if the instruction ends the run. -/
theorem Progress.stack_outcome_step (progress : Progress) (instruction : Instruction) :
    (Progress.outcome (progress.step instruction)).stack =
      (Machine.step progress.stack instruction).stack?.getD progress.stack := by
  rw [Progress.step]
  cases Machine.step progress.stack instruction with
  | next stack => rfl
  | print value stack => cases progress.sink.accept? <;> rfl
  | halt => rfl
  | trap reason => rfl

theorem Progress.stack?_of_step {progress after : Progress} {instruction : Instruction}
    (h : progress.step instruction = .ok after) :
    (Machine.step progress.stack instruction).stack? = some after.stack := by
  rw [Progress.step] at h
  cases hstep : Machine.step progress.stack instruction with
  | next stack =>
      rw [hstep] at h
      cases h
      rfl
  | print value stack =>
      rw [hstep] at h
      dsimp only at h
      split at h
      · cases h
        rfl
      · cases h
  | halt =>
      rw [hstep] at h
      cases h
  | trap reason =>
      rw [hstep] at h
      cases h

section Sizes

variable {start reached : Progress} {code : Code}

/-- Whatever the sink takes, a run that gets behind code has the height that the code foretells. -/
theorem size_of_advance (h : start.advance code = .ok reached) :
    (reached.stack.size : Int) = start.stack.size + height code := by
  induction code generalizing start with
  | nil =>
      cases h
      rw [height_nil, add_zero]
  | cons instruction rest ih =>
      rw [Progress.advance_cons, bind_eq_ok_iff] at h
      obtain ⟨next, hstep, hrest⟩ := h
      rw [ih hrest, size_step (Progress.stack?_of_step hstep), height_cons, add_assoc]

theorem size_of_advance_le (hbound : start.stack.size ≤ capacity)
    (h : start.advance code = .ok reached) : reached.stack.size ≤ capacity := by
  induction code generalizing start with
  | nil =>
      cases h
      exact hbound
  | cons instruction rest ih =>
      rw [Progress.advance_cons, bind_eq_ok_iff] at h
      obtain ⟨next, hstep, hrest⟩ := h
      exact ih (size_step_le hbound (Progress.stack?_of_step hstep)) hrest

end Sizes

/-- The cells stand at the bottom of the stack at every point of a run through code, also where an
instruction ends it. -/
def Guards (cells : List Int32) (progress : Progress) (code : Code) : Prop :=
  ∀ before, before <+: code → cells <+: (Progress.outcome (progress.advance before)).stack.toList

section Guards

variable {cells : List Int32} {progress : Progress}

theorem height_items {α : Type} {code : α → Code} (hitem : ∀ item, height (code item) = 1)
    (items : List α) : height (items.flatMap code) = items.length := by
  induction items with
  | nil => rfl
  | cons item rest ih =>
      rw [List.flatMap_cons, height_append, hitem, ih, List.length_cons]
      omega

theorem Guards.nil (h : cells <+: progress.stack.toList) : Guards cells progress [] := by
  intro before hbefore
  rw [List.prefix_nil.mp hbefore]
  exact h

theorem Guards.append {first second : Code} (hfirst : Guards cells progress first)
    (hsecond : ∀ middle, progress.advance first = .ok middle → Guards cells middle second) :
    Guards cells progress (first ++ second) := by
  intro before hbefore
  rcases le_total before.length first.length with hshort | hlong
  · exact hfirst before (List.prefix_of_prefix_length_le hbefore (List.prefix_append _ _) hshort)
  · obtain ⟨more, rfl⟩ := List.prefix_of_prefix_length_le (List.prefix_append _ _) hbefore hlong
    rw [Progress.advance_append]
    cases hadvance : progress.advance first with
    | ok middle => exact hsecond middle hadvance more ((List.prefix_append_right_inj _).mp hbefore)
    | error outcome =>
        have hend := hfirst first (List.prefix_refl _)
        rw [hadvance] at hend
        exact hend

theorem Guards.getLast {code : Code} (h : Guards cells progress code) {reached : Progress}
    (hreached : progress.advance code = .ok reached) : cells <+: reached.stack.toList := by
  have hend := h code (List.prefix_refl _)
  rw [hreached] at hend
  exact hend

theorem guards_of {operation : Operation} {operand : Int32} (h : cells <+: progress.stack.toList)
    (hpops : cells.length + operation.pops ≤ progress.stack.size)
    (hstore : operation = .store → cells.length ≤ operand.toInt.toNat) :
    Guards cells progress [.of operation operand] := by
  intro before hbefore
  rcases List.prefix_cons_iff.mp hbefore with rfl | ⟨rest, rfl, hrest⟩
  · exact h
  · rw [List.prefix_nil.mp hrest, Progress.advance_singleton, Progress.stack_outcome_step, step_of]
    exact cells_perform h hpops hstore

/-- Items keep the cells if each of them does wherever the items before it may lead. -/
theorem guards_items {α : Type} {code : α → Code} (items : List α)
    (hitem : ∀ before item after, items = before ++ item :: after → ∀ middle,
      progress.advance (before.flatMap code) = .ok middle → cells <+: middle.stack.toList →
        Guards cells middle (code item))
    (hstart : cells <+: progress.stack.toList) : Guards cells progress (items.flatMap code) := by
  induction items using List.reverseRecOn with
  | nil => exact .nil hstart
  | append_singleton before item ih =>
      have hbefore : Guards cells progress (before.flatMap code) := by
        refine ih fun earlier other after hsplit => hitem earlier other (after ++ [item]) ?_
        rw [hsplit, List.append_assoc, List.cons_append]
      rw [List.flatMap_append, List.flatMap_singleton]
      refine hbefore.append fun middle hmiddle => ?_
      exact hitem before item [] rfl middle hmiddle (hbefore.getLast hmiddle)

end Guards

end PlZero.Machine

namespace PlZero.Source

open PlZero.Machine PlZero.Attempt

theorem Expression.height_code (slot : String → Int32) (tree : Expression) :
    height (tree.code slot) = 1 := by
  have heffect (operator : BinaryOperator) (operand : Int32) :
      (Instruction.of operator.operation operand).effect = -1 := by
    cases operator <;> rfl
  induction tree with
  | literal value => rfl
  | name used => rfl
  | signed sign operand ih =>
      rw [Expression.code, height_append, ih]
      rfl
  | binary operator left right ihleft ihright =>
      rw [Expression.code, height_append, height_append, ihleft, ihright, height_cons, heffect]
      rfl

/-- The code of an expression works above the stack on which it starts. -/
theorem Expression.guards (slot : String → Int32) (tree : Expression) {cells : List Int32}
    {progress : Progress} (h : cells <+: progress.stack.toList) :
    Guards cells progress (tree.code slot) := by
  have hlength {reached : Progress} (h : cells <+: reached.stack.toList) :
      cells.length ≤ reached.stack.size := by
    simpa using h.length_le
  induction tree generalizing progress with
  | literal value => exact guards_of h (hlength h) (by rintro ⟨⟩)
  | name used => exact guards_of h (hlength h) (by rintro ⟨⟩)
  | signed sign operand ih =>
      refine (ih h).append fun middle hmiddle => ?_
      have hsize := size_of_advance hmiddle
      rw [operand.height_code] at hsize
      have hcells := (ih h).getLast hmiddle
      have hfactor : Guards cells middle [.of .literal sign.factor] :=
        guards_of hcells (hlength hcells) (by rintro ⟨⟩)
      refine hfactor.append fun after hafter => ?_
      have hheight : (after.stack.size : Int) = middle.stack.size + 1 := size_of_advance hafter
      have hbelow := hlength h
      refine guards_of (hfactor.getLast hafter) ?_ (by rintro ⟨⟩)
      rw [Operation.pops]
      omega
  | binary operator left right ihleft ihright =>
      refine (ihleft h).append fun middle hmiddle => ?_
      have hsize := size_of_advance hmiddle
      rw [left.height_code] at hsize
      have hright := ihright ((ihleft h).getLast hmiddle)
      refine hright.append fun after hafter => ?_
      have hheight := size_of_advance hafter
      rw [right.height_code] at hheight
      have hbelow := hlength h
      have hpops : operator.operation.pops = 2 := by cases operator <;> rfl
      refine guards_of (hright.getLast hafter) ?_ ?_
      · rw [hpops]
        omega
      · cases operator <;> rintro ⟨⟩

theorem flatMap_code_constants (constants : List Constant) :
    constants.flatMap Constant.code = constants.map fun constant => .of .literal constant.value :=
  List.flatMap_pure_eq_map _ constants

/-- The constants of a block are the first that its code puts on the stack. -/
theorem getElem?_code_constants {block : Block} {index : Nat} {constant : Constant}
    (h : block.constants[index]? = some constant) :
    block.code[index]? = some (.of .literal constant.value) := by
  obtain ⟨hindex, -⟩ := List.getElem?_eq_some_iff.mp h
  have hlength : index < (block.constants.flatMap Constant.code).length := by
    rwa [flatMap_code_constants, List.length_map]
  rw [Block.code, List.append_assoc, List.getElem?_append_left hlength, flatMap_code_constants,
    List.getElem?_map, h]
  rfl

/-- A run through constants puts the values of the constants that it gets behind on the stack. -/
theorem outcome_constants (constants : List Constant) (progress : Progress) :
    ∃ count ≤ constants.length,
      (Progress.outcome (progress.advance (constants.flatMap Constant.code))).marks.length =
        progress.marks.length + count ∧
      (Progress.outcome (progress.advance (constants.flatMap Constant.code))).stack.toList =
        progress.stack.toList ++ (constants.map Constant.value).take count := by
  induction constants generalizing progress with
  | nil => exact ⟨0, Nat.zero_le _, List.length_reverse, (List.append_nil _).symm⟩
  | cons constant rest ih =>
      rw [List.flatMap_cons, Constant.code, List.singleton_append, Progress.advance_cons]
      by_cases hfull : capacity ≤ progress.stack.size
      · have hstep : progress.step (.of .literal constant.value) =
            .error (progress.finish (progress.next + 1) progress.stack
              (.trapped .stackOverflow (.of .literal constant.value))) := by
          rw [Progress.step, step_literal, push, if_pos hfull]
        rw [hstep]
        exact ⟨0, Nat.zero_le _, List.length_reverse, (List.append_nil _).symm⟩
      · have hstep : progress.step (.of .literal constant.value) =
            .ok (progress.proceed (progress.stack.push constant.value)) := by
          rw [Progress.step, step_literal, push, if_neg hfull]
        obtain ⟨count, hcount, hmarks, hstack⟩ :=
          ih (progress.proceed (progress.stack.push constant.value))
        rw [hstep, ok_bind]
        refine ⟨count + 1, Nat.succ_le_succ hcount, ?_, ?_⟩
        · rw [hmarks, Progress.proceed, List.length_cons]
          omega
        · rw [hstack, Progress.proceed, Array.toList_push, List.map_cons, List.take_succ_cons,
            List.append_assoc, List.singleton_append]

namespace Block

variable {block : Block}

/-- The slots of variables lie above the cells of the constants. -/
theorem length_le_slot (hnames : block.WellNamed) {target : String} {tree : Expression}
    (h : .assign target tree ∈ block.statements) :
    block.constants.length ≤ block.names.idxOf target := by
  have hnone : target ∉ block.constants.map Constant.name := by
    intro hmem
    obtain ⟨constant, hconstant, hname⟩ := List.mem_map.mp hmem
    exact (hnames.targets target tree h).2 ⟨constant, hconstant, hname⟩
  rw [names, List.idxOf_append_of_notMem hnone, List.length_map]
  exact Nat.le_add_right _ _

theorem guards_vars {cells : List Int32} {progress : Progress} (h : cells <+: progress.stack.toList) :
    Guards cells progress (block.vars.flatMap (Variable.code block.slot)) := by
  refine guards_items block.vars (fun before declared after _ middle _ hcells => ?_) h
  rw [Variable.code]
  cases declared.initial with
  | none =>
      have hlength : cells.length ≤ middle.stack.size := by simpa using hcells.length_le
      exact guards_of hcells hlength (by rintro ⟨⟩)
  | some tree => exact tree.guards block.slot hcells

theorem height_vars (slot : String → Int32) (vars : List Variable) :
    height (vars.flatMap (Variable.code slot)) = vars.length := by
  refine height_items (fun declared => ?_) vars
  rw [Variable.code]
  split
  · exact Expression.height_code slot _
  · rfl

/-- A stack that holds one cell for each name is far lower than the least place that is no slot, so an
assignment goes to the place of its target. -/
theorem guards_statements (hnames : block.WellNamed) {cells : List Int32} {progress : Progress}
    (h : cells <+: progress.stack.toList) (hcount : cells.length = block.constants.length)
    (hsize : progress.stack.size = block.names.length) (hbound : progress.stack.size ≤ capacity) :
    Guards cells progress (block.statements.flatMap (Statement.code block.slot)) := by
  refine guards_items block.statements ?_ h
  intro before statement after hstatements middle _ hcells
  have hlength : cells.length ≤ middle.stack.size := by simpa using hcells.length_le
  cases statement with
  | assign target tree =>
      have hmem : .assign target tree ∈ block.statements := by
        rw [hstatements]
        exact List.mem_append_right _ List.mem_cons_self
      have hindex := List.idxOf_lt_length_of_mem (hnames.mem_of_target hstatements)
      have hslot : (block.slot target).toInt = block.names.idxOf target := by
        rw [capacity] at hbound
        exact Int32.toInt_ofNat_of_lt (by omega)
      have htree := tree.guards block.slot hcells
      refine htree.append fun after hafter => ?_
      have hheight := size_of_advance hafter
      rw [tree.height_code] at hheight
      refine guards_of (htree.getLast hafter) ?_ fun _ => ?_
      · rw [Operation.pops]
        omega
      · rw [hslot, Int.toNat_natCast, hcount]
        exact length_le_slot hnames hmem
  | print tree =>
      have htree := tree.guards block.slot hcells
      refine htree.append fun after hafter => ?_
      have hheight := size_of_advance hafter
      rw [tree.height_code] at hheight
      refine guards_of (htree.getLast hafter) ?_ (by rintro ⟨⟩)
      rw [Operation.pops]
      omega
  | empty => exact .nil hcells

/-- Behind its constants, the code of a block leaves their cells alone. -/
theorem guards_behind_constants (hnames : block.WellNamed) {sink : Sink} {middle : Progress}
    (h : Progress.advance { sink := sink } (block.constants.flatMap Constant.code) = .ok middle) :
    Guards (block.constants.map Constant.value) middle
      (block.vars.flatMap (Variable.code block.slot) ++
        block.statements.flatMap (Statement.code block.slot)) := by
  have hsize : (middle.stack.size : Int) = block.constants.length := by
    rw [size_of_advance h, height_items fun constant => rfl]
    exact zero_add _
  have hcells : middle.stack.toList = block.constants.map Constant.value := by
    obtain ⟨count, hcount, -, hstack⟩ := outcome_constants block.constants { sink := sink }
    rw [h] at hstack
    have hlength : middle.stack.size = ((block.constants.map Constant.value).take count).length :=
      congrArg List.length hstack
    rw [List.length_take, List.length_map] at hlength
    rw [List.take_of_length_le (by rw [List.length_map]; omega)] at hstack
    exact hstack
  have hstart : block.constants.map Constant.value <+: middle.stack.toList := by rw [hcells]
  have hbound : middle.stack.size ≤ capacity := size_of_advance_le (Nat.zero_le _) h
  refine (guards_vars hstart).append fun after hafter => ?_
  refine guards_statements hnames ((guards_vars hstart).getLast hafter) (List.length_map _) ?_
    (size_of_advance_le hbound hafter)
  have hheight := size_of_advance hafter
  rw [height_vars] at hheight
  simp only [names, List.length_append, List.length_map]
  omega

/-- At every point of a run of the code of a block, the cells that its instructions have set so far hold
the values of the constants. -/
theorem take_constants (hnames : block.WellNamed) (sink : Sink) {before : Code}
    (h : before <+: block.code) :
    (block.constants.map Constant.value).take
        (Progress.outcome (Progress.advance { sink := sink } before)).marks.length <+:
      (Progress.outcome (Progress.advance { sink := sink } before)).stack.toList := by
  set start : Progress := { sink := sink }
  have hnone : start.marks.length = 0 := rfl
  have hempty : start.stack.toList = [] := rfl
  rw [code, List.append_assoc] at h
  rcases le_total before.length (block.constants.flatMap Constant.code).length with hshort | hlong
  · obtain ⟨rest, hrest⟩ := List.prefix_of_prefix_length_le h (List.prefix_append _ _) hshort
    have hbefore : before = (block.constants.take before.length).flatMap Constant.code := by
      have htake := congrArg (List.take before.length) hrest
      rwa [List.take_left, flatMap_code_constants, ← List.map_take, ← flatMap_code_constants] at htake
    obtain ⟨reached, hreached, hmarks, hstack⟩ :=
      outcome_constants (block.constants.take before.length) start
    rw [← hbefore, hnone, Nat.zero_add] at hmarks
    rw [← hbefore, hempty, List.nil_append, List.map_take, List.take_take,
      min_eq_left (hreached.trans (List.length_take_le _ _))] at hstack
    rw [hstack, hmarks]
  · obtain ⟨more, rfl⟩ := List.prefix_of_prefix_length_le (List.prefix_append _ _) h hlong
    obtain ⟨reached, hreached, hmarks, hstack⟩ := outcome_constants block.constants start
    rw [hnone, Nat.zero_add] at hmarks
    rw [hempty, List.nil_append] at hstack
    rw [Progress.advance_append]
    cases hadvance : start.advance (block.constants.flatMap Constant.code) with
    | error outcome =>
        rw [hadvance] at hmarks hstack
        rw [error_bind, hmarks, hstack]
    | ok middle =>
        have hguards := guards_behind_constants hnames hadvance
        rw [ok_bind]
        exact (List.take_prefix _ _).trans (hguards more ((List.prefix_append_right_inj _).mp h))

/-- From the instruction that sets it on, the cell of a constant holds its value in every state of a run:
between two instructions, at the end, and where an instruction ends the run. -/
theorem getElem?_stack_constant (hnames : block.WellNamed) (prior : Processor) (count : Nat)
    {index : Nat} {constant : Constant} (h : block.constants[index]? = some constant)
    (hcarried : index < (prior.execute (block.code.take count)).marks.length) :
    (prior.execute (block.code.take count)).stack[index]? = some constant.value := by
  rw [execute_eq_outcome_advance] at hcarried ⊢
  have hcells := take_constants hnames prior.sink (List.take_prefix count block.code)
  obtain ⟨above, habove⟩ := hcells
  obtain ⟨hindex, -⟩ := List.getElem?_eq_some_iff.mp h
  rw [← Array.getElem?_toList, ← habove, List.getElem?_append_left, List.getElem?_take_of_lt hcarried,
    List.getElem?_map, h]
  · rfl
  · rw [List.length_take, List.length_map]
    omega

end Block

end PlZero.Source
