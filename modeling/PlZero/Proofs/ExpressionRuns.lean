import PlZero.Proofs.ConstantCells
import PlZero.Proofs.OnePass

/-! What the code of an expression does to a stack. Each of its instructions takes off only what
instructions before it put on, and none of them halts, stores or prints; so whatever is on the stack stays
there, and a run of the code either ends in one of three traps or leaves one value more. Main statement:
translating an expression in one pass comes to an end, and puts out such code for the tokens it consumes. -/

namespace PlZero.Machine

open PlZero.Attempt

/-- An instruction that computes with values that the code before it put on the stack, so many of them:
it takes off no more than these, and it neither halts nor stores nor prints. -/
structure ComputesOn (own : Int) (instruction : Instruction) : Prop where
  operation : ∃ operation, instruction.operation? = some operation ∧ operation ≠ .illegal ∧
    operation ≠ .store ∧ operation ≠ .write
  pops : (instruction.pops : Int) ≤ own

/-- Code all of whose instructions compute with their own values. -/
def Computes (own : Int) (code : Code) : Prop :=
  Admits ComputesOn (fun own instruction => own + instruction.effect) own code

theorem computesOn_of {operation : Operation} {own : Int} (hlegal : operation ≠ .illegal)
    (hstore : operation ≠ .store) (hwrite : operation ≠ .write) (hpops : (operation.pops : Int) ≤ own)
    (operand : Int32) : ComputesOn own (.of operation operand) := by
  have hoperation : (Instruction.of operation operand).operation? = some operation :=
    Operation.ofOpcode?_opcode operation
  refine ⟨⟨operation, hoperation, hlegal, hstore, hwrite⟩, ?_⟩
  rwa [Instruction.pops, hoperation]

theorem computes_append {own : Int} {first second : Code} :
    Computes own (first ++ second) ↔ Computes own first ∧ Computes (own + height first) second := by
  rw [Computes, admits_append, foldl_effect]
  rfl

theorem computes_singleton {own : Int} {instruction : Instruction} :
    Computes own [instruction] ↔ ComputesOn own instruction := by
  simp [Computes, Admits]

/-- The instruction loads a cell of the stack, if it loads any. -/
def LoadsFrom (size : Nat) (instruction : Instruction) : Prop :=
  instruction.operation? = some .load →
    0 ≤ instruction.operand.toInt ∧ instruction.operand.toInt < size

/-- A run of the code leaves the stack with one value more, or it ends in one of three traps. -/
def LeavesOne (start : Progress) (code : Code) : Prop :=
  (∃ value, (runFrom start code).ending = .finished ∧
      (runFrom start code).stack = start.stack.push value) ∨
    ∃ reason instruction, (runFrom start code).ending = .trapped reason instruction ∧
      (reason = .stackOverflow ∨ reason = .divisionByZero ∨ reason = .arithmeticOverflow)

/-- Wherever a run of the code stands, its stack is the one at the start with values of its own on it;
the next instruction takes off none but these, and it does not store. -/
def StaysAbove (start : Progress) (code : Code) : Prop :=
  ∀ before instruction rest, code = before ++ instruction :: rest →
    (runFrom start before).ending = .finished →
      ∃ own, (runFrom start before).stack.toList = start.stack.toList ++ own ∧
        instruction.pops ≤ own.length ∧ instruction.operation? ≠ some .store

/-- An instruction that computes is carried out, or it traps within the stack. -/
theorem ComputesOn.step {progress : Progress} {instruction : Instruction} {own : Int}
    (h : ComputesOn own instruction) (hown : own ≤ progress.stack.size)
    (hload : LoadsFrom progress.stack.size instruction) {outcome : Outcome}
    (hstep : progress.step instruction = .error outcome) :
    ∃ reason, outcome.ending = .trapped reason instruction ∧ reason ≠ .accessViolation := by
  obtain ⟨operation, hoperation, hlegal, hstore, hwrite⟩ := h.operation
  have hsafe : SafeAt progress.stack.size instruction := by
    refine ⟨⟨operation, hoperation, hlegal⟩, h.pops.trans hown, hload, fun hsame => ?_⟩
    exact absurd (Option.some.inj (hoperation.symm.trans hsame)) hstore
  have hinside := hsafe.staysInside_step
  rw [Progress.step] at hstep
  split at hstep
  · cases hstep
  · next hprint =>
      have hsame := (step_eq_print_iff.mp hprint).1
      exact absurd (Option.some.inj (hoperation.symm.trans hsame)) hwrite
  · next hhalt => exact absurd hhalt hinside.1
  · next reason htrap =>
      obtain rfl := Except.error.inj hstep
      refine ⟨reason, rfl, ?_⟩
      rintro rfl
      exact hinside.2 htrap

/-- A step that ends a run ends it before the code does. -/
theorem ending_ne_finished {progress : Progress} {instruction : Instruction} {outcome : Outcome}
    (h : progress.step instruction = .error outcome) : outcome.ending ≠ .finished := by
  rw [Progress.step] at h
  split at h
  · cases h
  · split at h <;> cases h
    exact Ending.noConfusion
  · cases h
    exact Ending.noConfusion
  · cases h
    exact Ending.noConfusion

section Run

variable {start : Progress} {code : Code}

/-- A run that got behind code stands at a further point. -/
theorem exists_advance (h : (runFrom start code).ending = .finished) :
    ∃ reached, start.advance code = .ok reached ∧ (runFrom start code).stack = reached.stack := by
  rw [runFrom_eq_outcome_advance] at h ⊢
  cases hadvance : start.advance code with
  | ok reached => exact ⟨reached, rfl, rfl⟩
  | error outcome =>
      rw [hadvance] at h
      obtain ⟨_, _, _, _, -, -, hstep⟩ := Progress.advance_eq_error_iff.mp hadvance
      exact absurd h (ending_ne_finished hstep)

variable (hcomputes : Computes 0 code) (hguards : Guards start.stack.toList start code)
include hcomputes hguards

/-- At every point of the run the stack is the one at its start with the code's own values on it. -/
theorem exists_own {before rest : Code} {instruction : Instruction} {reached : Progress}
    (hcode : code = before ++ instruction :: rest) (hreached : start.advance before = .ok reached) :
    ∃ own, reached.stack.toList = start.stack.toList ++ own ∧
      ComputesOn own.length instruction := by
  have hbelow : start.stack.toList <+: reached.stack.toList := by
    have hpoint := hguards before (hcode ▸ List.prefix_append _ _)
    rwa [hreached] at hpoint
  obtain ⟨own, hown⟩ := hbelow
  have hsize := size_of_advance hreached
  rw [← Array.length_toList, ← hown, List.length_append, Array.length_toList] at hsize
  have hheight : (own.length : Int) = 0 + height before := by omega
  refine ⟨own, hown.symm, ?_⟩
  rw [hheight, ← foldl_effect]
  exact admits_iff_split.mp hcomputes before instruction rest hcode

/-- A run of such code that has the cells it loads gets behind it, or one of three traps ends it. -/
theorem advance_cases (hloads : ∀ instruction ∈ code, LoadsFrom start.stack.size instruction) :
    (∃ reached, start.advance code = .ok reached) ∨
      ∃ outcome, start.advance code = .error outcome ∧ ∃ reason instruction,
        outcome.ending = .trapped reason instruction ∧ reason ≠ .accessViolation := by
  cases hadvance : start.advance code with
  | ok reached => exact .inl ⟨reached, rfl⟩
  | error outcome =>
      obtain ⟨before, instruction, rest, reached, hcode, hreached, hstep⟩ :=
        Progress.advance_eq_error_iff.mp hadvance
      obtain ⟨own, hown, hinstruction⟩ := exists_own hcomputes hguards hcode hreached
      have hsize : reached.stack.size = start.stack.size + own.length := by
        rw [← Array.length_toList, hown, List.length_append, Array.length_toList]
      have hload : LoadsFrom reached.stack.size instruction := by
        intro hoperation
        have hslot := hloads instruction (by rw [hcode]; simp) hoperation
        omega
      obtain ⟨reason, hending, hreason⟩ := hinstruction.step (by omega) hload hstep
      exact .inr ⟨outcome, rfl, reason, instruction, hending, hreason⟩

end Run

end PlZero.Machine

namespace PlZero.Source

open PlZero.Machine PlZero.Attempt

namespace Expression

variable {slot : String → Int32}

theorem computes (tree : Expression) {own : Int} (hown : 0 ≤ own) : Computes own (tree.code slot) := by
  induction tree generalizing own with
  | literal value =>
      exact computes_singleton.mpr (computesOn_of (by decide) (by decide) (by decide) hown value)
  | name used =>
      exact computes_singleton.mpr (computesOn_of (by decide) (by decide) (by decide) hown _)
  | signed sign operand ih =>
      have hliteral : Computes (own + 1) [.of .literal sign.factor] :=
        computes_singleton.mpr (computesOn_of (by decide) (by decide) (by decide)
          (by omega : 0 ≤ own + 1) sign.factor)
      have hmultiply : Computes (own + 1 + 1) [.of .multiply] :=
        computes_singleton.mpr (computesOn_of (by decide) (by decide) (by decide)
          (by omega : 2 ≤ own + 1 + 1) 0)
      rw [code, computes_append, operand.height_code]
      exact ⟨ih hown, computes_append.mpr ⟨hliteral, hmultiply⟩⟩
  | binary operator left right ihleft ihright =>
      rw [code, computes_append, computes_append, left.height_code, right.height_code]
      refine ⟨ihleft hown, ihright (by omega), computes_singleton.mpr ?_⟩
      have hpops : operator.operation.pops = 2 := by cases operator <;> rfl
      refine computesOn_of ?_ ?_ ?_ ?_ _
      · cases operator <;> decide
      · cases operator <;> decide
      · cases operator <;> decide
      · rw [hpops]
        omega

/-- The code of an expression loads the slots of its names. -/
theorem exists_name_of_load {tree : Expression} {instruction : Instruction}
    (h : instruction ∈ tree.code slot) (hload : instruction.operation? = some .load) :
    ∃ used ∈ tree.names, instruction.operand = slot used := by
  induction tree with
  | literal value =>
      rw [List.mem_singleton.mp h] at hload
      cases hload
  | name used => exact ⟨used, List.mem_cons_self, by rw [List.mem_singleton.mp h]; rfl⟩
  | signed sign operand ih =>
      rw [code, List.mem_append] at h
      rcases h with h | h
      · exact ih h
      · rcases List.mem_pair.mp h with rfl | rfl <;> cases hload
  | binary operator left right ihleft ihright =>
      rw [code, List.mem_append, List.mem_append, List.mem_singleton] at h
      rcases h with h | h | rfl
      · obtain ⟨used, hused, hslot⟩ := ihleft h
        exact ⟨used, List.mem_append_left _ hused, hslot⟩
      · obtain ⟨used, hused, hslot⟩ := ihright h
        exact ⟨used, List.mem_append_right _ hused, hslot⟩
      · cases operator <;> cases hload

/-- The code of an expression leaves one value on a stack that has the slots it loads. -/
theorem leavesOne (tree : Expression) {start : Progress}
    (hloads : ∀ instruction ∈ tree.code slot, LoadsFrom start.stack.size instruction) :
    LeavesOne start (tree.code slot) := by
  have hguards : Guards start.stack.toList start (tree.code slot) :=
    tree.guards slot (List.prefix_refl _)
  rw [LeavesOne, runFrom_eq_outcome_advance]
  obtain ⟨reached, hreached⟩ | ⟨outcome, hended, reason, instruction, hending, hreason⟩ :=
    advance_cases (tree.computes le_rfl) hguards hloads
  · obtain ⟨own, hown⟩ := hguards.getLast hreached
    have hsize := size_of_advance hreached
    rw [tree.height_code, ← Array.length_toList, ← hown, List.length_append,
      Array.length_toList] at hsize
    obtain ⟨value, rfl⟩ := List.length_eq_one_iff.mp (by omega : own.length = 1)
    rw [hreached]
    refine .inl ⟨value, rfl, ?_⟩
    rw [← Array.toList_inj, Array.toList_push]
    exact hown.symm
  · rw [hended]
    refine .inr ⟨reason, instruction, hending, ?_⟩
    cases reason with
    | accessViolation => exact absurd rfl hreason
    | stackOverflow => exact .inl rfl
    | divisionByZero => exact .inr (.inl rfl)
    | arithmeticOverflow => exact .inr (.inr rfl)

/-- The code of an expression leaves all that is on a stack alone. -/
theorem staysAbove (slot : String → Int32) (tree : Expression) (start : Progress) :
    StaysAbove start (tree.code slot) := by
  intro before instruction rest hcode hfinished
  obtain ⟨reached, hreached, hstack⟩ := exists_advance hfinished
  obtain ⟨own, hown, hcomputes⟩ := exists_own (tree.computes le_rfl)
    (tree.guards slot (List.prefix_refl _)) hcode hreached
  obtain ⟨operation, hoperation, -, hstore, -⟩ := hcomputes.operation
  refine ⟨own, hstack ▸ hown, Int.ofNat_le.mp hcomputes.pops, ?_⟩
  rw [hoperation]
  exact fun hsame => hstore (Option.some.inj hsame)

end Expression

/-! ### Tokens -/

/-- No phrase has an end of input in it. -/
theorem Phrase.endOfInput_notMem {level : Level} {row : List TokenKind} {tree : Expression}
    (h : Phrase level row tree) : .endOfInput ∉ row := by
  have hoperator (operator : BinaryOperator) : TokenKind.endOfInput ≠ operator.mark := by
    cases operator <;> decide
  have hsign (sign : Sign) : TokenKind.endOfInput ≠ sign.mark := by cases sign <;> decide
  induction h with
  | literal value => simp
  | name used => simp
  | group inner ih => simp [ih]
  | unsigned inner ih => exact ih
  | signed sign inner ih => simp [ih, hsign]
  | lone inner ih => exact ih
  | product operator hrank head tail ihhead ihtail => simp [ihhead, ihtail, hoperator]
  | single inner ih => exact ih
  | sum operator hrank head tail ihhead ihtail => simp [ihhead, ihtail, hoperator]

theorem Phrase.ne_nil {level : Level} {row : List TokenKind} {tree : Expression}
    (h : Phrase level row tree) : row ≠ [] := by
  induction h with
  | unsigned inner ih => exact ih
  | lone inner ih => exact ih
  | single inner ih => exact ih
  | _ => simp

/-- Tokens without an end of input come before the first one. -/
theorem begins_sentence {used rest : List Token} (h : .endOfInput ∉ kinds used) :
    used <+: sentence (used ++ rest) := by
  have hall : ∀ token ∈ used, (token.kind != .endOfInput) = true := by
    intro token htoken
    rw [bne_iff_ne]
    exact fun hkind => h (List.mem_map.mpr ⟨token, htoken, hkind⟩)
  rw [sentence, List.takeWhile_append_of_pos hall]
  exact List.prefix_append _ _

namespace Translation

theorem behindTree_eq {state : Translation} {tree : Expression} {used rest : List Token}
    (hahead : state.ahead = used ++ rest) (hused : used ≠ []) :
    state.behindTree (tree, rest) = { state with
      next := state.next + used.length
      canReturn := true
      code := state.code ++ tree.code state.table.slotOf } := by
  have hlength := congrArg List.length hahead
  have hsome := List.length_pos_iff.mpr hused
  rw [ahead, List.length_drop, List.length_append] at hlength
  have hnext : state.tokens.length - rest.length = state.next + used.length := by omega
  rw [behindTree, behind, hnext]

/-- Translating an expression, a term or a factor comes to an end from every state, whatever tokens are
ahead: with every depth of calls from six for each of them on, it has the same result. If this is no
fault, then at least one token was consumed, all that were come before the first end of input ahead, the
declared names are as they were, and code was put out behind that before. The code loads slots of declared
names. Run on any stack that has the slots it loads, it ends in a stack overflow, a division by zero or an
arithmetic overflow, or it leaves the stack with one value more; and all the while it leaves what was on
the stack alone. -/
theorem translate_computes (level : Level) (state : Translation) :
    ∃ result, (∀ depth, 6 * state.ahead.length + 6 ≤ depth →
        (translate depth level state).run = some result) ∧
      ∀ after, result = .ok after → ∃ used emitted, used ≠ [] ∧ used <+: sentence state.ahead ∧
        after = { state with
          next := state.next + used.length
          canReturn := true
          code := state.code ++ emitted } ∧
        (state.table.size ≤ 2 ^ 31 →
          ∀ instruction ∈ emitted, LoadsFrom state.table.size instruction) ∧
        ∀ start : Progress, (∀ instruction ∈ emitted, LoadsFrom start.stack.size instruction) →
          LeavesOne start emitted ∧ StaysAbove start emitted := by
  refine ⟨_, fun depth hdepth => translate_eq level state hdepth, fun after hafter => ?_⟩
  obtain ⟨⟨tree, rest⟩, hread, rfl⟩ := map_eq_ok_iff.mp hafter
  obtain ⟨used, hahead, hphrase, hcovers⟩ := soundAt_level level state.ahead tree rest hread
  have hused : used ≠ [] := mt kinds_eq_nil_iff.mpr hphrase.ne_nil
  refine ⟨used, tree.code state.table.slotOf, hused, ?_, behindTree_eq hahead hused, ?_, ?_⟩
  · rw [hahead]
    exact begins_sentence hphrase.endOfInput_notMem
  · intro hsmall instruction hinstruction hload
    obtain ⟨name, hname, hslot⟩ := Expression.exists_name_of_load hinstruction hload
    obtain ⟨cls, hclass, -⟩ := hcovers name hname
    rw [hslot]
    exact SymbolTable.slotOf_inside hsmall (SymbolTable.mem_names_of_class? hclass)
  · exact fun start hloads =>
      ⟨tree.leavesOne hloads, tree.staysAbove state.table.slotOf start⟩

end Translation

end PlZero.Source
