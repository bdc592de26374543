import PlZero.Proofs.Simulation
import PlZero.Proofs.Unambiguity

/-! A compiled program does what its source text means. Main statement: a text that compiles has one
syntax tree, and a machine with room enough on its stack prints, traps and ends as the evaluation of
that tree says. -/

namespace PlZero.Source

open PlZero.Text PlZero.Machine PlZero.Attempt

/-- The text is a block of the grammar, and the tree is its syntax tree. -/
def IsTreeOf (text : Bytes) (tree : Block) : Prop :=
  ∃ tokens, tokenize text = .ok tokens ∧ BlockPhrase (kinds (sentence tokens)) tree

theorem IsTreeOf.unique {text : Bytes} {left right : Block} (hleft : IsTreeOf text left)
    (hright : IsTreeOf text right) : left = right := by
  obtain ⟨tokens, htokens, hleft⟩ := hleft
  obtain ⟨tokens', htokens', hright⟩ := hright
  obtain rfl := Except.ok.inj (htokens.symm.trans htokens')
  exact hleft.unique hright

theorem compile_sound {text : Bytes} {code : Code} (h : compile text = .ok code) :
    ∃ tree, IsTreeOf text tree ∧ tree.WellNamed ∧ code = tree.code := by
  obtain ⟨tokens, htokens, hresult⟩ := bind_eq_ok_iff.mp h
  obtain ⟨tree, hphrase, hnames, hcode, -⟩ := analyze_sound hresult
  exact ⟨tree, ⟨tokens, htokens, hphrase⟩, hnames, hcode⟩

/-- A run agrees with an evaluation: it prints the same numbers, one decimal line each, ends or traps
as the evaluation does, and leaves the values of the names on the stack. -/
structure Agrees (names : List String) (evaluation : Except Interruption Memory)
    (outcome : Outcome) : Prop where
  output : outcome.output =
    String.join ((printedNumbers evaluation).map fun value => toString value.toInt ++ "\n")
  finished : outcome.ending = .finished ↔ ∃ memory, evaluation = .ok memory
  trapped : ∀ trouble : Trouble,
    (∃ instruction, outcome.ending = .trapped trouble.trap instruction) ↔
      ∃ printed, evaluation = .error ⟨trouble, printed⟩
  cells : ∀ memory, evaluation = .ok memory → outcome.stack.toList = names.map memory.values

theorem showInt_eq_toString (value : Int) : showInt value = toString value := by
  cases value with
  | ofNat value => rfl
  | negSucc value =>
      change String.ofList ('-' :: Nat.toDigits 10 (value + 1)) =
        "-" ++ String.ofList (Nat.toDigits 10 (value + 1))
      rw [← String.toList_inj]
      simp only [String.toList_append, String.toList_ofList]
      rfl

theorem output_eq {outcome : Outcome} {numbers : List Int32} (h : outcome.printed = numbers) :
    outcome.output = String.join (numbers.map fun value => toString value.toInt ++ "\n") := by
  rw [Outcome.output, printedText, h]
  simp only [showInt_eq_toString]

theorem Trouble.trap_injective {trouble other : Trouble} (h : trouble.trap = other.trap) :
    trouble = other := by
  cases trouble <;> cases other <;> first | rfl | cases h

/-- A run that follows an evaluation to its end agrees with it. -/
theorem Follows.agrees {names : List String} {evaluation : Except Interruption Memory}
    {attempt : Except Outcome Progress}
    (h : Follows (Represents names) Interrupts evaluation attempt)
    (hroom : ¬OverflowsStack (Progress.outcome attempt)) :
    Agrees names evaluation (Progress.outcome attempt) := by
  cases h with
  | reached h =>
      refine ⟨output_eq h.printed, ⟨fun _ => ⟨_, rfl⟩, fun _ => rfl⟩, fun trouble => ⟨?_, nofun⟩, ?_⟩
      · rintro ⟨instruction, hending⟩
        cases hending
      · rintro _ ⟨⟩
        exact h.cells
  | @stopped interruption outcome h =>
      obtain ⟨hprinted, instruction, hending⟩ := h
      refine ⟨output_eq hprinted, ⟨fun hfinished => ?_, nofun⟩, fun trouble => ⟨?_, ?_⟩, nofun⟩
      · cases hending.symm.trans hfinished
      · rintro ⟨other, htrapped⟩
        obtain ⟨htrap, -⟩ := Ending.trapped.inj (hending.symm.trans htrapped)
        obtain rfl := Trouble.trap_injective htrap
        exact ⟨_, rfl⟩
      · rintro ⟨printed, ⟨⟩⟩
        exact ⟨instruction, hending⟩
  | overflown h => exact absurd h hroom

/-- A text that compiles has one syntax tree, and every run of the code on a sink that takes all
numbers, unless the stack runs over, agrees with the evaluation of that tree. -/
theorem compile_correct {text : Bytes} {code : Code} (h : compile text = .ok code) :
    ∃ tree, (∀ other, IsTreeOf text other ↔ other = tree) ∧
      ∀ prior : Processor, prior.sink = Sink.endless → ¬OverflowsStack (prior.execute code) →
        Agrees tree.names tree.evaluate (prior.execute code) := by
  obtain ⟨tree, htree, hnames, rfl⟩ := compile_sound h
  refine ⟨tree, fun other => ⟨fun hother => hother.unique htree, fun hother => hother ▸ htree⟩, ?_⟩
  intro prior hsink hroom
  rw [execute_eq_outcome_advance, hsink] at hroom ⊢
  exact (Block.follows hnames).agrees hroom

/-- A text that prints a number and then divides by zero. -/
def dividingText : Bytes :=
  "begin const a=-7; var b; var c=a/2; b=c*-(a+1); print(b); print(a/(b+18)); end".toUTF8.toList

def dividingCode : Code :=
  [.of .literal (-7), .of .literal 0, .of .load 0, .of .literal 2, .of .divide, .of .load 2,
    .of .load 0, .of .literal 1, .of .add, .of .literal (-1), .of .multiply, .of .multiply,
    .of .store 1, .of .load 1, .of .write, .of .load 0, .of .load 1, .of .literal 18, .of .add,
    .of .divide, .of .write]

/-- A machine that an earlier run left halted with a value on its stack. -/
def usedProcessor : Processor :=
  ⟨3, #[5], Sink.endless, true⟩

theorem compile_correct_dividing : compile dividingText = .ok dividingCode ∧
    ¬OverflowsStack (usedProcessor.execute dividingCode) ∧
      ∃ tree, (∀ other, IsTreeOf dividingText other ↔ other = tree) ∧
        Agrees tree.names tree.evaluate (usedProcessor.execute dividingCode) := by
  have hcompile : compile dividingText = .ok dividingCode := by cbv
  have hending : (usedProcessor.execute dividingCode).ending =
      .trapped .divisionByZero (.of .divide) := by decide +kernel
  have hroom : ¬OverflowsStack (usedProcessor.execute dividingCode) := by
    rintro ⟨instruction, hoverflow⟩
    cases hending.symm.trans hoverflow
  obtain ⟨tree, htree, hagrees⟩ := compile_correct hcompile
  exact ⟨hcompile, hroom, tree, htree, hagrees usedProcessor rfl hroom⟩

end PlZero.Source
