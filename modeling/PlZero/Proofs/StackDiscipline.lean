import PlZero.Proofs.Acceptance
import PlZero.Proofs.Height

/-! Compiled code keeps to the stack. The code of an expression leaves one value, that of a declaration
the cell of its name and that of a statement nothing, so the slot of a name is the height at which its
declaration started. Main statement: every instruction of compiled code is safe where it stands, and
the code leaves one cell for each declared name. -/

namespace PlZero.Source

open PlZero.Machine

/-- The code of an expression puts one value on the stack. -/
theorem Expression.nets {slot : String → Int32} (tree : Expression) {start : Int} (hstart : 0 ≤ start)
    (hslot : ∀ used ∈ tree.names, 0 ≤ (slot used).toInt ∧ (slot used).toInt < start) :
    Nets start (tree.code slot) 1 := by
  induction tree generalizing start with
  | literal value => exact nets_literal hstart value
  | name used =>
      exact nets_of (safeAt_of nofun hstart (fun _ => hslot used List.mem_cons_self) nofun)
  | signed sign operand ih =>
      have hmultiply : Nets (start + 1) ([.of .literal sign.factor] ++ [.of .multiply]) 0 :=
        (nets_literal (by omega) sign.factor).append (nets_operation (by omega) rfl) rfl
      exact (ih hstart hslot).append hmultiply rfl
  | binary operator left right ihleft ihright =>
      have hleft := ihleft hstart fun used hused => hslot used (List.mem_append_left _ hused)
      have hright := ihright (by omega : 0 ≤ start + 1) fun used hused => by
        have hused := hslot used (List.mem_append_right _ hused)
        omega
      have hjoin := nets_operation (by omega : 2 ≤ start + 1 + 1) operator.isArithmetic_operation
      exact hleft.append (hright.append hjoin rfl) rfl

namespace Block

variable {block : Block}

/-- The slot of a name lies below the height that the names declared before some point reach. -/
theorem slot_inside (hsmall : block.names.length ≤ 2 ^ 31) {names more : List String}
    (hnames : block.names = names ++ more) {used : String} (hused : used ∈ names) :
    0 ≤ (block.slot used).toInt ∧ (block.slot used).toInt < names.length := by
  have hindex := List.idxOf_lt_length_of_mem hused
  have hlength := congrArg List.length hnames
  rw [List.length_append] at hlength
  rw [slot_eq hnames used hused, Int32.toInt_ofNat_of_lt (by omega)]
  omega

theorem nets_constants (constants : List Constant) :
    Nets 0 (constants.flatMap Constant.code) constants.length := by
  rw [← mul_one (constants.length : Int)]
  refine nets_items constants fun before constant after _ => ?_
  exact nets_literal (by omega) constant.value

theorem nets_vars (hnames : block.WellNamed) (hsmall : block.names.length ≤ 2 ^ 31) :
    Nets block.constants.length (block.vars.flatMap (Variable.code block.slot))
      block.vars.length := by
  rw [← mul_one (block.vars.length : Int)]
  refine nets_items block.vars fun before declared after hvars => ?_
  have hheight : (block.constants.length : Int) + before.length * 1 =
      (block.constants.map Constant.name ++ before.map Variable.name).length := by
    simp
  rw [hheight, Variable.code]
  cases hinitial : declared.initial with
  | none => exact nets_literal (by omega) 0
  | some tree =>
      refine tree.nets (by omega) fun used hused => ?_
      exact slot_inside hsmall (names_eq_of_vars hvars)
        (hnames.mem_of_initializer hvars hinitial used hused)

theorem nets_statements (hnames : block.WellNamed) (hsmall : block.names.length ≤ 2 ^ 31) :
    Nets block.names.length (block.statements.flatMap (Statement.code block.slot)) 0 := by
  rw [← mul_zero (block.statements.length : Int)]
  refine nets_items block.statements fun before statement after hstatements => ?_
  have hslot : ∀ used ∈ block.names,
      0 ≤ (block.slot used).toInt ∧ (block.slot used).toInt < block.names.length :=
    fun used hused => slot_inside hsmall (List.append_nil _).symm hused
  have huses := hnames.mem_of_statement hstatements
  rw [mul_zero, add_zero]
  cases statement with
  | assign target tree =>
      have hvalue := tree.nets (by omega) fun used hused => hslot used (huses used hused)
      have htarget := hslot target (hnames.mem_of_target hstatements)
      exact hvalue.append (nets_store htarget) rfl
  | print tree =>
      have hvalue := tree.nets (by omega) fun used hused => hslot used (huses used hused)
      exact hvalue.append (nets_write (by omega)) rfl
  | empty => exact ⟨trivial, rfl⟩

/-- The code of a block is disciplined and leaves one cell for each name. -/
theorem nets (hnames : block.WellNamed) (hsmall : block.names.length ≤ 2 ^ 31) :
    Nets 0 block.code block.names.length := by
  have hlength : (block.constants.length : Int) + block.vars.length = block.names.length := by
    simp [names]
  have hdeclared := (nets_constants block.constants).append
    (by simpa using nets_vars hnames hsmall) hlength
  refine hdeclared.append ?_ (add_zero _)
  rw [zero_add]
  exact nets_statements hnames hsmall

end Block

/-- Whether a declaration starts with the kind. -/
def TokenKind.declares (kind : TokenKind) : Bool :=
  kind == .constWord || kind == .varWord

/-- How many names the tokens before the end of input declare. -/
def declarations (tokens : List Token) : Nat :=
  (kinds (sentence tokens)).countP TokenKind.declares

theorem Phrase.countP_declares {level : Level} {row : List TokenKind} {tree : Expression}
    (h : Phrase level row tree) : row.countP TokenKind.declares = 0 := by
  have hoperator (operator : BinaryOperator) : operator.mark.declares = false := by
    cases operator <;> rfl
  have hsign (sign : Sign) : sign.mark.declares = false := by cases sign <;> rfl
  induction h with
  | literal value => rfl
  | name used => rfl
  | group inner ih =>
      rw [List.countP_cons_of_neg (by decide), List.countP_append, ih]
      rfl
  | signed sign inner ih =>
      rw [List.countP_cons_of_neg (by simp [hsign]), ih]
  | product operator hrank head tail ihhead ihtail =>
      rw [List.countP_append, List.countP_cons_of_neg (by simp [hoperator]), ihhead, ihtail]
  | sum operator hrank head tail ihhead ihtail =>
      rw [List.countP_append, List.countP_cons_of_neg (by simp [hoperator]), ihhead, ihtail]
  | unsigned inner ih => exact ih
  | lone inner ih => exact ih
  | single inner ih => exact ih

theorem ConstantPhrase.countP_declares {row : List TokenKind} {constant : Constant}
    (h : ConstantPhrase row constant) : row.countP TokenKind.declares = 1 := by
  cases h with
  | unsigned name value => rfl
  | signed name sign value => cases sign <;> rfl

theorem VariablePhrase.countP_declares {row : List TokenKind} {declared : Variable}
    (h : VariablePhrase row declared) : row.countP TokenKind.declares = 1 := by
  cases h with
  | bare name => rfl
  | initialized name value =>
      simp [TokenKind.declares, value.countP_declares]

theorem StatementPhrase.countP_declares {row : List TokenKind} {statement : Statement}
    (h : StatementPhrase row statement) : row.countP TokenKind.declares = 0 := by
  cases h with
  | assign target value =>
      simp [TokenKind.declares, value.countP_declares]
  | print value => simp [TokenKind.declares, value.countP_declares]
  | empty => rfl

theorem Sequence.countP_declares {α : Type} {phrase : List TokenKind → α → Prop} {each : Nat}
    (hpart : ∀ {row item}, phrase row item → row.countP TokenKind.declares = each)
    {row : List TokenKind} {list : List α} (h : Sequence phrase row list) :
    row.countP TokenKind.declares = list.length * each := by
  induction h with
  | nil => rw [List.countP_nil, List.length_nil, zero_mul]
  | cons head tail ih =>
      rw [List.countP_append, hpart head, ih, List.length_cons, add_one_mul, add_comm]

/-- A block declares as many names as it has words that start a declaration. -/
theorem BlockPhrase.countP_declares {row : List TokenKind} {tree : Block}
    (h : BlockPhrase row tree) : row.countP TokenKind.declares = tree.names.length := by
  obtain ⟨hconstants, hvars, hstatements⟩ := h
  rw [List.countP_cons_of_neg (by decide), List.countP_append, List.countP_append,
    List.countP_append, hconstants.countP_declares ConstantPhrase.countP_declares,
    hvars.countP_declares VariablePhrase.countP_declares,
    hstatements.countP_declares StatementPhrase.countP_declares, Block.names, List.length_append,
    List.length_map, List.length_map, mul_one, mul_one, mul_zero]
  rfl

/-! ### Compiled code -/

/-- In compiled code every instruction is safe at the height where it stands, the code leaves as many
cells as names are declared, and no run of it halts or reaches outside the stack. -/
theorem analyze_disciplined {tokens : List Token} {code : Code}
    (h : (analyze tokens).result = .ok code) (hsmall : declarations tokens ≤ 2 ^ 31) :
    (∀ address instruction, code[address]? = some instruction →
      SafeAt (height (code.take address)) instruction) ∧
    height code = declarations tokens ∧
    ∀ prior : Processor, (prior.execute code).ending ≠ .halted ∧
      ∀ reason instruction, (prior.execute code).ending = .trapped reason instruction →
        reason = .stackOverflow ∨ reason = .divisionByZero ∨ reason = .arithmeticOverflow := by
  obtain ⟨tree, hphrase, hnames, rfl, -⟩ := analyze_sound h
  have hcount : declarations tokens = tree.names.length := hphrase.countP_declares
  rw [hcount] at hsmall ⊢
  obtain ⟨hdisciplined, hheight⟩ := Block.nets hnames hsmall
  refine ⟨fun address instruction hcode => hdisciplined.safeAt hcode, hheight, fun prior => ?_⟩
  obtain ⟨hhalted, hinside⟩ := hdisciplined.execute prior
  refine ⟨hhalted, fun reason instruction hending => ?_⟩
  cases reason with
  | accessViolation => exact absurd hending (hinside instruction)
  | stackOverflow => exact .inl rfl
  | divisionByZero => exact .inr (.inl rfl)
  | arithmeticOverflow => exact .inr (.inr rfl)

/-- Tokens that declare two names and have more behind their end of input. -/
def declaringTokens : List Token :=
  [.beginWord, .constWord, .identifier "a", .equals, .minus, .integer 4, .semicolon, .varWord,
    .identifier "b", .equals, .identifier "a", .semicolon, .identifier "b", .equals, .integer 2,
    .times, .openParen, .identifier "b", .minus, .identifier "a", .closeParen, .semicolon,
    .printWord, .openParen, .identifier "b", .closeParen, .semicolon, .endWord, .endOfInput,
    .constWord].map fun kind => ⟨kind, Position.none⟩

def declaringCode : Code :=
  [.of .literal (-4), .of .load 0, .of .literal 2, .of .load 1, .of .load 0, .of .subtract,
    .of .multiply, .of .store 1, .of .load 1, .of .write]

theorem analyze_disciplined_declaring : (analyze declaringTokens).result = .ok declaringCode ∧
    declarations declaringTokens ≤ 2 ^ 31 ∧
    (∀ address instruction, declaringCode[address]? = some instruction →
      SafeAt (height (declaringCode.take address)) instruction) ∧
    height declaringCode = declarations declaringTokens ∧
    ∀ prior : Processor, (prior.execute declaringCode).ending ≠ .halted ∧
      ∀ reason instruction, (prior.execute declaringCode).ending = .trapped reason instruction →
        reason = .stackOverflow ∨ reason = .divisionByZero ∨ reason = .arithmeticOverflow := by
  have hresult : (analyze declaringTokens).result = .ok declaringCode := by cbv
  have hsmall : declarations declaringTokens ≤ 2 ^ 31 := by decide +kernel
  exact ⟨hresult, hsmall, analyze_disciplined hresult hsmall⟩

end PlZero.Source
