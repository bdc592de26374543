import PlZero.Machine.Assembly
import PlZero.Proofs.Acceptance
import PlZero.Proofs.Words

/-! The text form of a program is read back. An instruction is written as one word or as two, on a line
of its own, so it is read alone; what the text does not show is the operand of an operation that takes
none. Main statement: the text of a program is read as the program with these operands at zero, up to
the first instruction that names no operation, which is blamed by its line. -/

namespace PlZero.Machine

open PlZero.Text PlZero.Attempt

/-- What the text of an instruction tells of it: an operand that means nothing is not written. -/
def Instruction.shown (instruction : Instruction) : Instruction :=
  if instruction.hasOperand then instruction else { instruction with operand := 0 }

/-- The opcode names an operation. -/
def Instruction.IsKnown (instruction : Instruction) : Prop :=
  ∃ operation, instruction.operation? = some operation

theorem Operation.opcode_of_ofOpcode? {opcode : UInt8} {operation : Operation}
    (h : ofOpcode? opcode = some operation) : operation.opcode = opcode := by
  unfold ofOpcode? at h
  split at h <;> cases h <;> rfl

theorem Operation.ofMnemonic?_eq_none {name : String}
    (h : ∀ operation : Operation, operation.mnemonic ≠ name) : ofMnemonic? name = none := by
  rw [ofMnemonic?, List.find?_eq_none]
  intro operation _
  rw [beq_iff_eq]
  exact h operation

theorem opcodeName_of_known {opcode : UInt8} {operation : Operation}
    (h : Operation.ofOpcode? opcode = some operation) : opcodeName opcode = operation.mnemonic := by
  rw [opcodeName, h]

theorem opcodeName_of_unknown {opcode : UInt8} (h : Operation.ofOpcode? opcode = none) :
    (opcodeName opcode).toList = ['U', 'N', 'K', 'N', 'O', 'W', 'N', '(', '0', 'x'] ++
      (hexDigits 2 opcode.toNat).map Char.toUpper ++ [')'] := by
  rw [opcodeName, h]
  simp only [String.toList_append, String.toUpper, String.toList_map, hex, String.toList_ofList]
  rfl

theorem isWord_opcodeName (opcode : UInt8) : IsWord (opcodeName opcode).toList := by
  cases hoperation : Operation.ofOpcode? opcode with
  | some operation =>
      rw [opcodeName_of_known hoperation]
      cases operation <;> exact isWord_of_isGraph (by decide) (by decide)
  | none =>
      have hdigit {value : Nat} (h : value < 16) : isGraph (hexDigit value).toUpper = true := by
        interval_cases value <;> rfl
      rw [opcodeName_of_unknown hoperation]
      refine isWord_of_isGraph (by simp) ?_
      simp only [hexDigits, List.nil_append, List.map_append, List.map_cons, List.map_nil,
        List.all_append, List.all_cons, List.all_nil, hdigit (Nat.mod_lt _ (by decide : 0 < 16))]
      rfl

theorem length_opcodeName_le (opcode : UInt8) : (opcodeName opcode).toList.length ≤ 13 := by
  cases hoperation : Operation.ofOpcode? opcode with
  | some operation =>
      rw [opcodeName_of_known hoperation]
      cases operation <;> decide
  | none =>
      rw [opcodeName_of_unknown hoperation]
      simp [hexDigits]

theorem Instruction.toList_render (instruction : Instruction) : instruction.render.toList =
    if instruction.hasOperand then
      (opcodeName instruction.opcode).toList ++ ' ' :: decimal instruction.operand.toInt
    else (opcodeName instruction.opcode).toList := by
  rw [render]
  split
  · simp [showInt]
  · rfl

namespace Assembly

/-- The line of an instruction, without its end. -/
def lineOf (instruction : Instruction) : Bytes :=
  encode instruction.render

theorem operation?_opcodeName (opcode : UInt8) :
    operation? (ofChars (opcodeName opcode).toList) = Operation.ofOpcode? opcode := by
  rw [operation?, mapM_char?_ofChars]
  simp only [Option.bind_eq_bind, Option.bind_some, String.ofList_toList]
  cases hoperation : Operation.ofOpcode? opcode with
  | some operation =>
      rw [opcodeName_of_known hoperation]
      exact Operation.ofMnemonic?_mnemonic operation
  | none =>
      refine Operation.ofMnemonic?_eq_none fun operation hname => ?_
      have hlist := congrArg String.toList hname
      rw [opcodeName_of_unknown hoperation] at hlist
      cases operation <;> cases hlist

theorem operand?_decimal (value : Int32) : operand? (ofChars (decimal value.toInt)) = some value := by
  have hleast := value.le_toInt
  have hmost := value.toInt_lt
  rw [operand?, mapM_char?_ofChars]
  simp only [Option.bind_eq_bind, Option.bind_some, readInt?_decimal]
  rw [if_pos ⟨by omega, by omega⟩, Int32.ofInt_toInt]

theorem fields_render (instruction : Instruction) :
    fields (ofChars instruction.render.toList) =
      if instruction.hasOperand then
        [ofChars (opcodeName instruction.opcode).toList, ofChars (decimal instruction.operand.toInt)]
      else [ofChars (opcodeName instruction.opcode).toList] := by
  have hname := isWord_opcodeName instruction.opcode
  rw [instruction.toList_render]
  split
  · exact fields_two_words hname (isWord_decimal _) rfl
  · exact fields_word hname

/-- The characters of a line are no line ends. -/
theorem notMem_render {mark : Char} (hmark : isBlank mark = true) (hspace : mark ≠ ' ')
    (instruction : Instruction) : mark ∉ instruction.render.toList := by
  have hword {word : List Char} (h : IsWord word) : mark ∉ word := by
    intro hmem
    rw [h.solid mark hmem] at hmark
    cases hmark
  have hname := hword (isWord_opcodeName instruction.opcode)
  have hoperand := hword (isWord_decimal instruction.operand.toInt)
  rw [instruction.toList_render]
  split
  · simp [hname, hoperand, hspace]
  · exact hname

theorem lineFeed_notMem (instruction : Instruction) : lineFeed ∉ lineOf instruction :=
  notMem_encodeChars '\n' (by decide) (notMem_render rfl (by decide) instruction)

theorem glyphs_line (instruction : Instruction) :
    glyphs (dropReturn (lineOf instruction)) = ofChars instruction.render.toList := by
  have hreturn : carriageReturn ∉ lineOf instruction :=
    notMem_encodeChars '\r' (by decide) (notMem_render rfl (by decide) instruction)
  rw [dropReturn_of_notMem hreturn, lineOf, encode, glyphs_encodeChars]

theorem readLine_of_known {instruction : Instruction} (h : instruction.IsKnown) :
    readLine (lineOf instruction) = .ok (some instruction.shown) := by
  obtain ⟨operation, hoperation⟩ := h
  have hopcode : operation.opcode = instruction.opcode := Operation.opcode_of_ofOpcode? hoperation
  have hname : operation? (ofChars (opcodeName instruction.opcode).toList) = some operation :=
    (operation?_opcodeName _).trans hoperation
  have htakes : instruction.hasOperand = operation.hasOperand := by
    rw [Instruction.hasOperand, hoperation]
    rfl
  rw [readLine, glyphs_line, fields_render, Instruction.shown, htakes]
  cases htakes : operation.hasOperand with
  | true =>
      simp only [if_true, Assembly.instruction, hname, htakes, operand?_decimal, Instruction.of,
        hopcode]
      rfl
  | false =>
      simp only [Bool.false_eq_true, if_false, Assembly.instruction, hname, htakes, Instruction.of,
        hopcode]
      rfl

theorem readLine_of_unknown {instruction : Instruction} (h : ¬instruction.IsKnown) :
    ∃ defect, readLine (lineOf instruction) = .error defect := by
  have hoperation : instruction.operation? = none :=
    Option.eq_none_iff_forall_ne_some.mpr fun operation hsome => h ⟨operation, hsome⟩
  have htakes : ¬instruction.hasOperand = true := by
    rw [Instruction.hasOperand, hoperation]
    decide
  have hname : operation? (ofChars (opcodeName instruction.opcode).toList) = none :=
    (operation?_opcodeName _).trans hoperation
  rw [readLine, glyphs_line, fields_render, if_neg htakes]
  simp only [Assembly.instruction, hname]
  exact ⟨_, rfl⟩

theorem length_encodeChar_le (value : Char) : (encodeChar value).length ≤ 4 := by
  rw [encodeChar]
  split_ifs <;> simp

theorem length_encodeChars_le (values : List Char) :
    (encodeChars values).length ≤ 4 * values.length := by
  induction values with
  | nil => exact Nat.zero_le _
  | cons value rest ih =>
      have hfirst := length_encodeChar_le value
      rw [encodeChars, List.flatMap_cons, List.length_append, ← encodeChars, List.length_cons]
      omega

/-- No instruction makes a line too long to be read. -/
theorem length_line_lt (instruction : Instruction) :
    (lineOf instruction).length < lineLimit := by
  have hleast := instruction.operand.le_toInt
  have hmost := instruction.operand.toInt_lt
  have hname := length_opcodeName_le instruction.opcode
  have hoperand := length_decimal_le (by omega : -10 ^ 10 < instruction.operand.toInt) (by omega)
  have hsigns : instruction.render.toList.length ≤ 25 := by
    rw [instruction.toList_render]
    split
    · rw [List.length_append, List.length_cons]
      omega
    · omega
  have hbytes := length_encodeChars_le instruction.render.toList
  rw [lineOf, encode, lineLimit]
  omega

theorem readFrom_known {instruction : Instruction} (h : instruction.IsKnown) (number : Nat)
    (rest : List Bytes) (found : List Instruction) :
    readFrom number (lineOf instruction :: rest) found =
      readFrom (number + 1) rest (instruction.shown :: found) := by
  rw [readFrom, if_neg (Nat.not_le.mpr (length_line_lt instruction)), readLine_of_known h]

theorem readFrom_unknown {instruction : Instruction} (h : ¬instruction.IsKnown) (number : Nat)
    (rest : List Bytes) (found : List Instruction) :
    ∃ defect, readFrom number (lineOf instruction :: rest) found = .error (.line number defect) := by
  obtain ⟨defect, hdefect⟩ := readLine_of_unknown h
  refine ⟨defect, ?_⟩
  rw [readFrom, if_neg (Nat.not_le.mpr (length_line_lt instruction)), hdefect]

/-- Instructions that name operations are read one after the other, each on its line. -/
theorem readFrom_append {code : Code} (h : ∀ instruction ∈ code, instruction.IsKnown) (number : Nat)
    (rest : List Bytes) (found : List Instruction) :
    readFrom number (code.map lineOf ++ rest) found =
      readFrom (number + code.length) rest ((code.map Instruction.shown).reverse ++ found) := by
  induction code generalizing number found with
  | nil => rfl
  | cons instruction code ih =>
      rw [List.map_cons, List.cons_append, readFrom_known (h instruction List.mem_cons_self),
        ih fun other hother => h other (List.mem_cons_of_mem _ hother), List.length_cons,
        Nat.add_assoc, Nat.add_comm 1]
      simp

theorem encode_render (code : Code) :
    encode (render code) = (code.map lineOf).flatMap fun line => line ++ [lineFeed] := by
  have hfeed : encodeChars "\n".toList = [lineFeed] := rfl
  rw [encode, render, String.toList_join, List.flatMap_map, List.flatMap_map, encodeChars,
    List.flatMap_assoc]
  refine congrArg (fun lines => List.flatMap lines code) (funext fun instruction => ?_)
  rw [String.toList_append, ← encodeChars, encodeChars_append, hfeed, lineOf, encode]

theorem read_render (code : Code) : read (encode (render code)) = readFrom 1 (code.map lineOf) [] := by
  have hlines : ∀ line ∈ code.map lineOf, lineFeed ∉ line := by
    intro line hline
    obtain ⟨instruction, -, rfl⟩ := List.mem_map.mp hline
    exact lineFeed_notMem instruction
  rw [read, encode_render, rawLines_flatMap hlines]

theorem read_render_of_known {code : Code} (h : ∀ instruction ∈ code, instruction.IsKnown) :
    read (encode (render code)) = .ok (code.map Instruction.shown) := by
  have hread := readFrom_append h 1 [] []
  rw [List.append_nil, List.append_nil] at hread
  rw [read_render, hread, readFrom, List.reverse_reverse]

theorem read_render_of_unknown {before after : Code} {instruction : Instruction}
    (hbefore : ∀ earlier ∈ before, earlier.IsKnown) (h : ¬instruction.IsKnown) :
    ∃ defect, read (encode (render (before ++ instruction :: after))) =
      .error (.line (1 + before.length) defect) := by
  rw [read_render, List.map_append, List.map_cons, readFrom_append hbefore]
  exact readFrom_unknown h _ _ _

end Assembly

/-! ### Compiled programs -/

/-- The text of the instruction tells all of it. -/
structure Instruction.IsPlain (instruction : Instruction) : Prop where
  known : instruction.IsKnown
  shown : instruction.shown = instruction

theorem Instruction.isPlain_of {operation : Operation} {operand : Int32}
    (h : operation.hasOperand = false → operand = 0) : (of operation operand).IsPlain := by
  have hoperation : (of operation operand).operation? = some operation :=
    Operation.ofOpcode?_opcode operation
  refine ⟨⟨operation, hoperation⟩, ?_⟩
  rw [shown, hasOperand, hoperation, Option.map_some, Option.getD_some]
  cases htakes : operation.hasOperand with
  | true => rfl
  | false =>
      rw [h htakes]
      rfl

/-- All instructions of the code are told by its text. -/
def IsPlain (code : Code) : Prop :=
  ∀ instruction ∈ code, instruction.IsPlain

theorem isPlain_nil : IsPlain [] :=
  List.forall_mem_nil _

theorem IsPlain.append {first second : Code} (hfirst : IsPlain first) (hsecond : IsPlain second) :
    IsPlain (first ++ second) :=
  List.forall_mem_append.mpr ⟨hfirst, hsecond⟩

theorem isPlain_singleton {operation : Operation} {operand : Int32}
    (h : operation.hasOperand = false → operand = 0) : IsPlain [.of operation operand] :=
  List.forall_mem_singleton.mpr (Instruction.isPlain_of h)

theorem isPlain_flatMap {α : Type} {code : α → Code} {items : List α}
    (h : ∀ item ∈ items, IsPlain (code item)) : IsPlain (items.flatMap code) := by
  intro instruction hinstruction
  obtain ⟨item, hitem, hcode⟩ := List.mem_flatMap.mp hinstruction
  exact h item hitem instruction hcode

theorem IsPlain.read_render {code : Code} (h : IsPlain code) :
    Assembly.read (encode (Assembly.render code)) = .ok code := by
  have hshown : code.map Instruction.shown = code := by
    conv_rhs => rw [← List.map_id code]
    exact List.map_congr_left fun instruction hinstruction => (h instruction hinstruction).shown
  rw [Assembly.read_render_of_known fun instruction hinstruction => (h instruction hinstruction).known,
    hshown]

end PlZero.Machine

namespace PlZero.Source

open PlZero.Machine PlZero.Text

theorem Expression.isPlain (slot : String → Int32) (tree : Expression) : IsPlain (tree.code slot) := by
  induction tree with
  | literal value => exact isPlain_singleton nofun
  | name used => exact isPlain_singleton nofun
  | signed sign operand ih =>
      have hfactor : IsPlain [.of .literal sign.factor] := isPlain_singleton nofun
      exact ih.append (hfactor.append (isPlain_singleton fun _ => rfl))
  | binary operator left right ihleft ihright =>
      exact ihleft.append (ihright.append (isPlain_singleton fun _ => rfl))

theorem Variable.isPlain (slot : String → Int32) (declared : Variable) :
    IsPlain (declared.code slot) := by
  rw [code]
  split
  · exact Expression.isPlain slot _
  · exact isPlain_singleton fun _ => rfl

theorem Statement.isPlain (slot : String → Int32) (statement : Statement) :
    IsPlain (statement.code slot) := by
  cases statement with
  | assign target value => exact (value.isPlain slot).append (isPlain_singleton nofun)
  | print value => exact (value.isPlain slot).append (isPlain_singleton fun _ => rfl)
  | empty => exact isPlain_nil

theorem Block.isPlain (block : Block) : IsPlain block.code := by
  refine IsPlain.append (IsPlain.append ?_ ?_) ?_
  · exact isPlain_flatMap fun constant _ => isPlain_singleton nofun
  · exact isPlain_flatMap fun declared _ => declared.isPlain block.slot
  · exact isPlain_flatMap fun statement _ => statement.isPlain block.slot

end PlZero.Source

namespace PlZero.Machine.Assembly

open PlZero.Text PlZero.Source

/-- The text of a program whose opcodes all name operations is read as the program, less the operands
that mean nothing; a program without such operands, as every compiled one is, is read as it is. Any
other text fails at the line of the first opcode that names no operation. -/
theorem render_round_trip (code : Code) :
    ((∀ instruction ∈ code, instruction.IsKnown) →
      read (encode (render code)) = .ok (code.map Instruction.shown) ∧
        ((∀ instruction ∈ code, instruction.hasOperand = false → instruction.operand = 0) →
          read (encode (render code)) = .ok code)) ∧
    (∀ tokens, (analyze tokens).result = .ok code → read (encode (render code)) = .ok code) ∧
    ∀ before instruction after, code = before ++ instruction :: after →
      (∀ earlier ∈ before, earlier.IsKnown) → ¬instruction.IsKnown →
        ∃ defect, read (encode (render code)) = .error (.line (1 + before.length) defect) := by
  refine ⟨fun hknown => ⟨read_render_of_known hknown, fun hzero => ?_⟩, ?_, ?_⟩
  · refine IsPlain.read_render fun instruction hinstruction => ⟨hknown instruction hinstruction, ?_⟩
    rw [Instruction.shown]
    cases htakes : instruction.hasOperand with
    | true => rfl
    | false =>
        have hoperand := hzero instruction hinstruction htakes
        obtain ⟨opcode, operand⟩ := instruction
        obtain rfl : operand = 0 := hoperand
        rfl
  -- Compiled code has no operand that means nothing, so nothing is lost.
  · intro tokens hanalyze
    obtain ⟨tree, -, -, rfl, -⟩ := analyze_sound hanalyze
    exact tree.isPlain.read_render
  · rintro before instruction after rfl hbefore hunknown
    exact read_render_of_unknown hbefore hunknown

/-- An operand that means nothing, and the least operand. -/
def mixedCode : Code :=
  [⟨4, 9⟩, .of .literal (-2147483648)]

theorem render_round_trip_mixed :
    read (encode (render mixedCode)) = .ok [⟨4, 0⟩, .of .literal (-2147483648)] ∧
      ∃ defect, read (encode (render (mixedCode ++ [⟨42, 5⟩, ⟨200, 0⟩]))) =
        .error (.line 3 defect) := by
  have hknown : ∀ instruction ∈ mixedCode, instruction.IsKnown := by
    simp only [mixedCode, List.forall_mem_cons, List.not_mem_nil, false_imp_iff, implies_true,
      and_true]
    exact ⟨⟨_, rfl⟩, ⟨_, rfl⟩⟩
  have hunknown : ¬Instruction.IsKnown ⟨42, 5⟩ := by
    rintro ⟨operation, hoperation⟩
    cases hoperation
  have hshown : mixedCode.map Instruction.shown = [⟨4, 0⟩, .of .literal (-2147483648)] := by decide
  have hread := ((render_round_trip mixedCode).1 hknown).1
  have hline := (render_round_trip (mixedCode ++ [⟨42, 5⟩, ⟨200, 0⟩])).2.2 mixedCode ⟨42, 5⟩
    [⟨200, 0⟩] rfl hknown hunknown
  have hlength : 1 + mixedCode.length = 3 := rfl
  rw [hshown] at hread
  rw [hlength] at hline
  exact ⟨hread, hline⟩

end PlZero.Machine.Assembly
