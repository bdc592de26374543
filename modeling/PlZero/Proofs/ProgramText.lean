import PlZero.Machine.Assembly
import PlZero.Proofs.Attempt
import PlZero.Proofs.Spacing

/-! Which texts are programs. A line is blank, or it spells an instruction: a mnemonic, and a numeral
behind it if the operation takes an operand. Main statement: a text is read as the instructions of its
lines exactly when every line is short enough and of this form; otherwise it fails at the first line
that is not. -/

namespace PlZero.Text

open PlZero.Attempt

/-- Some digits and nothing else. -/
structure IsDigits (digits : List Char) : Prop where
  nonempty : digits ≠ []
  digit : ∀ value ∈ digits, isDigit value = true

/-- The characters are a decimal numeral of the number: digits, with a sign before them or without. -/
inductive Numeral : List Char → Int → Prop where
  | unsigned {digits : List Char} (hdigits : IsDigits digits) : Numeral digits (digitsValue digits)
  | positive {digits : List Char} (hdigits : IsDigits digits) :
      Numeral ('+' :: digits) (digitsValue digits)
  | negative {digits : List Char} (hdigits : IsDigits digits) :
      Numeral ('-' :: digits) (-(digitsValue digits : Int))

theorem readNat?_eq_some_iff {text : List Char} {value : Nat} :
    readNat? text = some value ↔ IsDigits text ∧ value = digitsValue text := by
  unfold readNat?
  split
  · exact ⟨nofun, fun h => absurd rfl h.1.nonempty⟩
  · rename_i hnonempty
    rw [Option.ite_none_right_eq_some, List.all_eq_true, Option.some.injEq, eq_comm (b := value)]
    constructor
    · rintro ⟨hall, hvalue⟩
      exact ⟨⟨hnonempty, hall⟩, hvalue⟩
    · rintro ⟨hdigits, hvalue⟩
      exact ⟨hdigits.digit, hvalue⟩

/-- A numeral is what is read as a number. -/
theorem readInt?_eq_some_iff {text : List Char} {value : Int} :
    readInt? text = some value ↔ Numeral text value := by
  have hsign {sign : Char} {digits : List Char} (hdigits : IsDigits (sign :: digits)) :
      sign ≠ '-' ∧ sign ≠ '+' := by
    have hdigit := hdigits.digit sign List.mem_cons_self
    constructor <;> rintro rfl <;> exact absurd hdigit (by decide)
  constructor
  · intro h
    unfold readInt? at h
    split at h
    all_goals
      obtain ⟨number, hnumber, rfl⟩ := Option.map_eq_some_iff.mp h
      obtain ⟨natural, hnatural, hcast⟩ := Option.bind_eq_some_iff.mp hnumber
      obtain rfl := Option.some.inj hcast
      obtain ⟨hdigits, rfl⟩ := readNat?_eq_some_iff.mp hnatural
    · exact .negative hdigits
    · exact .positive hdigits
    · exact .unsigned hdigits
  · intro h
    cases h with
    | positive hdigits | negative hdigits =>
        rw [readInt?, readNat?_eq_some_iff.mpr ⟨hdigits, rfl⟩]
        rfl
    | unsigned hdigits =>
        have hread := readNat?_eq_some_iff.mpr ⟨hdigits, rfl⟩
        unfold readInt?
        split
        · exact absurd rfl (hsign hdigits).1
        · exact absurd rfl (hsign hdigits).2
        · rw [hread]
          rfl

end PlZero.Text

namespace PlZero.Machine

open PlZero.Text PlZero.Attempt

theorem Operation.mnemonic_of_ofMnemonic? {name : String} {operation : Operation}
    (h : ofMnemonic? name = some operation) : operation.mnemonic = name := by
  have hfound := List.find?_some h
  exact beq_iff_eq.mp hfound

namespace Assembly

/-- The operations whose operand is written. -/
def takers : List Operation :=
  [.literal, .load, .store]

/-- What stands on a line: nothing on a blank one, else the instruction that its words spell. -/
inductive Holds (line : Bytes) : Option Instruction → Prop where
  | nothing (hblank : ∀ glyph ∈ glyphs line, glyph.isBlank = true) : Holds line none
  | bare {operation : Operation} (htakes : operation ∉ takers)
      (hwords : Spaced [ofChars operation.mnemonic.toList] (glyphs line)) :
      Holds line (some (.of operation))
  | operand {operation : Operation} {numeral : List Char} {value : Int32} (htakes : operation ∈ takers)
      (hnumeral : Numeral numeral value.toInt)
      (hwords : Spaced [ofChars operation.mnemonic.toList, ofChars numeral] (glyphs line)) :
      Holds line (some (.of operation value))

theorem hasOperand_iff {operation : Operation} :
    operation.hasOperand = true ↔ operation ∈ takers := by
  cases operation <;> decide

/-- A word of characters only is the characters. -/
theorem mapM_char?_eq_some_iff {word : List Glyph} {letters : List Char} :
    word.mapM Glyph.char? = some letters ↔ word = ofChars letters := by
  constructor
  · intro h
    induction word generalizing letters with
    | nil =>
        obtain rfl := Option.some.inj h
        rfl
    | cons glyph rest ih =>
        rw [List.mapM_cons] at h
        obtain ⟨letter, hletter, h⟩ := Option.bind_eq_some_iff.mp h
        obtain ⟨others, hothers, h⟩ := Option.bind_eq_some_iff.mp h
        obtain rfl := Option.some.inj h
        cases glyph with
        | stray byte => cases hletter
        | char value =>
            obtain rfl := Option.some.inj hletter
            rw [ih hothers]
            rfl
  · rintro rfl
    exact mapM_char?_ofChars letters

theorem operation?_eq_some_iff {word : List Glyph} {operation : Operation} :
    operation? word = some operation ↔ word = ofChars operation.mnemonic.toList := by
  rw [operation?]
  constructor
  · intro h
    obtain ⟨letters, hletters, hname⟩ := Option.bind_eq_some_iff.mp h
    rw [Operation.mnemonic_of_ofMnemonic? hname, String.toList_ofList]
    exact mapM_char?_eq_some_iff.mp hletters
  · rintro rfl
    rw [mapM_char?_ofChars]
    simp [Operation.ofMnemonic?_mnemonic]

theorem operand?_eq_some_iff {word : List Glyph} {value : Int32} :
    operand? word = some value ↔ ∃ numeral, word = ofChars numeral ∧ Numeral numeral value.toInt := by
  have hleast := value.le_toInt
  have hmost := value.toInt_lt
  rw [operand?]
  constructor
  · intro h
    obtain ⟨numeral, hnumeral, h⟩ := Option.bind_eq_some_iff.mp h
    obtain ⟨number, hnumber, h⟩ := Option.bind_eq_some_iff.mp h
    rw [Option.ite_none_right_eq_some] at h
    obtain ⟨⟨hlow, hhigh⟩, h⟩ := h
    obtain rfl := Option.some.inj h
    refine ⟨numeral, mapM_char?_eq_some_iff.mp hnumeral, ?_⟩
    rw [Int32.toInt_ofInt_of_le (by omega) (by omega)]
    exact readInt?_eq_some_iff.mp hnumber
  · rintro ⟨numeral, rfl, hnumeral⟩
    rw [mapM_char?_ofChars]
    simp only [Option.bind_eq_bind, Option.bind_some, readInt?_eq_some_iff.mpr hnumeral]
    rw [if_pos ⟨by omega, by omega⟩, Int32.ofInt_toInt]

/-- An instruction is a mnemonic, and a numeral behind it if the operation takes an operand. -/
theorem instruction_eq_ok_iff {first : List Glyph} {operands : List (List Glyph)}
    {found : Instruction} : instruction first operands = .ok found ↔
      ∃ operation, first = ofChars operation.mnemonic.toList ∧
        (operation ∉ takers ∧ operands = [] ∧ found = .of operation ∨
          operation ∈ takers ∧ ∃ numeral value, operands = [ofChars numeral] ∧
            Numeral numeral value.toInt ∧ found = .of operation value) := by
  constructor
  · intro h
    rw [instruction] at h
    cases hoperation : operation? first with
    | none =>
        rw [hoperation] at h
        cases h
    | some operation =>
        rw [hoperation] at h
        refine ⟨operation, operation?_eq_some_iff.mp hoperation, ?_⟩
        by_cases htakes : operation.hasOperand = true
        · simp only [if_pos htakes] at h
          split at h
          · split at h
            · rename_i word value hvalue
              obtain ⟨numeral, rfl, hnumeral⟩ := operand?_eq_some_iff.mp hvalue
              exact .inr ⟨hasOperand_iff.mp htakes, numeral, value, rfl, hnumeral,
                (Except.ok.inj h).symm⟩
            · cases h
          · cases h
        · simp only [if_neg htakes] at h
          split at h
          · exact .inl ⟨fun hmem => htakes (hasOperand_iff.mpr hmem), rfl, (Except.ok.inj h).symm⟩
          · cases h
  · rintro ⟨operation, hfirst, hoperands⟩
    rw [instruction, operation?_eq_some_iff.mpr hfirst]
    obtain ⟨htakes, rfl, rfl⟩ | ⟨htakes, numeral, value, rfl, hnumeral, rfl⟩ := hoperands
    · have hbare : ¬operation.hasOperand = true := fun h => htakes (hasOperand_iff.mp h)
      simp only [if_neg hbare]
    · have hvalue : operand? (ofChars numeral) = some value :=
        operand?_eq_some_iff.mpr ⟨numeral, rfl, hnumeral⟩
      simp only [if_pos (hasOperand_iff.mpr htakes), hvalue]

/-- A line is read as what stands on it. -/
theorem readLine_eq_ok_iff {line : Bytes} {entry : Option Instruction} :
    readLine line = .ok entry ↔ Holds line entry := by
  rw [readLine, fields_dropReturn]
  constructor
  · intro h
    have hspaced : Spaced (fields (glyphs line)) (glyphs line) := fields_eq_iff.mp rfl
    cases hfields : fields (glyphs line) with
    | nil =>
        rw [hfields] at h hspaced
        obtain rfl := Except.ok.inj h
        cases hspaced with
        | blank hblank => exact .nothing hblank
    | cons first operands =>
        rw [hfields] at h hspaced
        obtain ⟨found, hfound, rfl⟩ := map_eq_ok_iff.mp h
        obtain ⟨operation, rfl, hoperands⟩ := instruction_eq_ok_iff.mp hfound
        obtain ⟨htakes, rfl, rfl⟩ | ⟨htakes, numeral, value, rfl, hnumeral, rfl⟩ := hoperands
        · exact .bare htakes hspaced
        · exact .operand htakes hnumeral hspaced
  · intro h
    cases h with
    | nothing hblank => rw [fields_eq_iff.mpr (.blank hblank)]
    | @bare operation htakes hwords =>
        have hfound := instruction_eq_ok_iff.mpr ⟨operation, rfl, .inl ⟨htakes, rfl, rfl⟩⟩
        rw [fields_eq_iff.mpr hwords]
        exact map_eq_ok_iff.mpr ⟨_, hfound, rfl⟩
    | @operand operation numeral value htakes hnumeral hwords =>
        have hfound := instruction_eq_ok_iff.mpr
          ⟨operation, rfl, .inr ⟨htakes, numeral, value, rfl, hnumeral, rfl⟩⟩
        rw [fields_eq_iff.mpr hwords]
        exact map_eq_ok_iff.mpr ⟨_, hfound, rfl⟩

theorem exists_defect {line : Bytes} (h : ¬∃ entry, Holds line entry) :
    ∃ defect, readLine line = .error defect := by
  cases hread : readLine line with
  | ok entry => exact absurd ⟨entry, readLine_eq_ok_iff.mp hread⟩ h
  | error defect => exact ⟨defect, rfl⟩

/-- Reading a line in stages: the return at its end goes first, then the blanks at both ends, and what
is left is split. There is no result if the split has no first word. -/
def readLine? (line : Bytes) : Option (Except Defect (Option Instruction)) :=
  let trimmed := trim (glyphs (dropReturn line))
  if trimmed = [] then some (.ok none)
  else
    match fields trimmed with
    | [] => none
    | first :: operands => some ((instruction first operands).map some)

/-- The stages agree on what is blank: a line that is split has a first word. -/
theorem readLine?_eq (line : Bytes) : readLine? line = some (readLine line) := by
  rw [readLine?, readLine]
  by_cases htrimmed : trim (glyphs (dropReturn line)) = []
  · have hfields : fields (glyphs (dropReturn line)) = [] := by
      rw [← fields_trim, htrimmed]
      rfl
    simp only [if_pos htrimmed, hfields]
  · obtain ⟨first, operands, hfields⟩ := List.exists_cons_of_ne_nil (fields_trim_ne_nil htrimmed)
    have hwhole := hfields
    rw [fields_trim] at hwhole
    simp only [if_neg htrimmed, hfields, hwhole]

/-! ### Texts -/

theorem readFrom_of_holds {line : Bytes} {entry : Option Instruction} (hshort : line.length < lineLimit)
    (h : Holds line entry) (number : Nat) (rest : List Bytes) (found : List Instruction) :
    readFrom number (line :: rest) found =
      readFrom (number + 1) rest ([entry].reduceOption.reverse ++ found) := by
  rw [readFrom, if_neg (Nat.not_le.mpr hshort), readLine_eq_ok_iff.mpr h]
  cases entry <;> rfl

/-- Lines of the right form are read one after the other. -/
theorem readFrom_lines {lines : List Bytes} {entries : List (Option Instruction)}
    (h : List.Forall₂ Holds lines entries) (hshort : ∀ line ∈ lines, line.length < lineLimit)
    (number : Nat) (rest : List Bytes) (found : List Instruction) :
    readFrom number (lines ++ rest) found =
      readFrom (number + lines.length) rest (entries.reduceOption.reverse ++ found) := by
  induction h generalizing number found with
  | nil => rfl
  | @cons line entry lines entries hline hlines ih =>
      obtain ⟨hfirst, hshort⟩ := List.forall_mem_cons.mp hshort
      have hentries : (entry :: entries).reduceOption.reverse =
          entries.reduceOption.reverse ++ [entry].reduceOption.reverse := by
        rw [← List.singleton_append, List.reduceOption_append, List.reverse_append]
      rw [List.cons_append, readFrom_of_holds hfirst hline, ih hshort, hentries, List.append_assoc,
        List.length_cons, Nat.add_assoc, Nat.add_comm 1]

/-- An empty line behind the others makes no difference. -/
theorem readFrom_append_empty (number : Nat) (lines : List Bytes) (found : List Instruction) :
    readFrom number (lines ++ [[]]) found = readFrom number lines found := by
  induction lines generalizing number found with
  | nil => rfl
  | cons line rest ih =>
      rw [List.cons_append, readFrom, readFrom]
      simp only [ih]

theorem read_eq (text : Bytes) : read text = readFrom 1 (text.splitOn lineFeed) [] := by
  rw [read, rawLines, pieces_eq_splitOn, dropLastEmpty]
  split
  · rename_i hlast
    obtain ⟨before, hlines⟩ := List.getLast?_eq_some_iff.mp hlast
    rw [hlines, List.dropLast_concat, readFrom_append_empty]
  · rfl

theorem exists_entries {lines : List Bytes} (h : ∀ line ∈ lines, ∃ entry, Holds line entry) :
    ∃ entries, List.Forall₂ Holds lines entries := by
  induction lines with
  | nil => exact ⟨[], .nil⟩
  | cons line rest ih =>
      obtain ⟨⟨entry, hentry⟩, hrest⟩ := List.forall_mem_cons.mp h
      obtain ⟨entries, hentries⟩ := ih hrest
      exact ⟨entry :: entries, .cons hentry hentries⟩

/-- What is read shows that all lines are of the right form. -/
theorem readFrom_eq_ok {number : Nat} {lines : List Bytes} {found code : List Instruction}
    (h : readFrom number lines found = .ok code) : (∀ line ∈ lines, line.length < lineLimit) ∧
      ∃ entries, List.Forall₂ Holds lines entries ∧ code = found.reverse ++ entries.reduceOption := by
  induction lines generalizing number found with
  | nil =>
      obtain rfl := Except.ok.inj h
      exact ⟨List.forall_mem_nil _, [], .nil, (List.append_nil _).symm⟩
  | cons line rest ih =>
      by_cases hlong : lineLimit ≤ line.length
      · rw [readFrom, if_pos hlong] at h
        cases h
      · have hshort := Nat.not_le.mp hlong
        cases hread : readLine line with
        | error defect =>
            rw [readFrom, if_neg hlong, hread] at h
            cases h
        | ok entry =>
            have hholds := readLine_eq_ok_iff.mp hread
            rw [readFrom_of_holds hshort hholds] at h
            obtain ⟨hrest, entries, hentries, rfl⟩ := ih h
            refine ⟨List.forall_mem_cons.mpr ⟨hshort, hrest⟩, entry :: entries, .cons hholds hentries, ?_⟩
            rw [← List.singleton_append (l := entries), List.reduceOption_append]
            simp

/-- A text is read as the instructions on its lines, in order, exactly when no line is too long and
each is blank or spells an instruction. Otherwise reading fails at the first line that is not so: a
line that spells no instruction is named by its number, and a line that is too long is not read. Reading
a line never asks for the first of no words. -/
theorem read_exact (text : Bytes) :
    (∀ code, read text = .ok code ↔ (∀ line ∈ text.splitOn lineFeed, line.length < 65536) ∧
      ∃ entries, List.Forall₂ Holds (text.splitOn lineFeed) entries ∧ code = entries.reduceOption) ∧
    (∀ before line after, text.splitOn lineFeed = before ++ line :: after →
      (∀ earlier ∈ before, earlier.length < 65536 ∧ ∃ entry, Holds earlier entry) →
        (line.length < 65536 → (¬∃ entry, Holds line entry) →
          ∃ defect, read text = .error (.line (1 + before.length) defect)) ∧
        (65536 ≤ line.length → read text = .error .lineTooLong)) ∧
    ∀ line, readLine? line = some (readLine line) := by
  refine ⟨fun code => ⟨fun h => ?_, ?_⟩, ?_, readLine?_eq⟩
  · rw [read_eq] at h
    exact readFrom_eq_ok h
  · rintro ⟨hshort, entries, hentries, rfl⟩
    have hread := readFrom_lines hentries hshort 1 [] []
    rw [List.append_nil] at hread
    rw [read_eq, hread, readFrom, List.append_nil, List.reverse_reverse]
  · intro before line after hlines hbefore
    obtain ⟨entries, hentries⟩ := exists_entries fun earlier hearlier => (hbefore earlier hearlier).2
    have hread := readFrom_lines hentries (fun earlier hearlier => (hbefore earlier hearlier).1) 1
      (line :: after) []
    rw [read_eq, hlines, hread]
    constructor
    · intro hshort hfaulty
      obtain ⟨defect, hdefect⟩ := exists_defect hfaulty
      rw [readFrom, lineLimit, if_neg (Nat.not_le.mpr hshort), hdefect]
      exact ⟨defect, rfl⟩
    · intro hlong
      rw [readFrom, lineLimit, if_pos hlong]

/-- Lines with odd spacing, a sign, leading zeros and a return, and then a line that spells nothing. -/
def spoiledText : Bytes :=
  encodeChars "LIT  +007 \r\n\n\tADD\nNOP 1\nWRT".toList

theorem read_exact_spoiled :
    spoiledText.splitOn lineFeed = [encodeChars "LIT  +007 \r".toList, [], encodeChars "\tADD".toList] ++
      encodeChars "NOP 1".toList :: [encodeChars "WRT".toList] ∧
    Holds (encodeChars "LIT  +007 \r".toList) (some (.of .literal 7)) ∧
    (¬∃ entry, Holds (encodeChars "NOP 1".toList) entry) ∧
    ∃ defect, read spoiledText = .error (.line 4 defect) := by
  have hlines : spoiledText.splitOn lineFeed =
      [encodeChars "LIT  +007 \r".toList, [], encodeChars "\tADD".toList] ++
        encodeChars "NOP 1".toList :: [encodeChars "WRT".toList] := by decide
  have hliteral : Holds (encodeChars "LIT  +007 \r".toList) (some (.of .literal 7)) :=
    readLine_eq_ok_iff.mp (by cbv)
  have hempty : Holds [] none := readLine_eq_ok_iff.mp rfl
  have hadd : Holds (encodeChars "\tADD".toList) (some (.of .add)) :=
    readLine_eq_ok_iff.mp (by cbv)
  have hspoiled : ¬∃ entry, Holds (encodeChars "NOP 1".toList) entry := by
    rintro ⟨entry, hentry⟩
    have hread : readLine (encodeChars "NOP 1".toList) =
        .error (.unknownMnemonic (ofChars "NOP".toList)) := by cbv
    rw [readLine_eq_ok_iff.mpr hentry] at hread
    cases hread
  have hbefore : ∀ earlier ∈ [encodeChars "LIT  +007 \r".toList, [], encodeChars "\tADD".toList],
      earlier.length < 65536 ∧ ∃ entry, Holds earlier entry := by
    simp only [List.forall_mem_cons, List.not_mem_nil, false_imp_iff, implies_true, and_true]
    exact ⟨⟨by decide, _, hliteral⟩, ⟨by decide, _, hempty⟩, by decide, _, hadd⟩
  exact ⟨hlines, hliteral, hspoiled,
    ((read_exact spoiledText).2.1 _ _ _ hlines hbefore).1 (by decide) hspoiled⟩

end Assembly

end PlZero.Machine
