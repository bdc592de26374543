import PlZero.Proofs.Glyphs
import PlZero.Text.Blank
import PlZero.Text.Line
import PlZero.Text.Numeral

/-! Numerals, words and lines that were written are read back: a decimal numeral as its number, words
with a blank between them as these words, and lines that each end with a line feed as these lines. -/

namespace PlZero.Text

theorem isDigit_iff {value : Char} : isDigit value = true ↔ 0x30 ≤ value.toNat ∧ value.toNat ≤ 0x39 :=
  and_decide_iff

theorem isDigit_of_mem_decimalDigits {value : Nat} {digit : Char} (h : digit ∈ decimalDigits value) :
    isDigit digit = true := by
  have hdigit := Nat.isDigit_of_mem_toDigits (by decide) (by decide) h
  rw [Char.isDigit, Bool.and_eq_true, decide_eq_true_eq, decide_eq_true_eq] at hdigit
  exact isDigit_iff.mpr hdigit

theorem digitsValue_decimalDigits (value : Nat) : digitsValue (decimalDigits value) = value :=
  Nat.ofDigitChars_toDigits (by decide) (by decide)

theorem readNat?_decimalDigits (value : Nat) : readNat? (decimalDigits value) = some value := by
  have hall : (decimalDigits value).all isDigit = true :=
    List.all_eq_true.mpr fun digit => isDigit_of_mem_decimalDigits
  unfold readNat?
  split
  · rename_i hnil
    exact absurd hnil Nat.toDigits_ne_nil
  · rw [if_pos hall, digitsValue_decimalDigits]

/-- A numeral is read as its number. -/
theorem readInt?_decimal (value : Int) : readInt? (decimal value) = some value := by
  cases value with
  | negSucc value =>
      rw [decimal, readInt?, readNat?_decimalDigits]
      rfl
  | ofNat value =>
      rw [decimal]
      have hdigit := fun digit => @isDigit_of_mem_decimalDigits value digit
      unfold readInt?
      split
      · rename_i heq
        rw [heq] at hdigit
        exact absurd (hdigit '-' List.mem_cons_self) (by decide)
      · rename_i heq
        rw [heq] at hdigit
        exact absurd (hdigit '+' List.mem_cons_self) (by decide)
      · rw [readNat?_decimalDigits]
        rfl

theorem length_decimal_le {value : Int} (hleast : -10 ^ 10 < value) (hmost : value < 10 ^ 10) :
    (decimal value).length ≤ 11 := by
  have hdigits {number : Nat} (h : number < 10 ^ 10) : (decimalDigits number).length ≤ 10 :=
    (Nat.length_toDigits_le_iff (by decide) (by decide)).mpr h
  cases value with
  | ofNat value =>
      have hlength := hdigits (Int.ofNat_lt.mp hmost)
      rw [decimal]
      omega
  | negSucc value =>
      have hlength := hdigits (by omega : value + 1 < 10 ^ 10)
      rw [decimal, List.length_cons]
      omega

/-- A word: some characters, none of them blank. -/
structure IsWord (word : List Char) : Prop where
  nonempty : word ≠ []
  solid : ∀ value ∈ word, isBlank value = false

/-- Whether a character is a printable one of ASCII and no space. -/
def isGraph (value : Char) : Bool :=
  0x21 ≤ value.toNat && value.toNat ≤ 0x7E

theorem isBlank_of_isGraph {value : Char} (h : isGraph value = true) : isBlank value = false := by
  have hrange := and_decide_iff.mp h
  simp only [isBlank, Bool.or_eq_false_iff, Bool.and_eq_false_iff, beq_eq_false_iff_ne,
    decide_eq_false_iff_not]
  omega

theorem isWord_of_isGraph {word : List Char} (hnonempty : word ≠ []) (h : word.all isGraph = true) :
    IsWord word :=
  ⟨hnonempty, fun value hvalue => isBlank_of_isGraph (List.all_eq_true.mp h value hvalue)⟩

theorem isWord_decimal (value : Int) : IsWord (decimal value) := by
  have hdigits (number : Nat) : (decimalDigits number).all isGraph = true := by
    refine List.all_eq_true.mpr fun digit hdigit => and_decide_iff.mpr ?_
    have hrange := isDigit_iff.mp (isDigit_of_mem_decimalDigits hdigit)
    omega
  cases value with
  | ofNat value => exact isWord_of_isGraph Nat.toDigits_ne_nil (hdigits value)
  | negSucc value =>
      refine isWord_of_isGraph (List.cons_ne_nil _ _) ?_
      rw [decimal, List.all_cons, hdigits]
      rfl

/-- Glyphs that are not blank go on with the word being read. -/
theorem fieldsFrom_append {run : List Glyph} (hrun : ∀ glyph ∈ run, glyph.isBlank = false)
    (rest word : List Glyph) (found : List (List Glyph)) :
    fieldsFrom (run ++ rest) word found = fieldsFrom rest (run.reverse ++ word) found := by
  induction run generalizing word with
  | nil => rfl
  | cons glyph run ih =>
      have hglyph : ¬glyph.isBlank = true := by
        rw [hrun glyph List.mem_cons_self]
        decide
      have hstep : fieldsFrom (glyph :: (run ++ rest)) word found =
          fieldsFrom (run ++ rest) (glyph :: word) found := by
        rw [fieldsFrom.eq_def]
        exact if_neg hglyph
      rw [List.cons_append, hstep, ih fun other hother => hrun other (List.mem_cons_of_mem _ hother)]
      simp

theorem IsWord.glyphs_solid {word : List Char} (h : IsWord word) :
    ∀ glyph ∈ ofChars word, glyph.isBlank = false := by
  intro glyph hglyph
  obtain ⟨value, hvalue, rfl⟩ := List.mem_map.mp hglyph
  exact h.solid value hvalue

theorem IsWord.exists_reverse {word : List Char} (h : IsWord word) :
    ∃ last before, (ofChars word).reverse = last :: before := by
  refine List.exists_cons_of_ne_nil fun hnil => h.nonempty ?_
  exact List.map_eq_nil_iff.mp (List.reverse_eq_nil_iff.mp hnil)

theorem fieldsFrom_end {word : List Char} (h : IsWord word) (found : List (List Glyph)) :
    fieldsFrom (ofChars word) [] found = (ofChars word :: found).reverse := by
  obtain ⟨last, before, hreverse⟩ := h.exists_reverse
  have hfrom := fieldsFrom_append h.glyphs_solid [] [] found
  rw [List.append_nil, List.append_nil, hreverse, fieldsFrom, ← hreverse, List.reverse_reverse] at hfrom
  · exact hfrom
  · simp

theorem fieldsFrom_blank {word : List Char} (h : IsWord word) {blank : Char}
    (hblank : isBlank blank = true) (rest : List Glyph) (found : List (List Glyph)) :
    fieldsFrom (ofChars word ++ .char blank :: rest) [] found =
      fieldsFrom rest [] (ofChars word :: found) := by
  obtain ⟨last, before, hreverse⟩ := h.exists_reverse
  have hglyph : (Glyph.char blank).isBlank = true := hblank
  rw [fieldsFrom_append h.glyphs_solid, List.append_nil, hreverse, fieldsFrom, if_pos hglyph,
    ← hreverse, List.reverse_reverse]
  · simp

/-- One word is the only field of a text. -/
theorem fields_word {word : List Char} (h : IsWord word) : fields (ofChars word) = [ofChars word] := by
  rw [fields, fieldsFrom_end h]
  rfl

/-- Two words with a blank between them are the fields of a text. -/
theorem fields_two_words {first second : List Char} (hfirst : IsWord first) (hsecond : IsWord second)
    {blank : Char} (hblank : isBlank blank = true) :
    fields (ofChars (first ++ blank :: second)) = [ofChars first, ofChars second] := by
  have hsplit : ofChars (first ++ blank :: second) = ofChars first ++ .char blank :: ofChars second :=
    List.map_append
  rw [fields, hsplit, fieldsFrom_blank hfirst hblank, fieldsFrom_end hsecond]
  rfl

theorem mapM_char?_ofChars (values : List Char) : (ofChars values).mapM Glyph.char? = some values := by
  have hid : Glyph.char? ∘ Glyph.char = fun value => pure (id value) := rfl
  rw [ofChars, List.mapM_map, hid, List.mapM_pure, List.map_id]
  rfl

/-! ### Lines -/

/-- A byte of the ASCII range is the whole of its character. -/
theorem toNat_eq_of_mem_encodeChar {value : Char} {byte : UInt8} (hbyte : byte.toNat < 0x80)
    (h : byte ∈ encodeChar value) : byte.toNat = value.toNat := by
  have hscalar := (isScalar_toNat value).1
  rw [encodeChar] at h
  split_ifs at h <;> simp only [List.mem_cons, List.not_mem_nil, or_false] at h
  · rw [h, toNat_toUInt8 (by omega)]
  -- All bytes of a longer character are above the ASCII range.
  all_goals
    rcases h with rfl | rfl | rfl | rfl <;> rw [toNat_toUInt8 (by omega)] at hbyte <;> omega

theorem notMem_encodeChars {values : List Char} (mark : Char) (hmark : mark.toNat < 0x80)
    (h : mark ∉ values) : mark.toNat.toUInt8 ∉ encodeChars values := by
  intro hmem
  obtain ⟨value, hvalue, hbyte⟩ := List.mem_flatMap.mp hmem
  have htoNat := toNat_toUInt8 (by omega : mark.toNat < 256)
  have hcode := toNat_eq_of_mem_encodeChar (by omega) hbyte
  rw [htoNat] at hcode
  exact h (Char.toNat_inj.mp hcode ▸ hvalue)

theorem piecesFrom_append {line : Bytes} (hline : lineFeed ∉ line) (rest current : Bytes)
    (found : List Bytes) :
    piecesFrom (line ++ rest) current found = piecesFrom rest (line.reverse ++ current) found := by
  induction line generalizing current with
  | nil => rfl
  | cons byte line ih =>
      have hbyte : ¬(byte == lineFeed) = true := by
        rw [beq_iff_eq]
        rintro rfl
        exact hline List.mem_cons_self
      rw [List.cons_append, piecesFrom, if_neg hbyte, ih fun h => hline (List.mem_cons_of_mem _ h)]
      simp

theorem pieces_flatMap {lines : List Bytes} (hlines : ∀ line ∈ lines, lineFeed ∉ line) :
    pieces (lines.flatMap fun line => line ++ [lineFeed]) = lines ++ [[]] := by
  have hfrom (found : List Bytes) :
      piecesFrom (lines.flatMap fun line => line ++ [lineFeed]) [] found =
        found.reverse ++ (lines ++ [[]]) := by
    induction lines generalizing found with
    | nil => simp [piecesFrom]
    | cons line rest ih =>
        rw [List.flatMap_cons, List.append_assoc, piecesFrom_append (hlines line List.mem_cons_self),
          List.singleton_append, piecesFrom, if_pos (beq_self_eq_true lineFeed),
          ih fun other hother => hlines other (List.mem_cons_of_mem _ hother)]
        simp
  rw [pieces, hfrom]
  rfl

/-- Lines that each end with a line feed are the lines of a text. -/
theorem rawLines_flatMap {lines : List Bytes} (hlines : ∀ line ∈ lines, lineFeed ∉ line) :
    rawLines (lines.flatMap fun line => line ++ [lineFeed]) = lines := by
  rw [rawLines, pieces_flatMap hlines, dropLastEmpty, List.getLast?_concat, List.dropLast_concat]

theorem dropReturn_of_notMem {line : Bytes} (h : carriageReturn ∉ line) : dropReturn line = line := by
  rw [dropReturn]
  split
  · rename_i byte hlast
    rw [if_neg]
    rw [beq_iff_eq]
    rintro rfl
    exact h (List.mem_of_getLast? hlast)
  · rfl

end PlZero.Text
