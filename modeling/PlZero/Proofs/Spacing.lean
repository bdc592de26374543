import PlZero.Proofs.Words

/-! Words with blanks around them, and lines with line feeds between them, without regard to how they
are read. Splitting a text at blanks gives the words of the one way to see it as words with blanks
between them, and blanks at either end of the text do not show in it. An ASCII byte is never part of a
longer character, so what stands before it is read alone. -/

namespace PlZero.Text

/-- The text is the words, in order, with blanks around them and at least one between two of them. -/
inductive Spaced : List (List Glyph) → List Glyph → Prop where
  | blank {text : List Glyph} (hblank : ∀ glyph ∈ text, glyph.isBlank = true) : Spaced [] text
  | word {blanks word rest : List Glyph} {words : List (List Glyph)}
      (hblanks : ∀ glyph ∈ blanks, glyph.isBlank = true) (hnonempty : word ≠ [])
      (hsolid : ∀ glyph ∈ word, glyph.isBlank = false)
      (hgap : ∀ glyph ∈ rest.head?, glyph.isBlank = true) (hrest : Spaced words rest) :
      Spaced (word :: words) (blanks ++ (word ++ rest))

theorem fieldsFrom_blanks {blanks : List Glyph} (hblanks : ∀ glyph ∈ blanks, glyph.isBlank = true)
    (rest : List Glyph) (found : List (List Glyph)) :
    fieldsFrom (blanks ++ rest) [] found = fieldsFrom rest [] found := by
  induction blanks with
  | nil => rfl
  | cons glyph blanks ih =>
      obtain ⟨hglyph, hblanks⟩ := List.forall_mem_cons.mp hblanks
      rw [List.cons_append, fieldsFrom, if_pos hglyph]
      exact ih hblanks

/-- A word ends where the text does, and before a blank. -/
theorem fieldsFrom_gap {word rest : List Glyph} (hnonempty : word ≠ [])
    (hgap : ∀ glyph ∈ rest.head?, glyph.isBlank = true) (found : List (List Glyph)) :
    fieldsFrom rest word found = fieldsFrom rest [] (word.reverse :: found) := by
  cases rest with
  | nil => rw [fieldsFrom, fieldsFrom]; exact hnonempty
  | cons glyph rest =>
      have hblank : glyph.isBlank = true := hgap glyph rfl
      rw [fieldsFrom, if_pos hblank, fieldsFrom, if_pos hblank]
      exact hnonempty

theorem Spaced.fieldsFrom_eq {words : List (List Glyph)} {text : List Glyph} (h : Spaced words text)
    (found : List (List Glyph)) : fieldsFrom text [] found = found.reverse ++ words := by
  induction h generalizing found with
  | @blank text hblank =>
      have hread := fieldsFrom_blanks hblank [] found
      rw [List.append_nil] at hread
      rw [hread, fieldsFrom, List.append_nil]
  | @word blanks word rest words hblanks hnonempty hsolid hgap hrest ih =>
      calc fieldsFrom (blanks ++ (word ++ rest)) [] found
          = fieldsFrom rest (word.reverse ++ []) found := by
            rw [fieldsFrom_blanks hblanks, fieldsFrom_append hsolid]
        _ = fieldsFrom rest [] (word :: found) := by
            have hreverse : word.reverse ≠ [] := fun h => hnonempty (List.reverse_eq_nil_iff.mp h)
            rw [List.append_nil, fieldsFrom_gap hreverse hgap, List.reverse_reverse]
        _ = found.reverse ++ word :: words := by
            rw [ih, List.reverse_cons, List.append_assoc, List.singleton_append]

/-- A text falls into what has a property from its start on, and what is behind that. -/
theorem exists_split (property : Glyph → Bool) (text : List Glyph) : ∃ first rest,
    text = first ++ rest ∧ (∀ glyph ∈ first, property glyph = true) ∧
      ∀ glyph ∈ rest.head?, property glyph = false := by
  refine ⟨text.takeWhile property, text.dropWhile property, List.takeWhile_append_dropWhile.symm,
    fun _ hglyph => List.mem_takeWhile_imp hglyph, fun glyph hglyph => ?_⟩
  have hhead := List.head?_dropWhile_not property text
  rw [Option.mem_def.mp hglyph] at hhead
  simpa using hhead

/-- Every text is some words with blanks around them. -/
theorem exists_spaced (text : List Glyph) : ∃ words, Spaced words text := by
  induction hlength : text.length using Nat.strong_induction_on generalizing text with
  | _ length ih =>
      obtain ⟨blanks, behind, rfl, hblanks, hhead⟩ := exists_split Glyph.isBlank text
      cases behind with
      | nil =>
          rw [List.append_nil]
          exact ⟨[], .blank hblanks⟩
      | cons first others =>
          -- The first word takes all up to the next blank; what is behind it is shorter.
          obtain ⟨word, rest, rfl, hword, hgap⟩ := exists_split (fun glyph => !glyph.isBlank) others
          simp only [Bool.not_eq_true', Bool.not_eq_false'] at hword hgap
          have hshorter : rest.length < length := by
            simp only [List.length_append, List.length_cons] at hlength
            omega
          obtain ⟨words, hwords⟩ := ih _ hshorter rest rfl
          refine ⟨(first :: word) :: words, ?_⟩
          rw [← List.cons_append]
          have hsolid : ∀ glyph ∈ first :: word, glyph.isBlank = false :=
            List.forall_mem_cons.mpr ⟨hhead first rfl, hword⟩
          exact .word hblanks (List.cons_ne_nil _ _) hsolid hgap hwords

/-- Splitting at blanks gives the words of a text. -/
theorem fields_eq_iff {text : List Glyph} {words : List (List Glyph)} :
    fields text = words ↔ Spaced words text := by
  constructor
  · rintro rfl
    obtain ⟨words, hwords⟩ := exists_spaced text
    rwa [show fields text = words from hwords.fieldsFrom_eq []]
  · intro h
    exact h.fieldsFrom_eq []

namespace Spaced

variable {words : List (List Glyph)} {text blanks : List Glyph}

theorem blanks_append (h : Spaced words text) (hblanks : ∀ glyph ∈ blanks, glyph.isBlank = true) :
    Spaced words (blanks ++ text) := by
  cases h with
  | blank hblank => exact .blank (List.forall_mem_append.mpr ⟨hblanks, hblank⟩)
  | word hlead hnonempty hsolid hgap hrest =>
      rw [← List.append_assoc]
      exact .word (List.forall_mem_append.mpr ⟨hblanks, hlead⟩) hnonempty hsolid hgap hrest

theorem append_blanks (h : Spaced words text) (hblanks : ∀ glyph ∈ blanks, glyph.isBlank = true) :
    Spaced words (text ++ blanks) := by
  induction h with
  | blank hblank => exact .blank (List.forall_mem_append.mpr ⟨hblank, hblanks⟩)
  | @word lead word rest words hlead hnonempty hsolid hgap hrest ih =>
      rw [List.append_assoc, List.append_assoc]
      refine .word hlead hnonempty hsolid (fun glyph hglyph => ?_) ih
      cases rest with
      | nil => exact hblanks glyph (List.mem_of_mem_head? hglyph)
      | cons first others => exact hgap glyph hglyph

end Spaced

/-- A text without the blanks at its ends. -/
def trim (text : List Glyph) : List Glyph :=
  (text.dropWhile Glyph.isBlank).rdropWhile Glyph.isBlank

theorem exists_trim (text : List Glyph) : ∃ lead tail, text = lead ++ (trim text ++ tail) ∧
    (∀ glyph ∈ lead, glyph.isBlank = true) ∧ ∀ glyph ∈ tail, glyph.isBlank = true := by
  refine ⟨text.takeWhile Glyph.isBlank, (text.dropWhile Glyph.isBlank).rtakeWhile Glyph.isBlank,
    ?_, fun _ hglyph => List.mem_takeWhile_imp hglyph, fun _ hglyph => List.mem_rtakeWhile_imp hglyph⟩
  rw [trim, List.rdropWhile_append_rtakeWhile, List.takeWhile_append_dropWhile]

/-- The blanks at the ends of a text do not show in its words. -/
theorem fields_trim (text : List Glyph) : fields (trim text) = fields text := by
  obtain ⟨lead, tail, hsplit, hlead, htail⟩ := exists_trim text
  have hspaced : Spaced (fields (trim text)) (trim text) := fields_eq_iff.mp rfl
  have hwhole := (hspaced.append_blanks htail).blanks_append hlead
  rw [← hsplit] at hwhole
  exact (fields_eq_iff.mpr hwhole).symm

/-- What is left of a text without blanks at its ends has words, unless nothing is left. -/
theorem fields_trim_ne_nil {text : List Glyph} (h : trim text ≠ []) : fields (trim text) ≠ [] := by
  intro hfields
  rw [fields_trim] at hfields
  cases fields_eq_iff.mp hfields with
  | blank hblank =>
      apply h
      rw [trim, List.dropWhile_eq_nil_iff.mpr hblank]
      rfl

theorem piecesFrom_eq (text line : Bytes) (found : List Bytes) : piecesFrom text line found =
    found.reverse ++ List.splitOnPPrepend (· == lineFeed) text line := by
  induction text generalizing line found with
  | nil => simp [piecesFrom, List.splitOnPPrepend_nil]
  | cons byte rest ih =>
      rw [piecesFrom, ih, ih, List.splitOnPPrepend_cons_eq_if, List.splitOnPPrepend_nil_right]
      split <;> simp

/-- The pieces of a text are what it is split into at its line feeds. -/
theorem pieces_eq_splitOn (text : Bytes) : pieces text = text.splitOn lineFeed := by
  rw [pieces, piecesFrom_eq, List.splitOnPPrepend_nil_right, List.splitOn_eq_splitOnP]
  rfl

/-- A character at the head of a text does not change with what is written behind an ASCII byte. -/
theorem character?_append_ascii (first : UInt8) (rest : Bytes) {byte : UInt8}
    (hbyte : byte.toNat < 0x80) : character? first (rest ++ [byte]) = character? first rest := by
  cases hshort : character? first rest with
  | some value =>
      obtain ⟨behind, after, rfl, hbytes⟩ := encodeChar_of_character? hshort
      obtain ⟨head, tail, htail, hvalue⟩ := character?_encodeChar (after ++ [byte]) value
      rw [hbytes] at htail
      obtain ⟨rfl, rfl⟩ := List.cons.inj htail
      rw [List.append_assoc, hvalue]
  | none =>
      rw [Option.eq_none_iff_forall_ne_some]
      intro value hlong
      obtain ⟨behind, after, hrest, hbytes⟩ := encodeChar_of_character? hlong
      obtain rfl | ⟨before, last, rfl⟩ := List.eq_nil_or_concat after
      · -- The byte would be the last of a character of several bytes.
        rw [List.append_nil] at hrest
        have hcode : byte.toNat = value.toNat :=
          toNat_eq_of_mem_encodeChar hbyte (by rw [hbytes, ← hrest]; simp)
        have hlength := congrArg List.length hbytes
        rw [encodeChar, if_pos (by omega), ← hrest] at hlength
        simp at hlength
      · rw [List.concat_eq_append, ← List.append_assoc] at hrest
        obtain ⟨rfl, -⟩ := List.append_inj' hrest rfl
        obtain ⟨head, tail, htail, hvalue⟩ := character?_encodeChar before value
        rw [hbytes] at htail
        obtain ⟨rfl, rfl⟩ := List.cons.inj htail
        rw [hvalue] at hshort
        cases hshort

/-- A text with an ASCII byte behind it is read as the text and the character of the byte. -/
theorem glyphs_append_ascii (text : Bytes) {byte : UInt8} (hbyte : byte.toNat < 0x80) :
    glyphs (text ++ [byte]) = glyphs text ++ [.char (Char.ofNat byte.toNat)] := by
  have hfrom (skip : Nat) (hskip : skip ≤ text.length) (found : List Glyph) :
      glyphsFrom skip (text ++ [byte]) found =
        glyphsFrom skip text found ++ [.char (Char.ofNat byte.toNat)] := by
    induction text generalizing skip found with
    | nil =>
        obtain rfl : skip = 0 := Nat.le_zero.mp hskip
        have hstart : Glyph.start byte [] = .char (Char.ofNat byte.toNat) := by
          simp [Glyph.start, character?, hbyte]
        simp only [List.nil_append, glyphsFrom, hstart, List.reverse_cons]
    | cons first rest ih =>
        cases skip with
        | succ left =>
            rw [List.cons_append, glyphsFrom, glyphsFrom]
            exact ih left (Nat.le_of_succ_le_succ hskip) found
        | zero =>
            obtain ⟨behind, after, hrest, hbytes⟩ := bytes_start first rest
            have hwidth : (Glyph.start first rest).width - 1 ≤ rest.length := by
              rw [Glyph.width_eq_length_bytes, hbytes, hrest]
              simp
            have hstart : Glyph.start first (rest ++ [byte]) = Glyph.start first rest := by
              rw [Glyph.start, character?_append_ascii first rest hbyte, Glyph.start]
            rw [List.cons_append, glyphsFrom, glyphsFrom, hstart]
            exact ih _ hwidth _
  exact hfrom 0 (Nat.zero_le _) []

/-- The return at the end of a line does not show in its words. -/
theorem fields_dropReturn (line : Bytes) : fields (glyphs (dropReturn line)) = fields (glyphs line) := by
  rw [dropReturn]
  split
  · rename_i byte hlast
    split_ifs with hreturn
    · rw [beq_iff_eq] at hreturn
      subst hreturn
      obtain ⟨before, rfl⟩ := List.getLast?_eq_some_iff.mp hlast
      have hspaced : Spaced (fields (glyphs before)) (glyphs before) := fields_eq_iff.mp rfl
      have hblank : ∀ glyph ∈ [Glyph.char '\r'], glyph.isBlank = true := by decide
      rw [List.dropLast_concat, glyphs_append_ascii before (by decide)]
      exact (fields_eq_iff.mpr (hspaced.append_blanks hblank)).symm
    · rfl
  · rfl

end PlZero.Text
