import PlZero.Proofs.Places
import PlZero.Proofs.Tallies

/-! Scanning on demand finds what scanning at once finds. A reader keeps its counts as it leaves glyphs,
while the places of a scan are worked out from the glyphs before them; both agree wherever the reader
stands, so it gives the same results. Main statement: line and column of every result depend only on
the bytes before its offset. -/

namespace PlZero.Text

/-- The first glyph of a text, and the glyphs of what is behind its bytes. -/
theorem glyphs_cons (first : UInt8) (rest : Bytes) :
    glyphs (first :: rest) =
      Glyph.start first rest :: glyphs (rest.drop ((Glyph.start first rest).width - 1)) := by
  obtain ⟨behind, after, rfl, hbytes⟩ := bytes_start first rest
  have hwidth : (Glyph.start first (behind ++ after)).width - 1 = behind.length := by
    rw [Glyph.width_eq_length_bytes, hbytes, List.length_cons, Nat.add_sub_cancel]
  rw [hwidth, List.drop_left' rfl, glyphs, glyphsFrom, hwidth, glyphsFrom_skip, glyphsFrom_found]
  rfl

end PlZero.Text

namespace PlZero.Source

open PlZero.Text

namespace Lexeme

variable {property : Char → Bool} {value : Char}

theorem satisfies_of_mem_charsWhile {text : List Glyph} (h : value ∈ charsWhile property text) :
    property value = true := by
  obtain ⟨glyph, hglyph, hvalue⟩ := List.mem_filterMap.mp h
  obtain ⟨other, rfl, hproperty⟩ := exists_of_satisfies (List.mem_takeWhile_imp hglyph)
  obtain rfl := Option.some.inj hvalue
  exact hproperty

theorem charsWhile_cons (h : property value = true) (rest : List Glyph) :
    charsWhile property (.char value :: rest) = value :: charsWhile property rest := by
  have hglyph : (Glyph.char value).satisfies property = true := h
  rw [charsWhile, List.takeWhile_cons_of_pos hglyph]
  rfl

end Lexeme

/-- Digits are added to a tally one glyph after the other. -/
theorem Tally.foldl_glyphs (run : List Glyph) (tally : Tally) :
    run.foldl (fun tally glyph => glyph.char?.elim tally tally.add) tally =
      (run.filterMap Glyph.char?).foldl add tally := by
  induction run generalizing tally with
  | nil => rfl
  | cons glyph run ih =>
      rw [List.foldl_cons, ih]
      cases glyph <;> rfl

namespace Reader

/-- The reader stands at the place, at the head of the text: its counts are in step, as the current glyph
takes the bytes from its one offset to the other. -/
structure StandsAt (reader : Reader) (position : Position) (text : List Glyph) : Prop where
  stop_eq : reader.stop = reader.offset + reader.current.elim 0 Glyph.width
  position_eq : reader.position = position
  current_eq : reader.current = text.head?
  ahead_eq : glyphs reader.ahead = text.tail

/-- Where a reader comes to, whatever the current glyph is. -/
theorem standsAt_advance (reader : Reader) :
    StandsAt reader.advance
      ⟨reader.stop, reader.turn.line, reader.stop - reader.turn.lineStart + 1⟩
      (glyphs reader.ahead) := by
  unfold advance
  split
  · rename_i hahead
    rw [hahead]
    have hstop : reader.turn.stop = reader.stop := by
      unfold turn
      split <;> rfl
    exact ⟨hstop, rfl, rfl, by rw [ahead_turn, hahead]; rfl⟩
  · rename_i first rest hahead
    rw [hahead, glyphs_cons]
    exact ⟨rfl, rfl, rfl, rfl⟩

theorem standsAt_start (text : Bytes) : StandsAt (start text) Position.start (glyphs text) :=
  standsAt_advance _

namespace StandsAt

variable {reader : Reader} {position : Position} {text : List Glyph}

/-- Going on by a glyph moves the place as the glyph does, be it a line feed or not. -/
theorem advance {glyph : Glyph} {rest : List Glyph} (h : StandsAt reader position (glyph :: rest)) :
    StandsAt reader.advance (position.after glyph) rest := by
  have hahead : glyphs reader.ahead = rest := h.ahead_eq
  have hcurrent : reader.current = some glyph := h.current_eq
  have hstop : reader.stop = reader.offset + glyph.width := by
    rw [h.stop_eq, hcurrent]
    rfl
  have hplace : position.after glyph =
      ⟨reader.stop, reader.turn.line, reader.stop - reader.turn.lineStart + 1⟩ := by
    rw [← h.position_eq, Reader.position, hstop, turn, hcurrent]
    by_cases hfeed : glyph = .char '\n'
    · subst hfeed
      simp [Position.after, Glyph.width, hstop]
    · rw [if_neg (by simpa using hfeed)]
      unfold Position.after
      split
      · exact absurd rfl hfeed
      · simp
        omega
  rw [hplace, ← hahead]
  exact standsAt_advance reader

theorem iterate {run rest : List Glyph} (h : StandsAt reader position (run ++ rest)) :
    StandsAt (Reader.advance^[run.length] reader) (position.advance run) rest := by
  induction run generalizing reader position with
  | nil => exact h
  | cons glyph run ih =>
      rw [List.length_cons, Function.iterate_succ_apply]
      exact ih h.advance

/-- Going on over glyphs with a property takes the longest run of them. -/
theorem goOn_eq {α : Type} (h : StandsAt reader position text) (property : Glyph → Bool)
    (take : α → Glyph → α) (value : α) : reader.goOn property take value =
      ((text.takeWhile property).foldl take value,
        Reader.advance^[(text.takeWhile property).length] reader) := by
  induction text generalizing reader position value with
  | nil =>
      rw [goOn]
      split
      · rfl
      · rename_i glyph hcurrent
        rw [h.current_eq] at hcurrent
        cases hcurrent
  | cons glyph rest ih =>
      rw [goOn]
      split
      · rename_i hcurrent
        rw [h.current_eq] at hcurrent
        cases hcurrent
      · rename_i other hcurrent
        obtain rfl : glyph = other := Option.some.inj (h.current_eq.symm.trans hcurrent)
        by_cases hproperty : property glyph = true
        · rw [if_pos hproperty, ih h.advance, List.takeWhile_cons_of_pos hproperty]
          rfl
        · rw [if_neg hproperty, List.takeWhile_cons_of_neg hproperty]
          rfl

theorem takeRun_eq (h : StandsAt reader position text) (property : Glyph → Bool) :
    reader.takeRun property = (text.takeWhile property,
      Reader.advance^[(text.takeWhile property).length] reader) := by
  rw [takeRun, h.goOn_eq, List.foldl_flip_cons_eq_append, List.append_nil, List.map_id_fun']
  exact congrArg (·, _) (List.reverse_reverse _)

theorem takeChars_eq (h : StandsAt reader position text) (property : Char → Bool) :
    reader.takeChars property = (Lexeme.charsWhile property text,
      Reader.advance^[(text.takeWhile (Glyph.satisfies property)).length] reader) := by
  rw [takeChars, h.takeRun_eq, Lexeme.charsWhile]

theorem takeNumber_eq (h : StandsAt reader position text) :
    reader.takeNumber = (Tally.of (Lexeme.charsWhile isDigit text),
      Reader.advance^[(text.takeWhile (Glyph.satisfies isDigit)).length] reader) := by
  rw [takeNumber, h.goOn_eq, Tally.foldl_glyphs, Lexeme.charsWhile, Tally.of]

/-- A reader finds the lexeme at the head of the text and goes on behind it. -/
theorem spell_eq {first : Glyph} {rest : List Glyph} (h : StandsAt reader position (first :: rest))
    (hsolid : first.isBlank = false) : reader.spell first = ((Lexeme.read first rest).token,
      Reader.advance^[(Lexeme.read first rest).glyphs.length] reader) := by
  have hstray (hstray : isStray first = true) :
      reader.takeStray = (.error (.strayText (first :: rest.takeWhile isStray)),
        Reader.advance^[(first :: rest.takeWhile isStray).length] reader) := by
    rw [takeStray, h.takeRun_eq, List.takeWhile_cons_of_pos hstray]
  cases first with
  | stray byte => exact hstray rfl
  | char value =>
      rw [spell, Lexeme.read]
      by_cases hdigit : isDigit value = true
      · have hall : ∀ digit ∈ Lexeme.charsWhile isDigit (.char value :: rest), isDigit digit = true :=
          fun _ => Lexeme.satisfies_of_mem_charsWhile
        rw [if_pos hdigit, if_pos hdigit, h.takeNumber_eq, ← ofChars_charsWhile]
        rw [Lexeme.charsWhile_cons hdigit] at hall ⊢
        exact congrArg (·, _) (Tally.token_of hall)
      rw [if_neg hdigit, if_neg hdigit]
      by_cases hletter : isLetter value = true
      · have hpart : isWordPart value = true := Bool.or_eq_true_iff.mpr (.inl hletter)
        rw [if_pos hletter, if_pos hletter, h.takeChars_eq, ← ofChars_charsWhile,
          Lexeme.charsWhile_cons hpart]
        rfl
      rw [if_neg hletter, if_neg hletter]
      cases hmark : TokenKind.ofMark? value with
      | some kind => rfl
      | none =>
          refine hstray ?_
          have hblank : isBlank value = false := hsolid
          simp [isStray, hblank, hletter, hdigit, hmark]

theorem skipBlanks (h : StandsAt reader position text) :
    StandsAt reader.skipBlanks (position.advance (text.takeWhile Glyph.isBlank))
      (text.dropWhile Glyph.isBlank) := by
  rw [Reader.skipBlanks, h.takeRun_eq]
  refine StandsAt.iterate ?_
  rwa [List.takeWhile_append_dropWhile]

theorem here_nil (h : StandsAt reader position []) :
    reader.here = (.ok ⟨.endOfInput, position⟩, reader) := by
  rw [here, h.current_eq, h.position_eq]
  rfl

theorem here_cons {first : Glyph} {rest : List Glyph} (h : StandsAt reader position (first :: rest))
    (hsolid : first.isBlank = false) : reader.here = ((Lexeme.read first rest).place position,
      Reader.advance^[(Lexeme.read first rest).glyphs.length] reader) := by
  rw [here, h.current_eq, h.position_eq, List.head?_cons]
  dsimp only
  rw [h.spell_eq hsolid, Lexeme.place]
  cases (Lexeme.read first rest).token <;> rfl

/-- The next result is that of a scanner at the same place, and so is where the reader then stands. -/
theorem next (h : StandsAt reader position text) :
    reader.next.1 = (Scanner.next ⟨position, text⟩).1 ∧
      StandsAt reader.next.2 (Scanner.next ⟨position, text⟩).2.position
        (Scanner.next ⟨position, text⟩).2.text := by
  have hskip := h.skipBlanks
  rw [Reader.next, Scanner.next]
  cases htext : text.dropWhile Glyph.isBlank with
  | nil =>
      rw [htext] at hskip
      rw [hskip.here_nil]
      exact ⟨rfl, hskip⟩
  | cons first rest =>
      rw [htext] at hskip
      have hsolid : first.isBlank = false := by
        have hhead := List.head?_dropWhile_not Glyph.isBlank text
        rw [htext] at hhead
        simpa using hhead
      obtain ⟨kind, hstarts⟩ := RunKind.exists_starts hsolid
      rw [hskip.here_cons hsolid]
      refine ⟨rfl, StandsAt.iterate ?_⟩
      rwa [(Lexeme.isCut_of_starts rest hstarts).split]

theorem result_eq (h : StandsAt reader position text) (count : Nat) :
    reader.result count = Scanner.result ⟨position, text⟩ count := by
  induction count generalizing reader position text with
  | zero => exact h.next.1
  | succ count ih => exact ih h.next.2

end StandsAt

/-- A reader gives the results of the scan of the text, one by one, and then the end of input. -/
theorem result_start (text : Bytes) (count : Nat) : (start text).result count =
    (scan text).results[count]?.getD (.ok (scan text).last) := by
  rw [(standsAt_start text).result_eq]
  exact Scanner.result_eq _ _ _

/-- Every result stands behind some glyphs of the text. -/
theorem exists_before (text : Bytes) (count : Nat) : ∃ before after, glyphs text = before ++ after ∧
    Scanned.position ((start text).result count) = Position.start.advance before := by
  rw [result_start]
  cases hresult : (scan text).results[count]? with
  | some result =>
      obtain ⟨hcount, rfl⟩ := List.getElem?_eq_some_iff.mp hresult
      have hsplit : (scan text).results = (scan text).results.take count ++
          (scan text).results[count] :: (scan text).results.drop (count + 1) := by
        rw [← List.drop_eq_getElem_cons hcount, List.take_append_drop]
      obtain ⟨kind, before, run, after, hplaced⟩ :=
        scanFrom_placed Position.start (glyphs text) hsplit
      exact ⟨before, run ++ after, hplaced.split, hplaced.position_eq⟩
  | none => exact ⟨glyphs text, [], (List.append_nil _).symm, finish_scanFrom _ _⟩

end Reader

/-! ### Lines and columns -/

/-- The line of a place starts just behind the last line feed before it, or with the text. -/
structure IsLineStart (text : Bytes) (offset start : Nat) : Prop where
  le : start ≤ offset
  opens : start = 0 ∨ text[start - 1]? = some lineFeed
  unbroken : ∀ index, start ≤ index → index < offset → text[index]? ≠ some lineFeed

theorem isLineStart_lastLine (before after : Bytes) :
    IsLineStart (before ++ after) before.length (before.length - (lastLine before).length) := by
  obtain ⟨upper, hbefore, hopens, hfree⟩ := exists_lastLine before
  generalize lastLine before = line at hbefore hfree ⊢
  subst hbefore
  rw [List.length_append, Nat.add_sub_cancel, List.append_assoc]
  refine ⟨Nat.le_add_right _ _, ?_, ?_⟩
  · obtain rfl | ⟨lines, rfl⟩ := hopens
    · exact .inl rfl
    · exact .inr (by simp)
  · intro index hstart hstop hfeed
    rw [List.getElem?_append_right hstart, List.getElem?_append_left (by omega)] at hfeed
    exact hfree (List.mem_of_getElem? hfeed)

/-- Line and column are functions of the offset. Whatever the bytes of a text are, each result that a
reader gives, be it a token, a fault or the end of input, stands at an offset in the text; its line is
one more than the line feeds before the offset, and its column counts from the start of that line. The
results are those of scanning at once. -/
theorem reader_position_of_offset (text : Bytes) (count : Nat) : ∃ offset start : Nat,
    offset ≤ text.length ∧ IsLineStart text offset start ∧
      Scanned.position ((Reader.start text).result count) =
        ⟨offset, 1 + (text.take offset).count lineFeed, offset - start + 1⟩ ∧
      (Reader.start text).result count =
        (scan text).results[count]?.getD (.ok (scan text).last) := by
  obtain ⟨before, after, hglyphs, hposition⟩ := Reader.exists_before text count
  have htext : text = unread before ++ unread after := by
    rw [← unread_append, ← hglyphs, unread_glyphs]
  have hproper : ∀ glyph ∈ before, glyph.IsProper := by
    intro glyph hglyph
    exact isProper_of_mem_glyphs (hglyphs ▸ List.mem_append_left after hglyph)
  rw [Position.advance_start hproper] at hposition
  have hline := isLineStart_lastLine (unread before) (unread after)
  rw [← htext] at hline
  refine ⟨_, _, ?_, hline, ?_, Reader.result_start text count⟩
  · rw [htext, List.length_append]
    exact Nat.le_add_right _ _
  · have hle := (List.rtakeWhile_suffix (· != lineFeed) (unread before)).length_le
    rw [hposition, htext, List.take_left' rfl, Position.behind, Position.mk.injEq]
    refine ⟨rfl, by omega, ?_⟩
    rw [← lastLine] at hle
    omega

end PlZero.Source
