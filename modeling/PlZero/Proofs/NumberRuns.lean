import PlZero.Proofs.ScanningOnDemand

/-! Runs of digits in a text. A reader that stands at one reads it as a number, whatever its length, and
stands behind it then; and unless it goes on a word, a run of digits is among what scanning finds. -/

namespace PlZero.Source

open PlZero.Text

section Boundary

variable {first : Glyph} {more rest : List Glyph}
  (hlast : ∀ glyph ∈ (first :: more).getLast?, glyph.satisfies isWordPart = false)
  (hrest : ∀ glyph ∈ rest.head?, glyph.satisfies isWordPart = true)
include hlast hrest

/-- No run goes on from a glyph that is neither letter nor digit to one that is. -/
theorem RunKind.IsRun.ends {kind : RunKind} (h : kind.IsRun (first :: more)) : kind.Ends rest := by
  have hmem := List.getLast_mem (List.cons_ne_nil first more)
  have hinWord : kind.inWord = false := by
    rw [← (h.uniform _ hmem).1]
    exact hlast _ (List.getLast?_eq_some_getLast (List.cons_ne_nil first more))
  intro glyph hglyph
  cases kind with
  | number | word => cases hinWord
  | mark => rfl
  | stray => exact isStray_of_isWordPart (hrest glyph hglyph)

/-- So the lexeme at the head of a text ends before such a boundary. -/
theorem Lexeme.exists_later (hsolid : first.isBlank = false) :
    ∃ later, first :: more = (read first (more ++ rest)).glyphs ++ later ∧
      remainder first (more ++ rest) = later ++ rest := by
  obtain ⟨kind, hstarts⟩ := RunKind.exists_starts hsolid
  have hcut := isCut_of_starts (more ++ rest) hstarts
  have hdrop : (more ++ rest).dropWhile kind.continues = more.dropWhile kind.continues ++ rest := by
    rw [List.dropWhile_append]
    split
    · rename_i hnone
      rw [List.isEmpty_iff] at hnone
      have hends : kind.Ends rest :=
        RunKind.IsRun.ends hlast hrest ⟨hstarts, List.dropWhile_eq_nil_iff.mp hnone⟩
      rw [hnone]
      exact RunKind.dropWhile_of_ends (List.forall_mem_nil _) hends
    · rfl
  refine ⟨more.dropWhile kind.continues, ?_, hcut.remainder.trans hdrop⟩
  have hsplit := hcut.split
  rw [hcut.remainder, hdrop, ← List.append_assoc] at hsplit
  exact (List.append_cancel_right (hsplit.trans (List.cons_append ..).symm)).symm

end Boundary

/-- A scanner comes to every place where a letter or a digit stands behind something else. -/
theorem Scanner.exists_result {before rest : List Glyph} {first : Glyph}
    (hlast : ∀ glyph ∈ before.getLast?, glyph.satisfies isWordPart = false)
    (hfirst : first.satisfies isWordPart = true) (position : Position) :
    ∃ count, result ⟨position, before ++ first :: rest⟩ count =
      (next ⟨position.advance before, first :: rest⟩).1 := by
  induction hlength : before.length using Nat.strong_induction_on generalizing before position with
  | _ length ih =>
      have hsplit := List.takeWhile_append_dropWhile (p := Glyph.isBlank) (l := before)
      have hblanks : ∀ glyph ∈ before.takeWhile Glyph.isBlank, glyph.isBlank = true :=
        fun _ hglyph => List.mem_takeWhile_imp hglyph
      have hhead := List.head?_dropWhile_not Glyph.isBlank before
      generalize before.takeWhile Glyph.isBlank = blanks at hsplit hblanks
      generalize before.dropWhile Glyph.isBlank = solid at hsplit hhead
      subst hsplit
      have hsolid : first.isBlank = false := isBlank_of_isWordPart hfirst
      cases solid with
      | nil =>
          refine ⟨0, ?_⟩
          rw [List.append_nil, result, next_solid hblanks hsolid]
          exact (congrArg Prod.fst (next_solid (List.forall_mem_nil _) hsolid _ rest)).symm
      | cons glyph more =>
          have hglyph : glyph.isBlank = false := by simpa using hhead
          rw [List.getLast?_append_cons] at hlast
          have hword : ∀ other ∈ (first :: rest).head?, other.satisfies isWordPart = true := by
            simpa using hfirst
          obtain ⟨later, hlexeme, hremainder⟩ := Lexeme.exists_later hlast hword hglyph
          have hlater : ∀ glyph ∈ later.getLast?, glyph.satisfies isWordPart = false := by
            intro other hother
            refine hlast other ?_
            rw [hlexeme, List.getLast?_append, Option.mem_def.mp hother]
            rfl
          have hshorter : later.length < length := by
            have hle := Lexeme.length_remainder_le glyph (more ++ first :: rest)
            rw [hremainder, List.length_append, List.length_append] at hle
            rw [List.length_append, List.length_cons] at hlength
            omega
          obtain ⟨count, hcount⟩ := ih later.length hshorter hlater
            ((position.advance blanks).advance (Lexeme.read glyph (more ++ first :: rest)).glyphs) rfl
          refine ⟨count + 1, ?_⟩
          rw [List.append_assoc, List.cons_append, result, next_solid hblanks hglyph, hremainder,
            hcount, ← Position.advance_append, ← hlexeme, ← Position.advance_append]

/-! ### Numbers -/

theorem filterMap_char?_ofChars (values : List Char) :
    (ofChars values).filterMap Glyph.char? = values := by
  rw [ofChars, List.filterMap_map]
  exact List.filterMap_some

namespace Reader

/-- The reader of a text behind some of its glyphs. -/
def past (text : Bytes) (before : List Glyph) : Reader :=
  advance^[before.length] (start text)

theorem standsAt_past {text : Bytes} {before after : List Glyph} (h : glyphs text = before ++ after) :
    StandsAt (past text before) (Position.start.advance before) after := by
  refine StandsAt.iterate ?_
  rw [← h]
  exact standsAt_start text

theorem past_append (text : Bytes) (before run : List Glyph) :
    past text (before ++ run) = advance^[run.length] (past text before) := by
  rw [past, past, List.length_append, Nat.add_comm, Function.iterate_add_apply]

section Digits

variable {reader : Reader} {position : Position} {digits : List Char} {after : List Glyph}
  (h : StandsAt reader position (ofChars digits ++ after))
  (hdigits : ∀ digit ∈ digits, isDigit digit = true) (hends : RunKind.number.Ends after)
include h hdigits hends

theorem takeNumber_digits :
    reader.takeNumber = (Tally.of digits, advance^[digits.length] reader) := by
  have hall : ∀ glyph ∈ ofChars digits, glyph.satisfies isDigit = true :=
    List.forall_mem_map.mpr hdigits
  have htake : (ofChars digits ++ after).takeWhile (Glyph.satisfies isDigit) = ofChars digits :=
    RunKind.takeWhile_of_ends hall hends
  rw [h.takeNumber_eq, Lexeme.charsWhile, htake, filterMap_char?_ofChars, ofChars, List.length_map]

/-- A reader that stands at digits reads all of them. -/
theorem next_digits (hnonempty : digits ≠ []) :
    reader.next = ((Lexeme.number digits).place position, advance^[digits.length] reader) := by
  obtain ⟨value, others, rfl⟩ := List.exists_cons_of_ne_nil hnonempty
  have hdigit : isDigit value = true := hdigits value List.mem_cons_self
  have hothers : ∀ glyph ∈ ofChars others, glyph.satisfies isDigit = true :=
    List.forall_mem_map.mpr fun _ hother => hdigits _ (List.mem_cons_of_mem _ hother)
  have hsolid : (Glyph.char value).isBlank = false :=
    isBlank_of_isWordPart (Bool.or_eq_true_iff.mpr (.inr hdigit))
  have hskip : reader.skipBlanks = reader := by
    rw [Reader.skipBlanks, h.takeRun_eq, ofChars, List.map_cons, List.cons_append,
      List.takeWhile_cons_of_neg (Bool.eq_false_iff.mp hsolid)]
    rfl
  have hread : Lexeme.read (.char value) (ofChars others ++ after) = .number (value :: others) := by
    have htake : (ofChars others ++ after).takeWhile (Glyph.satisfies isDigit) = ofChars others :=
      RunKind.takeWhile_of_ends hothers hends
    rw [Lexeme.read, if_pos hdigit, Lexeme.charsWhile, htake, filterMap_char?_ofChars]
  have hhere := StandsAt.here_cons (show StandsAt reader position
    (.char value :: (ofChars others ++ after)) from h) hsolid
  rw [hread] at hhere
  rw [Reader.next, hskip, hhere, Lexeme.glyphs, ofChars, List.length_map]

end Digits

end Reader

theorem Lexeme.place_number_of_le {digits : List Char} (h : digitsValue digits ≤ maxLiteral)
    (position : Position) : ∃ value : Int32, value.toInt = digitsValue digits ∧
      (Lexeme.number digits).place position = .ok ⟨.integer value, position⟩ := by
  refine ⟨Int32.ofNat (digitsValue digits), ?_, ?_⟩
  · exact Int32.toInt_ofNat_of_lt (Nat.lt_of_le_of_lt h (by decide))
  · rw [Lexeme.place, Lexeme.token]
    simp only [if_pos h]

theorem Lexeme.place_number_of_lt {digits : List Char} (h : maxLiteral < digitsValue digits)
    (position : Position) :
    (Lexeme.number digits).place position = .error ⟨.literalOverflow digits, position⟩ := by
  rw [Lexeme.place, Lexeme.token]
  simp only [if_neg (Nat.not_le.mpr h)]

theorem detail_literalOverflow (digits : List Char) :
    (Cause.literalOverflow digits).detail = String.ofList digits ++ " exceeds 2147483647" := by
  have hdetail : (Cause.literalOverflow digits).detail =
      String.ofList digits ++ " exceeds " ++ showNat maxLiteral := rfl
  have hbound : " exceeds " ++ showNat maxLiteral = " exceeds 2147483647" := by cbv
  rw [hdetail, String.append_assoc, hbound]

/-- Integer literals are exact at any length. Wherever digits stand in a text with no further digit
behind them, a reader that stands at the first of them gives the token of their decimal value if this is
at most that of the greatest literal, and otherwise the fault that quotes all of them; in both cases it
then stands at the first glyph behind them. On the way, the tally of each part of them is what it would
be in numbers without bounds, which stop growing once they exceed all literals: its 64 bits never wrap.
And if no letter or digit stands before them, the reader of the text comes to them by itself. -/
theorem number_exact (text : Bytes) (before after : List Glyph) (digits : List Char)
    (htext : glyphs text = before ++ (ofChars digits ++ after)) (hnonempty : digits ≠ [])
    (hdigits : ∀ digit ∈ digits, isDigit digit = true)
    (hends : ∀ glyph ∈ after.head?, glyph.satisfies isDigit = false) :
    let reader := Reader.past text before
    let behind := Reader.past text (before ++ ofChars digits)
    (digitsValue digits ≤ 2 ^ 31 - 1 → ∃ value : Int32, value.toInt = digitsValue digits ∧
        reader.next = (.ok ⟨.integer value, reader.position⟩, behind)) ∧
      (2 ^ 31 - 1 < digitsValue digits → ∃ cause : Cause, cause.kind = .literalOverflow ∧
        cause.detail = String.ofList digits ++ " exceeds 2147483647" ∧
        reader.next = (.error ⟨cause, reader.position⟩, behind)) ∧
      behind.current = after.head? ∧
      reader.takeNumber = (Tally.of digits, behind) ∧
      (∀ earlier digit, earlier ++ [digit] <+: digits →
        (Tally.of (earlier ++ [digit])).value.toNat =
          (if (Tally.of earlier).overflowed then (Tally.of earlier).value.toNat
          else (Tally.of earlier).value.toNat * 10 + digitValue digit) ∧
        (Tally.of earlier).value.toNat * 10 + digitValue digit < 2 ^ 64) ∧
      ((∀ glyph ∈ before.getLast?, glyph.satisfies isWordPart = false) →
        ∃ count, (Reader.start text).result count = reader.next.1) := by
  have hreader : (Reader.past text before).StandsAt _ _ := Reader.standsAt_past htext
  have hbehind := Reader.standsAt_past (htext.trans (List.append_assoc ..).symm)
  have hnext := Reader.next_digits hreader hdigits hends hnonempty
  have htake := Reader.takeNumber_digits hreader hdigits hends
  have hlength : (ofChars digits).length = digits.length := List.length_map _
  rw [← hreader.position_eq, ← hlength, ← Reader.past_append] at hnext
  rw [← hlength, ← Reader.past_append] at htake
  refine ⟨?_, ?_, hbehind.current_eq, htake, ?_, ?_⟩
  · intro hvalue
    obtain ⟨value, htoInt, hplace⟩ := Lexeme.place_number_of_le hvalue (Reader.past text before).position
    exact ⟨value, htoInt, hplace ▸ hnext⟩
  · intro hvalue
    refine ⟨.literalOverflow digits, rfl, detail_literalOverflow digits, ?_⟩
    rw [hnext, Lexeme.place_number_of_lt hvalue]
  · intro earlier digit hbegins
    have hall : ∀ other ∈ earlier ++ [digit], isDigit other = true :=
      fun other hother => hdigits other (hbegins.subset hother)
    rw [List.forall_mem_append, List.forall_mem_singleton] at hall
    have hle := digitValue_le hall.2
    have hvalue := (Tally.isRight_of hall.1).value_le
    rw [maxLiteral] at hvalue
    refine ⟨Tally.toNat_of_concat ?_, by omega⟩
    rwa [List.forall_mem_append, List.forall_mem_singleton]
  · intro hlast
    obtain ⟨value, others, rfl⟩ := List.exists_cons_of_ne_nil hnonempty
    have hpart : (Glyph.char value).satisfies isWordPart = true :=
      Bool.or_eq_true_iff.mpr (.inr (hdigits value List.mem_cons_self))
    obtain ⟨count, hcount⟩ := Scanner.exists_result hlast hpart Position.start
    refine ⟨count, ?_⟩
    rw [(Reader.standsAt_start text).result_eq, htext, hreader.next.1]
    exact hcount

/-- A literal that 64 bits alone would take for 5. -/
theorem number_exact_wrapping :
    ∃ cause : Cause, cause.kind = .literalOverflow ∧
      cause.detail = "00018446744073709551621 exceeds 2147483647" ∧
      ∃ count, (Reader.start (encode "print(00018446744073709551621a);")).result count =
        .error ⟨cause, ⟨6, 1, 7⟩⟩ := by
  have htext : glyphs (encode "print(00018446744073709551621a);") = ofChars "print(".toList ++
      (ofChars "00018446744073709551621".toList ++ ofChars "a);".toList) := by
    rw [encode, glyphs_encodeChars]
    rfl
  have hdigits : ∀ digit ∈ "00018446744073709551621".toList, isDigit digit = true := by
    simp [isDigit]
  obtain ⟨-, hover, -, -, -, hreach⟩ := number_exact _ _ _ _ htext (by simp) hdigits (by decide)
  obtain ⟨cause, hkind, hdetail, hnext⟩ := hover (by cbv)
  obtain ⟨count, hcount⟩ := hreach (by decide)
  refine ⟨cause, hkind, hdetail, count, ?_⟩
  have hposition := (Reader.standsAt_past htext).position_eq
  rw [hcount, hnext, hposition]
  rfl

end PlZero.Source
