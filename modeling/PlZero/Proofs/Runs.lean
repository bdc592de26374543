import PlZero.Proofs.Words
import PlZero.Source.Scan

/-! Runs of glyphs: digits, words, marks and stray glyphs. A glyph that is not blank starts a run of one
kind, and the lexeme that is read there is the longest run of this kind. -/

namespace PlZero.Source

open PlZero.Text

theorem isLetter_iff {value : Char} : isLetter value = true ↔
    0x61 ≤ value.toNat ∧ value.toNat ≤ 0x7A ∨ 0x41 ≤ value.toNat ∧ value.toNat ≤ 0x5A := by
  rw [isLetter, Bool.or_eq_true]
  exact or_congr and_decide_iff and_decide_iff

theorem isDigit_eq_false {value : Char} (h : isLetter value = true) : isDigit value = false := by
  rw [Bool.eq_false_iff]
  intro hdigit
  have hrange := isDigit_iff.mp hdigit
  have hletter := isLetter_iff.mp h
  omega

theorem isGraph_of_isDigit {value : Char} (h : isDigit value = true) : isGraph value = true := by
  have hrange := isDigit_iff.mp h
  exact and_decide_iff.mpr (by omega)

theorem isGraph_of_isLetter {value : Char} (h : isLetter value = true) : isGraph value = true := by
  have hrange := isLetter_iff.mp h
  exact and_decide_iff.mpr (by omega)

theorem isGraph_of_ofMark? {value : Char} {kind : TokenKind}
    (h : TokenKind.ofMark? value = some kind) :
    isGraph value = true ∧ isDigit value = false ∧ isLetter value = false := by
  unfold TokenKind.ofMark? at h
  split at h <;> first | exact ⟨rfl, rfl, rfl⟩ | cases h

theorem exists_of_satisfies {property : Char → Bool} {glyph : Glyph}
    (h : glyph.satisfies property = true) : ∃ value, glyph = .char value ∧ property value = true := by
  cases glyph with
  | stray byte => exact absurd h Bool.false_ne_true
  | char value => exact ⟨value, rfl, h⟩

/-- The kinds of runs that a text is cut into. -/
inductive RunKind where
  | number
  | word
  | mark
  | stray
  deriving DecidableEq, Repr

namespace RunKind

/-- Whether a run may start with a glyph. -/
def starts : RunKind → Glyph → Bool
  | number => Glyph.satisfies isDigit
  | word => Glyph.satisfies isLetter
  | mark => Glyph.satisfies fun value => (TokenKind.ofMark? value).isSome
  | stray => isStray

/-- Whether a run may go on with a glyph. -/
def continues : RunKind → Glyph → Bool
  | number => Glyph.satisfies isDigit
  | word => Glyph.satisfies isWordPart
  | mark => fun _ => false
  | stray => isStray

/-- A glyph that starts a run, and glyphs that go on with it. -/
def IsRun (kind : RunKind) : List Glyph → Prop
  | [] => False
  | first :: others => kind.starts first = true ∧ ∀ glyph ∈ others, kind.continues glyph = true

theorem isRun_number {digits : List Char} (hnonempty : digits ≠ [])
    (hdigits : ∀ digit ∈ digits, isDigit digit = true) : number.IsRun (ofChars digits) := by
  cases digits with
  | nil => exact absurd rfl hnonempty
  | cons first others =>
      obtain ⟨hfirst, hothers⟩ := List.forall_mem_cons.mp hdigits
      exact ⟨hfirst, List.forall_mem_map.mpr hothers⟩

theorem isRun_word {first : Char} {others : List Char} (hfirst : isLetter first = true)
    (hothers : ∀ value ∈ others, isWordPart value = true) : word.IsRun (ofChars (first :: others)) :=
  ⟨hfirst, List.forall_mem_map.mpr hothers⟩

/-- No run of the kind at the head of the text is longer. -/
structure IsLongest (kind : RunKind) (run text : List Glyph) : Prop where
  isRun : kind.IsRun run
  isHead : run <+: text
  longest : ∀ other, kind.IsRun other → other <+: text → other.length ≤ run.length

/-- What a run spells: a token, or what is wrong with it. -/
inductive Denotes : RunKind → List Glyph → Except Cause TokenKind → Prop where
  | integer {digits : List Char} {value : Int32} (hvalue : value.toInt = digitsValue digits) :
      Denotes .number (ofChars digits) (.ok (.integer value))
  | overflow {digits : List Char} {cause : Cause} (hvalue : 2 ^ 31 - 1 < digitsValue digits)
      (hkind : cause.kind = .literalOverflow) :
      Denotes .number (ofChars digits) (.error cause)
  | keyword {letters : List Char} {kind : TokenKind}
      (hreserved : (String.ofList letters, kind) ∈ TokenKind.reserved) :
      Denotes .word (ofChars letters) (.ok kind)
  | identifier {letters : List Char}
      (hfree : ∀ kind, (String.ofList letters, kind) ∉ TokenKind.reserved) :
      Denotes .word (ofChars letters) (.ok (.identifier (String.ofList letters)))
  | sign {value : Char} {kind : TokenKind} (hkind : TokenKind.ofMark? value = some kind) :
      Denotes .mark [.char value] (.ok kind)
  | unknown {run : List Glyph} {cause : Cause} (hkind : cause.kind = .unknownToken)
      (hdetail : cause.detail = quoteGlyphs run) :
      Denotes .stray run (.error cause)

theorem Denotes.ne_endOfInput {kind : RunKind} {run : List Glyph} {token : TokenKind}
    (h : kind.Denotes run (.ok token)) : token ≠ .endOfInput := by
  cases h with
  | integer hvalue => nofun
  | keyword hreserved =>
      have hwords : ∀ entry ∈ TokenKind.reserved, entry.2 ≠ .endOfInput := by decide
      exact hwords _ hreserved
  | identifier hfree => nofun
  | sign hkind =>
      rintro rfl
      unfold TokenKind.ofMark? at hkind
      split at hkind <;> cases hkind

/-- A run that spells a token spells nothing else. -/
theorem Denotes.unique {kind : RunKind} {run : List Glyph} {token : TokenKind}
    {content : Except Cause TokenKind} (h : kind.Denotes run (.ok token))
    (hother : kind.Denotes run content) : content = .ok token := by
  have hinjective : Function.Injective ofChars :=
    List.map_injective_iff.mpr fun _ _ => Glyph.char.inj
  have hwords : ∀ first ∈ TokenKind.reserved, ∀ second ∈ TokenKind.reserved,
      first.1 = second.1 → first.2 = second.2 := by decide
  -- Both readings are of one kind, so a number is compared with numbers and a word with words.
  generalize hsame : run = other at hother
  cases h with
  | @integer digits value hvalue =>
      have hbound := value.toInt_lt
      cases hother with
      | integer hother =>
          obtain rfl := hinjective hsame
          rw [Int32.toInt_inj.mp (hother.trans hvalue.symm)]
      | overflow hother hkind =>
          obtain rfl := hinjective hsame
          omega
  | keyword hreserved =>
      cases hother with
      | keyword hother =>
          obtain rfl := hinjective hsame
          exact congrArg Except.ok (hwords _ hother _ hreserved rfl)
      | identifier hfree =>
          obtain rfl := hinjective hsame
          exact absurd hreserved (hfree _)
  | identifier hfree =>
      cases hother with
      | keyword hreserved =>
          obtain rfl := hinjective hsame
          exact absurd hreserved (hfree _)
      | identifier hother =>
          obtain rfl := hinjective hsame
          rfl
  | sign hkind =>
      cases hother with
      | sign hother =>
          obtain ⟨⟩ := hsame
          exact congrArg Except.ok (Option.some.inj (hother.symm.trans hkind))

theorem isBlank_of_starts {kind : RunKind} {glyph : Glyph} (h : kind.starts glyph = true) :
    glyph.isBlank = false := by
  cases kind with
  | number =>
      obtain ⟨value, rfl, hdigit⟩ := exists_of_satisfies h
      exact isBlank_of_isGraph (isGraph_of_isDigit hdigit)
  | word =>
      obtain ⟨value, rfl, hletter⟩ := exists_of_satisfies h
      exact isBlank_of_isGraph (isGraph_of_isLetter hletter)
  | mark =>
      obtain ⟨value, rfl, hmark⟩ := exists_of_satisfies h
      obtain ⟨kind, hkind⟩ := Option.isSome_iff_exists.mp hmark
      exact isBlank_of_isGraph (isGraph_of_ofMark? hkind).1
  | stray =>
      cases glyph with
      | stray byte => rfl
      | char value =>
          simp only [starts, isStray, Bool.not_eq_true', Bool.or_eq_false_iff] at h
          exact h.1.1.1

/-- What goes on with a run would start one as well. -/
theorem exists_starts_of_continues {kind : RunKind} {glyph : Glyph}
    (h : kind.continues glyph = true) : ∃ other : RunKind, other.starts glyph = true := by
  cases kind with
  | number => exact ⟨.number, h⟩
  | word =>
      obtain ⟨value, rfl, hpart⟩ := exists_of_satisfies h
      obtain hletter | hdigit := Bool.or_eq_true_iff.mp hpart
      · exact ⟨.word, hletter⟩
      · exact ⟨.number, hdigit⟩
  | mark => exact absurd h Bool.false_ne_true
  | stray => exact ⟨.stray, h⟩

/-- No run goes on with a mark. -/
theorem continues_of_mark {glyph : Glyph} (h : mark.starts glyph = true) (kind : RunKind) :
    kind.continues glyph = false := by
  obtain ⟨value, rfl, hmark⟩ := exists_of_satisfies h
  obtain ⟨token, htoken⟩ := Option.isSome_iff_exists.mp hmark
  obtain ⟨-, hdigit, hletter⟩ := isGraph_of_ofMark? htoken
  cases kind with
  | number => exact hdigit
  | word => exact Bool.or_eq_false_iff.mpr ⟨hletter, hdigit⟩
  | mark => rfl
  | stray => simp [continues, isStray, hmark]

/-- A run of the kind does not go on with the text. -/
def Ends (kind : RunKind) (text : List Glyph) : Prop :=
  ∀ glyph ∈ text.head?, kind.continues glyph = false

theorem ends_nil (kind : RunKind) : kind.Ends [] :=
  nofun

theorem ends_cons {kind : RunKind} {first : Glyph} (h : kind.continues first = false)
    (rest : List Glyph) : kind.Ends (first :: rest) := by
  rintro _ ⟨⟩
  exact h

theorem ends_blank {first : Glyph} (hblank : first.isBlank = true) (kind : RunKind)
    (rest : List Glyph) : kind.Ends (first :: rest) := by
  refine ends_cons (Bool.eq_false_iff.mpr fun hcontinues => ?_) rest
  obtain ⟨other, hstarts⟩ := exists_starts_of_continues hcontinues
  rw [isBlank_of_starts hstarts] at hblank
  exact Bool.false_ne_true hblank

theorem takeWhile_of_ends {kind : RunKind} {others rest : List Glyph}
    (hothers : ∀ glyph ∈ others, kind.continues glyph = true) (hends : kind.Ends rest) :
    (others ++ rest).takeWhile kind.continues = others := by
  rw [List.takeWhile_append_of_pos hothers]
  cases rest with
  | nil => simp
  | cons glyph behind => simp [hends glyph rfl]

theorem dropWhile_of_ends {kind : RunKind} {others rest : List Glyph}
    (hothers : ∀ glyph ∈ others, kind.continues glyph = true) (hends : kind.Ends rest) :
    (others ++ rest).dropWhile kind.continues = rest := by
  rw [List.dropWhile_append_of_pos hothers]
  cases rest with
  | nil => rfl
  | cons glyph behind => simp [hends glyph rfl]

/-- Every glyph that is not blank starts a run of some kind. -/
theorem exists_starts {first : Glyph} (hsolid : first.isBlank = false) :
    ∃ kind : RunKind, kind.starts first = true := by
  cases first with
  | stray byte => exact ⟨.stray, rfl⟩
  | char value =>
      have hblank : Text.isBlank value = false := hsolid
      by_cases hdigit : isDigit value = true
      · exact ⟨.number, hdigit⟩
      by_cases hletter : isLetter value = true
      · exact ⟨.word, hletter⟩
      by_cases hmark : (TokenKind.ofMark? value).isSome = true
      · exact ⟨.mark, hmark⟩
      · exact ⟨.stray, by simp [starts, isStray, hblank, hdigit, hletter, hmark]⟩

/-- The run that starts with a glyph and takes all that goes on with it is the longest. -/
theorem isLongest_takeWhile {kind : RunKind} {first : Glyph} (hfirst : kind.starts first = true)
    (rest : List Glyph) : kind.IsLongest (first :: rest.takeWhile kind.continues) (first :: rest) where
  isRun := ⟨hfirst, fun _ hglyph => List.mem_takeWhile_imp hglyph⟩
  isHead := List.cons_prefix_cons.mpr ⟨rfl, List.takeWhile_prefix _⟩
  longest := by
    rintro (_ | ⟨head, others⟩) hrun hother
    · exact Nat.zero_le _
    · obtain ⟨-, behind, rfl⟩ := List.cons_prefix_cons.mp hother
      rw [List.takeWhile_append_of_pos hrun.2, List.length_cons, List.length_cons, List.length_append]
      omega

end RunKind

/-! ### Lexemes -/

theorem ofChars_filterMap_char? {property : Char → Bool} {run : List Glyph}
    (h : ∀ glyph ∈ run, glyph.satisfies property = true) :
    ofChars (run.filterMap Glyph.char?) = run := by
  induction run with
  | nil => rfl
  | cons glyph run ih =>
      have hrun := ih fun other hother => h other (List.mem_cons_of_mem _ hother)
      cases glyph with
      | stray byte => exact absurd (h _ List.mem_cons_self) Bool.false_ne_true
      | char value => exact congrArg (Glyph.char value :: ·) hrun

theorem ofChars_charsWhile (property : Char → Bool) (text : List Glyph) :
    ofChars (Lexeme.charsWhile property text) = text.takeWhile (Glyph.satisfies property) :=
  ofChars_filterMap_char? fun _ hglyph => List.mem_takeWhile_imp hglyph

namespace Lexeme

/-- What is read at the head of `first :: rest` is the run of the kind there. -/
structure IsCut (kind : RunKind) (first : Glyph) (rest : List Glyph) : Prop where
  starts : kind.starts first = true
  glyphs : (read first rest).glyphs = first :: rest.takeWhile kind.continues
  remainder : remainder first rest = rest.dropWhile kind.continues
  denotes : kind.Denotes (read first rest).glyphs (read first rest).token

theorem IsCut.split {kind : RunKind} {first : Glyph} {rest : List Glyph}
    (h : IsCut kind first rest) :
    (read first rest).glyphs ++ Lexeme.remainder first rest = first :: rest := by
  rw [h.glyphs, h.remainder, List.cons_append, List.takeWhile_append_dropWhile]

theorem denotes_number (digits : List Char) :
    RunKind.number.Denotes (ofChars digits) (number digits).token := by
  rw [token]
  split_ifs with hvalue
  · refine .integer ?_
    rw [Int32.toInt_ofNat_of_lt]
    exact Nat.lt_of_le_of_lt hvalue (by decide)
  · exact .overflow (Nat.lt_of_not_le hvalue) rfl

theorem denotes_word (letters : List Char) :
    RunKind.word.Denotes (ofChars letters) (word letters).token := by
  rw [token, TokenKind.ofWord]
  cases hlookup : TokenKind.reserved.lookup (String.ofList letters) with
  | some kind =>
      obtain ⟨before, after, hsplit, -⟩ := List.lookup_eq_some_iff.mp hlookup
      exact .keyword (by rw [hsplit]; simp)
  | none =>
      refine .identifier fun kind hmem => ?_
      have hne := List.lookup_eq_none_iff.mp hlookup _ hmem
      simp at hne

section Cuts

variable {value : Char} (rest : List Glyph)

theorem isCut_number (hdigit : isDigit value = true) : IsCut .number (.char value) rest := by
  have hread : read (.char value) rest = number (value :: charsWhile isDigit rest) := by
    rw [read, if_pos hdigit]
  refine ⟨hdigit, ?_, ?_, ?_⟩
  · rw [hread]
    exact congrArg (Glyph.char value :: ·) (ofChars_charsWhile isDigit rest)
  · rw [remainder, hread]
    rfl
  · rw [hread]
    exact denotes_number _

theorem read_of_isLetter (hletter : isLetter value = true) :
    read (.char value) rest = word (value :: charsWhile isWordPart rest) := by
  rw [read, isDigit_eq_false hletter, if_neg (by decide), if_pos hletter]

theorem isCut_word (hletter : isLetter value = true) : IsCut .word (.char value) rest := by
  have hread := read_of_isLetter rest hletter
  refine ⟨hletter, ?_, ?_, ?_⟩
  · rw [hread]
    exact congrArg (Glyph.char value :: ·) (ofChars_charsWhile isWordPart rest)
  · rw [remainder, hread]
    rfl
  · rw [hread]
    exact denotes_word _

theorem isCut_mark (hmark : (TokenKind.ofMark? value).isSome = true) :
    IsCut .mark (.char value) rest := by
  obtain ⟨kind, hkind⟩ := Option.isSome_iff_exists.mp hmark
  obtain ⟨-, hdigit, hletter⟩ := isGraph_of_ofMark? hkind
  have hread : read (.char value) rest = mark kind value := by
    rw [read, hdigit, hletter, hkind]
    rfl
  refine ⟨hmark, ?_, ?_, ?_⟩
  · rw [hread]
    cases rest <;> rfl
  · rw [remainder, hread]
    cases rest <;> rfl
  · rw [hread]
    exact .sign hkind

theorem isCut_stray {first : Glyph} (hstray : isStray first = true) : IsCut .stray first rest := by
  have hread : read first rest = stray (first :: rest.takeWhile isStray) := by
    cases first with
    | stray byte => rfl
    | char value =>
        simp only [isStray, Bool.not_eq_true', Bool.or_eq_false_iff, Option.isSome_eq_false_iff,
          Option.isNone_iff_eq_none] at hstray
        obtain ⟨⟨⟨-, hletter⟩, hdigit⟩, hmark⟩ := hstray
        rw [read, hdigit, hletter, hmark]
        rfl
  refine ⟨hstray, ?_, ?_, ?_⟩
  · rw [hread]
    rfl
  · rw [remainder, hread]
    rfl
  · rw [hread]
    exact .unknown rfl rfl

theorem isCut_of_starts {kind : RunKind} {first : Glyph} (h : kind.starts first = true) :
    IsCut kind first rest := by
  cases kind with
  | stray => exact isCut_stray rest h
  | number =>
      obtain ⟨value, rfl, hdigit⟩ := exists_of_satisfies h
      exact isCut_number rest hdigit
  | word =>
      obtain ⟨value, rfl, hletter⟩ := exists_of_satisfies h
      exact isCut_word rest hletter
  | mark =>
      obtain ⟨value, rfl, hmark⟩ := exists_of_satisfies h
      exact isCut_mark rest hmark

end Cuts

end Lexeme

end PlZero.Source
