import PlZero.Proofs.Grammar
import PlZero.Proofs.Scanning

/-! Scanning undoes spelling. Tokens may be written one behind the other with any blanks around them,
and without blanks where no run of glyphs goes on from one token to the next. The text is then scanned
as these tokens and nothing else. -/

namespace PlZero.Source

open PlZero.Text

namespace TokenKind

/-- The spelling of a kind that has only one. -/
def spelling? : TokenKind → Option String
  | beginWord => some "begin"
  | endWord => some "end"
  | varWord => some "var"
  | constWord => some "const"
  | printWord => some "print"
  | plus => some "+"
  | minus => some "-"
  | times => some "*"
  | divide => some "/"
  | equals => some "="
  | semicolon => some ";"
  | openParen => some "("
  | closeParen => some ")"
  | _ => none

/-- Whether a token is an integer, an identifier or a keyword. -/
def isWordLike : TokenKind → Bool
  | integer _ | identifier _ | beginWord | endWord | varWord | constWord | printWord => true
  | _ => false

/-- The kind of run that a token is written as. -/
def run : TokenKind → RunKind
  | integer _ => .number
  | identifier _ | beginWord | endWord | varWord | constWord | printWord => .word
  | _ => .mark

theorem run_eq_mark {kind : TokenKind} (h : kind.isWordLike = false) : kind.run = .mark := by
  cases kind with
  | integer | identifier | beginWord | endWord | varWord | constWord | printWord => cases h
  | _ => rfl

end TokenKind

/-- A token is written as a run of the kind that denotes it. -/
theorem RunKind.Denotes.run_eq {kind : RunKind} {run : List Glyph} {token : TokenKind}
    (h : kind.Denotes run (.ok token)) : token.run = kind := by
  cases h with
  | integer hvalue => rfl
  | keyword hreserved =>
      have hwords : ∀ entry ∈ TokenKind.reserved, entry.2.run = .word := by decide
      exact hwords _ hreserved
  | identifier hfree => rfl
  | sign hkind =>
      unfold TokenKind.ofMark? at hkind
      split at hkind <;> cases hkind <;> rfl

/-- How a token is written in a source text. -/
inductive Written : TokenKind → List Char → Prop where
  | fixed {kind : TokenKind} {spelling : String} (hspelling : kind.spelling? = some spelling) :
      Written kind spelling.toList
  | integer {value : Int32} (hvalue : 0 ≤ value.toInt) (zeros : Nat) :
      Written (.integer value) (List.replicate zeros '0' ++ decimalDigits value.toInt.toNat)
  | identifier {first : Char} {others : List Char} (hfirst : isLetter first = true)
      (hothers : ∀ value ∈ others, isLetter value = true ∨ isDigit value = true)
      (hfree : ∀ kind, TokenKind.spelling? kind ≠ some (String.ofList (first :: others))) :
      Written (.identifier (String.ofList (first :: others))) (first :: others)

namespace Written

theorem digitsValue_zeros (zeros : Nat) (digits : List Char) :
    digitsValue (List.replicate zeros '0' ++ digits) = digitsValue digits := by
  induction zeros with
  | zero => rfl
  | succ zeros ih => exact ih

theorem isDigit_zeros (zeros value : Nat) :
    ∀ digit ∈ List.replicate zeros '0' ++ decimalDigits value, isDigit digit = true := by
  intro digit hdigit
  obtain hzero | hdigit := List.mem_append.mp hdigit
  · rw [List.eq_of_mem_replicate hzero]
    rfl
  · exact isDigit_of_mem_decimalDigits hdigit

variable {kind : TokenKind} {spelling : List Char}

theorem isRun (h : Written kind spelling) : kind.run.IsRun (ofChars spelling) := by
  cases h with
  | @fixed _ spelling hspelling =>
      cases kind with
      | beginWord | endWord | varWord | constWord | printWord | plus | minus | times | divide | equals
      | semicolon | openParen | closeParen =>
          obtain rfl := Option.some.inj hspelling
          exact ⟨rfl, List.all_eq_true.mp rfl⟩
      | endOfInput | integer | identifier | other => cases hspelling
  | @integer value hvalue zeros =>
      have hdigits := isDigit_zeros zeros value.toInt.toNat
      have hnonempty : List.replicate zeros '0' ++ decimalDigits value.toInt.toNat ≠ [] :=
        List.append_ne_nil_of_right_ne_nil _ Nat.toDigits_ne_nil
      generalize List.replicate zeros '0' ++ decimalDigits value.toInt.toNat = digits at hdigits hnonempty
      exact RunKind.isRun_number hnonempty hdigits
  | identifier hfirst hothers hfree =>
      exact RunKind.isRun_word hfirst fun value hvalue => Bool.or_eq_true_iff.mpr (hothers value hvalue)

theorem denotes (h : Written kind spelling) : kind.run.Denotes (ofChars spelling) (.ok kind) := by
  cases h with
  | @fixed _ spelling hspelling =>
      cases kind with
      | beginWord | endWord | varWord | constWord | printWord =>
          obtain rfl := Option.some.inj hspelling
          exact .keyword (by decide)
      | plus | minus | times | divide | equals | semicolon | openParen | closeParen =>
          obtain rfl := Option.some.inj hspelling
          exact .sign rfl
      | endOfInput | integer | identifier | other => cases hspelling
  | @integer value hvalue zeros =>
      refine .integer ?_
      rw [digitsValue_zeros, digitsValue_decimalDigits, Int.toNat_of_nonneg hvalue]
  | identifier hfirst hothers hfree =>
      refine .identifier fun kind hreserved => ?_
      have hwords : ∀ entry ∈ TokenKind.reserved, TokenKind.spelling? entry.2 = some entry.1 := by decide
      exact hfree kind (hwords _ hreserved)

end Written

/-- A token as it stands in a text, with the blanks behind it. -/
structure Entry where
  kind : TokenKind
  spelling : List Char
  blanks : List Char

namespace Entry

/-- The text of tokens that stand one behind the other. -/
def text (row : List Entry) : List Char :=
  row.flatMap fun entry => entry.spelling ++ entry.blanks

/-- The spelling is a run that denotes the token. -/
structure IsSpelled (entry : Entry) : Prop where
  isRun : entry.kind.run.IsRun (ofChars entry.spelling)
  denotes : entry.kind.run.Denotes (ofChars entry.spelling) (.ok entry.kind)
  blank : ∀ value ∈ entry.blanks, isBlank value = true

/-- The run of the left token ends before the right one. -/
def Parts (left right : Entry) : Prop :=
  left.blanks = [] → left.kind.run.Ends (ofChars right.spelling)

theorem ends_blanks {left : Entry} (hblank : ∀ value ∈ left.blanks, isBlank value = true)
    {row : List Entry} (hrow : ∀ entry ∈ row, entry.IsSpelled) (hparts : (left :: row).IsChain Parts) :
    left.kind.run.Ends (ofChars (left.blanks ++ text row)) := by
  cases hblanks : left.blanks with
  | cons value blanks =>
      have hvalue : (Glyph.char value).isBlank = true :=
        hblank value (hblanks ▸ List.mem_cons_self)
      exact RunKind.ends_blank hvalue _ _
  | nil =>
      cases row with
      | nil => exact RunKind.ends_nil _
      | cons right row =>
          have hends := (List.isChain_cons_cons.mp hparts).1 hblanks
          have hright := (hrow right List.mem_cons_self).isRun
          cases hspelling : right.spelling with
          | nil =>
              rw [hspelling] at hright
              exact hright.elim
          | cons first others =>
              rw [hspelling] at hends
              simpa [text, hspelling, ofChars, RunKind.Ends] using hends

/-- Tokens that end before the next are scanned one by one. -/
theorem scanFrom_text {row : List Entry} (hrow : ∀ entry ∈ row, entry.IsSpelled)
    (hparts : row.IsChain Parts) (position : Position) (found : List Scanned) :
    ∃ tokens finish, kinds tokens = row.map Entry.kind ∧
      scanFrom position (ofChars (text row)) found = ⟨found.reverse ++ tokens.map .ok, finish⟩ := by
  induction row generalizing position found with
  | nil =>
      refine ⟨[], position, rfl, ?_⟩
      rw [text, List.flatMap_nil, ofChars, List.map_nil, scanFrom]
      simp
  | cons entry rest ih =>
      obtain ⟨hentry, hrest⟩ := List.forall_mem_cons.mp hrow
      have hends := ends_blanks hentry.blank hrest hparts
      have hblanks : ∀ glyph ∈ ofChars entry.blanks, glyph.isBlank = true :=
        List.forall_mem_map.mpr hentry.blank
      have hsplit : ofChars (text (entry :: rest)) =
          ofChars entry.spelling ++ ofChars (entry.blanks ++ text rest) := by
        simp [text, ofChars]
      have hbehind : ofChars (entry.blanks ++ text rest) =
          ofChars entry.blanks ++ ofChars (text rest) := List.map_append
      obtain ⟨tokens, finish, hkinds, hscan⟩ := ih hrest hparts.tail
        ((position.advance (ofChars entry.spelling)).advance (ofChars entry.blanks))
        (.ok ⟨entry.kind, position⟩ :: found)
      refine ⟨⟨entry.kind, position⟩ :: tokens, finish, congrArg (entry.kind :: ·) hkinds, ?_⟩
      rw [hsplit, scanFrom_run hentry.isRun hentry.denotes hends, hbehind, scanFrom_blanks hblanks,
        hscan]
      simp

theorem mapM_id_ok (tokens : List Token) :
    (tokens.map (Except.ok : Token → Scanned)).mapM id = .ok tokens := by
  rw [List.mapM_map]
  exact List.mapM_pure.trans (congrArg Except.ok (List.map_id tokens))

theorem tokenize_text {lead : List Char} (hlead : ∀ value ∈ lead, isBlank value = true)
    {row : List Entry} (hrow : ∀ entry ∈ row, entry.IsSpelled) (hparts : row.IsChain Parts) :
    ∃ tokens finish, kinds tokens = row.map Entry.kind ∧
      tokenize (encodeChars (lead ++ text row)) = .ok (tokens ++ [⟨.endOfInput, finish⟩]) := by
  have hblanks : ∀ glyph ∈ ofChars lead, glyph.isBlank = true := List.forall_mem_map.mpr hlead
  have hsplit : ofChars (lead ++ text row) = ofChars lead ++ ofChars (text row) := List.map_append
  obtain ⟨tokens, finish, hkinds, hscan⟩ :=
    scanFrom_text hrow hparts (Position.start.advance (ofChars lead)) []
  refine ⟨tokens, finish, hkinds, ?_⟩
  rw [tokenize, scan, glyphs_encodeChars, hsplit, scanFrom_blanks hblanks, hscan, Scan.tokens,
    List.reverse_nil, List.nil_append, mapM_id_ok]
  rfl

end Entry

/-! ### Layouts -/

/-- Whether a token may follow another without a blank between them: two word-like tokens may not,
unless the first is an integer and the second starts with a letter. -/
def MayTouch (left right : Entry) : Prop :=
  left.kind.isWordLike = true → right.kind.isWordLike = true →
    (∃ value, left.kind = .integer value) ∧ ∃ first ∈ right.spelling.head?, isLetter first = true

/-- Tokens as they are laid out in a text. -/
structure Layout where
  lead : List Char
  row : List Entry
  blank_lead : ∀ value ∈ lead, isBlank value = true
  blank_row : ∀ entry ∈ row, ∀ value ∈ entry.blanks, isBlank value = true
  written : ∀ entry ∈ row, Written entry.kind entry.spelling
  apart : row.IsChain fun left right => left.blanks = [] → MayTouch left right

namespace Layout

def text (layout : Layout) : List Char :=
  layout.lead ++ Entry.text layout.row

theorem isSpelled (layout : Layout) : ∀ entry ∈ layout.row, entry.IsSpelled := by
  intro entry hentry
  have hwritten := layout.written entry hentry
  exact ⟨hwritten.isRun, hwritten.denotes, layout.blank_row entry hentry⟩

/-- What may follow a token directly does not go on with its run. -/
theorem ends_of_mayTouch {left right : Entry} (htouch : MayTouch left right)
    (hright : right.kind.run.IsRun (ofChars right.spelling)) :
    left.kind.run.Ends (ofChars right.spelling) := by
  cases hspelling : right.spelling with
  | nil => exact RunKind.ends_nil _
  | cons first others =>
      refine RunKind.ends_cons ?_ _
      rw [hspelling] at hright
      by_cases hleft : left.kind.isWordLike = true
      · by_cases hword : right.kind.isWordLike = true
        · obtain ⟨⟨value, hinteger⟩, letter, hhead, hletter⟩ := htouch hleft hword
          rw [hspelling] at hhead
          obtain rfl := Option.some.inj hhead
          rw [hinteger]
          exact isDigit_eq_false hletter
        · have hmark := TokenKind.run_eq_mark (Bool.eq_false_iff.mpr hword)
          rw [hmark] at hright
          exact RunKind.continues_of_mark hright.1 _
      · rw [TokenKind.run_eq_mark (Bool.eq_false_iff.mpr hleft)]
        rfl

theorem parts (layout : Layout) : layout.row.IsChain Entry.Parts := by
  refine layout.apart.imp_of_mem_imp fun left right _ hright happart hblanks => ?_
  exact ends_of_mayTouch (happart hblanks) (layout.isSpelled right hright).isRun

end Layout

/-- Scanning a layout gives its tokens, followed by the end of input. -/
theorem tokenize_layout (layout : Layout) : ∃ tokens,
    tokenize (encodeChars layout.text) = .ok tokens ∧
      kinds tokens = layout.row.map Entry.kind ++ [.endOfInput] := by
  obtain ⟨tokens, finish, hkinds, htokens⟩ :=
    Entry.tokenize_text layout.blank_lead layout.isSpelled layout.parts
  refine ⟨_, htokens, ?_⟩
  rw [kinds, List.map_append, ← kinds, hkinds]
  rfl

/-- An integer with zeros right before a keyword, an identifier right before a mark, and blanks of all kinds
around them. -/
def packed : Layout where
  lead := ['\u3000', '\n']
  row := [⟨.integer 7, ['0', '0', '7'], []⟩, ⟨.beginWord, "begin".toList, ['\u00a0', '\u2028']⟩,
    ⟨.identifier "x1", ['x', '1'], []⟩, ⟨.semicolon, ";".toList, ['\u2003']⟩]
  blank_lead := by simp [isBlank]
  blank_row := by simp [isBlank]
  written := by
    simp only [List.forall_mem_cons]
    refine ⟨.integer (by decide) 2, .fixed rfl, ?_, .fixed rfl, List.forall_mem_nil _⟩
    refine .identifier rfl (by simp [isLetter, isDigit]) fun kind => ?_
    show kind.spelling? ≠ some "x1"
    cases kind <;> simp [TokenKind.spelling?]
  apart := by
    simp only [List.isChain_cons_cons, List.isChain_singleton, and_true]
    refine ⟨fun _ _ _ => ⟨⟨7, rfl⟩, 'b', rfl, rfl⟩, ?_, fun _ _ hmark => ?_⟩
    · rintro ⟨⟩
    · cases hmark

theorem tokenize_layout_packed : ∃ tokens,
    tokenize (encodeChars "\u3000\n007begin\u00a0\u2028x1;\u2003".toList) = .ok tokens ∧
      kinds tokens = [.integer 7, .beginWord, .identifier "x1", .semicolon, .endOfInput] :=
  tokenize_layout packed

end PlZero.Source
