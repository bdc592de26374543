import PlZero.Proofs.ArtifactRuns

/-! How a source starts. A source that compiles starts with `begin`, and an artifact that is not empty
with another word. Main statement: no artifact compiles, in whatever format it is and of whatever code. -/

namespace PlZero.Source

open PlZero.Text PlZero.Machine PlZero.Attempt

theorem eq_begin_of_ofWord {word : String} (h : TokenKind.ofWord word = .beginWord) :
    word = "begin" := by
  rw [TokenKind.ofWord] at h
  cases hlookup : TokenKind.reserved.lookup word with
  | none =>
      rw [hlookup] at h
      cases h
  | some kind =>
      rw [hlookup] at h
      obtain rfl : kind = .beginWord := h
      obtain ⟨before, after, hsplit, -⟩ := List.lookup_eq_some_iff.mp hlookup
      have hmem : (word, TokenKind.beginWord) ∈ TokenKind.reserved := by
        rw [hsplit]
        simp
      have hwords : ∀ entry ∈ TokenKind.reserved, entry.2 = .beginWord → entry.1 = "begin" := by
        decide
      exact hwords _ hmem rfl

/-- A text that starts with a letter has a word for its first token. -/
theorem tokenize_of_letter {text : Bytes} {tokens : List Token} (h : tokenize text = .ok tokens)
    {first : Char} {rest : List Glyph} (hglyphs : glyphs text = .char first :: rest)
    (hletter : isLetter first = true) : ∃ letters others,
      tokens = ⟨TokenKind.ofWord (String.ofList (first :: letters)), .start⟩ :: others := by
  have hcut := Lexeme.isCut_word rest hletter
  rw [tokenize, scan, hglyphs, scanFrom_solid (RunKind.isBlank_of_starts hcut.starts),
    Lexeme.read_of_isLetter rest hletter, scanFrom_found, Scan.tokens] at h
  dsimp only at h
  obtain ⟨found, hfound, rfl⟩ := map_eq_ok_iff.mp h
  rw [List.reverse_singleton, List.singleton_append, List.mapM_cons] at hfound
  obtain ⟨token, htoken, hfound⟩ := bind_eq_ok_iff.mp hfound
  obtain ⟨others, -, hfound⟩ := bind_eq_ok_iff.mp hfound
  obtain rfl := Except.ok.inj htoken
  obtain rfl := Except.ok.inj hfound
  exact ⟨_, _, rfl⟩

theorem BlockPhrase.head {row : List TokenKind} {tree : Block} (h : BlockPhrase row tree) :
    ∃ rest, row = .beginWord :: rest := by
  obtain ⟨-, -, -⟩ := h
  exact ⟨_, rfl⟩

/-- A source that compiles and starts with a letter starts with the first one of `begin`. -/
theorem head_of_compile {text : Bytes} {code : Code} (h : compile text = .ok code) {first : Char}
    {rest : List Glyph} (hglyphs : glyphs text = .char first :: rest)
    (hletter : isLetter first = true) : first = 'b' := by
  obtain ⟨tokens, htokens, hresult⟩ := bind_eq_ok_iff.mp h
  obtain ⟨tree, hphrase, -⟩ := analyze_sound hresult
  obtain ⟨letters, others, rfl⟩ := tokenize_of_letter htokens hglyphs hletter
  obtain ⟨row, hrow⟩ := hphrase.head
  rw [sentence, List.takeWhile_cons] at hrow
  split at hrow
  · obtain ⟨hkind, -⟩ := List.cons.inj hrow
    have hword := congrArg String.toList (eq_begin_of_ofWord hkind)
    rw [String.toList_ofList] at hword
    exact (List.cons.inj hword).1
  · cases hrow

theorem compile_nil (code : Code) : compile [] ≠ .ok code := by
  have hscan : tokenize [] = .ok [⟨.endOfInput, .start⟩] := by
    rw [tokenize, scan, glyphs, glyphsFrom, List.reverse_nil, scanFrom]
    rfl
  rw [compile, hscan]
  rintro ⟨⟩

end PlZero.Source

namespace PlZero.Machine

open PlZero.Text PlZero.Source

theorem opcodeName_head (opcode : UInt8) : ∃ first letters,
    (opcodeName opcode).toList = first :: letters ∧ isLetter first = true ∧ first ≠ 'b' := by
  cases hoperation : Operation.ofOpcode? opcode with
  | some operation =>
      rw [opcodeName_of_known hoperation]
      cases operation <;> exact ⟨_, _, rfl, rfl, by decide⟩
  | none =>
      rw [opcodeName_of_unknown hoperation]
      exact ⟨_, _, rfl, rfl, by decide⟩

namespace Artifact

/-- An artifact that is not empty starts with a letter that `begin` does not start with. -/
theorem head_encode (format : String) (code : Code) : encode format code = [] ∨
    ∃ first rest, encode format code = encodeChar first ++ rest ∧ isLetter first = true ∧
      first ≠ 'b' := by
  rw [encode]
  split
  · exact .inr ⟨'P', _, binary_eq code, rfl, by decide⟩
  · cases code with
    | nil => exact .inl rfl
    | cons instruction rest =>
        obtain ⟨first, letters, hname, hletter, hother⟩ := opcodeName_head instruction.opcode
        obtain ⟨behind, hline⟩ : ∃ behind, instruction.render.toList = first :: behind := by
          rw [instruction.toList_render, hname]
          split <;> exact ⟨_, rfl⟩
        refine .inr ⟨first, encodeChars behind ++ [lineFeed] ++ (rest.map Assembly.lineOf).flatMap
          (· ++ [lineFeed]), ?_, hletter, hother⟩
        rw [Assembly.encode_render, List.map_cons, List.flatMap_cons, Assembly.lineOf, Text.encode,
          hline]
        simp [encodeChars]

/-- No artifact compiles. -/
theorem compile_encode (format : String) (code found : Code) :
    compile (encode format code) ≠ .ok found := by
  intro h
  rcases head_encode format code with hempty | ⟨first, rest, htext, hletter, hother⟩
  · rw [hempty] at h
    exact compile_nil found h
  · rw [htext] at h
    exact hother (head_of_compile h (glyphs_encodeChar first rest) hletter)

end Artifact

end PlZero.Machine
