import Mathlib
import PlZero.Text.Glyph

/-! Characters that were written are read back, and what is read is what was written. The bytes of a
character are read as that character whatever follows them, so a text that was written from characters
has these characters as its glyphs. A character is found only at its own bytes, so no byte of a text is
lost or changed when it is read as glyphs. -/

namespace PlZero.Text

theorem toNat_toUInt8 {number : Nat} (h : number < 256) : number.toUInt8.toNat = number :=
  UInt8.toNat_ofNat_of_lt h

theorem isContinuation_toUInt8 {number : Nat} (hleast : 0x80 ≤ number) (hmost : number ≤ 0xBF) :
    isContinuation number.toUInt8 = true := by
  rw [isContinuation, toNat_toUInt8 (by omega)]
  simp [hleast, hmost]

theorem isScalar_toNat (value : Char) :
    value.toNat ≤ 0x10FFFF ∧ ¬(0xD800 ≤ value.toNat ∧ value.toNat ≤ 0xDFFF) := by
  have hvalid : value.toNat.isValidChar := value.valid
  rw [Nat.isValidChar] at hvalid
  omega

theorem and_decide_iff {p q : Prop} [Decidable p] [Decidable q] :
    (decide p && decide q) = true ↔ p ∧ q := by
  rw [Bool.and_eq_true, decide_eq_true_eq, decide_eq_true_eq]

section Characters

variable {value : Char} (rest : Bytes)

theorem character?_one (h : value.toNat < 0x80) :
    character? value.toNat.toUInt8 rest = some value := by
  unfold character?
  simp only [toNat_toUInt8 (by omega : value.toNat < 256), if_pos h, Char.ofNat_toNat]

theorem character?_two (hleast : 0x80 ≤ value.toNat) (hmost : value.toNat < 0x800) :
    character? (0xC0 + value.toNat / 64).toUInt8 ((0x80 + value.toNat % 64).toUInt8 :: rest) =
      some value := by
  have hone : ¬0xC0 + value.toNat / 64 < 0x80 := by omega
  have htwo : (0xC2 ≤ 0xC0 + value.toNat / 64 && 0xC0 + value.toNat / 64 ≤ 0xDF) = true :=
    and_decide_iff.mpr (by omega)
  have hcode : (0xC0 + value.toNat / 64 - 0xC0) * 64 + (0x80 + value.toNat % 64 - 0x80) =
      value.toNat := by omega
  rw [character?, toNat_toUInt8 (by omega)]
  simp only [if_neg hone, if_pos htwo]
  rw [if_pos (isContinuation_toUInt8 (by omega) (by omega)), toNat_toUInt8 (by omega), hcode,
    Char.ofNat_toNat]

theorem character?_three (hleast : 0x800 ≤ value.toNat) (hmost : value.toNat < 0x10000) :
    character? (0xE0 + value.toNat / 4096).toUInt8 ((0x80 + value.toNat / 64 % 64).toUInt8 ::
      (0x80 + value.toNat % 64).toUInt8 :: rest) = some value := by
  have hscalar := (isScalar_toNat value).2
  have hone : ¬0xE0 + value.toNat / 4096 < 0x80 := by omega
  have htwo : ¬(0xC2 ≤ 0xE0 + value.toNat / 4096 && 0xE0 + value.toNat / 4096 ≤ 0xDF) = true := by
    rw [and_decide_iff]
    omega
  have hthree : (0xE0 ≤ 0xE0 + value.toNat / 4096 && 0xE0 + value.toNat / 4096 ≤ 0xEF) = true :=
    and_decide_iff.mpr (by omega)
  have hcode : (0xE0 + value.toNat / 4096 - 0xE0) * 4096 +
      (0x80 + value.toNat / 64 % 64 - 0x80) * 64 + (0x80 + value.toNat % 64 - 0x80) =
        value.toNat := by omega
  rw [character?, toNat_toUInt8 (by omega)]
  simp only [if_neg hone, if_neg htwo, if_pos hthree]
  rw [toNat_toUInt8 (by omega), toNat_toUInt8 (by omega), hcode,
    isContinuation_toUInt8 (by omega) (by omega), isContinuation_toUInt8 (by omega) (by omega)]
  simp [hleast, hscalar]

theorem character?_four (hleast : 0x10000 ≤ value.toNat) :
    character? (0xF0 + value.toNat / 262144).toUInt8 ((0x80 + value.toNat / 4096 % 64).toUInt8 ::
      (0x80 + value.toNat / 64 % 64).toUInt8 :: (0x80 + value.toNat % 64).toUInt8 :: rest) =
        some value := by
  have hscalar := (isScalar_toNat value).1
  have hone : ¬0xF0 + value.toNat / 262144 < 0x80 := by omega
  have htwo : ¬(0xC2 ≤ 0xF0 + value.toNat / 262144 && 0xF0 + value.toNat / 262144 ≤ 0xDF) = true := by
    rw [and_decide_iff]
    omega
  have hthree :
      ¬(0xE0 ≤ 0xF0 + value.toNat / 262144 && 0xF0 + value.toNat / 262144 ≤ 0xEF) = true := by
    rw [and_decide_iff]
    omega
  have hfour : (0xF0 ≤ 0xF0 + value.toNat / 262144 && 0xF0 + value.toNat / 262144 ≤ 0xF4) = true :=
    and_decide_iff.mpr (by omega)
  have hcode : (0xF0 + value.toNat / 262144 - 0xF0) * 262144 +
      (0x80 + value.toNat / 4096 % 64 - 0x80) * 4096 + (0x80 + value.toNat / 64 % 64 - 0x80) * 64 +
        (0x80 + value.toNat % 64 - 0x80) = value.toNat := by omega
  rw [character?, toNat_toUInt8 (by omega)]
  simp only [if_neg hone, if_neg htwo, if_neg hthree, if_pos hfour]
  rw [toNat_toUInt8 (by omega), toNat_toUInt8 (by omega), toNat_toUInt8 (by omega), hcode,
    isContinuation_toUInt8 (by omega) (by omega), isContinuation_toUInt8 (by omega) (by omega),
    isContinuation_toUInt8 (by omega) (by omega)]
  simp [hleast, hscalar]

/-- A character is found at the head of a text that starts with its bytes. -/
theorem character?_encodeChar (value : Char) : ∃ first behind,
    encodeChar value = first :: behind ∧ character? first (behind ++ rest) = some value := by
  rw [encodeChar]
  by_cases hone : value.toNat < 0x80
  · rw [if_pos hone]
    exact ⟨_, _, rfl, character?_one _ hone⟩
  rw [if_neg hone]
  by_cases htwo : value.toNat < 0x800
  · rw [if_pos htwo]
    exact ⟨_, _, rfl, character?_two rest (by omega) htwo⟩
  rw [if_neg htwo]
  by_cases hthree : value.toNat < 0x10000
  · rw [if_pos hthree]
    exact ⟨_, _, rfl, character?_three rest (by omega) hthree⟩
  rw [if_neg hthree]
  exact ⟨_, _, rfl, character?_four rest (by omega)⟩

end Characters

section Bytes

variable {first second third fourth : UInt8}

theorem toUInt8_eq {number : Nat} {byte : UInt8} (h : number = byte.toNat) :
    number.toUInt8 = byte := by
  rw [h, Nat.toUInt8_eq, UInt8.ofNat_toNat]

theorem toNat_ofNat_of_scalar {code : Nat} (h : code < 0xD800 ∨ 0xDFFF < code ∧ code < 0x110000) :
    (Char.ofNat code).toNat = code := by
  rw [Char.toNat_ofNat]
  exact if_pos h

theorem isContinuation_iff {byte : UInt8} :
    isContinuation byte = true ↔ 0x80 ≤ byte.toNat ∧ byte.toNat ≤ 0xBF :=
  and_decide_iff

theorem encodeChar_one (hfirst : first.toNat < 0x80) :
    encodeChar (Char.ofNat first.toNat) = [first] := by
  rw [encodeChar, toNat_ofNat_of_scalar (by omega), if_pos hfirst, toUInt8_eq rfl]

theorem encodeChar_two (hfirst : 0xC2 ≤ first.toNat ∧ first.toNat ≤ 0xDF)
    (hsecond : isContinuation second = true) :
    encodeChar (Char.ofNat ((first.toNat - 0xC0) * 64 + (second.toNat - 0x80))) =
      [first, second] := by
  rw [isContinuation_iff] at hsecond
  rw [encodeChar, toNat_ofNat_of_scalar (by omega)]
  rw [if_neg (by omega), if_pos (by omega), toUInt8_eq (show _ = first.toNat by omega),
    toUInt8_eq (show _ = second.toNat by omega)]

theorem encodeChar_three {code : Nat}
    (hcode : code = (first.toNat - 0xE0) * 4096 + (second.toNat - 0x80) * 64 + (third.toNat - 0x80))
    (hfirst : 0xE0 ≤ first.toNat ∧ first.toNat ≤ 0xEF) (hsecond : isContinuation second = true)
    (hthird : isContinuation third = true) (hleast : 0x800 ≤ code)
    (hscalar : ¬(0xD800 ≤ code ∧ code ≤ 0xDFFF)) :
    encodeChar (Char.ofNat code) = [first, second, third] := by
  rw [isContinuation_iff] at hsecond hthird
  rw [encodeChar, toNat_ofNat_of_scalar (by omega)]
  rw [if_neg (by omega), if_neg (by omega), if_pos (by omega),
    toUInt8_eq (show _ = first.toNat by omega), toUInt8_eq (show _ = second.toNat by omega),
    toUInt8_eq (show _ = third.toNat by omega)]

theorem encodeChar_four {code : Nat}
    (hcode : code = (first.toNat - 0xF0) * 262144 + (second.toNat - 0x80) * 4096 +
      (third.toNat - 0x80) * 64 + (fourth.toNat - 0x80))
    (hfirst : 0xF0 ≤ first.toNat ∧ first.toNat ≤ 0xF4) (hsecond : isContinuation second = true)
    (hthird : isContinuation third = true) (hfourth : isContinuation fourth = true)
    (hleast : 0x10000 ≤ code) (hmost : code ≤ 0x10FFFF) :
    encodeChar (Char.ofNat code) = [first, second, third, fourth] := by
  rw [isContinuation_iff] at hsecond hthird hfourth
  rw [encodeChar, toNat_ofNat_of_scalar (by omega)]
  rw [if_neg (by omega), if_neg (by omega), if_neg (by omega),
    toUInt8_eq (show _ = first.toNat by omega), toUInt8_eq (show _ = second.toNat by omega),
    toUInt8_eq (show _ = third.toNat by omega), toUInt8_eq (show _ = fourth.toNat by omega)]

/-- The bytes at which a character is found are its own. -/
theorem encodeChar_of_character? {rest : Bytes} {value : Char}
    (h : character? first rest = some value) :
    ∃ behind after, rest = behind ++ after ∧ encodeChar value = first :: behind := by
  unfold character? at h
  dsimp only at h
  split_ifs at h with hone htwo hthree hfour
  · obtain rfl := Option.some.inj h
    exact ⟨[], rest, rfl, encodeChar_one hone⟩
  · split at h
    · rename_i second after
      split_ifs at h with hsecond
      obtain rfl := Option.some.inj h
      exact ⟨[second], after, rfl, encodeChar_two (and_decide_iff.mp htwo) hsecond⟩
    · cases h
  · split at h
    · rename_i second third after
      split_ifs at h with hcode
      obtain rfl := Option.some.inj h
      simp only [Bool.and_eq_true, decide_eq_true_eq, Bool.not_eq_true', Bool.and_eq_false_iff,
        decide_eq_false_iff_not] at hcode
      obtain ⟨⟨⟨hsecond, hthird⟩, hleast⟩, hscalar⟩ := hcode
      exact ⟨[second, third], after, rfl, encodeChar_three rfl (and_decide_iff.mp hthree) hsecond
        hthird hleast (by omega)⟩
    · cases h
  · split at h
    · rename_i second third fourth after
      split_ifs at h with hcode
      obtain rfl := Option.some.inj h
      simp only [Bool.and_eq_true, decide_eq_true_eq] at hcode
      obtain ⟨⟨⟨⟨hsecond, hthird⟩, hfourth⟩, hleast⟩, hmost⟩ := hcode
      exact ⟨[second, third, fourth], after, rfl, encodeChar_four rfl (and_decide_iff.mp hfour)
        hsecond hthird hfourth hleast hmost⟩
    · cases h

end Bytes

/-! ### Texts -/

theorem glyphsFrom_skip (skipped rest : Bytes) (found : List Glyph) :
    glyphsFrom skipped.length (skipped ++ rest) found = glyphsFrom 0 rest found := by
  induction skipped with
  | nil => rfl
  | cons byte skipped ih =>
      rw [List.length_cons, List.cons_append, glyphsFrom]
      exact ih

theorem glyphsFrom_encodeChar (value : Char) (rest : Bytes) (found : List Glyph) :
    glyphsFrom 0 (encodeChar value ++ rest) found = glyphsFrom 0 rest (.char value :: found) := by
  obtain ⟨first, behind, hbytes, hcharacter⟩ := character?_encodeChar rest value
  have hstart : Glyph.start first (behind ++ rest) = .char value := by
    rw [Glyph.start, hcharacter]
  have hwidth : (Glyph.char value).width - 1 = behind.length := by
    rw [Glyph.width_eq_length_bytes, Glyph.bytes, hbytes, List.length_cons, Nat.add_sub_cancel]
  rw [hbytes, List.cons_append, glyphsFrom, hstart, hwidth, glyphsFrom_skip]

theorem glyphsFrom_found (skip : Nat) (text : Bytes) (found : List Glyph) :
    glyphsFrom skip text found = found.reverse ++ glyphsFrom skip text [] := by
  induction text generalizing skip found with
  | nil => simp [glyphsFrom]
  | cons byte rest ih =>
      cases skip with
      | zero =>
          rw [glyphsFrom, glyphsFrom, ih _ (_ :: found), ih _ [_]]
          simp
      | succ left =>
          rw [glyphsFrom, glyphsFrom]
          exact ih left found

theorem glyphs_encodeChar (value : Char) (rest : Bytes) :
    glyphs (encodeChar value ++ rest) = .char value :: glyphs rest := by
  rw [glyphs, glyphsFrom_encodeChar, glyphsFrom_found]
  rfl

/-- A text that was written from characters is read as these characters. -/
theorem glyphs_encodeChars (values : List Char) : glyphs (encodeChars values) = ofChars values := by
  induction values with
  | nil => rfl
  | cons value rest ih =>
      rw [encodeChars, List.flatMap_cons, glyphs_encodeChar, ← encodeChars, ih]
      rfl

/-- The glyph at the start of a text is made of the bytes there. -/
theorem bytes_start (first : UInt8) (rest : Bytes) :
    ∃ behind after, rest = behind ++ after ∧ (Glyph.start first rest).bytes = first :: behind := by
  rw [Glyph.start]
  split
  · rename_i value h
    exact encodeChar_of_character? h
  · exact ⟨[], rest, rfl, rfl⟩

/-- No byte of a text is lost or changed when it is read as glyphs. -/
theorem unread_glyphs (text : Bytes) : unread (glyphs text) = text := by
  have hfrom (found : List Glyph) :
      unread (glyphsFrom 0 text found) = unread found.reverse ++ text := by
    induction hlength : text.length using Nat.strong_induction_on generalizing text found with
    | _ length ih =>
        cases text with
        | nil => simp [glyphsFrom]
        | cons first rest =>
            obtain ⟨behind, after, rfl, hbytes⟩ := bytes_start first rest
            have hwidth : (Glyph.start first (behind ++ after)).width - 1 = behind.length := by
              rw [Glyph.width_eq_length_bytes, hbytes, List.length_cons, Nat.add_sub_cancel]
            have hshorter : after.length < length := by
              rw [← hlength]
              simp
            rw [glyphsFrom, hwidth, glyphsFrom_skip, ih after.length hshorter after _ rfl]
            simp [unread, hbytes]
  rw [glyphs, hfrom]
  rfl

theorem encodeChars_append (first second : List Char) :
    encodeChars (first ++ second) = encodeChars first ++ encodeChars second :=
  List.flatMap_append

end PlZero.Text
