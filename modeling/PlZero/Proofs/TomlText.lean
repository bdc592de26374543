import PlZero.Proofs.Runs
import PlZero.Toml.Builder

/-! Written TOML is read back. A text is escaped so that no sign of it ends the string early, each escape
stands for the character that it was written for, and a decimal numeral is read as its number. Main
statement: a document that is written line by line, with headers and with settings of texts, truth values
and numbers, is read as the statements of its lines. -/

namespace PlZero.Toml

open PlZero.Text

theorem hexValue?_hexDigit {value : Nat} (h : value < 16) : hexValue? (hexDigit value) = some value := by
  have hall : ∀ value : Fin 16, hexValue? (hexDigit value) = some value.val := by decide
  exact hall ⟨value, h⟩

theorem hexNumber?_hexDigits (width : Nat) {value : Nat} (h : value < 16 ^ width) :
    hexNumber? (hexDigits width value) = some value := by
  induction width generalizing value with
  | zero =>
      obtain rfl : value = 0 := by simpa using h
      rfl
  | succ width ih =>
      have hshorter : value / 16 < 16 ^ width := by
        rw [pow_succ] at h
        omega
      have hwhole := ih hshorter
      rw [hexNumber?] at hwhole
      rw [hexDigits, hexNumber?, List.foldlM_append, hwhole]
      simp [hexValue?_hexDigit (Nat.mod_lt value (by decide)), Nat.div_add_mod]

theorem hexChar?_hexDigits {value : Char} (h : value.toNat < 0xD800) :
    hexChar? (hexDigits 4 value.toNat) = some value := by
  rw [hexChar?, hexNumber?_hexDigits 4 (by omega), Option.bind_eq_bind, Option.bind_some,
    if_pos (.inl h), Char.ofNat_toNat]

/-- A sign that needs no escape. -/
def IsPlainSign (sign : Char) : Prop :=
  sign ≠ '"' ∧ sign ≠ '\\' ∧ 0x20 ≤ sign.toNat ∧ sign.toNat ≠ 0x7F

theorem basic_plain {sign : Char} (h : IsPlainSign sign) (rest found : List Char) :
    basic (sign :: rest) found = basic rest (sign :: found) := by
  obtain ⟨hquote, hslash, hleast, -⟩ := h
  have hbreak : isLineBreak sign = false := by
    rw [isLineBreak, Bool.or_eq_false_iff, beq_eq_false_iff_ne, beq_eq_false_iff_ne]
    constructor <;>
    · rintro rfl
      revert hleast
      decide
  rw [basic.eq_def]
  split <;> simp_all

theorem eq_of_toNat {value : Char} {code : Nat} (h : value.toNat = code) : value = Char.ofNat code := by
  rw [← h, Char.ofNat_toNat]

theorem basic_code {value : Char} (h : value.toNat < 0xD800) (rest found : List Char) :
    basic ('\\' :: 'u' :: hexDigits 4 value.toNat ++ rest) found = basic rest (value :: found) := by
  have hchar := hexChar?_hexDigits h
  obtain ⟨first, second, third, fourth, hdigits⟩ : ∃ first second third fourth,
      hexDigits 4 value.toNat = [first, second, third, fourth] := ⟨_, _, _, _, rfl⟩
  rw [hdigits] at hchar ⊢
  rw [List.cons_append, List.cons_append, List.cons_append, List.cons_append, List.cons_append,
    List.cons_append, List.nil_append, basic.eq_3, hchar]

/-- Each character is written so that it is read back, whatever follows. -/
theorem basic_writeChar (value : Char) (rest found : List Char) :
    basic (writeChar value ++ rest) found = basic rest (value :: found) := by
  rw [writeChar]
  split
  · next hspecial =>
      rw [Bool.or_eq_true, decide_eq_true_eq, decide_eq_true_eq] at hspecial
      rcases hspecial with rfl | rfl <;> rfl
  · next hspecial =>
      rw [Bool.or_eq_true, decide_eq_true_eq, decide_eq_true_eq, not_or] at hspecial
      split
      case h_6 =>
        split
        · next hcontrol =>
            rw [Bool.or_eq_true, decide_eq_true_eq, decide_eq_true_eq] at hcontrol
            exact basic_code (by omega) rest found
        · next hplain =>
            rw [Bool.or_eq_true, decide_eq_true_eq, decide_eq_true_eq, not_or, not_lt] at hplain
            exact basic_plain ⟨hspecial.1, hspecial.2, hplain⟩ rest found
      -- The others have an escape of one letter.
      all_goals
        next hcode =>
          obtain rfl := eq_of_toNat hcode
          rfl

theorem basic_flatMap_writeChar (text rest found : List Char) :
    basic (text.flatMap writeChar ++ '"' :: rest) found =
      some (String.ofList (found.reverse ++ text), rest) := by
  induction text generalizing found with
  | nil => rw [List.flatMap_nil, List.nil_append, List.append_nil, basic]
  | cons value text ih =>
      rw [List.flatMap_cons, List.append_assoc, basic_writeChar, ih, List.reverse_cons,
        List.append_assoc, List.singleton_append]

/-- What escapes are written with. -/
theorem mem_hexDigits {width value : Nat} {sign : Char} (h : sign ∈ hexDigits width value) :
    0x20 ≤ sign.toNat ∧ sign.toNat ≠ 0x7F := by
  have hall : ∀ value : Fin 16, 0x20 ≤ (hexDigit value).toNat ∧ (hexDigit value).toNat ≠ 0x7F := by
    decide
  induction width generalizing value with
  | zero => cases h
  | succ width ih =>
      rw [hexDigits, List.mem_append, List.mem_singleton] at h
      rcases h with h | rfl
      · exact ih h
      · exact hall ⟨value % 16, Nat.mod_lt value (by decide)⟩

theorem mem_writeChar {value sign : Char} (h : sign ∈ writeChar value) :
    0x20 ≤ sign.toNat ∧ sign.toNat ≠ 0x7F := by
  rw [writeChar] at h
  split at h
  · next hspecial =>
      rw [Bool.or_eq_true, decide_eq_true_eq, decide_eq_true_eq] at hspecial
      rcases List.mem_pair.mp h with rfl | rfl
      · decide
      · rcases hspecial with rfl | rfl <;> decide
  · split at h
    case h_6 =>
      split at h
      · rcases List.mem_cons.mp h with rfl | h
        · decide
        · rcases List.mem_cons.mp h with rfl | h
          · decide
          · exact mem_hexDigits h
      · next hplain =>
          rw [Bool.or_eq_true, decide_eq_true_eq, decide_eq_true_eq, not_or, not_lt] at hplain
          rwa [List.mem_singleton.mp h]
    all_goals rcases List.mem_pair.mp h with rfl | rfl <;> decide

theorem exists_writeChar (value : Char) : ∃ first rest, writeChar value = first :: rest ∧
    first ≠ '"' := by
  rw [writeChar]
  split
  · exact ⟨_, _, rfl, by decide⟩
  · next hspecial =>
      rw [Bool.or_eq_true, decide_eq_true_eq, not_or] at hspecial
      split
      case h_6 =>
        split
        · exact ⟨_, _, rfl, by decide⟩
        · exact ⟨_, _, rfl, hspecial.1⟩
      all_goals exact ⟨_, _, rfl, by decide⟩

/-- A written text is read back up to its closing quote. -/
theorem quoted?_writeString (text : String) (rest : List Char) :
    quoted? ((writeString text).toList ++ '\n' :: rest) = some (text, '\n' :: rest) := by
  have hsigns : (writeString text).toList ++ '\n' :: rest =
      '"' :: (text.toList.flatMap writeChar ++ '"' :: '\n' :: rest) := by
    rw [writeString, String.toList_ofList]
    simp
  have hbasic := basic_flatMap_writeChar text.toList ('\n' :: rest) []
  rw [List.reverse_nil, List.nil_append, String.ofList_toList] at hbasic
  rw [hsigns, ← hbasic]
  cases text.toList with
  | nil => rfl
  | cons value others =>
      -- The text does not start with three quotes, because it starts with no quote.
      obtain ⟨first, more, hwritten, hfirst⟩ := exists_writeChar value
      rw [List.flatMap_cons, hwritten, List.cons_append, List.cons_append, quoted?.eq_def]
      split <;> simp_all

theorem hexValue?_of_isDigit {digit : Char} (h : isDigit digit = true) :
    hexValue? digit = some (digitValue digit) := by
  rw [hexValue?, if_pos h]

theorem inBase_decimalDigits (value : Nat) : inBase 10 (decimalDigits value) = value := by
  refine Eq.trans ?_ (digitsValue_decimalDigits value)
  rw [inBase, digitsValue]
  refine List.foldl_ext _ _ 0 fun sum digit hdigit => ?_
  rw [hexValue?_of_isDigit (isDigit_of_mem_decimalDigits hdigit), Option.getD_some]

theorem decimalDigits_ne_nil (value : Nat) : decimalDigits value ≠ [] :=
  Nat.toDigits_ne_nil

theorem notMem_decimalDigits (value : Nat) (sign : Char) (h : isDigit sign = false) :
    sign ∉ decimalDigits value := by
  intro hmem
  rw [isDigit_of_mem_decimalDigits hmem] at h
  cases h

theorem digitRun?_of_isDigit {digits : List Char} (hnonempty : digits ≠ [])
    (h : ∀ digit ∈ digits, isDigit digit = true) : digitRun? isDigit digits = some digits := by
  induction digits with
  | nil => exact absurd rfl hnonempty
  | cons digit rest ih =>
      obtain ⟨hdigit, hrest⟩ := List.forall_mem_cons.mp h
      cases rest with
      | nil => rw [digitRun?, if_pos hdigit]
      | cons next others =>
          have hnext : next ≠ '_' := by
            rintro rfl
            exact absurd (hrest '_' List.mem_cons_self) (by decide)
          rw [digitRun?.eq_4 _ _ _ (by simp) (by simpa using hnext), if_pos hdigit,
            ih (List.cons_ne_nil _ _) hrest]
          rfl

theorem head_decimalDigits {value : Nat} (h : 0 < value) : ∃ first rest,
    decimalDigits value = first :: rest ∧ first ≠ '0' := by
  induction value using Nat.strongRecOn with
  | ind value ih =>
      by_cases hsmall : value < 10
      · have hall : ∀ value : Fin 10, 0 < value.val → Nat.digitChar value ≠ '0' := by decide
        exact ⟨_, [], Nat.toDigits_of_lt_base hsmall, hall ⟨value, hsmall⟩ h⟩
      · obtain ⟨first, rest, hrest, hfirst⟩ := ih (value / 10) (by omega) (by omega)
        refine ⟨first, rest ++ [Nat.digitChar (value % 10)], ?_, hfirst⟩
        rw [decimalDigits, Nat.toDigits_of_base_le (by decide) (by omega)]
        exact congrArg (· ++ _) hrest

theorem plainDigits?_decimalDigits (value : Nat) :
    plainDigits? (decimalDigits value) = some (decimalDigits value) := by
  rw [plainDigits?, digitRun?_of_isDigit (decimalDigits_ne_nil value) fun _ =>
    isDigit_of_mem_decimalDigits]
  rcases Nat.eq_zero_or_pos value with rfl | hpos
  · rfl
  · obtain ⟨first, rest, hdigits, hfirst⟩ := head_decimalDigits hpos
    rw [hdigits]
    split
    · next heq =>
        cases heq
        exact absurd rfl hfirst
    · rfl

theorem integer?_decimalDigits {value : Nat} (h : value ≤ 9223372036854775807) :
    integer? (decimalDigits value) = some (.integer value) := by
  have hunsigned : splitSign (decimalDigits value) = (false, decimalDigits value) := by
    have hminus := notMem_decimalDigits value '-' rfl
    have hplus := notMem_decimalDigits value '+' rfl
    rw [splitSign.eq_def]
    split <;> simp_all
  have hfits : fitting? (value : Int) = some (.integer value) := by
    rw [fitting?, if_pos ⟨by omega, by omega⟩]
  have hhex := notMem_decimalDigits value 'x' rfl
  have hoctal := notMem_decimalDigits value 'o' rfl
  have hbinary := notMem_decimalDigits value 'b' rfl
  rw [integer?.eq_def]
  split
  case h_4 =>
    rw [hunsigned]
    dsimp only
    rw [plainDigits?_decimalDigits, Option.bind_some, inBase_decimalDigits]
    exact hfits
  all_goals simp_all

/-- A word that ends with the line is read as its value. -/
theorem scalar?_word {word : List Char} {value : Scalar} (hword : word? word = some value)
    (hsigns : ∀ sign ∈ word, isScalarSign sign = true) {rest : List Char}
    (hmoment : startsMoment (word ++ '\n' :: rest) = false) :
    scalar? (word ++ '\n' :: rest) = some (value, '\n' :: rest) := by
  rw [scalar?, hmoment, if_neg (by decide), List.takeWhile_append_of_pos hsigns,
    List.dropWhile_append_of_pos hsigns, List.takeWhile_cons_of_neg (by decide),
    List.dropWhile_cons_of_neg (by decide), List.append_nil, hword]
  rfl

theorem word?_decimalDigits {value : Nat} (h : value ≤ 9223372036854775807) :
    word? (decimalDigits value) = some (.integer value) := by
  have htrue : decimalDigits value ≠ ['t', 'r', 'u', 'e'] := fun heq =>
    notMem_decimalDigits value 't' rfl (heq ▸ List.mem_cons_self)
  have hfalse : decimalDigits value ≠ ['f', 'a', 'l', 's', 'e'] := fun heq =>
    notMem_decimalDigits value 'f' rfl (heq ▸ List.mem_cons_self)
  rw [word?, if_neg htrue, if_neg hfalse, integer?_decimalDigits h]

theorem scalar?_decimalDigits {value : Nat} (h : value ≤ 9223372036854775807) (rest : List Char) :
    scalar? (decimalDigits value ++ '\n' :: rest) = some (.integer value, '\n' :: rest) := by
  have hdigits : ∀ digit ∈ decimalDigits value, isDigit digit = true :=
    fun _ => isDigit_of_mem_decimalDigits
  have hsigns : ∀ sign ∈ decimalDigits value, isScalarSign sign = true := by
    intro sign hsign
    rw [isScalarSign, hdigits sign hsign, Bool.true_or, Bool.true_or]
  -- Neither a dash nor a colon follows the digits.
  have hmoment : startsMoment (decimalDigits value ++ '\n' :: rest) = false := by
    rw [startsMoment.eq_def, List.dropWhile_append_of_pos hdigits,
      List.dropWhile_cons_of_neg (by decide)]
    split
    · simp
    · rfl
  exact scalar?_word (word?_decimalDigits h) hsigns hmoment

/-- A value that is written on a line. -/
inductive Literal where
  | text (value : String)
  | boolean (value : Bool)
  | number (value : Nat)

namespace Literal

def spelling : Literal → List Char
  | text value => (writeString value).toList
  | boolean value => if value then ['t', 'r', 'u', 'e'] else ['f', 'a', 'l', 's', 'e']
  | number value => decimalDigits value

def term : Literal → Term
  | text value => .string value
  | boolean value => .scalar (.boolean value)
  | number value => .scalar (.integer value)

/-- Numbers must fit into 64 bits. -/
def Fits : Literal → Prop
  | number value => value ≤ 9223372036854775807
  | text _ | boolean _ => True

end Literal

/-- A term at the end of a line is read back. -/
theorem term?_spelling {literal : Literal} (h : literal.Fits) (fuel : Nat) (rest : List Char) :
    term? (fuel + 1) (literal.spelling ++ '\n' :: rest) = some (literal.term, '\n' :: rest) := by
  cases literal with
  | text value =>
      have hquoted := quoted?_writeString value rest
      obtain ⟨behind, hsigns⟩ : ∃ behind, (writeString value).toList = '"' :: behind :=
        ⟨_, by rw [writeString, String.toList_ofList]; rfl⟩
      rw [Literal.spelling, Literal.term]
      rw [hsigns, List.cons_append] at hquoted ⊢
      rw [term?.eq_4, hquoted]
      rfl
  | boolean value => cases value <;> rfl
  | number value =>
      have hscalar := scalar?_decimalDigits h rest
      obtain ⟨first, more, hcons⟩ := List.exists_cons_of_ne_nil (decimalDigits_ne_nil value)
      have hfirst : isDigit first = true := isDigit_of_mem_decimalDigits (hcons ▸ List.mem_cons_self)
      rw [Literal.spelling, Literal.term]
      rw [hcons, List.cons_append] at hscalar ⊢
      rw [term?.eq_def]
      dsimp only
      split
      case h_5 =>
        rw [hscalar]
        rfl
      all_goals
        next heq =>
          -- A digit opens no other term.
          obtain ⟨rfl, -⟩ := List.cons.inj heq
          cases hfirst

theorem skipGaps_spelling (literal : Literal) (rest : List Char) :
    skipGaps (literal.spelling ++ rest) = literal.spelling ++ rest := by
  cases literal with
  | text value =>
      rw [Literal.spelling, writeString, String.toList_ofList]
      rfl
  | boolean value => cases value <;> rfl
  | number value =>
      obtain ⟨first, more, hcons⟩ := List.exists_cons_of_ne_nil (decimalDigits_ne_nil value)
      have hgap : isGap first = false := by
        have hspace : first ≠ ' ' := by
          rintro rfl
          exact notMem_decimalDigits value ' ' rfl (hcons ▸ List.mem_cons_self)
        have htab : first ≠ '\t' := by
          rintro rfl
          exact notMem_decimalDigits value '\t' rfl (hcons ▸ List.mem_cons_self)
        simp [isGap, hspace, htab]
      rw [Literal.spelling, hcons, List.cons_append, skipGaps,
        List.dropWhile_cons_of_neg (by simp [hgap])]

/-- A name that needs no quotes in a key. -/
structure IsBareName (name : String) : Prop where
  ne_empty : name ≠ ""
  bare : ∀ sign ∈ name.toList, isBareKeySign sign = true

instance (name : String) : Decidable (IsBareName name) :=
  decidable_of_iff (name ≠ "" ∧ name.toList.all isBareKeySign = true)
    ⟨fun h => ⟨h.1, List.all_eq_true.mp h.2⟩, fun h => ⟨h.ne_empty, List.all_eq_true.mpr h.bare⟩⟩

theorem IsBareName.exists_first {name : String} (h : IsBareName name) :
    ∃ first others, name.toList = first :: others ∧ isBareKeySign first = true := by
  obtain ⟨first, others, hname⟩ := List.exists_cons_of_ne_nil
    (mt String.toList_eq_nil_iff.mp h.ne_empty)
  exact ⟨first, others, hname, h.bare first (hname ▸ List.mem_cons_self)⟩

theorem isGapOrBreak_of_isBareKeySign {sign : Char} (h : isBareKeySign sign = true) :
    isGapOrBreak sign = false := by
  have hne (other : Char) (hother : isBareKeySign other = false) : sign ≠ other := by
    rintro rfl
    rw [hother] at h
    cases h
  simp [isGapOrBreak, isGap, isLineBreak, hne ' ' rfl, hne '\t' rfl, hne '\n' rfl, hne '\r' rfl]

theorem skipGaps_name {name : String} (h : IsBareName name) (rest : List Char) :
    skipGaps (name.toList ++ rest) = name.toList ++ rest := by
  obtain ⟨first, others, hname, hfirst⟩ := h.exists_first
  have hgap := isGapOrBreak_of_isBareKeySign hfirst
  rw [isGapOrBreak, Bool.or_eq_false_iff] at hgap
  rw [hname, List.cons_append, skipGaps, List.dropWhile_cons_of_neg (by simp [hgap.1])]

theorem skipAll_name {name : String} (h : IsBareName name) (rest : List Char) :
    skipAll false (name.toList ++ rest) = name.toList ++ rest := by
  obtain ⟨first, others, hname, hfirst⟩ := h.exists_first
  have hcomment : first ≠ '#' := by
    rintro rfl
    cases hfirst
  rw [hname, List.cons_append, skipAll, if_neg (by decide),
    if_neg (by simp [isGapOrBreak_of_isBareKeySign hfirst]), if_neg hcomment]

theorem name?_bare {name : String} (h : IsBareName name) {mark : Char}
    (hmark : isBareKeySign mark = false) (rest : List Char) :
    name? (name.toList ++ mark :: rest) = some (name, mark :: rest) := by
  obtain ⟨first, others, hname, hfirst⟩ := h.exists_first
  have htake : (name.toList ++ mark :: rest).takeWhile isBareKeySign = name.toList := by
    rw [List.takeWhile_append_of_pos h.bare, List.takeWhile_cons_of_neg (by simp [hmark]),
      List.append_nil]
  have hdrop : (name.toList ++ mark :: rest).dropWhile isBareKeySign = mark :: rest := by
    rw [List.dropWhile_append_of_pos h.bare, List.dropWhile_cons_of_neg (by simp [hmark])]
  rw [name?.eq_def, htake, hdrop, hname]
  split
  case h_3 =>
    dsimp only
    rw [← hname, String.ofList_toList]
  all_goals
    next heq =>
      obtain ⟨rfl, -⟩ := List.cons.inj heq
      cases hfirst

/-- A key of one name is read back up to a sign that can go on neither the name nor the key. -/
theorem key?_bare {name : String} (h : IsBareName name) {mark : Char}
    (hmark : isBareKeySign mark = false) (rest : List Char)
    (hdot : ∀ more, skipGaps (mark :: rest) ≠ '.' :: more) (fuel : Nat) :
    key? (fuel + 1) (name.toList ++ mark :: rest) = some ([name], skipGaps (mark :: rest)) := by
  rw [key?, skipGaps_name h, name?_bare h hmark, Option.bind_eq_bind, Option.bind_some]
  dsimp only
  split
  · next more heq => exact absurd heq (hdot more)
  · rfl

/-- A line of a document. -/
inductive Line where
  | blank
  | header (name : String)
  | setting (name : String) (value : Literal)

namespace Line

def spelling : Line → List Char
  | blank => ['\n']
  | header name => '[' :: (name.toList ++ [']', '\n'])
  | setting name value => ' ' :: ' ' :: (name.toList ++ ' ' :: '=' :: ' ' :: (value.spelling ++ ['\n']))

def statement? : Line → Option Statement
  | blank => none
  | header name => some (.table [name])
  | setting name value => some (.entry [name] value.term)

/-- Names need no quotes, and numbers fit. -/
def IsValid : Line → Prop
  | blank => True
  | header name => IsBareName name
  | setting name value => IsBareName name ∧ value.Fits

end Line

theorem statement?_header {name : String} (h : IsBareName name) (fuel : Nat) (rest : List Char) :
    statement? (fuel + 1) ('[' :: (name.toList ++ ']' :: rest)) = some (.table [name], rest) := by
  obtain ⟨first, others, hname, hfirst⟩ := h.exists_first
  have hkey : key? (fuel + 1) (name.toList ++ ']' :: rest) = some ([name], ']' :: rest) :=
    key?_bare h rfl rest (fun _ => by rintro ⟨⟩) fuel
  rw [hname, List.cons_append] at hkey ⊢
  rw [statement?.eq_def]
  split
  case h_1 =>
    next heq =>
      obtain ⟨rfl, -⟩ := List.cons.inj (List.cons.inj heq).2
      cases hfirst
  case h_2 =>
    next heq =>
      obtain ⟨-, rfl⟩ := List.cons.inj heq
      rw [hkey]
      rfl
  case h_3 => simp_all

theorem statement?_setting {name : String} (h : IsBareName name) {literal : Literal}
    (hfits : literal.Fits) (fuel : Nat) (rest : List Char) :
    statement? (fuel + 1)
        (name.toList ++ ' ' :: '=' :: ' ' :: (literal.spelling ++ '\n' :: rest)) =
      some (.entry [name] literal.term, '\n' :: rest) := by
  obtain ⟨first, others, hname, hfirst⟩ := h.exists_first
  have hkey : key? (fuel + 1)
      (name.toList ++ ' ' :: '=' :: ' ' :: (literal.spelling ++ '\n' :: rest)) =
        some ([name], '=' :: ' ' :: (literal.spelling ++ '\n' :: rest)) :=
    key?_bare h rfl _ (fun _ => by rintro ⟨⟩) fuel
  have hvalue : skipGaps (' ' :: (literal.spelling ++ '\n' :: rest)) =
      literal.spelling ++ '\n' :: rest :=
    skipGaps_spelling literal ('\n' :: rest)
  rw [hname, List.cons_append] at hkey ⊢
  rw [statement?.eq_def]
  split
  case h_3 =>
    have hterm := term?_spelling hfits fuel rest
    rw [← hvalue] at hterm
    rw [hkey]
    exact congrArg (Option.map _) hterm
  all_goals
    next heq =>
      obtain ⟨rfl, -⟩ := List.cons.inj heq
      cases hfirst

theorem statements?_statement {text start behind : List Char} {statement : Statement} {fuel : Nat}
    (hskip : skipAll false text = start) (hstart : start ≠ [])
    (hread : statement? fuel start = some (statement, '\n' :: behind)) (found : List Statement) :
    statements? (fuel + 1) text found = statements? fuel behind (statement :: found) := by
  rw [statements?, hskip]
  split
  · exact absurd rfl hstart
  · rw [hread]
    rfl

/-- A document that is written line by line is read as the statements of its lines. -/
theorem statements?_lines {lines : List Line} (h : ∀ line ∈ lines, line.IsValid) (fuel : Nat)
    (hfuel : lines.length < fuel) (found : List Statement) :
    statements? fuel (lines.flatMap Line.spelling) found =
      some (found.reverse ++ lines.filterMap Line.statement?) := by
  induction lines generalizing fuel found with
  | nil =>
      obtain ⟨fuel, rfl⟩ := Nat.exists_eq_succ_of_ne_zero (Nat.ne_zero_of_lt hfuel)
      simp [statements?, skipAll]
  | cons line lines ih =>
      obtain ⟨hline, hlines⟩ := List.forall_mem_cons.mp h
      rw [List.length_cons] at hfuel
      obtain ⟨fuel, rfl⟩ : ∃ less, fuel = less + 2 := ⟨fuel - 2, by omega⟩
      have hnext (statement : Statement) := ih hlines (fuel + 1) (by omega) (statement :: found)
      rw [List.flatMap_cons]
      generalize lines.flatMap Line.spelling = behind at hnext ih ⊢
      cases line with
      | blank =>
          have hblank := ih hlines (fuel + 2) (by omega) found
          rw [List.filterMap_cons_none rfl, ← hblank]
          rfl
      | header name =>
          have hrest : Line.spelling (.header name) ++ behind =
              '[' :: (name.toList ++ ']' :: '\n' :: behind) := by
            simp [Line.spelling]
          have hread := statement?_header hline fuel ('\n' :: behind)
          have hskip : skipAll false ('[' :: (name.toList ++ ']' :: '\n' :: behind)) =
              '[' :: (name.toList ++ ']' :: '\n' :: behind) := rfl
          rw [hrest, statements?_statement hskip (List.cons_ne_nil _ _) hread, hnext,
            List.reverse_cons, List.append_assoc, List.singleton_append]
          rfl
      | setting name literal =>
          have hrest : Line.spelling (.setting name literal) ++ behind =
              ' ' :: ' ' ::
                (name.toList ++ ' ' :: '=' :: ' ' :: (literal.spelling ++ '\n' :: behind)) := by
            simp [Line.spelling]
          have hread := statement?_setting hline.1 hline.2 fuel behind
          have hskip : skipAll false (' ' :: ' ' ::
              (name.toList ++ ' ' :: '=' :: ' ' :: (literal.spelling ++ '\n' :: behind))) =
                name.toList ++ ' ' :: '=' :: ' ' :: (literal.spelling ++ '\n' :: behind) :=
            skipAll_name hline.1 _
          rw [hrest, statements?_statement hskip (by simp) hread, hnext, List.reverse_cons,
            List.append_assoc, List.singleton_append]
          rfl

/-! ### Documents -/

/-- What a written document is made of, line feeds apart. -/
theorem isPlain_of_signs {text : List Char}
    (h : ∀ sign ∈ text, sign = '\n' ∨ 0x20 ≤ sign.toNat ∧ sign.toNat ≠ 0x7F) : isPlain text = true := by
  induction text with
  | nil => rfl
  | cons sign rest ih =>
      obtain ⟨hsign, hrest⟩ := List.forall_mem_cons.mp h
      have hreturn : sign ≠ '\r' := by
        rintro rfl
        revert hsign
        decide
      rw [isPlain.eq_3 _ _ (by simpa using hreturn), ih hrest]
      rcases hsign with rfl | ⟨hleast, hdelete⟩
      · rfl
      · simp [hleast, hdelete]

theorem signs_of_bare {sign : Char} (h : isBareKeySign sign = true) :
    0x20 ≤ sign.toNat ∧ sign.toNat ≠ 0x7F := by
  rw [isBareKeySign, Bool.or_eq_true, Bool.or_eq_true, Bool.or_eq_true, Source.isLetter_iff,
    isDigit_iff, beq_iff_eq, beq_iff_eq] at h
  rcases h with ((hletter | hdigit) | rfl) | rfl
  · omega
  · omega
  · decide
  · decide

theorem signs_of_literal {literal : Literal} {sign : Char} (h : sign ∈ literal.spelling) :
    0x20 ≤ sign.toNat ∧ sign.toNat ≠ 0x7F := by
  cases literal with
  | text value =>
      rw [Literal.spelling, writeString, String.toList_ofList, List.mem_append, List.mem_cons,
        List.mem_singleton] at h
      rcases h with (rfl | hbody) | rfl
      · decide
      · obtain ⟨written, -, hwritten⟩ := List.mem_flatMap.mp hbody
        exact mem_writeChar hwritten
      · decide
  | boolean value =>
      have hfalse : ∀ sign ∈ ['f', 'a', 'l', 's', 'e'], 0x20 ≤ sign.toNat ∧ sign.toNat ≠ 0x7F := by
        simp
      have htrue : ∀ sign ∈ ['t', 'r', 'u', 'e'], 0x20 ≤ sign.toNat ∧ sign.toNat ≠ 0x7F := by
        simp
      cases value with
      | false => exact hfalse sign h
      | true => exact htrue sign h
  | number value =>
      have hrange := isDigit_iff.mp (isDigit_of_mem_decimalDigits h)
      omega

theorem signs_of_line {line : Line} (h : line.IsValid) :
    ∀ sign ∈ line.spelling, sign = '\n' ∨ 0x20 ≤ sign.toNat ∧ sign.toNat ≠ 0x7F := by
  intro sign hsign
  cases line with
  | blank => exact .inl (List.mem_singleton.mp hsign)
  | header name =>
      simp only [Line.spelling, List.mem_cons, List.mem_append, List.not_mem_nil, or_false] at hsign
      rcases hsign with rfl | hname | rfl | rfl
      · exact .inr (by decide)
      · exact .inr (signs_of_bare (h.bare sign hname))
      · exact .inr (by decide)
      · exact .inl rfl
  | setting name value =>
      simp only [Line.spelling, List.mem_cons, List.mem_append, List.not_mem_nil, or_false] at hsign
      rcases hsign with rfl | rfl | hname | rfl | rfl | rfl | hvalue | rfl
      · exact .inr (by decide)
      · exact .inr (by decide)
      · exact .inr (signs_of_bare (h.1.bare sign hname))
      · exact .inr (by decide)
      · exact .inr (by decide)
      · exact .inr (by decide)
      · exact .inr (signs_of_literal hvalue)
      · exact .inl rfl

theorem length_lines (lines : List Line) : lines.length ≤ (lines.flatMap Line.spelling).length := by
  induction lines with
  | nil => exact Nat.le_refl _
  | cons line lines ih =>
      have hline : 1 ≤ line.spelling.length := by cases line <;> simp [Line.spelling]
      rw [List.flatMap_cons, List.length_append, List.length_cons]
      omega

theorem parse?_lines {lines : List Line} (h : ∀ line ∈ lines, line.IsValid) :
    parse? (lines.flatMap Line.spelling) = some (lines.filterMap Line.statement?) := by
  have hplain : isPlain (lines.flatMap Line.spelling) = true := by
    refine isPlain_of_signs fun sign hsign => ?_
    obtain ⟨line, hline, hmem⟩ := List.mem_flatMap.mp hsign
    exact signs_of_line (h line hline) sign hmem
  have hlength := length_lines lines
  rw [parse?, if_pos hplain, statements?_lines h _ (by omega), List.reverse_nil, List.nil_append]

/-- Text in UTF-8 is read as its characters. -/
theorem chars?_encodeChars (values : List Char) : chars? (encodeChars values) = some values := by
  rw [chars?, glyphs_encodeChars, mapM_char?_ofChars]

end PlZero.Toml
