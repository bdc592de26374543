import PlZero.Proofs.Words
import PlZero.Source.Reader

/-! Numbers that are read digit by digit in 64 bits. As long as the value is that of a literal it leaves
room for another digit, and it stays as it is behind the digit with which it is that no more; so the 64
bits never wrap, however many digits there are. Main statement: the tally of digits gives the token of
their value, or finds it too great for a literal. -/

namespace PlZero.Source

open PlZero.Text

theorem digitValue_le {digit : Char} (h : isDigit digit = true) : digitValue digit ≤ 9 := by
  have hrange := isDigit_iff.mp h
  rw [digitValue]
  omega

theorem digitsValue_concat (read : List Char) (digit : Char) :
    digitsValue (read ++ [digit]) = 10 * digitsValue read + digitValue digit :=
  List.foldl_concat ..

theorem digitsValue_le_append (read more : List Char) :
    digitsValue read ≤ digitsValue (read ++ more) := by
  induction more using List.reverseRecOn with
  | nil => rw [List.append_nil]
  | append_singleton more digit ih =>
      rw [← List.append_assoc, digitsValue_concat]
      omega

namespace Tally

/-- The tally behind some digits. -/
def of (digits : List Char) : Tally :=
  digits.foldl add {}

theorem of_concat (read : List Char) (digit : Char) : of (read ++ [digit]) = (of read).add digit :=
  List.foldl_concat ..

/-- The tally is right for the digits: it knows all of them and whether they exceed every literal, and if
not, it has their value. At most one digit has been added to the value of a literal. -/
structure IsRight (tally : Tally) (read : List Char) : Prop where
  digits_eq : tally.digits.reverse = read
  overflowed_iff : tally.overflowed = true ↔ maxLiteral < digitsValue read
  value_eq : tally.overflowed = false → tally.value.toNat = digitsValue read
  value_le : tally.value.toNat ≤ 10 * maxLiteral + 9

/-- Adding a digit to the value of a literal is exact in 64 bits. -/
theorem toNat_next {value : UInt64} {digit : Char} (hvalue : value.toNat ≤ maxLiteral)
    (hdigit : isDigit digit = true) :
    (value * 10 + (digitValue digit).toUInt64).toNat = value.toNat * 10 + digitValue digit := by
  have hle := digitValue_le hdigit
  rw [maxLiteral] at hvalue
  have hten : (10 : UInt64).toNat = 10 := rfl
  rw [UInt64.toNat_add, UInt64.toNat_mul, UInt64.toNat_ofNat_of_lt' (hle.trans_lt (by decide)), hten]
  omega

theorem toNat_maxLiteral : maxLiteral.toUInt64.toNat = maxLiteral := rfl

theorem isRight_nil : IsRight (of []) [] :=
  ⟨rfl, by decide, fun _ => rfl, by decide⟩

variable {tally : Tally} {read : List Char} {digit : Char}

theorem IsRight.add (h : tally.IsRight read) (hdigit : isDigit digit = true) :
    (tally.add digit).IsRight (read ++ [digit]) := by
  have hgrows := digitsValue_le_append read [digit]
  rw [Tally.add]
  split
  · rename_i hover
    refine ⟨by simp [h.digits_eq], ?_, ?_, h.value_le⟩
    · exact iff_of_true hover ((h.overflowed_iff.mp hover).trans_le hgrows)
    · exact fun hfits => absurd hover (Bool.eq_false_iff.mp hfits)
  · rename_i hfits
    have hvalue := h.value_eq (Bool.eq_false_iff.mpr hfits)
    have hliteral : tally.value.toNat ≤ maxLiteral := by
      rw [hvalue]
      exact Nat.le_of_not_lt (mt h.overflowed_iff.mpr hfits)
    have hnext := toNat_next hliteral hdigit
    have hexact : tally.value.toNat * 10 + digitValue digit = digitsValue (read ++ [digit]) := by
      rw [digitsValue_concat, hvalue, Nat.mul_comm]
    have hle := digitValue_le hdigit
    refine ⟨by simp [h.digits_eq], ?_, fun _ => hnext.trans hexact, ?_⟩
    · rw [decide_eq_true_iff, UInt64.lt_iff_toNat_lt, toNat_maxLiteral, hnext, hexact]
    · rw [hnext]
      omega

/-- The tally of digits is right, however many they are. -/
theorem isRight_of (hdigits : ∀ digit ∈ read, isDigit digit = true) : (of read).IsRight read := by
  induction read using List.reverseRecOn with
  | nil => exact isRight_nil
  | append_singleton read digit ih =>
      rw [List.forall_mem_append, List.forall_mem_singleton] at hdigits
      rw [of_concat]
      exact (ih hdigits.1).add hdigits.2

/-- Nothing wraps: every further digit changes the value as it would without bounds, as long as the value
is that of a literal, and not at all from then on. -/
theorem toNat_of_concat (hdigits : ∀ other ∈ read ++ [digit], isDigit other = true) :
    (of (read ++ [digit])).value.toNat =
      if (of read).overflowed then (of read).value.toNat
      else (of read).value.toNat * 10 + digitValue digit := by
  rw [List.forall_mem_append, List.forall_mem_singleton] at hdigits
  have hright := isRight_of hdigits.1
  rw [of_concat, add]
  by_cases hover : (of read).overflowed = true
  · rw [if_pos hover, if_pos hover]
  · rw [if_neg hover, if_neg hover]
    refine toNat_next ?_ hdigits.2
    rw [hright.value_eq (Bool.eq_false_iff.mpr hover)]
    exact Nat.le_of_not_lt (mt hright.overflowed_iff.mpr hover)

theorem token_of (hdigits : ∀ digit ∈ read, isDigit digit = true) :
    (of read).token = (Lexeme.number read).token := by
  have hright := isRight_of hdigits
  rw [token, Lexeme.token, hright.digits_eq]
  by_cases hover : (of read).overflowed = true
  · rw [if_pos hover, if_neg (Nat.not_le.mpr (hright.overflowed_iff.mp hover))]
  · rw [if_neg hover, if_pos (Nat.le_of_not_lt (mt hright.overflowed_iff.mpr hover)),
      hright.value_eq (Bool.eq_false_iff.mpr hover)]

end Tally

end PlZero.Source
