import PlZero.Machine.Run
import PlZero.Proofs.Attempt

/-! Arithmetic on cells. It is done in 64 bits and narrowed to 32 at the end. What two cells can give fits
into 64 bits, so nothing wraps before the range is checked, and within the range narrowing keeps the
value. Main statement: the result is the exact one, and it is missing only where there is none or where it
does not fit. -/

namespace PlZero.Machine

/-- The exact integer that an arithmetic operation makes of two, if there is one; division truncates toward
zero. -/
def result? : Operation → Int → Int → Option Int
  | .add, left, right => some (left + right)
  | .subtract, left, right => some (left - right)
  | .multiply, left, right => some (left * right)
  | .divide, left, right => if right = 0 then none else some (left.tdiv right)
  | _, _, _ => none

/-- An integer that a cell can hold. -/
def FitsCell (value : Int) : Prop :=
  -2 ^ 31 ≤ value ∧ value ≤ 2 ^ 31 - 1

instance (value : Int) : Decidable (FitsCell value) :=
  inferInstanceAs (Decidable (_ ∧ _))

theorem fitsCell_toInt (cell : Int32) : FitsCell cell.toInt :=
  ⟨cell.le_toInt, Int.le_sub_one_of_lt cell.toInt_lt⟩

theorem toInt_ofInt_of_fits {value : Int} (h : FitsCell value) : (Int32.ofInt value).toInt = value :=
  Int32.toInt_ofInt_of_le h.1 (Int.lt_of_le_sub_one h.2)

/-- An integer of 63 bits, with room for its sign, is not changed by counting in 64 bits. -/
theorem bmod_eq_self {value : Int} (hleast : -2 ^ 63 ≤ value) (hmost : value < 2 ^ 63) :
    value.bmod (2 ^ 64) = value :=
  Int.bmod_eq_of_le (by omega) (by omega)

section Wide

variable (left right : Int32)

theorem natAbs_toInt_le (cell : Int32) : cell.toInt.natAbs ≤ 2 ^ 31 := by
  have hleast := cell.le_toInt
  have hmost := cell.toInt_lt
  omega

theorem toInt_wide_add :
    (left.toInt64 + right.toInt64).toInt = left.toInt + right.toInt := by
  have hleft := natAbs_toInt_le left
  have hright := natAbs_toInt_le right
  rw [Int64.toInt_add, Int32.toInt_toInt64, Int32.toInt_toInt64, bmod_eq_self (by omega) (by omega)]

theorem toInt_wide_sub :
    (left.toInt64 - right.toInt64).toInt = left.toInt - right.toInt := by
  have hleft := natAbs_toInt_le left
  have hright := natAbs_toInt_le right
  rw [Int64.toInt_sub, Int32.toInt_toInt64, Int32.toInt_toInt64, bmod_eq_self (by omega) (by omega)]

/-- The greatest product is that of the least cell with itself. -/
theorem toInt_wide_mul :
    (left.toInt64 * right.toInt64).toInt = left.toInt * right.toInt := by
  have hproduct : (left.toInt * right.toInt).natAbs ≤ 2 ^ 31 * 2 ^ 31 := by
    rw [Int.natAbs_mul]
    exact Nat.mul_le_mul (natAbs_toInt_le left) (natAbs_toInt_le right)
  rw [Int64.toInt_mul, Int32.toInt_toInt64, Int32.toInt_toInt64, bmod_eq_self (by omega) (by omega)]

/-- The greatest quotient is that of the least cell by -1, which does not fit into 32 bits. -/
theorem toInt_wide_div :
    (left.toInt64 / right.toInt64).toInt = left.toInt.tdiv right.toInt := by
  have hquotient : (left.toInt.tdiv right.toInt).natAbs ≤ 2 ^ 31 :=
    (Int.natAbs_tdiv_le_natAbs _ _).trans (natAbs_toInt_le left)
  rw [Int64.toInt_div, Int32.toInt_toInt64, Int32.toInt_toInt64, bmod_eq_self (by omega) (by omega)]

theorem toInt64_eq_zero_iff : right.toInt64 = 0 ↔ right.toInt = 0 := by
  rw [← Int64.toInt_inj, Int32.toInt_toInt64, Int64.toInt_zero]

end Wide

variable {operation : Operation} {left right : Int32}

/-- Nothing wraps in 64 bits: what comes out there is the exact result, and if nothing comes out it is
because of a division by zero, which has no result. -/
theorem wide_cases (h : operation.isArithmetic = true) (left right : Int32) :
    ((operation = .divide ∧ right = 0) ∧
      wide operation left.toInt64 right.toInt64 = .error .divisionByZero ∧
      result? operation left.toInt right.toInt = none) ∨
    (¬(operation = .divide ∧ right = 0) ∧ ∃ result,
      wide operation left.toInt64 right.toInt64 = .ok result ∧
      result? operation left.toInt right.toInt = some result.toInt) := by
  cases operation with
  | add => exact .inr ⟨by simp, _, rfl, congrArg some (toInt_wide_add left right).symm⟩
  | subtract => exact .inr ⟨by simp, _, rfl, congrArg some (toInt_wide_sub left right).symm⟩
  | multiply => exact .inr ⟨by simp, _, rfl, congrArg some (toInt_wide_mul left right).symm⟩
  | divide =>
      have hzero : right = 0 ↔ right.toInt = 0 := by rw [← Int32.toInt_inj, Int32.toInt_zero]
      simp only [wide, result?, toInt64_eq_zero_iff, true_and, hzero]
      by_cases hdivisor : right.toInt = 0
      · exact .inl ⟨hdivisor, if_pos hdivisor, if_pos hdivisor⟩
      · rw [if_neg hdivisor, if_neg hdivisor]
        exact .inr ⟨hdivisor, _, rfl, congrArg some (toInt_wide_div left right).symm⟩
  | _ => cases h

/-! ### In 32 bits -/

theorem narrow_eq (result : Int64) : narrow result =
    if FitsCell result.toInt then .ok (Int32.ofInt result.toInt) else .error .arithmeticOverflow := by
  have hrange : (2147483647 < result || result < -2147483648) = !decide (FitsCell result.toInt) := by
    rw [← decide_not, ← Bool.decide_or]
    refine decide_eq_decide.mpr ?_
    have hmost : (2147483647 : Int64).toInt = 2 ^ 31 - 1 := rfl
    have hleast : (-2147483648 : Int64).toInt = -2 ^ 31 := rfl
    rw [Int64.lt_iff_toInt_lt, Int64.lt_iff_toInt_lt, hmost, hleast, FitsCell]
    omega
  rw [narrow, hrange, ← Int64.toInt32_ofInt, Int64.ofInt_toInt]
  by_cases hfits : FitsCell result.toInt <;> simp [hfits]

theorem arithmetic_of_none (h : operation.isArithmetic = true)
    (hexact : result? operation left.toInt right.toInt = none) :
    arithmetic operation left right = .error .divisionByZero := by
  rcases wide_cases h left right with ⟨-, hwide, -⟩ | ⟨-, result, -, hresult⟩
  · rw [arithmetic, hwide]
    rfl
  · cases hexact.symm.trans hresult

/-- The arithmetic of cells is the exact arithmetic, as far as the result fits into a cell. -/
theorem arithmetic_of_some (h : operation.isArithmetic = true) {value : Int}
    (hexact : result? operation left.toInt right.toInt = some value) :
    arithmetic operation left right =
      if FitsCell value then .ok (Int32.ofInt value) else .error .arithmeticOverflow := by
  rcases wide_cases h left right with ⟨-, -, hnone⟩ | ⟨-, result, hwide, hresult⟩
  · cases hnone.symm.trans hexact
  · obtain rfl := Option.some.inj (hexact.symm.trans hresult)
    rw [arithmetic, hwide, PlZero.Attempt.ok_bind, narrow_eq]

theorem arithmetic_eq_ok_iff (h : operation.isArithmetic = true) {result : Int32} :
    arithmetic operation left right = .ok result ↔
      result? operation left.toInt right.toInt = some result.toInt := by
  cases hexact : result? operation left.toInt right.toInt with
  | none => simp [arithmetic_of_none h hexact]
  | some value =>
      rw [arithmetic_of_some h hexact, Option.some.injEq]
      by_cases hfits : FitsCell value
      · rw [if_pos hfits, Except.ok.injEq, ← Int32.toInt_inj, toInt_ofInt_of_fits hfits]
      · rw [if_neg hfits]
        exact iff_of_false nofun fun hvalue => hfits (hvalue ▸ fitsCell_toInt result)

theorem arithmetic_eq_divisionByZero_iff (h : operation.isArithmetic = true) :
    arithmetic operation left right = .error .divisionByZero ↔ operation = .divide ∧ right = 0 := by
  rcases wide_cases h left right with ⟨hzero, -, hnone⟩ | ⟨hzero, result, -, hresult⟩
  · exact iff_of_true (arithmetic_of_none h hnone) hzero
  · rw [arithmetic_of_some h hresult]
    refine iff_of_false ?_ hzero
    split <;> rintro ⟨⟩

theorem arithmetic_eq_arithmeticOverflow_iff (h : operation.isArithmetic = true) :
    arithmetic operation left right = .error .arithmeticOverflow ↔
      ∃ value, result? operation left.toInt right.toInt = some value ∧ ¬FitsCell value := by
  cases hexact : result? operation left.toInt right.toInt with
  | none => simp [arithmetic_of_none h hexact]
  | some value =>
      rw [arithmetic_of_some h hexact]
      by_cases hfits : FitsCell value <;> simp [hfits]

end PlZero.Machine
