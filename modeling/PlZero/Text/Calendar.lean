import PlZero.Text.Numeral

/-! The Gregorian calendar, extended to all years. Days are counted from 1970-01-01, seconds from its
midnight in universal time. -/

namespace PlZero.Text.Calendar

def isLeap (year : Int) : Bool :=
  (year % 4 == 0 && year % 100 != 0) || year % 400 == 0

/-- How many days a month has. -/
def daysIn (year : Int) (month : Nat) : Nat :=
  match month with
  | 2 => if isLeap year then 29 else 28
  | 4 | 6 | 9 | 11 => 30
  | _ => 31

structure Date where
  year : Int
  month : Nat
  day : Nat
  deriving DecidableEq, Repr

/-- The date of a day. Years are taken from March on, so that the leap day ends them, and in eras of 400
years, which all have 146097 days. -/
def dateOfDay (day : Int) : Date :=
  let shifted := day + 719468
  let era := shifted / 146097
  let dayOfEra := (shifted % 146097).toNat
  let yearOfEra := (dayOfEra - dayOfEra / 1460 + dayOfEra / 36524 - dayOfEra / 146096) / 365
  let dayOfYear := dayOfEra - (365 * yearOfEra + yearOfEra / 4 - yearOfEra / 100)
  let fromMarch := (5 * dayOfYear + 2) / 153
  let day := dayOfYear - (153 * fromMarch + 2) / 5 + 1
  let month := if fromMarch < 10 then fromMarch + 3 else fromMarch - 9
  let year := yearOfEra + era * 400
  ⟨if month ≤ 2 then year + 1 else year, month, day⟩

/-- A number of at least two digits. -/
def two (value : Nat) : String :=
  padLeft 2 '0' (showNat value)

/-- A year of at least four digits. -/
def showYear (year : Int) : String :=
  (if year < 0 then "-" else "") ++ padLeft 4 '0' (showNat year.natAbs)

/-- The first second that is told apart from all others: the start of the first of March of the year
-292277022400. -/
def firstSecond : Int := -106751991073400 * 86400

/-- The time that a count of seconds stands for: there are as many times as there are words of 64 bits,
and counts before the first time stand for times at the end. -/
def settle (second : Int) : Int :=
  (second - firstSecond) % 18446744073709551616 + firstSecond

/-- A date and a time of day, to the second. -/
def showSecond (second : Int) : String :=
  let second := settle second
  let date := dateOfDay (second / 86400)
  let rest := (second % 86400).toNat
  showYear date.year ++ "-" ++ two date.month ++ "-" ++ two date.day ++ " "
    ++ two (rest / 3600) ++ ":" ++ two (rest / 60 % 60) ++ ":" ++ two (rest % 60)

end PlZero.Text.Calendar
