import Mathlib.Algebra.Order.BigOperators.Group.List
import Mathlib.Data.Int.Order.Basic
import Mathlib.Tactic.Ring

/-! The Gregorian calendar carried to all years: days counted from the first of January of
year one, and the date of a day. -/

set_option autoImplicit false

namespace Library

def isLeapYear (year : Int) : Bool := decide (year % 4 = 0) && (decide (year % 400 = 0) || !decide (year % 100 = 0))

def monthLengths (leap : Bool) : List Nat := [31, if leap then 29 else 28, 31, 30, 31, 30, 31, 31, 30, 31, 30, 31]

structure Date where
  year : Int
  month : Nat
  day : Nat
  deriving DecidableEq

/-- The months have their lengths. -/
def Date.valid (date : Date) : Prop :=
  1 ≤ date.month ∧ date.month ≤ 12 ∧ 1 ≤ date.day ∧
    date.day ≤ (monthLengths (isLeapYear date.year)).getD (date.month - 1) 0

instance (date : Date) : Decidable date.valid := inferInstanceAs (Decidable (_ ∧ _))

/-- The number of days in front of a year. -/
def yearStart (year : Int) : Int := 365 * (year - 1) + (year - 1) / 4 - (year - 1) / 100 + (year - 1) / 400

/-- The number of days in front of a month, in months of these lengths. -/
def monthStart (lengths : List Nat) (month : Nat) : Nat := (lengths.take (month - 1)).sum

def Date.dayNumber (date : Date) : Int :=
  yearStart date.year + monthStart (monthLengths (isLeapYear date.year)) date.month + date.day - 1

/-- The year of a day, and its place in it. -/
def toOrdinalDate (number : Int) : Int × Nat :=
  let cent := min (number % 146097 / 36524) 3
  let rest := number % 146097 - cent * 36524
  let year := min (rest % 1461 / 365) 3
  (number / 146097 * 400 + cent * 100 + rest / 1461 * 4 + year + 1, (rest % 1461 - year * 365 + 1).toNat)

def findValidDay : List Nat → Nat → Nat × Nat
  | length :: lengths, day =>
      if length < day then ((findValidDay lengths (day - length)).1 + 1, (findValidDay lengths (day - length)).2)
      else (1, day)
  | [], day => (1, day)

def toGregorian (number : Int) : Date :=
  let ordinal := toOrdinalDate number
  let found := findValidDay (monthLengths (isLeapYear ordinal.1)) ordinal.2
  ⟨ordinal.1, found.1, found.2⟩

/-! ### Years -/

theorem yearStart_succ (year : Int) :
    yearStart (year + 1) = yearStart year + 365 + if isLeapYear year = true then 1 else 0 := by
  simp only [yearStart, isLeapYear, Bool.and_eq_true, Bool.or_eq_true, decide_eq_true_eq, Bool.not_eq_true',
    decide_eq_false_iff_not]
  split_ifs with leap <;> omega

theorem yearStart_mono {one other : Int} (less : one ≤ other) : yearStart one ≤ yearStart other := by
  rw [yearStart, yearStart]
  omega

/-- A year in four parts: four hundreds, hundreds, fours and what is left. -/
private theorem yearStart_parts {hundreds fours ones : Int} (era : Int) (h : 0 ≤ hundreds ∧ hundreds ≤ 3)
    (f : 0 ≤ fours ∧ fours ≤ 24) (o : 0 ≤ ones ∧ ones ≤ 3) :
    yearStart (era * 400 + hundreds * 100 + fours * 4 + ones + 1) =
      146097 * era + 36524 * hundreds + 1461 * fours + 365 * ones := by
  rw [yearStart]
  omega

private theorem isLeapYear_parts {hundreds fours : Int} (era : Int) (f : 0 ≤ fours ∧ fours ≤ 24)
    (last : fours < 24 ∨ hundreds = 3) :
    isLeapYear (era * 400 + hundreds * 100 + fours * 4 + 3 + 1) = true := by
  simp only [isLeapYear, Bool.and_eq_true, Bool.or_eq_true, decide_eq_true_eq, Bool.not_eq_true',
    decide_eq_false_iff_not]
  omega

/-- A day stands in the year that is computed for it. -/
theorem toOrdinalDate_year (number : Int) :
    yearStart (toOrdinalDate number).1 + (toOrdinalDate number).2 = number + 1 ∧ 1 ≤ (toOrdinalDate number).2 ∧
      number < yearStart ((toOrdinalDate number).1 + 1) := by
  let cent := min (number % 146097 / 36524) 3
  let rest := number % 146097 - cent * 36524
  let ones := min (rest % 1461 / 365) 3
  have start := @yearStart_parts cent (rest / 1461) ones (number / 146097) (by omega) (by omega) (by omega)
  have split : number = 146097 * (number / 146097) + 36524 * cent + 1461 * (rest / 1461) + rest % 1461 := by omega
  have next := yearStart_succ (number / 146097 * 400 + cent * 100 + rest / 1461 * 4 + ones + 1)
  change yearStart (number / 146097 * 400 + cent * 100 + rest / 1461 * 4 + ones + 1) +
      ((rest % 1461 - ones * 365 + 1).toNat : Int) = number + 1 ∧ 1 ≤ (rest % 1461 - ones * 365 + 1).toNat ∧
    number < yearStart (number / 146097 * 400 + cent * 100 + rest / 1461 * 4 + ones + 1 + 1)
  refine ⟨by omega, by omega, ?_⟩
  rw [next, start]
  by_cases long : rest % 1461 = 1460
  · have last : ones = 3 := by omega
    have leap := @isLeapYear_parts cent (rest / 1461) (number / 146097) (by omega) (by omega)
    rw [last, if_pos leap]
    omega
  · split_ifs <;> omega

/-- The year of a day is the one that it stands in. -/
theorem toOrdinalDate_of_year {year number : Int} (first : yearStart year ≤ number) (last : number < yearStart (year + 1)) :
    toOrdinalDate number = (year, (number - yearStart year + 1).toNat) := by
  obtain ⟨place, positive, bound⟩ := toOrdinalDate_year number
  have same : (toOrdinalDate number).1 = year := by
    by_contra other
    cases lt_or_gt_of_ne other with
    | inl before =>
        have := @yearStart_mono ((toOrdinalDate number).1 + 1) year (by omega)
        omega
    | inr after =>
        have := @yearStart_mono (year + 1) (toOrdinalDate number).1 (by omega)
        omega
  apply Prod.ext same
  rw [same] at place
  dsimp only
  omega

/-! ### Months -/

theorem findValidDay_of_month {lengths : List Nat} {month day : Nat} (first : 1 ≤ month) (known : month ≤ lengths.length)
    (positive : 1 ≤ day) (fits : day ≤ lengths.getD (month - 1) 0) :
    findValidDay lengths (monthStart lengths month + day) = (month, day) := by
  induction lengths generalizing month with
  | nil => simp at known; omega
  | cons length lengths ih =>
      cases month with
      | zero => omega
      | succ month =>
          cases month with
          | zero =>
              have within : day ≤ length := by simpa using fits
              simp [monthStart, findValidDay, within]
          | succ month =>
              have rest := ih (Nat.le_add_left 1 month) (by simpa using known) (by simpa using fits)
              have start : monthStart (length :: lengths) (month + 1 + 1) + day =
                  length + (monthStart lengths (month + 1) + day) := by
                simp [monthStart]
                omega
              rw [start, findValidDay, if_pos (by omega), Nat.add_sub_cancel_left, rest]

theorem findValidDay_valid {lengths : List Nat} {day : Nat} (positive : 1 ≤ day) (fits : day ≤ lengths.sum) :
    1 ≤ (findValidDay lengths day).1 ∧ (findValidDay lengths day).1 ≤ lengths.length ∧
      1 ≤ (findValidDay lengths day).2 ∧
      (findValidDay lengths day).2 ≤ lengths.getD ((findValidDay lengths day).1 - 1) 0 ∧
      monthStart lengths (findValidDay lengths day).1 + (findValidDay lengths day).2 = day := by
  induction lengths generalizing day with
  | nil => simp at fits; omega
  | cons length lengths ih =>
      rw [findValidDay]
      split_ifs with later
      · obtain ⟨first, known, some', short, place⟩ := @ih (day - length) (by omega) (by simp at fits; omega)
        have month : ∃ month, (findValidDay lengths (day - length)).1 = month + 1 := ⟨_, (Nat.sub_add_cancel first).symm⟩
        obtain ⟨month, month_eq⟩ := month
        rw [month_eq] at known short place ⊢
        refine ⟨by simp, by simpa using known, some', by simpa using short, ?_⟩
        simp [monthStart] at place ⊢
        omega
      · simp [monthStart]
        omega

/-! ### Days and dates -/

theorem monthStart_le {lengths : List Nat} {one other : Nat} (less : one ≤ other) :
    monthStart lengths one ≤ monthStart lengths other :=
  (List.take_sublist_take_left (by omega)).sum_le_sum (by simp)

theorem monthStart_succ {lengths : List Nat} {month : Nat} (first : 1 ≤ month) (known : month ≤ lengths.length) :
    monthStart lengths (month + 1) = monthStart lengths month + lengths.getD (month - 1) 0 := by
  obtain ⟨place, rfl⟩ := Nat.exists_eq_add_of_le' first
  rw [monthStart, monthStart, Nat.add_sub_cancel, Nat.add_sub_cancel, List.take_add_one, List.sum_append]
  simp [List.getD_eq_getElem?_getD, List.getElem?_eq_getElem (show place < lengths.length by omega)]

theorem monthStart_year (leap : Bool) : (monthStart (monthLengths leap) 13 : Int) = 365 + if leap = true then 1 else 0 := by
  cases leap <;> rfl

namespace Date

variable {date other : Date}

theorem place_le (valid : date.valid) :
    monthStart (monthLengths (isLeapYear date.year)) date.month + date.day ≤
      monthStart (monthLengths (isLeapYear date.year)) (date.month + 1) := by
  rw [monthStart_succ valid.1 (by simpa [monthLengths] using valid.2.1)]
  exact Nat.add_le_add_left valid.2.2.2 _

theorem dayNumber_within (valid : date.valid) :
    yearStart date.year ≤ date.dayNumber ∧ date.dayNumber < yearStart (date.year + 1) := by
  have place := place_le valid
  have whole := @monthStart_le (monthLengths (isLeapYear date.year)) (date.month + 1) 13 (Nat.succ_le_succ valid.2.1)
  have size := monthStart_year (isLeapYear date.year)
  have first := valid.2.2.1
  rw [yearStart_succ, dayNumber]
  omega

/-- The date of the day of a date. -/
theorem toGregorian_dayNumber (valid : date.valid) : toGregorian date.dayNumber = date := by
  obtain ⟨first, last⟩ := dayNumber_within valid
  have place : (date.dayNumber - yearStart date.year + 1).toNat =
      monthStart (monthLengths (isLeapYear date.year)) date.month + date.day := by
    rw [dayNumber]
    omega
  rw [toGregorian, toOrdinalDate_of_year first last, place,
    findValidDay_of_month valid.1 (by simpa [monthLengths] using valid.2.1) valid.2.2.1 valid.2.2.2]

/-- A day is the day of its date. -/
theorem dayNumber_toGregorian (number : Int) : (toGregorian number).dayNumber = number ∧ (toGregorian number).valid := by
  obtain ⟨place, positive, bound⟩ := toOrdinalDate_year number
  have within : (toOrdinalDate number).2 ≤ (monthLengths (isLeapYear (toOrdinalDate number).1)).sum := by
    have size := monthStart_year (isLeapYear (toOrdinalDate number).1)
    have whole : monthStart (monthLengths (isLeapYear (toOrdinalDate number).1)) 13 =
        (monthLengths (isLeapYear (toOrdinalDate number).1)).sum := rfl
    rw [yearStart_succ] at bound
    omega
  obtain ⟨first, known, some', short, month⟩ := findValidDay_valid positive within
  constructor
  · change yearStart (toOrdinalDate number).1 + _ + _ - 1 = number
    dsimp only [toGregorian]
    omega
  · exact ⟨first, known, some', short⟩

/-- An earlier date is the date of an earlier day. -/
theorem dayNumber_lt (valid : date.valid) (known : other.valid)
    (less : date.year < other.year ∨ (date.year = other.year ∧
      (date.month < other.month ∨ (date.month = other.month ∧ date.day < other.day)))) :
    date.dayNumber < other.dayNumber := by
  cases less with
  | inl year =>
      have next := @yearStart_mono (date.year + 1) other.year (by omega)
      have last := (dayNumber_within valid).2
      have first := (dayNumber_within known).1
      omega
  | inr rest =>
      rw [dayNumber, dayNumber, ← rest.1]
      cases rest.2 with
      | inl month =>
          have next := @monthStart_le (monthLengths (isLeapYear date.year)) (date.month + 1) other.month (by omega)
          have last := place_le valid
          have first := known.2.2.1
          omega
      | inr day =>
          rw [← day.1]
          omega

end Date

end Library
