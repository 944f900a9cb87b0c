/-!
# Years, months and days

The Gregorian calendar, extended without limit to both sides. A day has a
number, counted from Monday, 1 January of year 1, and a name made of a year, a
month and a day of the month. Year 0 comes before year 1, and negative years
before that.
-/

namespace Fortnight

/-- Holds when the year has a 29 February. -/
def isLeapYear (year : Int) : Bool :=
  year % 4 == 0 && (year % 100 != 0 || year % 400 == 0)

/-- The number of 1 January of a year. -/
def daysBeforeYear (year : Int) : Int :=
  let past := year - 1
  365 * past + past / 4 - past / 100 + past / 400

def daysInYear (year : Int) : Nat :=
  if isLeapYear year then 366 else 365

theorem daysBeforeYear_succ (year : Int) :
    daysBeforeYear (year + 1) = daysBeforeYear year + daysInYear year := by
  cases h : isLeapYear year <;> simp [isLeapYear] at h <;>
    simp only [daysBeforeYear, daysInYear, isLeapYear] <;> grind

/-- The lengths of the months, January first. -/
def monthLengths (leap : Bool) : List Nat :=
  [31, if leap then 29 else 28, 31, 30, 31, 30, 31, 31, 30, 31, 30, 31]

/-- The days of a year that lie before its month `month`, January being 1. -/
def daysBeforeMonth (leap : Bool) (month : Nat) : Nat :=
  ((monthLengths leap).take (month - 1)).foldl (· + ·) 0

/-- The length of month `month`, and 0 if there is no such month. -/
def daysInMonth (leap : Bool) : (month : Nat) → Nat
  | 0 => 0
  | month + 1 => (monthLengths leap)[month]?.getD 0

/-- Finds the month in which a day of the year falls. Both counts start at 0. -/
def splitMonths : List Nat → Nat → Nat × Nat
  | [], day => (0, day)
  | length :: rest, day =>
    if day < length then (0, day)
    else
      let (month, day) := splitMonths rest (day - length)
      (month + 1, day)

/-- The year in which the day with this number falls. Whole cycles of 400, 100
and 4 years are taken off first; the last day of a leap cycle would open a
further century, or year, that the cycle does not have. -/
def yearOfDay (number : Int) : Int :=
  let inCycle := number % 146097
  let century := min (inCycle / 36524) 3
  let inCentury := inCycle - 36524 * century
  let inFour := inCentury % 1461
  let year := min (inFour / 365) 3
  400 * (number / 146097) + 100 * century + 4 * (inCentury / 1461) + year + 1

theorem daysBeforeYear_cycles {q c f y : Int} (hc : 0 ≤ c ∧ c ≤ 3) (hf : 0 ≤ f ∧ f ≤ 24)
    (hy : 0 ≤ y ∧ y ≤ 3) :
    daysBeforeYear (400 * q + 100 * c + 4 * f + y + 1) =
      146097 * q + 36524 * c + 1461 * f + 365 * y := by
  have hpast : 400 * q + 100 * c + 4 * f + y + 1 - 1 = 400 * q + 100 * c + 4 * f + y := by omega
  have h4 : (400 * q + 100 * c + 4 * f + y) / 4 = 100 * q + 25 * c + f := by omega
  have h100 : (400 * q + 100 * c + 4 * f + y) / 100 = 4 * q + c := by omega
  have h400 : (400 * q + 100 * c + 4 * f + y) / 400 = q := by omega
  simp only [daysBeforeYear, hpast, h4, h100, h400]
  omega

/-- A day number, taken apart into whole cycles and the rest within a year. The
rest is the 366th day only in the last year of a cycle that is leap. -/
theorem exists_cycles (number : Int) : ∃ q c f y r : Int,
    (0 ≤ c ∧ c ≤ 3) ∧ (0 ≤ f ∧ f ≤ 24) ∧ (0 ≤ y ∧ y ≤ 3) ∧ (0 ≤ r ∧ r ≤ 365) ∧
      (r = 365 → y = 3 ∧ (f = 24 → c = 3)) ∧
      number = 146097 * q + 36524 * c + 1461 * f + 365 * y + r ∧
      yearOfDay number = 400 * q + 100 * c + 4 * f + y + 1 := by
  have hyear : yearOfDay number = 400 * (number / 146097) + 100 * min (number % 146097 / 36524) 3 +
      4 * ((number % 146097 - 36524 * min (number % 146097 / 36524) 3) / 1461) +
      min ((number % 146097 - 36524 * min (number % 146097 / 36524) 3) % 1461 / 365) 3 + 1 := rfl
  have hm : number = 146097 * (number / 146097) + number % 146097 := by omega
  have hm0 : 0 ≤ number % 146097 ∧ number % 146097 < 146097 := by omega
  generalize number / 146097 = q at hm hyear
  generalize number % 146097 = m at hm hm0 hyear
  have hc : 0 ≤ min (m / 36524) 3 ∧ min (m / 36524) 3 ≤ 3 ∧ 0 ≤ m - 36524 * min (m / 36524) 3 ∧
      (min (m / 36524) 3 < 3 → m - 36524 * min (m / 36524) 3 < 36524) := by omega
  generalize min (m / 36524) 3 = c at hc hyear
  have hs : m = 36524 * c + (m - 36524 * c) := by omega
  generalize m - 36524 * c = s at hc hs hyear
  have hf : s = 1461 * (s / 1461) + s % 1461 ∧ 0 ≤ s % 1461 ∧ s % 1461 < 1461 := by omega
  generalize s / 1461 = f at hf hyear
  generalize s % 1461 = t at hf hyear
  have hy : 0 ≤ min (t / 365) 3 ∧ min (t / 365) 3 ≤ 3 ∧ 0 ≤ t - 365 * min (t / 365) 3 ∧
      (min (t / 365) 3 < 3 → t - 365 * min (t / 365) 3 < 365) := by omega
  generalize min (t / 365) 3 = y at hy hyear
  refine ⟨q, c, f, y, t - 365 * y, ?_, ?_, ?_, ?_, ?_, ?_, hyear⟩ <;> omega

theorem isLeapYear_of_last {q c f : Int} (hf : 0 ≤ f ∧ f ≤ 24) (h : f = 24 → c = 3) :
    isLeapYear (400 * q + 100 * c + 4 * f + 3 + 1) = true := by
  simp only [isLeapYear, Bool.and_eq_true, Bool.or_eq_true, beq_iff_eq, bne_iff_ne]
  refine ⟨by omega, ?_⟩
  by_cases hf' : f = 24
  · have := h hf'
    exact Or.inr (by omega)
  · exact Or.inl (by omega)

theorem yearOfDay_bounds (number : Int) :
    daysBeforeYear (yearOfDay number) ≤ number ∧
      number < daysBeforeYear (yearOfDay number + 1) := by
  obtain ⟨q, c, f, y, r, hc, hf, hy, hr, hlast, hn, he⟩ := exists_cycles number
  have hb := daysBeforeYear_cycles (q := q) hc hf hy
  rw [← he] at hb
  rw [daysBeforeYear_succ]
  refine ⟨by omega, ?_⟩
  by_cases h : r = 365
  · obtain ⟨hy3, hf24⟩ := hlast h
    have hleap : isLeapYear (yearOfDay number) = true := by
      rw [he, hy3]
      exact isLeapYear_of_last hf hf24
    simp only [daysInYear, hleap, if_true]
    omega
  · have : 365 ≤ daysInYear (yearOfDay number) := by
      simp only [daysInYear]
      split <;> omega
    omega

/-- The name of a day. -/
structure Civil where
  year : Int
  month : Nat
  day : Nat
  deriving DecidableEq

namespace Civil

/-- Holds when the calendar has a day of this name. -/
def Valid (c : Civil) : Prop :=
  1 ≤ c.day ∧ c.day ≤ daysInMonth (isLeapYear c.year) c.month

instance (c : Civil) : Decidable c.Valid :=
  inferInstanceAs (Decidable (_ ∧ _))

def number (c : Civil) : Int :=
  daysBeforeYear c.year + (daysBeforeMonth (isLeapYear c.year) c.month + (c.day - 1) : Nat)

def ofNumber (number : Int) : Civil :=
  let year := yearOfDay number
  let dayOfYear := (number - daysBeforeYear year).toNat
  let (month, day) := splitMonths (monthLengths (isLeapYear year)) dayOfYear
  ⟨year, month + 1, day + 1⟩

end Civil

end Fortnight
