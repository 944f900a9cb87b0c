import Fortnight.Calendar.Civil

/-!
# Dates

The dates that are supported run from 1 January of year -262143 to 31 December
of year 262142. A date is kept as its number, so that order, distance and
weekday are arithmetic; year, month and day are derived from it.
-/

namespace Fortnight

namespace Date

def firstNumber : Int := daysBeforeYear (-262143)

def lastNumber : Int := daysBeforeYear 262143 - 1

end Date

/-- A day within the supported range, given by its number. -/
structure Date where
  number : Int
  first_le : Date.firstNumber ≤ number
  le_last : number ≤ Date.lastNumber
  deriving DecidableEq

namespace Date

instance : LT Date := ⟨fun a b => a.number < b.number⟩

instance : LE Date := ⟨fun a b => a.number ≤ b.number⟩

instance (a b : Date) : Decidable (a < b) :=
  inferInstanceAs (Decidable (a.number < b.number))

instance (a b : Date) : Decidable (a ≤ b) :=
  inferInstanceAs (Decidable (a.number ≤ b.number))

theorem lt_iff {a b : Date} : a < b ↔ a.number < b.number := Iff.rfl

theorem le_iff {a b : Date} : a ≤ b ↔ a.number ≤ b.number := Iff.rfl

theorem ext_number {a b : Date} (h : a.number = b.number) : a = b := by
  cases a; cases b; simp_all

/-- The date with the given number, unless it lies outside the range. -/
def ofNumber? (number : Int) : Option Date :=
  if h : firstNumber ≤ number ∧ number ≤ lastNumber then some ⟨number, h.1, h.2⟩ else none

theorem ofNumber?_eq_some_iff {number : Int} {d : Date} :
    ofNumber? number = some d ↔ d.number = number := by
  simp only [ofNumber?]
  split
  · rename_i h
    constructor
    · intro e
      cases e
      rfl
    · intro e
      exact congrArg some (ext_number e.symm)
  · rename_i h
    constructor
    · intro e
      cases e
    · intro e
      exact absurd ⟨e ▸ d.first_le, e ▸ d.le_last⟩ h

/-- The first supported date. -/
def first : Date := ⟨firstNumber, by decide, by decide⟩

/-- The date that lies `days` later, or earlier if `days` is negative. -/
def plus? (d : Date) (days : Int) : Option Date :=
  ofNumber? (d.number + days)

def next? (d : Date) : Option Date :=
  d.plus? 1

/-- Days since the latest Monday, that is 0 on Monday and 6 on Sunday. -/
def weekday (d : Date) : Nat :=
  (d.number % 7).toNat

def civil (d : Date) : Civil :=
  Civil.ofNumber d.number

def year (d : Date) : Int :=
  yearOfDay d.number

def ofCivil? (year : Int) (month day : Nat) : Option Date :=
  let c : Civil := ⟨year, month, day⟩
  if c.Valid then ofNumber? c.number else none

end Date

end Fortnight
