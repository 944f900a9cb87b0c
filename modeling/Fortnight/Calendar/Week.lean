import Fortnight.Error

/-!
# Weeks and fortnights

A reporting period lasts fourteen days and starts on a Monday, so that it ends
on the second Sunday after. It can be approved from the Saturday before its end.
-/

namespace Fortnight

/-- How many days a period has. -/
def periodLength : Nat := 14

namespace Date

/-- The largest count of days by which a date is ever shifted. -/
def longestShift : Nat := 106751991167

def shift (d : Date) (days : Int) : Except Error Date :=
  if longestShift < days.natAbs then .error .overflow
  else
    match d.plus? days with
    | some e => .ok e
    | none => .error (.illegalState (.outOfRange d days))

theorem shift_eq_ok_iff {d e : Date} {days : Int} :
    d.shift days = .ok e ↔ days.natAbs ≤ longestShift ∧ e.number = d.number + days := by
  simp only [shift]
  split
  · rename_i h
    simp
    omega
  · rename_i h
    cases hp : d.plus? days with
    | none =>
      simp only [reduceCtorEq, false_iff, not_and]
      intro _ he
      rw [plus?, ofNumber?_eq_some_iff.2 he] at hp
      cases hp
    | some f =>
      have hf := ofNumber?_eq_some_iff.1 hp
      simp only [Except.ok.injEq]
      constructor
      · rintro rfl
        exact ⟨by omega, hf⟩
      · intro he
        exact ext_number (hf.trans he.2.symm)

/-- The latest Monday that is not after `d`. -/
def mondayOnOrBefore (d : Date) : Except Error Date :=
  d.shift (-(d.weekday : Int))

/-- The latest Saturday that is not after `d`. -/
def saturdayOnOrBefore (d : Date) : Except Error Date :=
  d.shift (-(((d.weekday + 2) % 7 : Nat) : Int))

/-- The last day of a period that starts on `d`. -/
def periodEnd (d : Date) : Except Error Date :=
  d.shift (periodLength - 1)

end Date

end Fortnight
