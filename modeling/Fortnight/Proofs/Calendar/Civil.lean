import Mathlib.Algebra.GroupWithZero.Nat
import Mathlib.Data.Int.Notation
import Mathlib.Data.List.Basic
import Fortnight.Calendar.Date

/-!
# Days and their names

The name of a day is one that the calendar has, and the day of this name is the
one that was named. Some dates of 2024 are given short names for runs on fixed inputs.
-/

namespace Fortnight

theorem splitMonths_spec {lengths : List ℕ} {day : ℕ} (h : day < lengths.sum) :
    ∃ length, lengths[(splitMonths lengths day).1]? = some length ∧
      (splitMonths lengths day).2 < length ∧
      (lengths.take (splitMonths lengths day).1).sum + (splitMonths lengths day).2 = day := by
  induction lengths generalizing day with
  | nil => simp at h
  | cons first rest ih =>
    rw [splitMonths]
    split
    · rename_i hday
      exact ⟨first, rfl, hday, by simp⟩
    · rename_i hday
      have hrest : day - first < rest.sum := by
        rw [List.sum_cons] at h
        omega
      obtain ⟨length, hlength, hlt, hsum⟩ := ih hrest
      refine ⟨length, hlength, hlt, ?_⟩
      simp only [List.take_succ_cons, List.sum_cons]
      omega

theorem sum_monthLengths (year : ℤ) : (monthLengths (isLeapYear year)).sum = daysInYear year := by
  unfold monthLengths daysInYear
  cases isLeapYear year <;> rfl

theorem daysBeforeMonth_succ (leap : Bool) (month : ℕ) :
    daysBeforeMonth leap (month + 1) = ((monthLengths leap).take month).sum := by
  rw [daysBeforeMonth, Nat.add_sub_cancel, List.sum_eq_foldl]

theorem length_le_of_mem_monthLengths {leap : Bool} {length : ℕ} (h : length ∈ monthLengths leap) :
    length ≤ 31 := by
  have hall : ∀ leap, ∀ length ∈ monthLengths leap, length ≤ 31 := by
    decide
  exact hall leap length h

namespace Civil

/-- The name of a day is one that the calendar has, and it leads back to the day. -/
theorem ofNumber_spec (n : ℤ) :
    (ofNumber n).Valid ∧ (ofNumber n).number = n ∧ (ofNumber n).month ≤ 12 ∧
      (ofNumber n).day ≤ 31 := by
  obtain ⟨hfirst, hlast⟩ := yearOfDay_bounds n
  rw [daysBeforeYear_succ] at hlast
  have hday : (n - daysBeforeYear (yearOfDay n)).toNat <
      (monthLengths (isLeapYear (yearOfDay n))).sum := by
    rw [sum_monthLengths]
    omega
  have hname : ofNumber n =
      let split := splitMonths (monthLengths (isLeapYear (yearOfDay n)))
        (n - daysBeforeYear (yearOfDay n)).toNat
      ⟨yearOfDay n, split.1 + 1, split.2 + 1⟩ := rfl
  obtain ⟨length, hlength, hlt, hsum⟩ := splitMonths_spec hday
  generalize splitMonths (monthLengths (isLeapYear (yearOfDay n)))
    (n - daysBeforeYear (yearOfDay n)).toNat = split at hname hlength hlt hsum
  have hmonth : split.1 + 1 ≤ 12 := (List.getElem?_eq_some_iff.mp hlength).1
  have hle := length_le_of_mem_monthLengths (List.mem_of_getElem? hlength)
  rw [hname]
  refine ⟨⟨Nat.succ_pos _, ?_⟩, ?_, hmonth, Nat.lt_of_lt_of_le hlt hle⟩
  · rw [daysInMonth, hlength]
    exact hlt
  · simp only [number, daysBeforeMonth_succ, Nat.add_sub_cancel, hsum]
    omega

end Civil

namespace Date

theorem civil_spec (d : Date) :
    d.civil.Valid ∧ d.civil.number = d.number ∧ d.civil.month ≤ 12 ∧ d.civil.day ≤ 31 :=
  Civil.ofNumber_spec d.number

theorem ofCivil?_civil (d : Date) : ofCivil? d.civil.year d.civil.month d.civil.day = some d := by
  obtain ⟨hvalid, hnumber, _⟩ := d.civil_spec
  rw [ofCivil?]
  rw [if_pos hvalid]
  exact ofNumber?_eq_some_iff.mpr hnumber.symm

end Date

section Samples

/-- A day of January 2024. -/
def january (day : ℕ) : Date :=
  (Date.ofCivil? 2024 1 day).getD Date.first

/-- A day of February 2024. -/
def february (day : ℕ) : Date :=
  (Date.ofCivil? 2024 2 day).getD Date.first

end Samples

end Fortnight
