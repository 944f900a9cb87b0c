import Fortnight.Proofs.Calendar.Civil

/-!
# The days of a year

The days of a year are those from the number of its 1 January on, up to that of
the next year. Every day of a supported year that the calendar has a name for is
a date, and it belongs to the year of its name.
-/

namespace Fortnight

theorem daysBeforeYear_le {year other : ℤ} (h : year ≤ other) :
    daysBeforeYear year ≤ daysBeforeYear other := by
  simp only [daysBeforeYear]
  omega

/-- A day belongs to the one year that begins before it and ends after it. -/
theorem yearOfDay_eq_iff {n year : ℤ} :
    yearOfDay n = year ↔ daysBeforeYear year ≤ n ∧ n < daysBeforeYear (year + 1) := by
  obtain ⟨hfirst, hlast⟩ := yearOfDay_bounds n
  constructor
  · rintro rfl
    exact ⟨hfirst, hlast⟩
  · rintro ⟨hbegin, hend⟩
    by_contra hne
    rcases Int.lt_or_gt_of_ne hne with hlt | hgt
    · have := daysBeforeYear_le (show yearOfDay n + 1 ≤ year by omega)
      omega
    · have := daysBeforeYear_le (show year + 1 ≤ yearOfDay n by omega)
      omega

theorem daysBeforeMonth_add_le (leap : Bool) {month : ℕ} (h : month ≤ 12) :
    daysBeforeMonth leap month + daysInMonth leap month ≤ (monthLengths leap).sum := by
  have hall : ∀ leap, ∀ month ≤ 12,
      daysBeforeMonth leap month + daysInMonth leap month ≤ (monthLengths leap).sum := by
    decide
  exact hall leap month h

namespace Civil

variable {c : Civil}

theorem Valid.month_le (h : c.Valid) : c.month ≤ 12 := by
  by_contra hmonth
  obtain ⟨hfirst, hlast⟩ := h
  obtain ⟨month, hm⟩ : ∃ month, c.month = month + 13 := ⟨c.month - 13, by omega⟩
  rw [hm] at hlast
  simp [daysInMonth, monthLengths] at hlast
  omega

theorem Valid.number_bounds (h : c.Valid) :
    daysBeforeYear c.year + daysBeforeMonth (isLeapYear c.year) c.month ≤ c.number ∧
      c.number < daysBeforeYear c.year + (daysBeforeMonth (isLeapYear c.year) c.month +
        daysInMonth (isLeapYear c.year) c.month : ℕ) := by
  obtain ⟨hfirst, hlast⟩ := h
  unfold number
  omega

theorem Valid.yearOfDay_number (h : c.Valid) : yearOfDay c.number = c.year := by
  have hmonth := daysBeforeMonth_add_le (isLeapYear c.year) h.month_le
  have hbounds := h.number_bounds
  rw [sum_monthLengths] at hmonth
  rw [yearOfDay_eq_iff, daysBeforeYear_succ]
  omega

end Civil

namespace Date

variable {year : ℤ} {month day : ℕ} {d : Date}

theorem ofCivil?_eq_some_iff :
    ofCivil? year month day = some d ↔
      Civil.Valid ⟨year, month, day⟩ ∧ d.number = Civil.number ⟨year, month, day⟩ := by
  simp only [ofCivil?]
  split
  · rename_i hvalid
    rw [ofNumber?_eq_some_iff, and_iff_right hvalid]
  · rename_i hvalid
    simp [hvalid]

theorem year_of_ofCivil? (h : ofCivil? year month day = some d) : d.year = year := by
  obtain ⟨hvalid, hnumber⟩ := ofCivil?_eq_some_iff.mp h
  rw [Date.year, hnumber]
  exact hvalid.yearOfDay_number

/-- The days of the supported years are dates. -/
theorem exists_of_year {n : ℤ} (hfirst : -262143 ≤ year) (hlast : year ≤ 262142)
    (hn : yearOfDay n = year) : ∃ d : Date, d.number = n := by
  obtain ⟨hbegin, hend⟩ := yearOfDay_eq_iff.mp hn
  have h1 := daysBeforeYear_le hfirst
  have h2 := daysBeforeYear_le (show year + 1 ≤ 262143 by omega)
  exact ⟨⟨n, by unfold firstNumber; omega, by unfold lastNumber; omega⟩, rfl⟩

theorem exists_ofCivil? (hfirst : -262143 ≤ year) (hlast : year ≤ 262142)
    (hvalid : Civil.Valid ⟨year, month, day⟩) :
    ∃ d, ofCivil? year month day = some d ∧ d.number = Civil.number ⟨year, month, day⟩ := by
  obtain ⟨d, hd⟩ := exists_of_year hfirst hlast hvalid.yearOfDay_number
  exact ⟨d, ofCivil?_eq_some_iff.mpr ⟨hvalid, hd⟩, hd⟩

end Date

end Fortnight
