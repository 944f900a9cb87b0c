import Mathlib
import Fortnight.Calendar.Holiday
import Fortnight.Proofs.Calendar.Easter

/-!
# The holidays of a year

Easter is far enough from both ends of its year that no holiday around it leaves
that year, whatever the year is. So a date is a holiday of its own year or of
none. In a supported year that has an Easter, none of the holidays is dropped.
-/

namespace Fortnight

theorem forall₂_filterMap {α β : Type} {f : α → Option β} {r : α → β → Prop} {l : List α}
    (h : ∀ a ∈ l, ∃ b, f a = some b ∧ r a b) : List.Forall₂ r l (l.filterMap f) := by
  induction l with
  | nil => exact .nil
  | cons a l ih =>
    obtain ⟨⟨b, hb, hr⟩, hl⟩ := List.forall_mem_cons.mp h
    rw [List.filterMap_cons_some hb]
    exact .cons hr (ih hl)

theorem daysBeforeMonth_bounds (leap : Bool) {month : ℕ} (h : 2 ≤ month) (h' : month ≤ 5) :
    31 ≤ daysBeforeMonth leap month ∧
      daysBeforeMonth leap month + daysInMonth leap month ≤ 152 := by
  have hall : ∀ leap, ∀ month ≤ 5, 2 ≤ month → 31 ≤ daysBeforeMonth leap month ∧
      daysBeforeMonth leap month + daysInMonth leap month ≤ 152 := by
    decide
  exact hall leap month h' h

theorem number_of_easterSunday? {year : ℤ} {easter : Date} (h : easterSunday? year = some easter) :
    daysBeforeYear year + 31 ≤ easter.number ∧ easter.number < daysBeforeYear year + 152 := by
  have hday := Easter.methodDay_bounds year
  have hmonth := Int.tdiv_eq_ediv_of_nonneg (b := 31)
    (show 0 ≤ Easter.methodDay year + 92 by omega)
  simp only [easterSunday?, Easter.easterMonthDay_eq, hmonth] at h
  split at h
  · obtain ⟨hvalid, hnumber⟩ := Date.ofCivil?_eq_some_iff.mp h
    have hwithin := hvalid.number_bounds
    have hseason := daysBeforeMonth_bounds (isLeapYear year)
      (show 2 ≤ ((Easter.methodDay year + 92) / 31).toNat by omega) (by omega)
    rw [hnumber]
    dsimp only at hwithin
    omega
  · cases h

namespace Holiday

variable {year : ℤ} {easter : Date} {holiday : Holiday}

theorem mem_inYear :
    holiday ∈ inYear year ↔ holiday ∈ fixedInYear year ∨
      ∃ easter, easterSunday? year = some easter ∧ holiday ∈ movableAround easter := by
  unfold inYear
  cases easterSunday? year <;> simp

theorem pairwise_inYear (year : ℤ) : (inYear year).Pairwise fun a b => a.date ≤ b.date := by
  have hsorted : (inYear year).Pairwise fun a b => decide (a.date ≤ b.date) = true := by
    apply List.pairwise_mergeSort
    · intro a b c hab hbc
      rw [decide_eq_true_eq, Date.le_iff] at *
      omega
    · intro a b
      rw [Bool.or_eq_true, decide_eq_true_eq, decide_eq_true_eq, Date.le_iff, Date.le_iff]
      omega
  simpa using hsorted

theorem year_of_mem_fixedInYear (h : holiday ∈ fixedInYear year) : holiday.date.year = year := by
  obtain ⟨rule, _, hrule⟩ := List.mem_filterMap.mp h
  obtain ⟨date, hdate, rfl⟩ := Option.map_eq_some_iff.mp hrule
  exact Date.year_of_ofCivil? hdate

theorem distance_bounds : ∀ rule ∈ movable, -3 ≤ rule.1 ∧ rule.1 ≤ 50 := by
  decide

theorem yearOfDay_movable (h : easterSunday? year = some easter) {rule : ℤ × String}
    (hrule : rule ∈ movable) : yearOfDay (easter.number + rule.1) = year := by
  have heaster := number_of_easterSunday? h
  have hdistance := distance_bounds rule hrule
  have hlength : 365 ≤ daysInYear year := by
    unfold daysInYear
    split <;> omega
  rw [yearOfDay_eq_iff, daysBeforeYear_succ]
  omega

theorem year_of_mem_movableAround (heaster : easterSunday? year = some easter)
    (h : holiday ∈ movableAround easter) : holiday.date.year = year := by
  obtain ⟨rule, hmem, hrule⟩ := List.mem_filterMap.mp h
  obtain ⟨date, hdate, rfl⟩ := Option.map_eq_some_iff.mp hrule
  rw [Date.year, Date.ofNumber?_eq_some_iff.mp hdate]
  exact yearOfDay_movable heaster hmem

theorem year_of_mem_inYear (h : holiday ∈ inYear year) : holiday.date.year = year := by
  rcases mem_inYear.mp h with hfixed | ⟨easter, heaster, hmovable⟩
  · exact year_of_mem_fixedInYear hfixed
  · exact year_of_mem_movableAround heaster hmovable

theorem isHoliday_iff {d : Date} :
    d.isHoliday ↔ ∃ year, ∃ holiday ∈ inYear year, holiday.date = d := by
  rw [Date.isHoliday, List.any_eq_true]
  simp only [decide_eq_true_eq]
  constructor
  · rintro ⟨holiday, hmem, hdate⟩
    exact ⟨d.year, holiday, hmem, hdate⟩
  · rintro ⟨year, holiday, hmem, rfl⟩
    rw [← year_of_mem_inYear hmem] at hmem
    exact ⟨holiday, hmem, rfl⟩

/-- The holiday has its name and, in this year, its fixed date. -/
def IsFixed (year : ℤ) (rule : ℕ × ℕ × String) (holiday : Holiday) : Prop :=
  Date.ofCivil? year rule.1 rule.2.1 = some holiday.date ∧ holiday.name = rule.2.2

/-- The holiday has its name and its distance from Easter Sunday. -/
def IsMovable (easter : Date) (rule : ℤ × String) (holiday : Holiday) : Prop :=
  easter.plus? rule.1 = some holiday.date ∧ holiday.name = rule.2

/-- All holidays of the year are there, and nothing else. -/
def Complete (year : ℤ) (holidays : List Holiday) : Prop :=
  ∃ easter fixeds movables, easterSunday? year = some easter ∧
    List.Forall₂ (IsFixed year) fixed fixeds ∧ List.Forall₂ (IsMovable easter) movable movables ∧
    holidays.Perm (fixeds ++ movables)

theorem Complete.length_eq {holidays : List Holiday} (h : Complete year holidays) :
    holidays.length = 12 := by
  obtain ⟨_, fixeds, movables, _, hfixed, hmovable, hperm⟩ := h
  rw [hperm.length_eq, List.length_append, ← hfixed.length_eq, ← hmovable.length_eq]
  rfl

theorem forall₂_fixedInYear (hfirst : -262143 ≤ year) (hlast : year ≤ 262142) :
    List.Forall₂ (IsFixed year) fixed (fixedInYear year) := by
  have hvalid : ∀ leap, ∀ rule ∈ fixed, 1 ≤ rule.2.1 ∧ rule.2.1 ≤ daysInMonth leap rule.1 := by
    decide
  apply forall₂_filterMap
  intro rule hrule
  obtain ⟨date, hdate, _⟩ := Date.exists_ofCivil? hfirst hlast (hvalid _ rule hrule)
  exact ⟨⟨date, rule.2.2⟩, by simp [hdate], hdate, rfl⟩

theorem forall₂_movableAround (hfirst : -262143 ≤ year) (hlast : year ≤ 262142)
    (heaster : easterSunday? year = some easter) :
    List.Forall₂ (IsMovable easter) movable (movableAround easter) := by
  apply forall₂_filterMap
  intro rule hrule
  obtain ⟨date, hnumber⟩ := Date.exists_of_year hfirst hlast (yearOfDay_movable heaster hrule)
  have hdate : easter.plus? rule.1 = some date := Date.ofNumber?_eq_some_iff.mpr hnumber
  exact ⟨⟨date, rule.2⟩, by simp [hdate], hdate, rfl⟩

/-- Nothing is dropped in a supported year that has an Easter. -/
theorem complete_inYear (hfirst : -262143 ≤ year) (hlast : year ≤ 262142)
    (heaster : easterSunday? year = some easter) : Complete year (inYear year) := by
  refine ⟨easter, fixedInYear year, movableAround easter, heaster,
    forall₂_fixedInYear hfirst hlast, forall₂_movableAround hfirst hlast heaster, ?_⟩
  unfold inYear
  rw [heaster]
  exact List.mergeSort_perm ..

/-- The holidays of a year are in order and belong to that year, so that a date is a
holiday as soon as any year has it. From year 0 on all of them are there. -/
theorem inYear_spec (year : ℤ) :
    ((inYear year).Pairwise fun a b => a.date ≤ b.date) ∧
      (∀ holiday ∈ inYear year, holiday.date.year = year) ∧
      (∀ d : Date, d.isHoliday ↔ ∃ year, ∃ holiday ∈ inYear year, holiday.date = d) ∧
      (0 ≤ year → year ≤ 262142 → Complete year (inYear year)) := by
  refine ⟨pairwise_inYear year, fun _ => year_of_mem_inYear, fun _ => isHoliday_iff, ?_⟩
  intro h hlast
  obtain ⟨easter, heaster, _⟩ := Easter.exists_easterSunday h hlast
  exact complete_inYear (by omega) hlast heaster

set_option maxRecDepth 8000 in
/-- In the last supported year Ascension Day is Constitution Day, and both are listed. -/
theorem inYear_spec_last :
    (0 : ℤ) ≤ 262142 ∧ (262142 : ℤ) ≤ 262142 ∧
      ((inYear 262142).map fun holiday => (holiday.date.civil.month, holiday.date.civil.day)) =
        [(1, 1), (4, 5), (4, 6), (4, 8), (4, 9), (5, 1), (5, 17), (5, 17), (5, 27), (5, 28),
          (12, 25), (12, 26)] ∧
      ((inYear 262142).Pairwise fun a b => a.date ≤ b.date) ∧
      (∀ holiday ∈ inYear 262142, holiday.date.year = 262142) ∧
      (∀ d : Date, d.isHoliday ↔ ∃ year, ∃ holiday ∈ inYear year, holiday.date = d) ∧
      Complete 262142 (inYear 262142) := by
  obtain ⟨hsorted, hyear, hany, hcomplete⟩ := inYear_spec 262142
  exact ⟨by decide, by decide, by cbv, hsorted, hyear, hany, hcomplete (by decide) (by decide)⟩

/-- The method yields 31 February in year -2, and so there is no Easter. -/
example : easterMonthDay (-2) = (2, 31) ∧ (inYear (-2)).length = 5 := by
  cbv

end Holiday

end Fortnight
