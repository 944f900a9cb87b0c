import Fortnight.Calendar.Easter
import Fortnight.Proofs.Calendar.Year

/-!
# Easter Sunday

The church keeps Easter on the first Sunday after its full moon, which is not
observed but computed: from the place of the year in the cycle of the moon and
from the age of the moon that goes with it, with two exceptions. The method that
divides and divides never mentions that moon. From year 0 on it comes to the
same day, because its first remainder counts the days from 21 March to the full
moon without the exceptions, its second one the days from there to the Sunday,
and its last quotient is 1 exactly where an exception moves the full moon off a
Sunday.
-/

namespace Fortnight

namespace Date

/-- The date that is day `k` of March, where days beyond the 31st are those of April. -/
def ofMarch? (year k : ℤ) : Option Date :=
  if k ≤ 31 then ofCivil? year 3 k.toNat else ofCivil? year 4 (k - 31).toNat

/-- `d` is a Sunday, and the first one after `e`. -/
structure IsFirstSundayAfter (d e : Date) : Prop where
  weekday_eq : d.weekday = 6
  after : e < d
  le_of_sunday : ∀ s : Date, e < s → s.weekday = 6 → d ≤ s

theorem weekday_eq_six_iff {d : Date} : d.weekday = 6 ↔ d.number % 7 = 6 := by
  unfold weekday
  omega

theorem IsFirstSundayAfter.of_number {d e : Date} (hsunday : d.number % 7 = 6)
    (hafter : e.number < d.number) (hweek : d.number ≤ e.number + 7) : d.IsFirstSundayAfter e where
  weekday_eq := weekday_eq_six_iff.mpr hsunday
  after := lt_iff.mpr hafter
  le_of_sunday s hs hs6 := by
    rw [weekday_eq_six_iff] at hs6
    rw [lt_iff] at hs
    rw [le_iff]
    omega

end Date

namespace Easter

section FullMoon

variable (year : ℤ)

/-- The place of the year among the 19 years after which the moon begins anew. -/
def goldenNumber : ℤ := year % 19 + 1

def century : ℤ := year / 100 + 1

/-- The leap days that centuries have left out. -/
def solarCorrection : ℤ := 3 * century year / 4 - 12

/-- The days by which the moon has come to be early. -/
def lunarCorrection : ℤ := (8 * century year + 5) / 25 - 5

/-- The age of the moon when the year begins. -/
def epact : ℤ :=
  (11 * goldenNumber year + 20 + lunarCorrection year - solarCorrection year) % 30

/-- Holds in the years in which the full moon is kept one day early. -/
def IsException : Prop :=
  epact year = 24 ∨ epact year = 25 ∧ 11 < goldenNumber year

instance : Decidable (IsException year) :=
  inferInstanceAs (Decidable (_ ∨ _))

def adjustedEpact : ℤ :=
  if IsException year then epact year + 1 else epact year

/-- The day of March on which the moon is full. -/
def fullMoonDay : ℤ :=
  if 44 - adjustedEpact year < 21 then 44 - adjustedEpact year + 30 else 44 - adjustedEpact year

def fullMoon? : Option Date :=
  Date.ofMarch? year (fullMoonDay year)

end FullMoon

section Method

variable (year : ℤ)

/-- How far the full moon is from 21 March, by the method. -/
def moonTerm : ℤ :=
  (19 * year.tmod 19 + year.tdiv 100 - (year.tdiv 100).tdiv 4 -
    (year.tdiv 100 - (year.tdiv 100 + 8).tdiv 25 + 1).tdiv 3 + 15).tmod 30

/-- How far the Sunday is from the day after the full moon, by the method. -/
def sundayTerm : ℤ :=
  (32 + 2 * (year.tdiv 100).tmod 4 + 2 * (year.tmod 100).tdiv 4 - moonTerm year -
    (year.tmod 100).tmod 4).tmod 7

/-- How many weeks the method goes back in the end. -/
def weeksBack : ℤ :=
  (year.tmod 19 + 11 * moonTerm year + 22 * sundayTerm year).tdiv 451

/-- The day of March that the method yields. -/
def methodDay : ℤ :=
  moonTerm year + sundayTerm year - 7 * weeksBack year + 22

end Method

variable {year : ℤ}

theorem easterMonthDay_eq (year : ℤ) :
    easterMonthDay year =
      ((methodDay year + 92).tdiv 31, (methodDay year + 92).tmod 31 + 1) := by
  have hsum : methodDay year + 92 =
      moonTerm year + sundayTerm year - 7 * weeksBack year + 114 := by
    unfold methodDay
    omega
  rw [hsum]
  rfl

theorem tmod_bounds (n : ℤ) {k : ℤ} (hk : 0 < k) : -k < n.tmod k ∧ n.tmod k < k :=
  ⟨Int.lt_tmod_of_pos n hk, Int.tmod_lt_of_pos n hk⟩

theorem methodDay_bounds (year : ℤ) : -27 ≤ methodDay year ∧ methodDay year ≤ 71 := by
  have hgolden := tmod_bounds year (show (0 : ℤ) < 19 by decide)
  have hmoon : -30 < moonTerm year ∧ moonTerm year < 30 := tmod_bounds _ (by decide)
  have hsunday : -7 < sundayTerm year ∧ sundayTerm year < 7 := tmod_bounds _ (by decide)
  have hback : -2 ≤ weeksBack year ∧ weeksBack year ≤ 2 := by
    unfold weeksBack
    generalize hsum : year.tmod 19 + 11 * moonTerm year + 22 * sundayTerm year = sum
    have hdiv := Int.tmod_add_tdiv_mul sum 451
    have hmod := tmod_bounds sum (show (0 : ℤ) < 451 by decide)
    omega
  unfold methodDay
  omega

section FromYearZero

/-- The part of the century that the method takes away is the correction for the moon. -/
theorem lunarCorrection_eq (year : ℤ) :
    (year / 100 - (year / 100 + 8) / 25 + 1) / 3 = lunarCorrection year + 5 := by
  unfold lunarCorrection century
  omega

theorem solarCorrection_eq (year : ℤ) :
    year / 100 - year / 100 / 4 = solarCorrection year + 12 := by
  unfold solarCorrection century
  omega

theorem moonTerm_eq (h : 0 ≤ year) : moonTerm year = (23 - epact year) % 30 := by
  have hcentury : 0 ≤ year / 100 := by omega
  unfold moonTerm
  rw [Int.tmod_eq_emod_of_nonneg h, Int.tdiv_eq_ediv_of_nonneg h,
    Int.tdiv_eq_ediv_of_nonneg hcentury,
    Int.tdiv_eq_ediv_of_nonneg (show 0 ≤ year / 100 + 8 by omega),
    Int.tdiv_eq_ediv_of_nonneg (show 0 ≤ year / 100 - (year / 100 + 8) / 25 + 1 by omega),
    lunarCorrection_eq]
  have hsolar := solarCorrection_eq year
  rw [Int.tmod_eq_emod_of_nonneg (by unfold lunarCorrection century; omega)]
  unfold epact goldenNumber
  omega

theorem sundayTerm_eq (h : 0 ≤ year) :
    sundayTerm year = (32 + 2 * (year / 100 % 4) + 2 * (year % 100 / 4) - moonTerm year -
      year % 100 % 4) % 7 := by
  have hmoon := moonTerm_eq h
  unfold sundayTerm
  rw [Int.tmod_eq_emod_of_nonneg h, Int.tdiv_eq_ediv_of_nonneg h,
    Int.tmod_eq_emod_of_nonneg (show 0 ≤ year / 100 by omega),
    Int.tdiv_eq_ediv_of_nonneg (show 0 ≤ year % 100 by omega),
    Int.tmod_eq_emod_of_nonneg (show 0 ≤ year % 100 by omega)]
  exact Int.tmod_eq_emod_of_nonneg (by omega)

theorem moonTerm_bounds (h : 0 ≤ year) : 0 ≤ moonTerm year ∧ moonTerm year ≤ 29 := by
  rw [moonTerm_eq h]
  omega

theorem sundayTerm_bounds (h : 0 ≤ year) : 0 ≤ sundayTerm year ∧ sundayTerm year ≤ 6 := by
  rw [sundayTerm_eq h]
  omega

theorem epact_bounds (year : ℤ) : 0 ≤ epact year ∧ epact year < 30 := by
  unfold epact
  omega

theorem isException_iff (h : 0 ≤ year) :
    IsException year ↔ moonTerm year = 29 ∨ moonTerm year = 28 ∧ 11 < goldenNumber year := by
  have hepact := epact_bounds year
  rw [IsException, moonTerm_eq h]
  omega

theorem fullMoonDay_eq (h : 0 ≤ year) :
    fullMoonDay year = moonTerm year + 21 - if IsException year then 1 else 0 := by
  have hepact := epact_bounds year
  have hexception : IsException year → epact year = 24 ∨ epact year = 25 := by
    unfold IsException
    omega
  rw [fullMoonDay, adjustedEpact, moonTerm_eq h]
  by_cases hyear : IsException year
  · have := hexception hyear
    simp only [if_pos hyear]
    omega
  · simp only [if_neg hyear]
    have : ¬ epact year = 24 := fun he => hyear (Or.inl he)
    omega

/-- The method goes back a week when its Sunday would be the eighth day after a full
moon that is kept a day early. -/
theorem weeksBack_eq (h : 0 ≤ year) :
    weeksBack year = if IsException year ∧ sundayTerm year = 6 then 1 else 0 := by
  have hmoon := moonTerm_bounds h
  have hsunday := sundayTerm_bounds h
  unfold weeksBack
  rw [Int.tmod_eq_emod_of_nonneg h, Int.tdiv_eq_ediv_of_nonneg (by omega)]
  simp only [isException_iff h, goldenNumber]
  split
  · omega
  · omega

theorem methodDay_after (h : 0 ≤ year) :
    fullMoonDay year < methodDay year ∧ methodDay year ≤ fullMoonDay year + 7 := by
  have hsunday := sundayTerm_bounds h
  rw [methodDay, weeksBack_eq h, fullMoonDay_eq h]
  by_cases hyear : IsException year
  · by_cases hlast : sundayTerm year = 6
    · rw [if_pos hyear, if_pos ⟨hyear, hlast⟩]
      omega
    · rw [if_pos hyear, if_neg fun hboth => hlast hboth.2]
      omega
  · rw [if_neg hyear, if_neg fun hboth => hyear hboth.1]
    omega

theorem fullMoonDay_bounds (h : 0 ≤ year) : 21 ≤ fullMoonDay year ∧ fullMoonDay year ≤ 49 := by
  have hmoon := moonTerm_bounds h
  rw [fullMoonDay_eq h]
  simp only [isException_iff h]
  split
  · omega
  · omega

end FromYearZero

/-- The number of the last day of February. -/
def lastOfFebruary (year : ℤ) : ℤ :=
  365 * (year - 1) + year / 4 - year / 100 + year / 400 + 58

theorem number_of_march (year : ℤ) {day : ℕ} (hday : 1 ≤ day) :
    Civil.number ⟨year, 3, day⟩ = lastOfFebruary year + day := by
  have hbefore : daysBeforeMonth (isLeapYear year) 3 = if isLeapYear year then 60 else 59 := by
    cases isLeapYear year <;> rfl
  have hleap : isLeapYear year = true ↔ year % 4 = 0 ∧ (year % 100 ≠ 0 ∨ year % 400 = 0) := by
    simp [isLeapYear]
  simp only [Civil.number, daysBeforeYear, hbefore, hleap, lastOfFebruary]
  split
  · omega
  · omega

theorem number_of_april (year : ℤ) {day : ℕ} (hday : 1 ≤ day) :
    Civil.number ⟨year, 4, day⟩ = lastOfFebruary year + 31 + day := by
  have hbefore :
      daysBeforeMonth (isLeapYear year) 4 = daysBeforeMonth (isLeapYear year) 3 + 31 := by
    cases isLeapYear year <;> rfl
  have hmarch := number_of_march year hday
  simp only [Civil.number, hbefore] at hmarch ⊢
  omega

/-- The method yields a Sunday, since its second remainder makes up for the weekday on
which the day after the full moon falls. -/
theorem methodDay_sunday (h : 0 ≤ year) : (lastOfFebruary year + methodDay year) % 7 = 6 := by
  have hfour : year / 4 = 25 * (year / 100) + year % 100 / 4 := by omega
  have hcenturies : year / 400 = year / 100 / 4 := by omega
  have hsunday := sundayTerm_eq h
  unfold lastOfFebruary methodDay
  rw [hfour, hcenturies]
  omega

theorem exists_ofMarch? (hfirst : -262143 ≤ year) (hlast : year ≤ 262142) {k : ℤ}
    (hk : 1 ≤ k ∧ k ≤ 61) :
    ∃ d, Date.ofMarch? year k = some d ∧ d.number = lastOfFebruary year + k := by
  have hlengths : daysInMonth (isLeapYear year) 3 = 31 ∧ daysInMonth (isLeapYear year) 4 = 30 := by
    cases isLeapYear year <;> decide
  unfold Date.ofMarch?
  split
  · have hvalid : Civil.Valid ⟨year, 3, k.toNat⟩ := by
      simp only [Civil.Valid, hlengths]
      omega
    obtain ⟨d, hd, hnumber⟩ := Date.exists_ofCivil? hfirst hlast hvalid
    refine ⟨d, hd, ?_⟩
    rw [hnumber, number_of_march year (show 1 ≤ k.toNat from hvalid.1)]
    omega
  · have hvalid : Civil.Valid ⟨year, 4, (k - 31).toNat⟩ := by
      simp only [Civil.Valid, hlengths]
      omega
    obtain ⟨d, hd, hnumber⟩ := Date.exists_ofCivil? hfirst hlast hvalid
    refine ⟨d, hd, ?_⟩
    rw [hnumber, number_of_april year (show 1 ≤ (k - 31).toNat from hvalid.1)]
    omega

theorem easterSunday?_eq (h : 1 ≤ methodDay year ∧ methodDay year ≤ 61) :
    easterSunday? year = Date.ofMarch? year (methodDay year) := by
  have hmonth := Int.tdiv_eq_ediv_of_nonneg (b := 31) (show 0 ≤ methodDay year + 92 by omega)
  have hday := Int.tmod_eq_emod_of_nonneg (b := 31) (show 0 ≤ methodDay year + 92 by omega)
  simp only [easterSunday?, easterMonthDay_eq, hmonth, hday, Date.ofMarch?]
  rw [if_pos (by omega)]
  split
  · have hmarch : ((methodDay year + 92) / 31).toNat = 3 := by omega
    have hname : (methodDay year + 92) % 31 + 1 = methodDay year := by omega
    rw [hmarch, hname]
  · have hapril : ((methodDay year + 92) / 31).toNat = 4 := by omega
    have hname : (methodDay year + 92) % 31 + 1 = methodDay year - 31 := by omega
    rw [hapril, hname]

theorem methodDay_bounds_of_nonneg (h : 0 ≤ year) : 22 ≤ methodDay year ∧ methodDay year ≤ 56 := by
  have hafter := methodDay_after h
  have hmoon := fullMoonDay_bounds h
  omega

theorem exists_easterSunday (h : 0 ≤ year) (hlast : year ≤ 262142) :
    ∃ easter, easterSunday? year = some easter ∧
      easter.number = lastOfFebruary year + methodDay year := by
  have hday := methodDay_bounds_of_nonneg h
  rw [easterSunday?_eq (by omega)]
  exact exists_ofMarch? (by omega) hlast (by omega)

/-- From year 0 on, Easter Sunday is the first Sunday after the full moon of the church.
It is never before 22 March or after 25 April. -/
theorem isFirstSundayAfter_fullMoon (h : 0 ≤ year) (hlast : year ≤ 262142) :
    ∃ moon easter first last, fullMoon? year = some moon ∧ easterSunday? year = some easter ∧
      easter.IsFirstSundayAfter moon ∧ Date.ofCivil? year 3 22 = some first ∧
      Date.ofCivil? year 4 25 = some last ∧ first ≤ easter ∧ easter ≤ last := by
  have hfirst : -262143 ≤ year := by omega
  obtain ⟨hafter, hweek⟩ := methodDay_after h
  have hday := methodDay_bounds_of_nonneg h
  have hfull := fullMoonDay_bounds h
  have hsunday := methodDay_sunday h
  obtain ⟨moon, hmoon, hmoonNumber⟩ :=
    exists_ofMarch? hfirst hlast (show 1 ≤ fullMoonDay year ∧ fullMoonDay year ≤ 61 by omega)
  obtain ⟨easter, heaster, heasterNumber⟩ := exists_easterSunday h hlast
  obtain ⟨march, hmarch, hmarchNumber⟩ := exists_ofMarch? hfirst hlast (k := 22) (by decide)
  obtain ⟨april, hapril, haprilNumber⟩ := exists_ofMarch? hfirst hlast (k := 56) (by decide)
  refine ⟨moon, easter, march, april, hmoon, heaster, ?_, hmarch, hapril, ?_, ?_⟩
  · exact .of_number (by omega) (by omega) (by omega)
  · rw [Date.le_iff]
    omega
  · rw [Date.le_iff]
    omega

/-- In 1954 the full moon is kept on 17 April, a Saturday. Without the exception it would
be on Easter Sunday itself. -/
theorem isFirstSundayAfter_fullMoon_1954 :
    (0 : ℤ) ≤ 1954 ∧ (1954 : ℤ) ≤ 262142 ∧ IsException 1954 ∧ fullMoonDay 1954 = 48 ∧
      easterMonthDay 1954 = (4, 18) ∧
      ∃ moon easter first last, fullMoon? 1954 = some moon ∧ easterSunday? 1954 = some easter ∧
        easter.IsFirstSundayAfter moon ∧ Date.ofCivil? 1954 3 22 = some first ∧
        Date.ofCivil? 1954 4 25 = some last ∧ first ≤ easter ∧ easter ≤ last :=
  ⟨by decide, by decide, by decide, by decide, by decide,
    isFirstSundayAfter_fullMoon (by decide) (by decide)⟩

end Easter

end Fortnight
