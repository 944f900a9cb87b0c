import Mathlib.Data.List.Perm.Basic
import Fortnight.Proofs.Timeline

/-!
# Days that are put in order

Days make a timeline exactly if their dates are those of a fortnight. They may be
given in any order, and whatever was entered for them stays as it is: the timeline
has the same days by ascending dates. A fortnight that would last beyond the end
of the calendar is none.
-/

namespace Fortnight

namespace Date

variable {start : Date} {dates l : List Date}

theorem isFortnight_iff :
    start.IsFortnight dates ↔
      dates.map some = (List.range periodLength).map fun (k : ℕ) => start.plus? k := by
  constructor
  · intro h
    apply List.ext_getElem
    · simp [h.length_eq]
    · intro i hi _
      rw [List.length_map] at hi
      simp only [List.getElem_map, List.getElem_range]
      exact (ofNumber?_eq_some_iff.mpr (h.number_eq hi)).symm
  · intro h
    have hlength : dates.length = periodLength := by
      simpa using congrArg List.length h
    refine .of_number hlength fun i hi => ?_
    have hplace := congrArg (fun places => places[i]?) h
    have hplus : start.plus? i = some dates[i] := by
      simpa [hi, hlength ▸ hi, eq_comm] using hplace
    exact ofNumber?_eq_some_iff.mp hplus

/-- Dates in any order are a fortnight if they are those at distances of 0 to 13 days from
one date. None of these leads out of the calendar, for then no date would be at it. -/
theorem exists_isFortnight_perm_iff :
    (∃ dates, start.IsFortnight dates ∧ l.Perm dates) ↔
      (l.map some).Perm ((List.range periodLength).map fun (k : ℕ) => start.plus? k) := by
  constructor
  · rintro ⟨dates, hdates, hperm⟩
    rw [← isFortnight_iff.mp hdates]
    exact hperm.map some
  · intro hperm
    have hsome : List.Forall₂ (fun place date => place = some date) (l.map some) l :=
      List.forall₂_map_left_iff.mpr (List.forall₂_same.mpr fun _ _ => rfl)
    obtain ⟨dates, hplaces, hdates⟩ := List.perm_comp_forall₂ hperm.symm hsome
    have hfortnight : dates.map some =
        (List.range periodLength).map fun (k : ℕ) => start.plus? k := by
      rw [← List.forall₂_map_right_iff, List.forall₂_eq_eq_eq] at hplaces
      exact hplaces.symm
    exact ⟨dates, isFortnight_iff.mpr hfortnight, hdates.symm⟩

theorem pairwise_mergeSort (l : List Date) :
    (l.mergeSort fun a b => a ≤ b).Pairwise fun a b => a ≤ b := by
  have hsorted : (l.mergeSort fun a b => a ≤ b).Pairwise fun a b => decide (a ≤ b) = true := by
    apply List.pairwise_mergeSort
    · intro a b c hab hbc
      simp only [decide_eq_true_eq] at *
      exact Int.le_trans hab hbc
    · intro a b
      simp only [Bool.or_eq_true, decide_eq_true_eq]
      exact Int.le_total a.number b.number
  simpa using hsorted

theorem IsFortnight.mergeSort_eq (h : start.IsFortnight dates) (hperm : l.Perm dates) :
    (l.mergeSort fun a b => a ≤ b) = dates := by
  refine List.Perm.eq_of_pairwise (fun a b _ _ hab hba => ext_number (Int.le_antisymm hab hba))
    (pairwise_mergeSort l) ?_ ((List.mergeSort_perm l _).trans hperm)
  exact h.pairwise.imp fun hab => Int.le_of_lt hab

end Date

namespace Timeline

variable {days : List Day} {t : Timeline} {start : Date}

theorem exists_isFortnight_of_ofDays (h : ofDays days = .ok t) :
    ∃ start : Date, start.IsFortnight t.dates := by
  obtain ⟨_, hlength, hchain⟩ := ofDays_eq_ok_iff.mp h
  cases hdates : t.dates with
  | nil =>
    rw [hdates] at hlength
    cases hlength
  | cons start rest =>
    rw [hdates] at hlength hchain
    exact ⟨start, hlength, rfl, hchain⟩

theorem ofDays_of_perm {dates : List Date} (hdates : start.IsFortnight dates)
    (hperm : (days.map Day.date).Perm dates) :
    ofDays days = .ok ⟨days.mergeSort fun a b => a.date ≤ b.date⟩ := by
  have hsorted : (days.mergeSort fun a b => a.date ≤ b.date).map Day.date = dates := by
    rw [dates_mergeSort, hdates.mergeSort_eq hperm]
  refine ofDays_eq_ok_iff.mpr ⟨rfl, ?_, ?_⟩
  · rw [Timeline.dates, hsorted]
    exact hdates.length_eq
  · rw [Timeline.dates, hsorted]
    exact hdates.consecutive

theorem eq_timelineShape_of_ofDays {e : Error} (h : ofDays days = .error e) :
    e = .illegalState (.timelineShape days.length) := by
  unfold ofDays at h
  dsimp only at h
  split at h
  · cases h
  · cases h
    rfl

/-- The dates of the days are some date and those 1 to 13 days after it, in any order. Where
the calendar ends before the last of them there is no such date, and so no full fortnight. -/
def IsFullFortnight (days : List Day) : Prop :=
  ∃ start : Date, (days.map fun d => some d.date).Perm
    ((List.range periodLength).map fun (k : ℕ) => start.plus? k)

theorem isFullFortnight_iff :
    IsFullFortnight days ↔
      ∃ start : Date, ∃ dates, start.IsFortnight dates ∧ (days.map Day.date).Perm dates := by
  refine exists_congr fun start => ?_
  rw [Date.exists_isFortnight_perm_iff, List.map_map]
  rfl

theorem isFullFortnight_of_ofDays (h : ofDays days = .ok t) : IsFullFortnight days := by
  obtain ⟨start, hfortnight⟩ := exists_isFortnight_of_ofDays h
  refine isFullFortnight_iff.mpr ⟨start, t.dates, hfortnight, ?_⟩
  rw [dates, (ofDays_eq_ok_iff.mp h).1]
  exact ((List.mergeSort_perm days _).map Day.date).symm

theorem eq_of_perm_of_pairwise {l m : List Day} (hl : l.Pairwise fun a b => a.date < b.date)
    (hm : m.Pairwise fun a b => a.date < b.date) (hperm : l.Perm m) : l = m := by
  refine List.Perm.eq_of_pairwise (fun a b _ _ hab hba => ?_) hl hm hperm
  exact absurd hba (Int.lt_asymm hab)

theorem pairwise_of_ofDays (h : ofDays days = .ok t) :
    t.days.Pairwise fun a b => a.date < b.date := by
  obtain ⟨_, hfortnight⟩ := exists_isFortnight_of_ofDays h
  exact List.pairwise_map.mp hfortnight.pairwise

/-- Days make a timeline exactly if they are a full fortnight, and that is the one of
the same days by ascending dates. All others are turned down because of their shape. -/
theorem ofDays_fullFortnight (days : List Day) :
    ((∃ t, ofDays days = .ok t) ↔ IsFullFortnight days) ∧
      (∀ t, ofDays days = .ok t ↔ IsFullFortnight days ∧ t.days.Perm days ∧
        t.days.Pairwise fun a b => a.date < b.date) ∧
      ∀ e, ofDays days = .error e ↔
        ¬ IsFullFortnight days ∧ e = .illegalState (.timelineShape days.length) := by
  have hok : ∀ h : IsFullFortnight days,
      ofDays days = .ok ⟨days.mergeSort fun a b => a.date ≤ b.date⟩ := by
    intro h
    obtain ⟨start, dates, hdates, hperm⟩ := isFullFortnight_iff.mp h
    exact ofDays_of_perm hdates hperm
  refine ⟨?_, fun t => ?_, fun e => ?_⟩
  · constructor
    · rintro ⟨_, h⟩
      exact isFullFortnight_of_ofDays h
    · exact fun h => ⟨_, hok h⟩
  · constructor
    · intro h
      refine ⟨isFullFortnight_of_ofDays h, ?_, pairwise_of_ofDays h⟩
      rw [(ofDays_eq_ok_iff.mp h).1]
      exact List.mergeSort_perm days _
    · rintro ⟨hfull, hperm, hpairwise⟩
      have hsorted := eq_of_perm_of_pairwise (pairwise_of_ofDays (hok hfull)) hpairwise
        ((List.mergeSort_perm days _).trans hperm.symm)
      rw [hok hfull]
      exact congrArg (fun days => Except.ok (Timeline.mk days)) hsorted
  · constructor
    · intro h
      refine ⟨fun hfull => ?_, eq_timelineShape_of_ofDays h⟩
      rw [hok hfull] at h
      cases h
    · rintro ⟨hfull, rfl⟩
      cases h : ofDays days with
      | ok t => exact absurd (isFullFortnight_of_ofDays h) hfull
      | error e => rw [eq_timelineShape_of_ofDays h]

end Timeline

end Fortnight
