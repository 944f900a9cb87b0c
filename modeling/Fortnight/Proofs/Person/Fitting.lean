import Fortnight.Proofs.Person.Rows

/-!
# Which days a period has that was read

The days of a period that was read are a fortnight from its start on, whatever the
record says of its end, and a day has all activities whose rows name it. Nobody
compares the end of a period with its days or counts the activities of a day. So
the days are those of the range, with one live activity at most on each of them,
exactly if the rows of the record say so by themselves.
-/

namespace Fortnight

/-- Holds when the days of a period are the dates of its range, in order, and none
of them has two live activities. -/
structure Period.Fits (q : Period) : Prop where
  ascending : q.timeline.dates.Pairwise (· < ·)
  mem_dates : ∀ date, date ∈ q.timeline.dates ↔ q.start ≤ date ∧ date ≤ q.finish
  one_live : ∀ d ∈ q.timeline.days, d.liveActivities.length ≤ 1

theorem Date.IsFortnight.mem_range_iff {start finish : Date} {dates : List Date}
    (h : start.IsFortnight dates) :
    (∀ date, date ∈ dates ↔ start ≤ date ∧ date ≤ finish) ↔ finish.number = start.number + 13 := by
  simp only [h.mem_iff, le_iff, periodLength]
  constructor
  · intro hrange
    have hlast : 13 < dates.length := by
      rw [h.length_eq, periodLength]
      omega
    have hnumber := h.number_eq hlast
    have hreaches := (hrange dates[13]).mp (h.mem_iff.mp (List.getElem_mem hlast))
    have hends := hrange finish
    omega
  · intro hfinish date
    omega

namespace Record

variable {r : Record} {row : PeriodRow} {q : Period} {id : Id} {p : Person}
  {obligations : List Obligation} {periods : List Period}

/-- The rows of the activities of a day that are not deleted. -/
def liveRowsOn (r : Record) (key : Id × Date) : List ActivityRow :=
  r.activities.filter fun row => activityKey row = key ∧ row.state ≠ .deleted

namespace Assembles

theorem isFortnight (h : r.Assembles row q) : q.start.IsFortnight q.timeline.dates := by
  obtain ⟨_, hlength, hchain⟩ := Timeline.ofDays_eq_ok_iff.mp h.timeline
  have hstart : q.start = row.start := congrArg PeriodRow.start h.row_eq
  refine ⟨hlength, ?_, hchain⟩
  rw [Timeline.dates, List.head?_map, hstart]
  exact h.start

theorem liveActivities_eq (h : r.Assembles row q) {d : Day} (hd : d ∈ q.timeline.days) :
    d.liveActivities = (r.liveRowsOn (q.id, d.date)).map ActivityRow.activity := by
  obtain ⟨hdays, _⟩ := Timeline.ofDays_eq_ok_iff.mp h.timeline
  rw [hdays, List.mem_mergeSort] at hd
  obtain ⟨day, _, rfl⟩ := List.mem_map.mp hd
  rw [h.id_eq, Day.liveActivities, activitiesOf, liveRowsOn, List.filter_map, List.filter_filter]
  congr 1
  apply List.filter_congr
  intro a _
  by_cases hdeleted : a.state = .deleted <;>
    simp [Activity.isLive, ActivityRow.activity, hdeleted]

theorem one_live_iff (h : r.Assembles row q)
    (hday : ∀ a ∈ r.activities, ∃ day ∈ r.days, day.period = a.period ∧ day.date = a.date) :
    (∀ d ∈ q.timeline.days, d.liveActivities.length ≤ 1) ↔
      ∀ date, (r.liveRowsOn (q.id, date)).length ≤ 1 := by
  constructor
  · intro hlive date
    by_cases hdate : date ∈ q.timeline.dates
    · obtain ⟨d, hd, rfl⟩ := List.mem_map.mp hdate
      have hcount := hlive d hd
      rwa [h.liveActivities_eq hd, List.length_map] at hcount
    · -- An activity of another date would need a row for its day, and the period that day.
      have hnone : r.liveRowsOn (q.id, date) = [] := by
        apply List.filter_eq_nil_iff.mpr
        intro a ha hkey
        obtain ⟨⟨hperiod, rfl⟩, _⟩ : (a.period = q.id ∧ a.date = date) ∧ a.state ≠ .deleted := by
          simpa using hkey
        obtain ⟨day, hmem, hsame, hdate'⟩ := hday a ha
        have hrow : day ∈ q.dayRows :=
          h.dayRows_perm.mem_iff.mpr (List.mem_filter.mpr ⟨hmem, by simp [hsame, hperiod, h.id_eq]⟩)
        obtain ⟨d, hd, rfl⟩ := List.mem_map.mp hrow
        exact hdate (List.mem_map.mpr ⟨d, hd, hdate'⟩)
      simp [hnone]
  · intro hrows d hd
    rw [h.liveActivities_eq hd, List.length_map]
    exact hrows d.date

end Assembles

/-- A period that was read has fourteen days from its start on. They fit its range
exactly if the row of the period ends on the last of them, and they have no more
than one live activity each exactly if no two rows are of one day. -/
theorem fits_iff_of_person (h : r.person id = .ok p) (hq : q ∈ p.periods) :
    PeriodRow.ofPeriod q ∈ r.periods ∧ q.start.IsFortnight q.timeline.dates ∧
      (q.Fits ↔ q.finish.number = q.start.number + 13 ∧
        ∀ date, (r.liveRowsOn (q.id, date)).length ≤ 1) := by
  obtain ⟨obligations, periods, hloads, rfl⟩ := person_eq_ok_iff.mp h
  obtain ⟨row, hrow, hassembles⟩ := hloads.exists_row ((hloads.toList_perm id).mem_iff.mp hq)
  have hfortnight := hassembles.isFortnight
  refine ⟨hassembles.row_eq ▸ hrow, hfortnight, ?_⟩
  rw [← hfortnight.mem_range_iff, ← hassembles.one_live_iff hloads.day_of_activity]
  constructor
  · intro hfits
    exact ⟨hfits.mem_dates, hfits.one_live⟩
  · intro hfits
    exact ⟨hfortnight.pairwise, hfits.1, hfits.2⟩

section Misfits

open Person (workday)

/-- The record of one period, of which its row says that it ends a day later. -/
def overlong : Record :=
  { unsorted with periods := unsorted.periods.map fun row => { row with finish := january 15 } }

/-- The record of one period, with a second live activity on a day. -/
def crowded : Record :=
  { unsorted with
    activities := ⟨supplyFrom 10 0, supplyFrom 2 0, january 4, workday, .work, .locked⟩ ::
      unsorted.activities }

theorem exists_period_of_read {f : Period → Bool}
    (h : (r.person id).toOption.map (fun p => p.periods.toList.map f) = some [true]) :
    ∃ p, r.person id = .ok p ∧ ∃ q ∈ p.periods, f q = true := by
  cases hp : r.person id with
  | error e =>
    rw [hp] at h
    cases h
  | ok p =>
    rw [hp] at h
    have hmem : true ∈ p.periods.toList.map f := by
      have hperiods : p.periods.toList.map f = [true] := Option.some.inj h
      rw [hperiods]
      exact List.mem_cons_self
    obtain ⟨q, hq, hf⟩ := List.mem_map.mp hmem
    exact ⟨p, rfl, q, hq, hf⟩

theorem fits_iff_overlong :
    ∃ p, overlong.person (supplyFrom 8 0) = .ok p ∧ ∃ q ∈ p.periods,
      PeriodRow.ofPeriod q ∈ overlong.periods ∧ q.start.IsFortnight q.timeline.dates ∧
        (q.Fits ↔ q.finish.number = q.start.number + 13 ∧
          ∀ date, (overlong.liveRowsOn (q.id, date)).length ≤ 1) := by
  have hread : (overlong.person (supplyFrom 8 0)).toOption.map (fun p =>
      p.periods.toList.map fun _ => true) = some [true] := by
    cbv
  obtain ⟨p, hp, q, hq, _⟩ := exists_period_of_read hread
  exact ⟨p, hp, q, hq, fits_iff_of_person hp hq⟩

set_option maxRecDepth 8000 in
/-- Both records are read. In one of them the day after the last one is in the range
of the period, which has no such day; in the other one a day has two live activities. -/
theorem not_fits_of_person :
    (∃ p, overlong.person (supplyFrom 8 0) = .ok p ∧ ∃ q ∈ p.periods, q.start ≤ january 15 ∧
      january 15 ≤ q.finish ∧ january 15 ∉ q.timeline.dates ∧ ¬ q.Fits) ∧
    ∃ p, crowded.person (supplyFrom 8 0) = .ok p ∧ ∃ q ∈ p.periods, ∃ d ∈ q.timeline.days,
      d.liveActivities.length = 2 ∧ ¬ q.Fits := by
  constructor
  · have hread : (overlong.person (supplyFrom 8 0)).toOption.map (fun p =>
        p.periods.toList.map fun q => decide (q.start ≤ january 15 ∧ january 15 ≤ q.finish ∧
          january 15 ∉ q.timeline.dates)) = some [true] := by
      cbv
    obtain ⟨p, hp, q, hq, hrange⟩ := exists_period_of_read hread
    obtain ⟨hstart, hfinish, hnone⟩ := of_decide_eq_true hrange
    refine ⟨p, hp, q, hq, hstart, hfinish, hnone, fun hfits => ?_⟩
    exact hnone ((hfits.mem_dates _).mpr ⟨hstart, hfinish⟩)
  · have hread : (crowded.person (supplyFrom 8 0)).toOption.map (fun p =>
        p.periods.toList.map fun q => decide (∃ d ∈ q.timeline.days,
          d.liveActivities.length = 2)) = some [true] := by
      cbv
    obtain ⟨p, hp, q, hq, hcrowded⟩ := exists_period_of_read hread
    obtain ⟨d, hd, hlive⟩ := of_decide_eq_true hcrowded
    refine ⟨p, hp, q, hq, d, hd, hlive, fun hfits => ?_⟩
    have hone := hfits.one_live d hd
    omega

end Misfits

end Record

end Fortnight
