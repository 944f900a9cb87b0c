import Fortnight.Proofs.Period.Opening
import Fortnight.Proofs.Person.History
import Fortnight.Proofs.Person.Periods

/-!
# Periods that are opened for a person

An event opens a period where an obligation starts or where a fortnight turns.
In the first case the days before the date of the event are exempt, in the
second those before the date on which the run of obligations began. The two come
to the same unless the event takes the place of a snapshot that had ended a run
at the very same instant: the runs are joined then, and the history tells an
earlier date than the one that the period was opened with.

A date on which an obligation starts is covered by a period, unless there is a
gap at that date in front of a period that starts later.
-/

namespace Fortnight

theorem Instant.date_lt_of_lt_startOfDay {t : Instant} {date : Date} (h : t < date.startOfDay) :
    t.date < date := by
  simp only [lt_iff, rank, Date.startOfDay] at h
  rw [Date.lt_iff]
  omega

namespace Person

variable {p : Person} {c : Call} {ns : List Notification} {q : Period} {date : Date}
  {moment : Instant}

theorem Reachable.aligned (h : Reachable p) : ∀ q ∈ p.periods, q.Aligned :=
  h.periods_induction (fun _ hq => absurd hq (Register.not_mem_empty _))
    fun _ _ haligned hmove => PeriodTable.aligned_of_move haligned hmove

/-- At an instant a run of obligations is ended by a snapshot that could be replaced. -/
def EndsRun (p : Person) (moment : Instant) : Prop :=
  runOf (p.obligations.before moment) ≠ none ∧
    ∃ o, (moment, o) ∈ p.obligations ∧ o.kind = .absent

/-- An obligation that starts on a date is part of a run that began on that date,
unless it takes the place of a snapshot that had ended one. -/
theorem obligatedSince_of_start (hanchored : History.Anchored p.obligations) {before o : Obligation}
    (hbefore : p.obligationAt date.startOfDay = .ok before) (habsent : before.kind = .absent)
    (hpresent : o.kind ≠ .absent) (heffective : o.effectiveFrom = date.startOfDay) :
    ∃ since, (p.appendObligation o).obligatedSince date.startOfDay = .ok since ∧ since ≤ date ∧
      (since < date ↔ p.EndsRun date.startOfDay) := by
  obtain ⟨_, hlast⟩ := History.asOf_eq_ok_iff.mp hbefore
  have hrun : runOf ((p.appendObligation o).obligations.upTo date.startOfDay) =
      some ((runOf (p.obligations.before date.startOfDay)).getD date) := by
    rw [appendObligation, heffective, History.upTo_put, runOf_concat,
      continueRun_of_present hpresent, Obligation.startDate, heffective]
    rfl
  refine ⟨_, obligatedSince_eq_ok_iff.mpr hrun, ?_⟩
  cases hbegan : runOf (p.obligations.before date.startOfDay) with
  | none => exact ⟨Int.le_refl _, iff_of_false (Int.lt_irrefl _) fun h => h.1 hbegan⟩
  | some began =>
    obtain ⟨first, hfirst, rfl⟩ := exists_of_runOf hbegan
    obtain ⟨hmem, hearlier⟩ := History.mem_before.mp hfirst
    rw [hanchored.key_eq first hmem] at hearlier
    have hlt : first.2.startDate < date := Instant.date_lt_of_lt_startOfDay hearlier
    -- The snapshot in effect ends the run, so that it is none of those before.
    have hends : ∃ o, (date.startOfDay, o) ∈ p.obligations ∧ o.kind = .absent := by
      by_cases hkey : ∃ snapshot ∈ p.obligations, snapshot.1 = date.startOfDay
      · obtain ⟨⟨_, ended⟩, hended, rfl⟩ := hkey
        rw [History.upTo_of_mem hended, List.getLast?_concat] at hlast
        cases hlast
        exact ⟨before, hended, habsent⟩
      · push Not at hkey
        rw [History.upTo_eq_before hkey] at hlast
        rw [runOf_of_absent hlast habsent] at hbegan
        cases hbegan
    exact ⟨Int.le_of_lt hlt, iff_of_true hlt ⟨by simp [hbegan], hends⟩⟩

theorem not_endsRun (h : p.obligatedSince moment = .ok date) : ¬ p.EndsRun moment := by
  rintro ⟨_, o, hmem, habsent⟩
  have hrun := obligatedSince_eq_ok_iff.mp h
  rw [History.upTo_of_mem hmem, runOf_concat, continueRun_of_absent habsent] at hrun
  cases hrun

/-- What opens a period exempts the days before the date that the history tells, or those
before its own date where a run that was ended is joined. -/
theorem exemptBefore_of_answer (h : Reachable p) (hok : p.answer c = .ok ns)
    (hq : q ∈ (p.after c).periods) (hroot : q.corrects = none)
    (hnew : p.periods.find? q.id = none) :
    ∃ moment since opening, c.event.effective? = some moment ∧
      (p.after c).obligatedSince moment = .ok since ∧ q.ExemptBefore opening ∧
      since ≤ opening ∧ (since < opening ↔ p.EndsRun moment) ∧
      (p.EndsRun moment → opening = moment.date) := by
  have hout := outcome_of_answer hok
  have hne : ∀ r ∈ p.periods, r.id ≠ q.id := Register.find?_eq_none_iff.mp hnew
  generalize p.after c = p' at hq hout ⊢
  -- The first three outcomes bring no new period, or one that corrects another.
  cases hout with
  | noted _ => exact absurd rfl (hne q hq)
  | edited hedits =>
    obtain ⟨r, hr, hid⟩ := hedits.exists_before q hq
    exact absurd hid (hne r hr)
  | corrected _ hcorrect =>
    obtain ⟨tip, corrected, htip, hcorrectable, hnone, rfl⟩ :=
      PeriodTable.withCorrection_of_correct hcorrect
    have htip := PeriodTable.tip_mem htip
    have hcorrected := PeriodTable.mem_of_correctable htip hcorrectable
    rcases (PeriodTable.mem_withCorrection hnone hcorrected htip).mp hq with rfl | ⟨r, hr, rfl⟩
    · cases hroot
    · exact absurd (by simp) (hne r hr)
  | started hstarts hbefore habsent hpresent heffective hopen =>
    obtain ⟨since, hsince, hle, hlt⟩ :=
      obligatedSince_of_start h.anchored hbefore habsent hpresent heffective
    obtain ⟨_, hr⟩ := PeriodTable.newRoot_of_openFirst hopen hq hnew
    exact ⟨_, since, _, Event.effective?_of_starts hstarts, hsince, hr.exemptBefore, hle, hlt,
      fun _ => rfl⟩
  | @continued date since _ hevent hsince hopen =>
    obtain ⟨_, hr⟩ := PeriodTable.newRoot_of_openNext hopen hq hnew
    have hmoment : c.event.effective? = some date.startOfDay := by
      rw [hevent]
      rfl
    have hends := not_endsRun hsince
    exact ⟨_, since, since, hmoment, hsince, hr.exemptBefore, Int.le_refl _,
      iff_of_false (Int.lt_irrefl _) hends, fun h => absurd h hends⟩

section Regranted

/-- Someone who was obligated from 2 January on and whose decision of 7 February
was a rejection. -/
def rejected : Person :=
  (new (supplyFrom 1 0) "01018012345").run
    [⟨supplyFrom 10, .standard, .obligationStartDetermined (supplyFrom 9 0) (january 2)⟩,
      ⟨supplyFrom 20, .standard, .decisionRejected "case-1" (february 7)⟩]

/-- The benefit is granted after all, from the same day on. -/
def regranted : Call :=
  ⟨supplyFrom 30, .standard, .decisionGranted "case-2" (february 7)⟩

theorem reachable_rejected : Reachable rejected :=
  (Reachable.new _ _).run _

set_option maxRecDepth 8000 in
theorem exists_opened_regranted :
    ∃ ns, ∃ q ∈ (rejected.after regranted).periods, rejected.answer regranted = .ok ns ∧
      q.corrects = none ∧ rejected.periods.find? q.id = none ∧
      (q.timeline.days.filter Day.exempt).map Day.date = [february 5, february 6] := by
  obtain ⟨hns, hnew, hq⟩ :
      rejected.answer regranted =
        .ok [.periodStateChanged (supplyFrom 31 0) .toBeFilled none (february 5) (february 18)] ∧
      rejected.periods.find? (supplyFrom 31 0) = none ∧
      ((rejected.after regranted).periods.find? (supplyFrom 31 0)).map (fun q =>
        (q.corrects, (q.timeline.days.filter Day.exempt).map Day.date)) =
        some (none, [february 5, february 6]) := by
    cbv
    simp only [and_self]
  obtain ⟨q, hfind, hq⟩ := Option.map_eq_some_iff.mp hq
  obtain ⟨hroot, hexempt⟩ := Prod.mk.inj hq
  obtain ⟨hmem, hid⟩ := Register.find?_eq_some_iff.mp hfind
  exact ⟨_, q, hmem, hns, hroot, hid ▸ hnew, hexempt⟩

theorem exemptBefore_regranted :
    ∃ ns, ∃ q ∈ (rejected.after regranted).periods, rejected.answer regranted = .ok ns ∧
      q.corrects = none ∧ rejected.periods.find? q.id = none ∧
      ∃ moment since opening, regranted.event.effective? = some moment ∧
        (rejected.after regranted).obligatedSince moment = .ok since ∧ q.ExemptBefore opening ∧
        since ≤ opening ∧ (since < opening ↔ rejected.EndsRun moment) ∧
        (rejected.EndsRun moment → opening = moment.date) := by
  obtain ⟨ns, q, hq, hok, hroot, hnew, _⟩ := exists_opened_regranted
  exact ⟨ns, q, hq, hok, hroot, hnew,
    exemptBefore_of_answer reachable_rejected hok hq hroot hnew⟩

set_option maxRecDepth 8000 in
/-- The history tells that there was an obligation on the two days all the same. -/
theorem not_exemptBefore_regranted :
    ∃ ns, ∃ q ∈ (rejected.after regranted).periods, rejected.answer regranted = .ok ns ∧
      q.corrects = none ∧ rejected.periods.find? q.id = none ∧
      (rejected.after regranted).obligatedSince (february 7).startOfDay = .ok (january 2) ∧
      ¬ q.ExemptBefore (january 2) := by
  obtain ⟨ns, q, hq, hok, hroot, hnew, hexempt⟩ := exists_opened_regranted
  refine ⟨ns, q, hq, hok, hroot, hnew, by cbv, fun h => ?_⟩
  have hmem : february 5 ∈ (q.timeline.days.filter Day.exempt).map Day.date := by
    rw [hexempt]
    exact List.mem_cons_self
  obtain ⟨d, hd, hdate⟩ := List.mem_map.mp hmem
  obtain ⟨hd, hexempt⟩ := List.mem_filter.mp hd
  rcases (h d hd).mp hexempt with hholiday | hbefore
  · have hworkday : (february 5).isHoliday = false := by cbv
    rw [hdate, hworkday] at hholiday
    cases hholiday
  · rw [hdate] at hbefore
    exact absurd hbefore (by decide)

end Regranted

theorem started_of_answer (hstarts : c.event.starts? = some date) {before : Obligation}
    (hbefore : p.obligationAt date.startOfDay = .ok before) (habsent : before.kind = .absent)
    (hok : p.answer c = .ok ns) :
    ∃ (o : Obligation) (t : PeriodTable), o.kind ≠ .absent ∧ o.effectiveFrom = date.startOfDay ∧
      (PeriodTable.openFirst (c.fresh 1) date c.rule).run p.periods = (.ok ns, t) ∧
      { p.appendObligation o with periods := t } = p.after c := by
  have hmoment := Event.decidedAt?_of_starts hstarts
  obtain ⟨o, ho, hdecided⟩ := (applied_decided_iff hmoment).mp (applied_of_answer hok)
  obtain rfl : before = o := Except.ok.inj (hbefore.symm.trans ho)
  obtain ⟨o', heffects⟩ := Obligation.exists_decide_of_starts (c.fresh 0) habsent hstarts
  obtain ⟨_, _, hpresent, hfrom⟩ := Obligation.start_of_decide heffects
  rw [heffects] at hdecided
  generalize p.after c = p' at hdecided ⊢
  cases hdecided with
  | started hopen => exact ⟨o', _, hpresent, hfrom, hopen, rfl⟩

/-- The date on which an obligation starts is covered afterwards exactly if it was
so before, or if no original period starts later. -/
theorem covers_iff_of_start (h : Reachable p) (hstarts : c.event.starts? = some date)
    {before : Obligation} (hbefore : p.obligationAt date.startOfDay = .ok before)
    (habsent : before.kind = .absent) (hok : p.answer c = .ok ns) :
    (p.after c).periods.Covers date ↔
      p.periods.Covers date ∨ ∀ q ∈ p.periods, q.corrects = none → q.start ≤ date := by
  obtain ⟨o, t, _, _, hopen, hafter⟩ := started_of_answer hstarts hbefore habsent hok
  rw [← hafter]
  exact PeriodTable.covers_iff_of_openFirst h.aligned hopen

section Backdated

/-- Someone whose first period starts on 5 February. -/
def startedInFebruary : Person :=
  (new (supplyFrom 1 0) "01018012345").run
    [⟨supplyFrom 10, .standard, .obligationStartDetermined (supplyFrom 9 0) (february 5)⟩]

theorem reachable_startedInFebruary : Reachable startedInFebruary :=
  (Reachable.new _ _).run _

/-- The benefit is granted from a day in January on. -/
def backdated : Call :=
  ⟨supplyFrom 20, .standard, .decisionGranted "case-1" (january 10)⟩

theorem answer_backdated :
    startedInFebruary.obligationAt (january 10).startOfDay =
        .ok (.absentSinceEver (supplyFrom 1 0)) ∧
      startedInFebruary.answer backdated = .ok [] := by
  cbv

theorem covers_iff_backdated :
    backdated.event.starts? = some (january 10) ∧
      startedInFebruary.obligationAt (january 10).startOfDay =
        .ok (.absentSinceEver (supplyFrom 1 0)) ∧
      startedInFebruary.answer backdated = .ok [] ∧
      ((startedInFebruary.after backdated).periods.Covers (january 10) ↔
        startedInFebruary.periods.Covers (january 10) ∨
          ∀ q ∈ startedInFebruary.periods, q.corrects = none → q.start ≤ january 10) := by
  obtain ⟨hbefore, hok⟩ := answer_backdated
  exact ⟨rfl, hbefore, hok, covers_iff_of_start reachable_startedInFebruary rfl hbefore rfl hok⟩

/-- Because of the period in February none is opened in January. -/
theorem not_covers_backdated :
    backdated.event.starts? = some (january 10) ∧
      startedInFebruary.obligationAt (january 10).startOfDay =
        .ok (.absentSinceEver (supplyFrom 1 0)) ∧
      startedInFebruary.answer backdated = .ok [] ∧
      ¬ (startedInFebruary.after backdated).periods.Covers (january 10) := by
  obtain ⟨hbefore, hok⟩ := answer_backdated
  refine ⟨rfl, hbefore, hok, ?_⟩
  rintro ⟨q, hq, _, hcontains⟩
  have hnone : ((startedInFebruary.after backdated).periods.toList.map fun q =>
      q.containsDate (january 10)) = [false] := by
    cbv
  have hmem := List.mem_map_of_mem (f := fun q => q.containsDate (january 10)) hq
  rw [hnone, hcontains] at hmem
  simp at hmem

end Backdated

end Person

end Fortnight
