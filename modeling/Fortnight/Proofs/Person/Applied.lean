import Fortnight.Person
import Fortnight.Proofs.Period.Move

/-!
# What an event does

An event that is applied does one of four things. It asks the obligation in
effect, whose effects are carried out (`Decided`), it ends an obligation, it
does something to the tip of a chain (`Edited`), or it starts a correction.
`Applied` keeps all that is checked on the way, so that an event is applied with
an outcome exactly if that outcome is of one of these kinds.
-/

namespace Fortnight

namespace Event

/-- The date from which an event lets a person be obligated, if they are not at that time. -/
def starts? : Event → Option Date
  | obligationStartDetermined _ start => some start
  | decisionGranted _ effective => some effective
  | _ => none

theorem effective?_of_starts {event : Event} {date : Date}
    (h : event.starts? = some date) : event.effective? = some date.startOfDay := by
  cases event with
  | obligationStartDetermined | decisionGranted =>
    cases h
    rfl
  | _ => cases h

/-- The instant of which the obligation decides what the event does. -/
def decidedAt? : Event → Option Instant
  | applicationSubmitted _ submitted => some submitted
  | obligationStartDetermined _ start => some start.startOfDay
  | decisionGranted _ effective => some effective.startOfDay
  | newCycleStarted date => some date.startOfDay
  | deadlinePassed date => some date.startOfDay
  | _ => none

theorem effective?_of_decidedAt {event : Event} {moment : Instant}
    (h : event.decidedAt? = some moment) : event.effective? = some moment := by
  cases event with
  | applicationSubmitted | obligationStartDetermined | decisionGranted | newCycleStarted
  | deadlinePassed =>
    cases h
    rfl
  | _ => cases h

theorem period?_of_decidedAt {event : Event} {moment : Instant}
    (h : event.decidedAt? = some moment) : event.period? = none := by
  cases event with
  | applicationSubmitted | obligationStartDetermined | decisionGranted | newCycleStarted
  | deadlinePassed => rfl
  | _ => cases h

theorem decidedAt?_of_starts {event : Event} {date : Date}
    (h : event.starts? = some date) : event.decidedAt? = some date.startOfDay := by
  cases event with
  | obligationStartDetermined | decisionGranted =>
    cases h
    rfl
  | _ => cases h

end Event

namespace Obligation

variable {id : Id} {o o' : Obligation} {event : Event} {date : Date}

/-- What an obligation may decide. -/
inductive Decision : List Effect → Prop
  | ignore : Decision []
  | request (application : Id) : Decision [.requestSubmissionTimestamp application]
  | note (o : Obligation) : Decision [.append o]
  | start (o : Obligation) (date : Date) : Decision [.append o, .openFirstPeriod date]
  | next (date : Date) : Decision [.openNextPeriod date]
  | submit (date : Date) (caseId : Option String) : Decision [.submitDuePeriods date caseId]

theorem decide_of_absent (h : o.kind = .absent) : o.decide id event = decideAbsent id event := by
  rw [decide, h]

theorem decide_of_present (h : o.kind ≠ .absent) :
    o.decide id event = decidePresent id o.caseId? event := by
  obtain ⟨_, kind, _⟩ := o
  cases kind with
  | absent => exact absurd rfl h
  | applicationBased => rfl
  | decisionBased => rfl

theorem decision_decide (id : Id) (o : Obligation) (event : Event) :
    Decision (o.decide id event) := by
  by_cases h : o.kind = .absent
  · rw [decide_of_absent h]
    cases event <;> constructor
  · rw [decide_of_present h]
    cases event <;> constructor

theorem start_of_decide (h : o.decide id event = [.append o', .openFirstPeriod date]) :
    o.kind = .absent ∧ event.starts? = some date ∧ o'.kind ≠ .absent ∧
      o'.effectiveFrom = date.startOfDay := by
  by_cases hkind : o.kind = .absent
  · rw [decide_of_absent hkind] at h
    cases event with
    | obligationStartDetermined | decisionGranted =>
      cases h
      exact ⟨hkind, rfl, by simp [granted], rfl⟩
    | _ => cases h
  · rw [decide_of_present hkind] at h
    cases event <;> cases h

theorem exists_decide_of_starts (id : Id) (hkind : o.kind = .absent)
    (hstarts : event.starts? = some date) :
    ∃ o', o.decide id event = [.append o', .openFirstPeriod date] := by
  rw [decide_of_absent hkind]
  cases event with
  | obligationStartDetermined | decisionGranted =>
    cases hstarts
    exact ⟨_, rfl⟩
  | _ => cases hstarts

/-- A snapshot alone is of the instant of which its event is decided. -/
theorem effectiveFrom_of_decide (h : o.decide id event = [.append o']) :
    event.decidedAt? = some o'.effectiveFrom := by
  by_cases hkind : o.kind = .absent
  · rw [decide_of_absent hkind] at h
    cases event <;> cases h
  · rw [decide_of_present hkind] at h
    cases event with
    | decisionGranted =>
      cases h
      rfl
    | _ => cases h

theorem event_eq_of_decide (h : o.decide id event = [.openNextPeriod date]) :
    event = .newCycleStarted date := by
  by_cases hkind : o.kind = .absent
  · rw [decide_of_absent hkind] at h
    cases event <;> cases h
  · rw [decide_of_present hkind] at h
    cases event with
    | newCycleStarted =>
      cases h
      rfl
    | _ => cases h

end Obligation

namespace Person

variable {p p' : Person} {ns : List Notification} {id : Id} {rule : FinalizeRule}
  {moment : Instant} {fresh : ℕ → Id} {event : Event}

/-- What it comes to when a decision is carried out. -/
inductive Decided (id : Id) (rule : FinalizeRule) (moment : Instant) (p : Person) :
    List Effect → List Notification → Person → Prop
  | ignored : Decided id rule moment p [] [] p
  | requested (application : Id) :
      Decided id rule moment p [.requestSubmissionTimestamp application]
        [.submissionTimestampRequested application] p
  | noted (o : Obligation) : Decided id rule moment p [.append o] [] (p.appendObligation o)
  | started {o date ns t} :
      (PeriodTable.openFirst id date rule).run p.periods = (.ok ns, t) →
      Decided id rule moment p [.append o, .openFirstPeriod date] ns
        { p.appendObligation o with periods := t }
  | continued {date since ns t} : p.obligatedSince moment = .ok since →
      (PeriodTable.openNext id since date rule).run p.periods = (.ok ns, t) →
      Decided id rule moment p [.openNextPeriod date] ns { p with periods := t }
  | submitted {date caseId ns t} :
      (PeriodTable.submitDue date caseId).run p.periods = (.ok ns, t) →
      Decided id rule moment p [.submitDuePeriods date caseId] ns { p with periods := t }

theorem run_onPeriods_eq_ok_iff {α : Type} {f : Step PeriodTable α} {a : α} :
    (onPeriods f).run p = (.ok a, p') ↔
      ∃ t, f.run p.periods = (.ok a, t) ∧ { p with periods := t } = p' :=
  Step.run_within_eq_ok_iff

theorem run_carryOutAll_cons_eq_ok_iff {effect : Effect} {rest : List Effect} :
    (carryOutAll id rule moment (effect :: rest)).run p = (.ok ns, p') ↔
      ∃ first q others, (carryOut id rule moment effect).run p = (.ok first, q) ∧
        (carryOutAll id rule moment rest).run q = (.ok others, p') ∧ first ++ others = ns := by
  simp only [carryOutAll, Step.run_bind_eq_ok_iff, Step.run_pure, Prod.mk.injEq, Except.ok.injEq]
  constructor
  · rintro ⟨first, q, hfirst, others, _, hrest, rfl, rfl⟩
    exact ⟨first, q, others, hfirst, hrest, rfl⟩
  · rintro ⟨first, q, others, hfirst, hrest, rfl⟩
    exact ⟨first, q, hfirst, others, p', hrest, rfl, rfl⟩

theorem run_carryOutAll_nil_eq_ok_iff :
    (carryOutAll id rule moment []).run p = (.ok ns, p') ↔ [] = ns ∧ p = p' := by
  simp [carryOutAll]

theorem run_carryOutAll_singleton {effect : Effect} :
    (carryOutAll id rule moment [effect]).run p = (.ok ns, p') ↔
      (carryOut id rule moment effect).run p = (.ok ns, p') := by
  simp [run_carryOutAll_cons_eq_ok_iff, run_carryOutAll_nil_eq_ok_iff]

theorem run_carryOutAll_start_eq_ok_iff {o : Obligation} {date : Date} :
    (carryOutAll id rule moment [.append o, .openFirstPeriod date]).run p = (.ok ns, p') ↔
      ∃ t, (PeriodTable.openFirst id date rule).run p.periods = (.ok ns, t) ∧
        { p.appendObligation o with periods := t } = p' := by
  rw [run_carryOutAll_cons_eq_ok_iff]
  constructor
  · rintro ⟨_, _, _, happend, hopen, rfl⟩
    cases happend
    exact run_onPeriods_eq_ok_iff.mp (run_carryOutAll_singleton.mp hopen)
  · rintro ⟨t, hopen, rfl⟩
    have hcarry := run_onPeriods_eq_ok_iff (p := p.appendObligation o).mpr ⟨t, hopen, rfl⟩
    exact ⟨[], _, ns, rfl, run_carryOutAll_singleton.mpr hcarry, rfl⟩

/-- A decision is carried out exactly with the outcomes that it can come to. -/
theorem run_carryOutAll_eq_ok_iff {effects : List Effect} (h : Obligation.Decision effects) :
    (carryOutAll id rule moment effects).run p = (.ok ns, p') ↔
      Decided id rule moment p effects ns p' := by
  cases h with
  | ignore =>
    rw [run_carryOutAll_nil_eq_ok_iff]
    constructor
    · rintro ⟨rfl, rfl⟩
      exact .ignored
    · rintro ⟨⟩
      exact ⟨rfl, rfl⟩
  | request application =>
    rw [run_carryOutAll_singleton]
    constructor
    · intro h
      cases h
      exact .requested application
    · rintro ⟨⟩
      rfl
  | note o =>
    rw [run_carryOutAll_singleton]
    constructor
    · intro h
      cases h
      exact .noted o
    · rintro ⟨⟩
      rfl
  | start o date =>
    rw [run_carryOutAll_start_eq_ok_iff]
    constructor
    · rintro ⟨t, hopen, rfl⟩
      exact .started hopen
    · rintro ⟨⟩
      exact ⟨_, ‹_›, rfl⟩
  | next date =>
    rw [run_carryOutAll_singleton, carryOut, Step.run_look_bind_eq_ok_iff]
    simp only [run_onPeriods_eq_ok_iff]
    constructor
    · rintro ⟨since, hsince, t, hopen, rfl⟩
      exact .continued hsince hopen
    · rintro ⟨⟩
      exact ⟨_, ‹_›, _, ‹_›, rfl⟩
  | submit date caseId =>
    rw [run_carryOutAll_singleton, carryOut, run_onPeriods_eq_ok_iff]
    constructor
    · rintro ⟨t, hsubmit, rfl⟩
      exact .submitted hsubmit
    · rintro ⟨⟩
      exact ⟨_, ‹_›, rfl⟩

/-- What an event that is addressed to a period does to the tip of its chain. -/
inductive Edited (fresh : ℕ → Id) (p : Person) (tip : Period) :
    Event → List Notification → Period → Prop
  | added {period date hours type tip'} :
      (Period.add (.create (fresh 0) date hours type)).run tip = (.ok (), tip') →
      Edited fresh p tip (.addActivity period date hours type) [] tip'
  | deleted {period activity tip'} :
      (Period.delete activity).run tip = (.ok (), tip') →
      Edited fresh p tip (.deleteActivity period activity) [] tip'
  | approved {period actor reference moment justification corrected ns tip'} :
      p.authorize actor = .ok () → p.periods.corrected tip = .ok corrected →
      (Period.approve (.create (fresh 0) actor moment justification) reference corrected).run tip =
        (.ok ns, tip') →
      Edited fresh p tip (.approve period actor reference moment justification) ns tip'
  | unapproved {period actor moment justification ns tip'} : p.authorize actor = .ok () →
      (Period.unapprove ⟨fresh 0, actor, moment, justification⟩).run tip = (.ok ns, tip') →
      Edited fresh p tip (.unapprove period actor moment justification) ns tip'
  | submitted {period moment o ns tip'} : p.obligationAt moment = .ok o →
      (Period.submitManually o.caseId?).run tip = (.ok ns, tip') →
      Edited fresh p tip (.manualSubmit period moment) ns tip'

theorem Edited.edit {tip tip' : Period} (h : Edited fresh p tip event ns tip') :
    p.periods.Edit tip tip' := by
  cases h with
  | added hadd =>
    obtain ⟨hstate, timeline, htimeline, rfl⟩ := Period.run_add_eq_ok_iff.mp hadd
    exact .add hstate rfl htimeline
  | deleted hdelete =>
    obtain ⟨hstate, timeline, htimeline, rfl⟩ := Period.run_delete_eq_ok_iff.mp hdelete
    exact .delete hstate htimeline
  | approved _ hcorrected happrove =>
    obtain ⟨hstate, hgate, approvals, timeline, happrovals, htimeline, rfl, _⟩ :=
      Period.run_approve_eq_ok_iff.mp happrove
    exact .approve hstate rfl hcorrected hgate happrovals htimeline
  | unapproved _ hunapprove =>
    obtain ⟨hstate, approvals, timeline, happrovals, htimeline, rfl, _⟩ :=
      Period.run_unapprove_eq_ok_iff.mp hunapprove
    exact .unapprove hstate happrovals htimeline
  | submitted _ hsubmit =>
    obtain ⟨hstate, rfl, _⟩ := Period.run_submitManually_eq_ok_iff.mp hsubmit
    exact .submit hstate

/-- What it comes to when an event is applied. -/
inductive Applied (fresh : ℕ → Id) (rule : FinalizeRule) (p : Person) :
    Event → List Notification → Person → Prop
  | decided {event moment o ns p'} : event.decidedAt? = some moment →
      p.obligationAt moment = .ok o →
      Decided (fresh 1) rule moment p (o.decide (fresh 0) event) ns p' →
      Applied fresh rule p event ns p'
  | rejected (caseId : String) (effective : Date) :
      Applied fresh rule p (.decisionRejected caseId effective) []
        (p.appendObligation ⟨fresh 0, .absent, effective.startOfDay⟩)
  | edited {event id tip tip' ns} : event.period? = some id → p.periods.tip id = .ok tip →
      Edited fresh p tip event ns tip' →
      Applied fresh rule p event ns { p with periods := p.periods.insert tip' }
  | corrected {id ns t} : (PeriodTable.correct fresh id).run p.periods = (.ok ns, t) →
      Applied fresh rule p (.correct id) ns { p with periods := t }

theorem applied_decided_iff (h : event.decidedAt? = some moment) :
    Applied fresh rule p event ns p' ↔
      ∃ o, p.obligationAt moment = .ok o ∧
        Decided (fresh 1) rule moment p (o.decide (fresh 0) event) ns p' := by
  constructor
  · intro happlied
    cases happlied with
    | decided hmoment ho hdecided =>
      rw [h] at hmoment
      cases hmoment
      exact ⟨_, ho, hdecided⟩
    | rejected => cases h
    | edited hid =>
      rw [Event.period?_of_decidedAt h] at hid
      cases hid
    | corrected => cases h
  · rintro ⟨o, ho, hdecided⟩
    exact .decided h ho hdecided

theorem applied_edited_iff (hid : event.period? = some id) (hne : ∀ id, event ≠ .correct id) :
    Applied fresh rule p event ns p' ↔
      ∃ tip tip', p.periods.tip id = .ok tip ∧ Edited fresh p tip event ns tip' ∧
        { p with periods := p.periods.insert tip' } = p' := by
  constructor
  · intro happlied
    cases happlied with
    | decided hmoment =>
      rw [Event.period?_of_decidedAt hmoment] at hid
      cases hid
    | rejected => cases hid
    | edited hid' htip hedited =>
      rw [hid] at hid'
      cases hid'
      exact ⟨_, _, htip, hedited, rfl⟩
    | corrected => exact absurd rfl (hne _)
  · rintro ⟨tip, tip', htip, hedited, rfl⟩
    exact .edited hid htip hedited

theorem applied_corrected_iff :
    Applied fresh rule p (.correct id) ns p' ↔
      ∃ t, (PeriodTable.correct fresh id).run p.periods = (.ok ns, t) ∧
        { p with periods := t } = p' := by
  constructor
  · intro happlied
    cases happlied with
    | decided hmoment => cases hmoment
    | edited _ _ hedited => cases hedited
    | corrected hcorrect => exact ⟨_, hcorrect, rfl⟩
  · rintro ⟨t, hcorrect, rfl⟩
    exact .corrected hcorrect

theorem run_applyByObligation_eq_ok_iff (h : event.decidedAt? = some moment) :
    (applyByObligation fresh rule moment event).run p = (.ok ns, p') ↔
      Applied fresh rule p event ns p' := by
  rw [applyByObligation, Step.run_look_bind_eq_ok_iff, applied_decided_iff h]
  refine exists_congr fun o => and_congr_right fun _ => ?_
  exact run_carryOutAll_eq_ok_iff (o.decision_decide (fresh 0) event)

theorem run_onPeriods_onTip_eq_ok_iff {α : Type} {f : Step Period α} {a : α} :
    (onPeriods (PeriodTable.onTip id f)).run p = (.ok a, p') ↔
      ∃ tip tip', p.periods.tip id = .ok tip ∧ f.run tip = (.ok a, tip') ∧
        { p with periods := p.periods.insert tip' } = p' := by
  rw [run_onPeriods_eq_ok_iff]
  constructor
  · rintro ⟨t, ht, rfl⟩
    obtain ⟨tip, tip', htip, hf, rfl⟩ := PeriodTable.run_onTip_eq_ok_iff.mp ht
    exact ⟨tip, tip', htip, hf, rfl⟩
  · rintro ⟨tip, tip', htip, hf, rfl⟩
    exact ⟨_, PeriodTable.run_onTip_eq_ok_iff.mpr ⟨tip, tip', htip, hf, rfl⟩, rfl⟩

theorem run_bind_nothing_eq_ok_iff {f : Step Person Unit} :
    (f >>= fun _ => pure []).run p = (.ok ns, p') ↔ f.run p = (.ok (), p') ∧ [] = ns := by
  rw [Step.run_bind_eq_ok_iff]
  constructor
  · rintro ⟨_, _, hf, h⟩
    cases h
    exact ⟨hf, rfl⟩
  · rintro ⟨hf, rfl⟩
    exact ⟨(), p', hf, rfl⟩

/-- An event is applied exactly with the outcomes that it can come to. -/
theorem run_apply_eq_ok_iff :
    (apply fresh rule event).run p = (.ok ns, p') ↔ Applied fresh rule p event ns p' := by
  cases event with
  | applicationSubmitted | obligationStartDetermined | decisionGranted | newCycleStarted
  | deadlinePassed => exact run_applyByObligation_eq_ok_iff rfl
  | decisionRejected caseId effective =>
    constructor
    · intro h
      cases h
      exact .rejected caseId effective
    · intro h
      cases h with
      | rejected => rfl
      | decided hmoment => cases hmoment
      | edited hid => cases hid
  | addActivity period date hours type =>
    rw [applied_edited_iff rfl (by simp), apply, PeriodTable.add, run_bind_nothing_eq_ok_iff,
      run_onPeriods_onTip_eq_ok_iff]
    constructor
    · rintro ⟨⟨tip, tip', htip, hadd, rfl⟩, rfl⟩
      exact ⟨tip, tip', htip, .added hadd, rfl⟩
    · rintro ⟨tip, tip', htip, hedited, rfl⟩
      cases hedited with
      | added hadd => exact ⟨⟨tip, tip', htip, hadd, rfl⟩, rfl⟩
  | deleteActivity period activity =>
    rw [applied_edited_iff rfl (by simp), apply, PeriodTable.delete, run_bind_nothing_eq_ok_iff,
      run_onPeriods_onTip_eq_ok_iff]
    constructor
    · rintro ⟨⟨tip, tip', htip, hdelete, rfl⟩, rfl⟩
      exact ⟨tip, tip', htip, .deleted hdelete, rfl⟩
    · rintro ⟨tip, tip', htip, hedited, rfl⟩
      cases hedited with
      | deleted hdelete => exact ⟨⟨tip, tip', htip, hdelete, rfl⟩, rfl⟩
  | approve period actor reference moment justification =>
    rw [applied_edited_iff rfl (by simp), apply, Step.run_look_bind_eq_ok_iff]
    simp only [run_onPeriods_eq_ok_iff, PeriodTable.run_approve_eq_ok_iff]
    constructor
    · rintro ⟨_, hactor, _, ⟨tip, tip', corrected, htip, hcorrected, happrove, rfl⟩, rfl⟩
      exact ⟨tip, tip', htip, .approved hactor hcorrected happrove, rfl⟩
    · rintro ⟨tip, tip', htip, hedited, rfl⟩
      cases hedited with
      | approved hactor hcorrected happrove =>
        exact ⟨(), hactor, _, ⟨tip, tip', _, htip, hcorrected, happrove, rfl⟩, rfl⟩
  | unapprove period actor moment justification =>
    rw [applied_edited_iff rfl (by simp), apply, Step.run_look_bind_eq_ok_iff,
      PeriodTable.unapprove, run_onPeriods_onTip_eq_ok_iff]
    constructor
    · rintro ⟨_, hactor, tip, tip', htip, hunapprove, rfl⟩
      exact ⟨tip, tip', htip, .unapproved hactor hunapprove, rfl⟩
    · rintro ⟨tip, tip', htip, hedited, rfl⟩
      cases hedited with
      | unapproved hactor hunapprove => exact ⟨(), hactor, tip, tip', htip, hunapprove, rfl⟩
  | manualSubmit period moment =>
    rw [applied_edited_iff rfl (by simp), apply, Step.run_look_bind_eq_ok_iff]
    simp only [PeriodTable.submitManually, run_onPeriods_onTip_eq_ok_iff]
    constructor
    · rintro ⟨o, ho, tip, tip', htip, hsubmit, rfl⟩
      exact ⟨tip, tip', htip, .submitted ho hsubmit, rfl⟩
    · rintro ⟨tip, tip', htip, hedited, rfl⟩
      cases hedited with
      | submitted ho hsubmit => exact ⟨_, ho, tip, tip', htip, hsubmit, rfl⟩
  | correct period =>
    rw [applied_corrected_iff, apply, run_onPeriods_eq_ok_iff]

end Person

end Fortnight
