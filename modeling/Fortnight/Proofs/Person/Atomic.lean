import Fortnight.Proofs.Period.Atomic
import Fortnight.Proofs.Person.Enabling

/-!
# What the copy of a person is for

An event is carried out on a copy, which is thrown away if the event fails. The
periods do not need it: in a person who can be reached, an operation of the table
changes all that it is to change or nothing. So the copy makes a difference only
where an event changes more than the periods, which is when an obligation starts.
-/

namespace Fortnight

namespace Person

variable {p : Person}

theorem Reachable.atomicAt_operation (h : Reachable p) (operation : PeriodTable.Operation) :
    Step.AtomicAt operation.step p.periods :=
  h.linked.atomicAt_operation h.regular (inStep_of_reachable h) operation

/-- An operation on the periods that fails has changed none of them, and a deadline
never fails. -/
theorem operation_atomic (h : Reachable p) :
    (∀ (operation : PeriodTable.Operation) (e : Error),
      (operation.step.run p.periods).1 = .error e →
        (operation.step.run p.periods).2 = p.periods) ∧
    ∀ (date : Date) (caseId : Option String), ∃ ns,
      (PeriodTable.submitDue date caseId).run p.periods =
        (.ok ns, p.periods.afterDeadline date caseId) := by
  constructor
  · exact h.atomicAt_operation
  · exact h.linked.exists_run_submitDue h.regular

/-- Someone else wants to take the approval back. -/
def takingBackByAnother : PeriodTable.Operation :=
  .unapprove (supplyFrom 11 0)
    ⟨supplyFrom 70 0, .endUser "02029054321", (january 16).startOfDay, none⟩

set_option maxRecDepth 8000 in
theorem operation_atomic_approvedByThemselves :
    Reachable approvedByThemselves ∧
      (∃ e, (takingBackByAnother.step.run approvedByThemselves.periods).1 = .error e ∧
        (takingBackByAnother.step.run approvedByThemselves.periods).2 =
          approvedByThemselves.periods) ∧
      ∃ ns, (PeriodTable.submitDue (january 30) none).run approvedByThemselves.periods =
        (.ok ns, approvedByThemselves.periods.afterDeadline (january 30) none) := by
  have hreachable := freshlyReachable_approvedByThemselves.reachable
  obtain ⟨hatomic, hdeadline⟩ := operation_atomic hreachable
  have herror : (takingBackByAnother.step.run approvedByThemselves.periods).1 =
      .error (.unauthorized (toString (Actor.endUser "02029054321"))
        ("may not revoke an approval made by " ++ toString (Actor.endUser "01018012345"))) := by
    cbv
  exact ⟨hreachable, ⟨_, herror, hatomic _ _ herror⟩, hdeadline _ _⟩

section Apply

variable {fresh : ℕ → Id} {rule : FinalizeRule} {event : Event}

theorem atomicAt_onPeriods {α : Type} {f : Step PeriodTable α} (hf : Step.AtomicAt f p.periods) :
    Step.AtomicAt (onPeriods f) p :=
  Step.AtomicAt.within rfl hf

theorem Reachable.atomicAt_carryOut (h : Reachable p) (id : Id) (rule : FinalizeRule)
    (moment : Instant) (effect : Effect) :
    Step.AtomicAt (carryOut id rule moment effect) p := by
  have hoperation := h.atomicAt_operation
  cases effect with
  | requestSubmissionTimestamp application => exact Step.atomicAt_of_run_eq_ok rfl
  | append o => exact Step.atomicAt_of_run_eq_ok rfl
  | openFirstPeriod start => exact atomicAt_onPeriods (hoperation (.openFirst id start rule))
  | openNextPeriod date =>
    apply Step.atomicAt_look_bind
    intro since _
    exact atomicAt_onPeriods (hoperation (.openNext id since date rule))
  | submitDuePeriods date caseId => exact atomicAt_onPeriods (hoperation (.submitDue date caseId))

theorem Reachable.atomicAt_applyByObligation (h : Reachable p) (hstarts : event.starts? = none)
    (fresh : ℕ → Id) (rule : FinalizeRule) (moment : Instant) :
    Step.AtomicAt (applyByObligation fresh rule moment event) p := by
  apply Step.atomicAt_look_bind
  intro o _
  -- Unless an obligation starts, what is decided is one effect at most.
  have hsingle : ∀ effect, Step.AtomicAt (carryOutAll (fresh 1) rule moment [effect]) p := by
    intro effect
    apply (h.atomicAt_carryOut (fresh 1) rule moment effect).bind
    intro first p' _
    exact Or.inl ⟨first ++ [], p', rfl⟩
  have hdecision := Obligation.decision_decide (fresh 0) o event
  generalize heffects : o.decide (fresh 0) event = effects at hdecision
  cases hdecision with
  | ignore => exact Step.atomicAt_of_run_eq_ok rfl
  | start o' date =>
    obtain ⟨_, hdate, _⟩ := Obligation.start_of_decide heffects
    rw [hstarts] at hdate
    cases hdate
  | request | note | next | submit => exact hsingle _

theorem Reachable.atomicAt_apply (h : Reachable p) (hstarts : event.starts? = none) :
    Step.AtomicAt (apply fresh rule event) p := by
  have hoperation := h.atomicAt_operation
  have hdecided := h.atomicAt_applyByObligation hstarts fresh rule
  cases event with
  | decisionRejected => exact Step.atomicAt_of_run_eq_ok rfl
  | addActivity period date hours type =>
    apply (atomicAt_onPeriods (PeriodTable.atomicAt_add period _ _)).bind
    intro _ p' _
    exact Or.inl ⟨[], p', rfl⟩
  | deleteActivity period activity =>
    apply (atomicAt_onPeriods (PeriodTable.atomicAt_delete period activity _)).bind
    intro _ p' _
    exact Or.inl ⟨[], p', rfl⟩
  | approve period actor reference moment justification =>
    apply Step.atomicAt_look_bind
    intro _ _
    exact atomicAt_onPeriods (hoperation (.approve period _ reference))
  | unapprove period actor moment justification =>
    apply Step.atomicAt_look_bind
    intro _ _
    exact atomicAt_onPeriods (hoperation (.unapprove period _))
  | manualSubmit period moment =>
    apply Step.atomicAt_look_bind
    intro o _
    exact atomicAt_onPeriods (hoperation (.submitManually period o.caseId?))
  | correct period => exact atomicAt_onPeriods (hoperation (.correct fresh period))
  | applicationSubmitted | obligationStartDetermined | decisionGranted | newCycleStarted
  | deadlinePassed => exact hdecided _

/-- Only the start of an obligation needs the copy. -/
theorem Reachable.run_handle_eq (h : Reachable p) (hstarts : event.starts? = none) :
    (handle fresh rule event).run p = (apply fresh rule event).run p :=
  (h.atomicAt_apply hstarts).run_orNothing

set_option maxRecDepth 8000 in
/-- An obligation that starts on the last day of the calendar is put into the history
before it turns out that its period has no end. -/
example :
    let lastDay := (Date.ofCivil? 262142 12 31).getD Date.first
    let start := Event.obligationStartDetermined (supplyFrom 9 0) lastDay
    let result := (apply (supplyFrom 10) .standard start).run (new (supplyFrom 1 0) "01018012345")
    result.1.isOk = false ∧ result.2.obligations.toList.length = 2 := by
  cbv

end Apply

end Person

end Fortnight
