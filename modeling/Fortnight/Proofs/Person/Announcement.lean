import Fortnight.Proofs.Period.Announcement
import Fortnight.Proofs.Person.Reachable

/-!
# What is notified of a call

Whatever an accepted call has done to the periods of a person is notified, and
nothing else is: each period that is new or has another state is announced once,
and those that have become submitted are sent in with all that they report. Only
the request for a timestamp is about no period.
-/

namespace Fortnight

namespace Person

variable {p p' : Person} {c : Call} {ns : List Notification} {tip tip' : Period} {id : Id}
  {rule : FinalizeRule} {moment : Instant} {fresh : ℕ → Id} {event : Event}
  {effects : List Effect}

/-- Notifications of which the last ones are exactly the difference between the
periods of two persons, and the others ask for a timestamp. -/
def Announces (p p' : Person) (ns : List Notification) : Prop :=
  ∃ requests told, ns = requests ++ told ∧
    (∀ n ∈ requests, ∃ application, n = .submissionTimestampRequested application) ∧
    p.periods.Announces p'.periods told

theorem Announces.of_periods (h : p.periods.Announces p'.periods ns) : p.Announces p' ns :=
  ⟨[], ns, rfl, by simp, h⟩

theorem Decided.announces (h : Decided id rule moment p effects ns p') : p.Announces p' ns := by
  cases h with
  | ignored | noted => exact .of_periods (.refl _)
  | requested application =>
    exact ⟨[.submissionTimestampRequested application], [], rfl, by simp, .refl _⟩
  | started hopen => exact .of_periods (PeriodTable.announces_of_openFirst hopen)
  | continued _ hopen => exact .of_periods (PeriodTable.announces_of_openNext hopen)
  | submitted hsubmit => exact .of_periods (PeriodTable.submissions_of_submitDue hsubmit).announces

theorem Edited.announces (h : Edited fresh p tip event ns tip') (htip : tip ∈ p.periods) :
    p.periods.Announces (p.periods.insert tip') ns := by
  cases h with
  | added hadd =>
    obtain ⟨_, timeline, _, rfl⟩ := Period.run_add_eq_ok_iff.mp hadd
    exact .kept htip rfl rfl
  | deleted hdelete =>
    obtain ⟨_, timeline, _, rfl⟩ := Period.run_delete_eq_ok_iff.mp hdelete
    exact .kept htip rfl rfl
  | approved _ _ happrove => exact PeriodTable.announces_of_approve htip happrove
  | unapproved _ hunapprove => exact PeriodTable.announces_of_unapprove htip hunapprove
  | submitted _ hsubmit => exact PeriodTable.announces_of_submitManually htip hsubmit

theorem Applied.announces (h : Applied fresh rule p event ns p') : p.Announces p' ns := by
  cases h with
  | decided _ _ hdecided => exact hdecided.announces
  | rejected => exact .of_periods (.refl _)
  | edited _ htip hedited => exact .of_periods (hedited.announces (PeriodTable.tip_mem htip))
  | corrected hcorrect => exact .of_periods (PeriodTable.announces_of_correct hcorrect)

/-- The notifications of a call are exactly the difference that it makes. -/
theorem announces_of_answer (hok : p.answer c = .ok ns) :
    ∃ requests changed, ns = requests ++ p.periods.announcements changed ∧
      (∀ n ∈ requests, ∃ application, n = .submissionTimestampRequested application) ∧
      p.periods.Difference (p.after c).periods changed := by
  obtain ⟨requests, told, rfl, hrequests, changed, hdifference, rfl⟩ :=
    (applied_of_answer hok).announces
  exact ⟨requests, changed, rfl, hrequests, hdifference⟩

section Due

/-- Someone of whom a correction of the first period and the second period are approved. -/
def approvedBoth : Person :=
  restarted.run
    [⟨supplyFrom 80, .standard, .addActivity (supplyFrom 50 0) (january 4) workday .sick⟩,
      ⟨supplyFrom 90, .standard, .approve (supplyFrom 50 0) (.caseWorker "Z990001")
        (january 16) (january 16).startOfDay none⟩,
      ⟨supplyFrom 100, .standard, .newCycleStarted (january 15)⟩,
      ⟨supplyFrom 110, .standard, .addActivity (supplyFrom 101 0) (january 17) workday .work⟩,
      ⟨supplyFrom 120, .standard, .decisionGranted "case-1" (january 20)⟩,
      ⟨supplyFrom 130, .standard, .approve (supplyFrom 101 0) (.endUser "01018012345")
        (january 29) (january 29).startOfDay none⟩]

/-- The deadline of both periods. -/
def deadline : Call :=
  ⟨supplyFrom 50, .standard, .deadlinePassed (january 31)⟩

/-- A locked fortnight with these activities, of which only New Year's Day is exempt. -/
def lockedDays (first : ℕ) (activities : List Activity) : List Day :=
  (List.range 14).map fun k =>
    ⟨january (first + k), activities.filter fun a => a.date = january (first + k),
      .nothingAllowed, first + k = 1⟩

set_option maxRecDepth 8000 in
/-- Each of the two is announced and sent in, one after the other. -/
theorem announces_deadline :
    ∃ ns, approvedBoth.answer deadline = .ok ns ∧
      ns =
        [.periodStateChanged (supplyFrom 70 0) .submitted (some .approved) (january 1) (january 14),
          .periodSubmitted (supplyFrom 70 0) (january 1) (january 14)
            (lockedDays 1 [⟨supplyFrom 71 0, january 3, workday, .work, .locked⟩,
              ⟨supplyFrom 80 0, january 4, workday, .sick, .locked⟩])
            (some "case-1") (some (supplyFrom 11 0)),
          .periodStateChanged (supplyFrom 101 0) .submitted (some .approved) (january 15)
            (january 28),
          .periodSubmitted (supplyFrom 101 0) (january 15) (january 28)
            (lockedDays 15 [⟨supplyFrom 110 0, january 17, workday, .work, .locked⟩])
            (some "case-1") none] ∧
      ∃ requests changed, ns = requests ++ approvedBoth.periods.announcements changed ∧
        (∀ n ∈ requests, ∃ application, n = .submissionTimestampRequested application) ∧
        approvedBoth.periods.Difference (approvedBoth.after deadline).periods changed := by
  refine ⟨_, ?answer, rfl, announces_of_answer ?answer⟩
  cbv

end Due

end Person

end Fortnight
