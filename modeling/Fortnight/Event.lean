import Fortnight.Calendar.Instant
import Fortnight.Hours
import Fortnight.Identifier
import Fortnight.Vocabulary

/-!
# Events

What can happen to a person: news about the application for a benefit and the
decision on it, the turn of a fortnight and its deadline, and what the person or
a case worker does with a period.
-/

namespace Fortnight

inductive Event where
  | applicationSubmitted (application : Id) (submitted : Instant)
  | obligationStartDetermined (application : Id) (start : Date)
  | decisionGranted (caseId : String) (effective : Date)
  | decisionRejected (caseId : String) (effective : Date)
  | newCycleStarted (date : Date)
  | deadlinePassed (date : Date)
  | addActivity (period : Id) (date : Date) (hours : Hours) (type : ActivityType)
  | deleteActivity (period activity : Id)
  | approve (period : Id) (actor : Actor) (reference : Date) (moment : Instant)
      (justification : Option String)
  | unapprove (period : Id) (actor : Actor) (moment : Instant) (justification : Option String)
  | manualSubmit (period : Id) (moment : Instant)
  | correct (period : Id)
  deriving DecidableEq

namespace Event

def name : Event → String
  | applicationSubmitted .. => "application_submitted"
  | obligationStartDetermined .. => "obligation_start_determined"
  | decisionGranted .. => "decision_granted"
  | decisionRejected .. => "decision_rejected"
  | newCycleStarted .. => "new_cycle_started"
  | deadlinePassed .. => "deadline_passed"
  | addActivity .. => "add_activity"
  | deleteActivity .. => "delete_activity"
  | approve .. => "approve"
  | unapprove .. => "unapprove"
  | manualSubmit .. => "manual_submit"
  | correct .. => "correct"

/-- The instant as of which the history of obligations decides about the event. -/
def effective? : Event → Option Instant
  | applicationSubmitted _ submitted => some submitted
  | obligationStartDetermined _ start => some start.startOfDay
  | decisionGranted _ effective => some effective.startOfDay
  | decisionRejected _ effective => some effective.startOfDay
  | newCycleStarted date => some date.startOfDay
  | deadlinePassed date => some date.startOfDay
  | manualSubmit _ moment => some moment
  | addActivity .. | deleteActivity .. | approve .. | unapprove .. | correct .. => none

/-- The period to which the event is addressed. -/
def period? : Event → Option Id
  | addActivity period .. => some period
  | deleteActivity period _ => some period
  | approve period .. => some period
  | unapprove period .. => some period
  | manualSubmit period _ => some period
  | correct period => some period
  | applicationSubmitted .. | obligationStartDetermined .. | decisionGranted ..
  | decisionRejected .. | newCycleStarted .. | deadlinePassed .. => none

end Event

end Fortnight
