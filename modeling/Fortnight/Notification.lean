import Fortnight.Timeline

/-!
# Notifications

What the outside world is told after an event: which periods were opened or
changed their state, what was submitted, and that a timestamp is wanted.
-/

namespace Fortnight

inductive Notification where
  /-- A period changed its state, or was opened if it had no previous one. -/
  | periodStateChanged (period : Id) (state : PeriodState) (previous : Option PeriodState)
      (start finish : Date)
  | periodSubmitted (period : Id) (start finish : Date) (days : List Day)
      (caseId : Option String) (corrects : Option Id)
  | submissionTimestampRequested (application : Id)
  deriving DecidableEq

namespace Notification

def period? : Notification → Option Id
  | periodStateChanged period .. => some period
  | periodSubmitted period .. => some period
  | submissionTimestampRequested _ => none

end Notification

end Fortnight
