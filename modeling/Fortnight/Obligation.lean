import Fortnight.Event

/-!
# The obligation to report

A person is obligated to report because of an application or because of a
decision, or is not. The obligation in effect decides what an event means, as a
list of effects for the person to carry out.
-/

namespace Fortnight

inductive ObligationKind where
  | absent
  | applicationBased
  | decisionBased (caseId : String)
  deriving DecidableEq

structure Obligation where
  id : Id
  kind : ObligationKind
  effectiveFrom : Instant
  deriving DecidableEq

inductive Effect where
  | requestSubmissionTimestamp (application : Id)
  | append (obligation : Obligation)
  | openFirstPeriod (obligationStart : Date)
  | openNextPeriod (date : Date)
  | submitDuePeriods (date : Date) (caseId : Option String)
  deriving DecidableEq

namespace Obligation

/-- What holds as long as nothing else is known. -/
def absentSinceEver (id : Id) : Obligation :=
  ⟨id, .absent, Instant.first⟩

def granted (id : Id) (caseId : String) (effective : Date) : Obligation :=
  ⟨id, .decisionBased caseId, effective.startOfDay⟩

def caseId? (o : Obligation) : Option String :=
  match o.kind with
  | .decisionBased caseId => some caseId
  | .absent | .applicationBased => none

def startDate (o : Obligation) : Date :=
  o.effectiveFrom.date

/-- The effects without an obligation: it may start, and then a period is opened. -/
def decideAbsent (id : Id) : Event → List Effect
  | .applicationSubmitted application _ => [.requestSubmissionTimestamp application]
  | .obligationStartDetermined _ start =>
    [.append ⟨id, .applicationBased, start.startOfDay⟩, .openFirstPeriod start]
  | .decisionGranted caseId effective =>
    [.append (granted id caseId effective), .openFirstPeriod effective]
  | _ => []

/-- The effects while there is an obligation, which submits under `current`. -/
def decidePresent (id : Id) (current : Option String) : Event → List Effect
  | .newCycleStarted date => [.openNextPeriod date]
  | .decisionGranted caseId effective => [.append (granted id caseId effective)]
  | .deadlinePassed date => [.submitDuePeriods date current]
  | _ => []

/-- The effects of an event. An obligation that starts with it gets the identifier `id`. -/
def decide (id : Id) (o : Obligation) (event : Event) : List Effect :=
  match o.kind with
  | .absent => decideAbsent id event
  | .applicationBased => decidePresent id none event
  | .decisionBased caseId => decidePresent id (some caseId) event

end Obligation

end Fortnight
