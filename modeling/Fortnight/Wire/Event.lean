import Fortnight.Event
import Fortnight.Notification
import Fortnight.Obligation
import Fortnight.Wire.Period

/-!
# Events and notifications as JSON

Events, notifications and kinds of obligations are tagged with their names.
-/

namespace Fortnight

namespace Event

def fields : Event → List (String × Json)
  | applicationSubmitted application submitted =>
    [("application_id", application.toJson), ("submitted_at", submitted.toJson)]
  | obligationStartDetermined application start =>
    [("application_id", application.toJson), ("start_date", start.toJson)]
  | decisionGranted caseId effective | decisionRejected caseId effective =>
    [("case_id", .string caseId), ("effective_date", effective.toJson)]
  | newCycleStarted date | deadlinePassed date => [("date", date.toJson)]
  | addActivity period date hours type =>
    [("period_id", period.toJson), ("date", date.toJson), ("hours", hours.toJson),
      ("activity_type", type.toJson)]
  | deleteActivity period activity =>
    [("period_id", period.toJson), ("activity_id", activity.toJson)]
  | approve period actor reference moment justification =>
    [("period_id", period.toJson), ("actor", actor.toJson),
      ("reference_date", reference.toJson), ("at", moment.toJson),
      ("justification", justificationToJson justification)]
  | unapprove period actor moment justification =>
    [("period_id", period.toJson), ("actor", actor.toJson), ("at", moment.toJson),
      ("justification", justificationToJson justification)]
  | manualSubmit period moment => [("period_id", period.toJson), ("at", moment.toJson)]
  | correct period => [("period_id", period.toJson)]

def toJson (e : Event) : Json :=
  .object (("type", .string e.name) :: e.fields)

/-- A reason, which may be left out altogether. -/
def justificationMember : Members (Option String) :=
  .withDefault "justification" (.nullable .string) none

def shapes : Tagged Event where
  tag := "type"
  shapes := [
    ("application_submitted",
      applicationSubmitted <$> .required "application_id" Id.decoder
        <*> .required "submitted_at" Instant.decoder),
    ("obligation_start_determined",
      obligationStartDetermined <$> .required "application_id" Id.decoder
        <*> .required "start_date" Date.decoder),
    ("decision_granted",
      decisionGranted <$> .required "case_id" .string
        <*> .required "effective_date" Date.decoder),
    ("decision_rejected",
      decisionRejected <$> .required "case_id" .string
        <*> .required "effective_date" Date.decoder),
    ("new_cycle_started", newCycleStarted <$> .required "date" Date.decoder),
    ("deadline_passed", deadlinePassed <$> .required "date" Date.decoder),
    ("add_activity",
      addActivity <$> .required "period_id" Id.decoder <*> .required "date" Date.decoder
        <*> .required "hours" Hours.decoder
        <*> .required "activity_type" ActivityType.decoder),
    ("delete_activity",
      deleteActivity <$> .required "period_id" Id.decoder
        <*> .required "activity_id" Id.decoder),
    ("approve",
      approve <$> .required "period_id" Id.decoder <*> .required "actor" Actor.decoder
        <*> .required "reference_date" Date.decoder <*> .required "at" Instant.decoder
        <*> justificationMember),
    ("unapprove",
      unapprove <$> .required "period_id" Id.decoder <*> .required "actor" Actor.decoder
        <*> .required "at" Instant.decoder <*> justificationMember),
    ("manual_submit",
      manualSubmit <$> .required "period_id" Id.decoder <*> .required "at" Instant.decoder),
    ("correct", correct <$> .required "period_id" Id.decoder)]

def decoder : Decoder Event := shapes.decoder

end Event

namespace Notification

def name : Notification → String
  | periodStateChanged .. => "period_state_changed"
  | periodSubmitted .. => "period_submitted"
  | submissionTimestampRequested .. => "submission_timestamp_requested"

def fields : Notification → List (String × Json)
  | periodStateChanged period state previous start finish =>
    [("period_id", period.toJson), ("state", state.toJson),
      ("previous", .ofOption PeriodState.toJson previous), ("start", start.toJson),
      ("end", finish.toJson)]
  | periodSubmitted period start finish days caseId corrects =>
    [("period_id", period.toJson), ("start", start.toJson), ("end", finish.toJson),
      ("days", .array (days.map Day.toJson)), ("case_id", .ofOption .string caseId),
      ("corrects", .ofOption Id.toJson corrects)]
  | submissionTimestampRequested application => [("application_id", application.toJson)]

def toJson (n : Notification) : Json :=
  .object (("type", .string n.name) :: n.fields)

def shapes : Tagged Notification where
  tag := "type"
  shapes := [
    ("period_state_changed",
      periodStateChanged <$> .required "period_id" Id.decoder
        <*> .required "state" PeriodState.decoder
        <*> .optional "previous" PeriodState.decoder
        <*> .required "start" Date.decoder <*> .required "end" Date.decoder),
    ("period_submitted",
      periodSubmitted <$> .required "period_id" Id.decoder
        <*> .required "start" Date.decoder <*> .required "end" Date.decoder
        <*> .required "days" (.list Day.decoder) <*> .optional "case_id" .string
        <*> .optional "corrects" Id.decoder),
    ("submission_timestamp_requested",
      submissionTimestampRequested <$> .required "application_id" Id.decoder)]

def decoder : Decoder Notification := shapes.decoder

end Notification

namespace ObligationKind

def name : ObligationKind → String
  | absent => "none"
  | applicationBased => "application_based"
  | decisionBased _ => "decision_based"

def toJson (k : ObligationKind) : Json :=
  match k with
  | absent | applicationBased => .object [("kind", .string k.name)]
  | decisionBased caseId => .object [("kind", .string k.name), ("case_id", .string caseId)]

def shapes : Tagged ObligationKind where
  tag := "kind"
  shapes := [
    ("none", pure absent),
    ("application_based", pure applicationBased),
    ("decision_based", decisionBased <$> .required "case_id" .string)]

def decoder : Decoder ObligationKind := shapes.decoder

end ObligationKind

def Obligation.toJson (o : Obligation) : Json :=
  .object [("id", o.id.toJson), ("kind", o.kind.toJson),
    ("effective_from", o.effectiveFrom.toJson)]

end Fortnight
