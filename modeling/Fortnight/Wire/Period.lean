import Fortnight.Period
import Fortnight.Wire.Scalar

/-!
# Periods as JSON

Periods with their days, activities and approvals. What is read is taken as it
stands: that a timeline has fourteen days, for instance, is not looked at.
-/

namespace Fortnight

namespace Activity

def toJson (a : Activity) : Json :=
  .object [("id", a.id.toJson), ("date", a.date.toJson), ("hours", a.hours.toJson),
    ("activity_type", a.type.toJson), ("state", a.state.toJson)]

def members : Members Activity :=
  Activity.mk
    <$> .required "id" Id.decoder
    <*> .required "date" Date.decoder
    <*> .required "hours" Hours.decoder
    <*> .required "activity_type" ActivityType.decoder
    <*> .required "state" ActivityState.decoder

def decoder : Decoder Activity := members.decoder

end Activity

namespace Day

def toJson (d : Day) : Json :=
  .object [("date", d.date.toJson), ("activities", .array (d.activities.map Activity.toJson)),
    ("policy", d.policy.toJson), ("exempt", .bool d.exempt)]

def members : Members Day :=
  Day.mk
    <$> .required "date" Date.decoder
    <*> .required "activities" (.list Activity.decoder)
    <*> .required "policy" DayPolicy.decoder
    <*> .withDefault "exempt" .bool false

def decoder : Decoder Day := members.decoder

end Day

namespace Timeline

def toJson (t : Timeline) : Json :=
  .object [("days", .array (t.days.map Day.toJson))]

def members : Members Timeline :=
  Timeline.mk <$> .required "days" (.list Day.decoder)

def decoder : Decoder Timeline := members.decoder

end Timeline

def justificationToJson (justification : Option String) : Json :=
  .ofOption .string justification

namespace Revocation

def toJson (r : Revocation) : Json :=
  .object [("id", r.id.toJson), ("actor", r.actor.toJson), ("at", r.moment.toJson),
    ("justification", justificationToJson r.justification)]

def members : Members Revocation :=
  Revocation.mk
    <$> .required "id" Id.decoder
    <*> .required "actor" Actor.decoder
    <*> .required "at" Instant.decoder
    <*> .optional "justification" .string

def decoder : Decoder Revocation := members.decoder

end Revocation

namespace Approval

def toJson (a : Approval) : Json :=
  .object [("id", a.id.toJson), ("actor", a.actor.toJson), ("at", a.moment.toJson),
    ("justification", justificationToJson a.justification),
    ("revoked_by", .ofOption Revocation.toJson a.revokedBy)]

def members : Members Approval :=
  Approval.mk
    <$> .required "id" Id.decoder
    <*> .required "actor" Actor.decoder
    <*> .required "at" Instant.decoder
    <*> .optional "justification" .string
    <*> .optional "revoked_by" Revocation.decoder

def decoder : Decoder Approval := members.decoder

end Approval

namespace ApprovalLog

def toJson (log : ApprovalLog) : Json :=
  .object [("entries", .array (log.entries.map Approval.toJson))]

def members : Members ApprovalLog :=
  ApprovalLog.mk <$> .required "entries" (.list Approval.decoder)

def decoder : Decoder ApprovalLog := members.decoder

end ApprovalLog

namespace Period

def toJson (p : Period) : Json :=
  .object [("id", p.id.toJson), ("start", p.start.toJson), ("end", p.finish.toJson),
    ("approvable_from", p.approvableFrom.toJson), ("finalize_after", p.finalizeAfter.toJson),
    ("state", p.state.toJson), ("timeline", p.timeline.toJson),
    ("approvals", p.approvals.toJson), ("corrects", .ofOption Id.toJson p.corrects),
    ("corrected_by", .ofOption Id.toJson p.correctedBy), ("case_id", .ofOption .string p.caseId)]

def members : Members Period :=
  Period.mk
    <$> .required "id" Id.decoder
    <*> .required "start" Date.decoder
    <*> .required "end" Date.decoder
    <*> .required "approvable_from" Date.decoder
    <*> .required "finalize_after" Date.decoder
    <*> .required "state" PeriodState.decoder
    <*> .required "timeline" Timeline.decoder
    <*> .required "approvals" ApprovalLog.decoder
    <*> .optional "corrects" Id.decoder
    <*> .optional "corrected_by" Id.decoder
    <*> .optional "case_id" .string

def decoder : Decoder Period := members.decoder

end Period

namespace FinalizeRule

def toJson : FinalizeRule → Json
  | fromPeriodStart => .object [("strategy", .string "from_period_start")]
  | daysBeforePeriodEnd days =>
    .object [("strategy", .string "days_before_period_end"), ("days", .integer days)]

def shapes : Tagged FinalizeRule where
  tag := "strategy"
  shapes := [
    ("from_period_start", pure fromPeriodStart),
    ("days_before_period_end", daysBeforePeriodEnd <$> .required "days" (.natBelow (2 ^ 32)))]

def decoder : Decoder FinalizeRule := shapes.decoder

end FinalizeRule

end Fortnight
