import Fortnight.Person.Record
import Fortnight.Wire.Period

/-!
# Records as JSON
-/

namespace Fortnight

namespace ObligationRow

def toJson (row : ObligationRow) : Json :=
  .object [("id", row.id.toJson), ("kind", .string row.kind),
    ("case_id", .ofOption .string row.caseId), ("effective_from", row.effectiveFrom.toJson)]

def members : Members ObligationRow :=
  ObligationRow.mk
    <$> .required "id" Id.decoder
    <*> .required "kind" .string
    <*> .optional "case_id" .string
    <*> .required "effective_from" Instant.decoder

end ObligationRow

namespace PeriodRow

def toJson (row : PeriodRow) : Json :=
  .object [("id", row.id.toJson), ("start", row.start.toJson), ("end", row.finish.toJson),
    ("approvable_from", row.approvableFrom.toJson),
    ("finalize_after", row.finalizeAfter.toJson), ("state", row.state.toJson),
    ("corrects", .ofOption Id.toJson row.corrects),
    ("corrected_by", .ofOption Id.toJson row.correctedBy),
    ("case_id", .ofOption .string row.caseId)]

def members : Members PeriodRow :=
  PeriodRow.mk
    <$> .required "id" Id.decoder
    <*> .required "start" Date.decoder
    <*> .required "end" Date.decoder
    <*> .required "approvable_from" Date.decoder
    <*> .required "finalize_after" Date.decoder
    <*> .required "state" PeriodState.decoder
    <*> .optional "corrects" Id.decoder
    <*> .optional "corrected_by" Id.decoder
    <*> .optional "case_id" .string

end PeriodRow

namespace ApprovalRow

def toJson (row : ApprovalRow) : Json :=
  .object [("id", row.id.toJson), ("period_id", row.period.toJson),
    ("position", .integer row.position), ("actor", row.actor.toJson),
    ("at", row.moment.toJson), ("justification", justificationToJson row.justification),
    ("revoked_by", .ofOption Revocation.toJson row.revokedBy)]

def members : Members ApprovalRow :=
  ApprovalRow.mk
    <$> .required "id" Id.decoder
    <*> .required "period_id" Id.decoder
    <*> .required "position" (.natBelow (2 ^ 64))
    <*> .required "actor" Actor.decoder
    <*> .required "at" Instant.decoder
    <*> .optional "justification" .string
    <*> .optional "revoked_by" Revocation.decoder

end ApprovalRow

namespace DayRow

def toJson (row : DayRow) : Json :=
  .object [("period_id", row.period.toJson), ("date", row.date.toJson),
    ("policy", row.policy.toJson), ("exempt", .bool row.exempt)]

def members : Members DayRow :=
  DayRow.mk
    <$> .required "period_id" Id.decoder
    <*> .required "date" Date.decoder
    <*> .required "policy" DayPolicy.decoder
    <*> .required "exempt" .bool

end DayRow

namespace ActivityRow

def toJson (row : ActivityRow) : Json :=
  .object [("id", row.id.toJson), ("period_id", row.period.toJson),
    ("date", row.date.toJson), ("hours", row.hours.toJson),
    ("activity_type", row.type.toJson), ("state", row.state.toJson)]

def members : Members ActivityRow :=
  ActivityRow.mk
    <$> .required "id" Id.decoder
    <*> .required "period_id" Id.decoder
    <*> .required "date" Date.decoder
    <*> .required "hours" Hours.decoder
    <*> .required "activity_type" ActivityType.decoder
    <*> .required "state" ActivityState.decoder

end ActivityRow

namespace Record

def toJson (r : Record) : Json :=
  .object [("ident", .string r.ident),
    ("obligations", .array (r.obligations.map ObligationRow.toJson)),
    ("periods", .array (r.periods.map PeriodRow.toJson)),
    ("approvals", .array (r.approvals.map ApprovalRow.toJson)),
    ("days", .array (r.days.map DayRow.toJson)),
    ("activities", .array (r.activities.map ActivityRow.toJson))]

def members : Members Record :=
  Record.mk
    <$> .required "ident" .string
    <*> .required "obligations" (.list ObligationRow.members.decoder)
    <*> .required "periods" (.list PeriodRow.members.decoder)
    <*> .required "approvals" (.list ApprovalRow.members.decoder)
    <*> .required "days" (.list DayRow.members.decoder)
    <*> .required "activities" (.list ActivityRow.members.decoder)

def decoder : Decoder Record := members.decoder

end Record

end Fortnight
