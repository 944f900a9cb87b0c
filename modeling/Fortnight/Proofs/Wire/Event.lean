import Fortnight.Proofs.Wire.Period
import Fortnight.Wire.Event

/-!
# Events and notifications are read as they are written

The JSON text of an event or a notification gives it back, whatever dates, instants,
hours, strings and days it holds. Hours come back with the same digits and decimals,
but a zero without its sign, so what comes back is equal rather than the same.
-/

namespace Fortnight

open Decoder (reads_list reads_nullable reads_string)
open Members (reads_optional reads_required reads_withDefault)

namespace Event

/-- Equality up to how hours are written. -/
def Equal : Event → Event → Prop
  | addActivity period date hours type, addActivity period' date' hours' type' =>
    period = period' ∧ date = date' ∧ hours.SameSize hours' ∧ type = type'
  | e, e' => e = e'

/-- The event as it is read back. -/
def reread : Event → Event
  | addActivity period date hours type => addActivity period date hours.reread type
  | e => e

theorem reread_equal (e : Event) : e.reread.Equal e := by
  cases e with
  | addActivity period date hours type => exact ⟨rfl, rfl, hours.sameSize_reread, rfl⟩
  | _ => rfl

theorem reads_justification (justification : Option String) :
    justificationMember.Reads [("justification", justificationToJson justification)]
      justification := by
  have hread := reads_nullable (fun _ => Json.noConfusion) reads_string
    justification
  exact reads_withDefault "justification" hread none

theorem reads (e : Event) : decoder.Reads e.toJson e.reread := by
  cases e with
  | applicationSubmitted application submitted =>
    have happlication := reads_required "application_id" application.reads
    have hsubmitted := reads_required "submitted_at" submitted.reads
    have hmembers := (happlication.map applicationSubmitted).seq hsubmitted
    exact Tagged.reads_object rfl hmembers (by decide)
  | obligationStartDetermined application start =>
    have happlication := reads_required "application_id" application.reads
    have hstart := reads_required "start_date" start.reads
    have hmembers := (happlication.map obligationStartDetermined).seq hstart
    exact Tagged.reads_object rfl hmembers (by decide)
  | decisionGranted caseId effective =>
    have hcase := reads_required "case_id" (reads_string caseId)
    have heffective := reads_required "effective_date" effective.reads
    have hmembers := (hcase.map decisionGranted).seq heffective
    exact Tagged.reads_object rfl hmembers (by decide)
  | decisionRejected caseId effective =>
    have hcase := reads_required "case_id" (reads_string caseId)
    have heffective := reads_required "effective_date" effective.reads
    have hmembers := (hcase.map decisionRejected).seq heffective
    exact Tagged.reads_object rfl hmembers (by decide)
  | newCycleStarted date =>
    have hmembers := (reads_required "date" date.reads).map newCycleStarted
    exact Tagged.reads_object rfl hmembers (by decide)
  | deadlinePassed date =>
    have hmembers := (reads_required "date" date.reads).map deadlinePassed
    exact Tagged.reads_object rfl hmembers (by decide)
  | addActivity period date hours type =>
    have hperiod := reads_required "period_id" period.reads
    have hdate := reads_required "date" date.reads
    have hhours := reads_required "hours" hours.reads
    have htype := reads_required "activity_type" type.reads
    have hmembers := (((hperiod.map addActivity).seq hdate).seq hhours).seq htype
    exact Tagged.reads_object rfl hmembers (by decide)
  | deleteActivity period activity =>
    have hperiod := reads_required "period_id" period.reads
    have hactivity := reads_required "activity_id" activity.reads
    have hmembers := (hperiod.map deleteActivity).seq hactivity
    exact Tagged.reads_object rfl hmembers (by decide)
  | approve period actor reference moment justification =>
    have hperiod := reads_required "period_id" period.reads
    have hactor := reads_required "actor" actor.reads
    have hreference := reads_required "reference_date" reference.reads
    have hmoment := reads_required "at" moment.reads
    have hmembers := ((((hperiod.map approve).seq hactor).seq hreference).seq hmoment).seq
      (reads_justification justification)
    exact Tagged.reads_object rfl hmembers (by decide)
  | unapprove period actor moment justification =>
    have hperiod := reads_required "period_id" period.reads
    have hactor := reads_required "actor" actor.reads
    have hmoment := reads_required "at" moment.reads
    have hmembers := (((hperiod.map unapprove).seq hactor).seq hmoment).seq
      (reads_justification justification)
    exact Tagged.reads_object rfl hmembers (by decide)
  | manualSubmit period moment =>
    have hperiod := reads_required "period_id" period.reads
    have hmoment := reads_required "at" moment.reads
    have hmembers := (hperiod.map manualSubmit).seq hmoment
    exact Tagged.reads_object rfl hmembers (by decide)
  | correct period =>
    have hmembers := (reads_required "period_id" period.reads).map correct
    exact Tagged.reads_object rfl hmembers (by decide)

theorem plain_justification (justification : Option String) (n : ℕ) :
    Json.Plain n (justificationToJson justification) :=
  .ofOption Json.Plain.string justification

theorem plain_toJson (e : Event) (n : ℕ) : Json.Plain (n + 2) e.toJson := by
  refine .object (List.forall_mem_cons.mpr ⟨.string _, ?_⟩)
  cases e with
  | approve _ actor _ _ _ =>
    simp [fields, Id.toJson, Date.toJson, Instant.toJson, actor.plain_toJson, plain_justification]
  | unapprove _ actor _ _ =>
    simp [fields, Id.toJson, Instant.toJson, actor.plain_toJson, plain_justification]
  | _ => simp [fields, Id.toJson, Instant.toJson, Date.toJson, Hours.toJson, ActivityType.toJson]

end Event

namespace Notification

/-- Equality up to how hours are written. -/
def Equal : Notification → Notification → Prop
  | periodSubmitted period start finish days caseId corrects,
      periodSubmitted period' start' finish' days' caseId' corrects' =>
    period = period' ∧ start = start' ∧ finish = finish' ∧ List.Forall₂ Day.Equal days days' ∧
      caseId = caseId' ∧ corrects = corrects'
  | n, n' => n = n'

/-- The notification as it is read back. -/
def reread : Notification → Notification
  | periodSubmitted period start finish days caseId corrects =>
    periodSubmitted period start finish (days.map Day.reread) caseId corrects
  | n => n

theorem reread_equal (n : Notification) : n.reread.Equal n := by
  cases n with
  | periodSubmitted period start finish days caseId corrects =>
    have hdays : List.Forall₂ Day.Equal (days.map Day.reread) days :=
      List.forall₂_map_left_iff.mpr (List.forall₂_same.mpr fun d _ => d.reread_equal)
    exact ⟨rfl, rfl, rfl, hdays, rfl, rfl⟩
  | _ => rfl

theorem reads (n : Notification) : decoder.Reads n.toJson n.reread := by
  cases n with
  | periodStateChanged period state previous start finish =>
    have hperiod := reads_required "period_id" period.reads
    have hstate := reads_required "state" state.reads
    have hprevious := reads_optional "previous"
      (reads_nullable (fun _ => Json.noConfusion) PeriodState.reads previous)
    have hstart := reads_required "start" start.reads
    have hfinish := reads_required "end" finish.reads
    have hmembers := ((((hperiod.map periodStateChanged).seq hstate).seq hprevious).seq hstart).seq
      hfinish
    exact Tagged.reads_object rfl hmembers (by decide)
  | periodSubmitted period start finish days caseId corrects =>
    have hperiod := reads_required "period_id" period.reads
    have hstart := reads_required "start" start.reads
    have hfinish := reads_required "end" finish.reads
    have hdays := reads_required "days" (reads_list Day.reads days)
    have hcase := reads_optional "case_id"
      (reads_nullable (fun _ => Json.noConfusion) reads_string caseId)
    have hcorrects := reads_optional "corrects"
      (reads_nullable (fun _ => Json.noConfusion) Id.reads corrects)
    have hmembers := (((((hperiod.map periodSubmitted).seq hstart).seq hfinish).seq hdays).seq
      hcase).seq hcorrects
    exact Tagged.reads_object rfl hmembers (by decide)
  | submissionTimestampRequested application =>
    have hmembers := (reads_required "application_id" application.reads).map
      submissionTimestampRequested
    exact Tagged.reads_object rfl hmembers (by decide)

theorem plain_toJson (n : Notification) (k : ℕ) : Json.Plain (k + 5) n.toJson := by
  refine .object (List.forall_mem_cons.mpr ⟨.string _, ?_⟩)
  cases n with
  | periodStateChanged _ _ previous _ _ =>
    have hprevious : Json.Plain (k + 4) (.ofOption PeriodState.toJson previous) :=
      .ofOption (fun _ => .string _) previous
    simp [fields, Id.toJson, PeriodState.toJson, Date.toJson, hprevious]
  | periodSubmitted _ _ _ days caseId corrects =>
    have hdays : Json.Plain (k + 4) (.array (days.map Day.toJson)) :=
      .array (List.forall_mem_map.mpr fun d _ => d.plain_toJson k)
    have hcase : Json.Plain (k + 4) (.ofOption .string caseId) := .ofOption Json.Plain.string caseId
    have hcorrects : Json.Plain (k + 4) (.ofOption Id.toJson corrects) :=
      .ofOption (fun _ => .string _) corrects
    simp [fields, Id.toJson, Date.toJson, hdays, hcase, hcorrects]
  | submissionTimestampRequested application => simp [fields, Id.toJson]

end Notification

/-- From the text of any event or notification an equal one is decoded. -/
theorem exists_equal_of_text :
    (∀ e : Event, ∃ e', (Json.ofText? e.toJson.text).map (Event.decoder .strict) = some (.ok e') ∧
      e'.Equal e) ∧
    ∀ n : Notification, ∃ n',
      (Json.ofText? n.toJson.text).map (Notification.decoder .strict) = some (.ok n') ∧
        n'.Equal n := by
  refine ⟨fun e => ⟨e.reread, ?_, e.reread_equal⟩, fun n => ⟨n.reread, ?_, n.reread_equal⟩⟩
  · rw [(e.plain_toJson 125).ofText?_text, Option.map_some, e.reads]
  · rw [(n.plain_toJson 122).ofText?_text, Option.map_some, n.reads]

end Fortnight
