import Mathlib.Data.List.Forall2
import Fortnight.Proofs.Calendar.Text
import Fortnight.Proofs.Hours.Text
import Fortnight.Proofs.Identifier
import Fortnight.Proofs.Json.Decoder
import Fortnight.Proofs.Json.Text
import Fortnight.Wire.Period

/-!
# Scalars and days as JSON

What is written of a day is read as an equal day. Days and activities are equal when
everything is the same but perhaps how hours of one size are written.
-/

namespace Fortnight

open Decoder (reads_bool reads_list reads_oneOf reads_ofText reads_string)
open Members (reads_required reads_withDefault)

section Scalars

theorem Id.reads (id : Id) : decoder.Reads id.toJson id :=
  reads_ofText id.ofText?_text

theorem Date.reads (d : Date) : decoder.Reads d.toJson d :=
  reads_ofText d.ofText?_text

theorem Instant.reads (t : Instant) : decoder.Reads t.toJson t :=
  reads_ofText t.ofText?_text

theorem Hours.reads (h : Hours) : decoder.Reads h.toJson h.reread := by
  intro l
  simp only [toJson, decoder, h.ofText?_text]

theorem ActivityType.reads (t : ActivityType) : decoder.Reads t.toJson t :=
  reads_oneOf (by cases t <;> rfl)

theorem ActivityState.reads (s : ActivityState) : decoder.Reads s.toJson s :=
  reads_oneOf (by cases s <;> rfl)

theorem DayPolicy.reads (p : DayPolicy) : decoder.Reads p.toJson p :=
  reads_oneOf (by cases p <;> rfl)

theorem PeriodState.reads (s : PeriodState) : decoder.Reads s.toJson s :=
  reads_oneOf (by cases s <;> rfl)

theorem Actor.reads (a : Actor) : decoder.Reads a.toJson a := by
  cases a with
  | endUser ident =>
    have hmembers := (reads_required "ident" (reads_string ident)).map endUser
    exact Tagged.reads_object rfl hmembers (by decide)
  | caseWorker id =>
    have hmembers := (reads_required "id" (reads_string id)).map caseWorker
    exact Tagged.reads_object rfl hmembers (by decide)

theorem Actor.plain_toJson (a : Actor) (n : ℕ) : Json.Plain (n + 1) a.toJson := by
  cases a <;> exact .object (by simp)

end Scalars

namespace Activity

/-- Equality up to how the hours are written. -/
def Equal (a b : Activity) : Prop :=
  a.id = b.id ∧ a.date = b.date ∧ a.hours.SameSize b.hours ∧ a.type = b.type ∧ a.state = b.state

/-- The activity as it is read back. -/
def reread (a : Activity) : Activity :=
  { a with hours := a.hours.reread }

theorem reread_equal (a : Activity) : a.reread.Equal a :=
  ⟨rfl, rfl, a.hours.sameSize_reread, rfl, rfl⟩

theorem reads (a : Activity) : decoder.Reads a.toJson a.reread := by
  have hid := reads_required "id" a.id.reads
  have hdate := reads_required "date" a.date.reads
  have hhours := reads_required "hours" a.hours.reads
  have htype := reads_required "activity_type" a.type.reads
  have hstate := reads_required "state" a.state.reads
  have hmembers := ((((hid.map mk).seq hdate).seq hhours).seq htype).seq hstate
  exact hmembers.object (by decide)

theorem plain_toJson (a : Activity) (n : ℕ) : Json.Plain (n + 1) a.toJson := by
  refine .object ?_
  simp [Id.toJson, Date.toJson, Hours.toJson, ActivityType.toJson, ActivityState.toJson]

end Activity

namespace Day

/-- Equality up to how the hours of the activities are written. -/
def Equal (d e : Day) : Prop :=
  d.date = e.date ∧ List.Forall₂ Activity.Equal d.activities e.activities ∧
    d.policy = e.policy ∧ d.exempt = e.exempt

/-- The day as it is read back. -/
def reread (d : Day) : Day :=
  { d with activities := d.activities.map Activity.reread }

theorem reread_equal (d : Day) : d.reread.Equal d :=
  ⟨rfl, List.forall₂_map_left_iff.mpr (List.forall₂_same.mpr fun a _ => a.reread_equal), rfl, rfl⟩

theorem reads (d : Day) : decoder.Reads d.toJson d.reread := by
  have hdate := reads_required "date" d.date.reads
  have hactivities :=
    reads_required "activities" (reads_list Activity.reads d.activities)
  have hpolicy := reads_required "policy" d.policy.reads
  have hexempt := reads_withDefault "exempt" (reads_bool d.exempt) false
  have hmembers := (((hdate.map mk).seq hactivities).seq hpolicy).seq hexempt
  exact hmembers.object (by decide)

theorem plain_toJson (d : Day) (n : ℕ) : Json.Plain (n + 3) d.toJson := by
  have hactivities : Json.Plain (n + 2) (.array (d.activities.map Activity.toJson)) :=
    .array (List.forall_mem_map.mpr fun a _ => a.plain_toJson n)
  refine .object ?_
  simp [Date.toJson, DayPolicy.toJson, hactivities]

end Day

end Fortnight
