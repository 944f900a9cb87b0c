import Fortnight.Approval
import Fortnight.FinalizeRule
import Fortnight.Notification

/-!
# Periods

A period is filled in, approved and submitted. An approval can be taken back
until the period is submitted; after that the period stays as it is, and only
another period can correct it. What needs to know that other period is done by
the table of all periods.
-/

namespace Fortnight

structure Period where
  id : Id
  start : Date
  finish : Date
  approvableFrom : Date
  finalizeAfter : Date
  state : PeriodState
  timeline : Timeline
  approvals : ApprovalLog
  /-- The submitted period that this one corrects. -/
  corrects : Option Id
  /-- The period that corrects this one, or that has replaced it as a draft. -/
  correctedBy : Option Id
  caseId : Option String
  deriving DecidableEq

namespace Period

def starting (id : Id) (start : Date) (rule : FinalizeRule) : Except Error Period := do
  let finish ← start.periodEnd
  let approvableFrom ← finish.saturdayOnOrBefore
  let timeline ← Timeline.starting start
  pure {
    id, start, finish, approvableFrom, timeline
    finalizeAfter := rule.finalizeAfter start finish
    state := .toBeFilled
    approvals := .empty
    corrects := none
    correctedBy := none
    caseId := none }

theorem starting_eq_ok_iff {id : Id} {start : Date} {rule : FinalizeRule} {p : Period} :
    starting id start rule = .ok p ↔
      ∃ finish approvableFrom timeline, start.periodEnd = .ok finish ∧
        finish.saturdayOnOrBefore = .ok approvableFrom ∧ Timeline.starting start = .ok timeline ∧
        p = ⟨id, start, finish, approvableFrom, rule.finalizeAfter start finish, .toBeFilled,
          timeline, .empty, none, none, none⟩ := by
  simp only [starting, Error.bind_eq_ok_iff, pure, Except.pure, Except.ok.injEq]
  constructor
  · rintro ⟨finish, hf, approvableFrom, ha, timeline, ht, rfl⟩
    exact ⟨finish, approvableFrom, timeline, hf, ha, ht, rfl⟩
  · rintro ⟨finish, approvableFrom, timeline, hf, ha, ht, rfl⟩
    exact ⟨finish, hf, approvableFrom, ha, timeline, ht, rfl⟩

/-- A draft that corrects a period and has the content of it at first. -/
def correctionOf (fresh : Nat → Id) (p : Period) : Period :=
  { p with
    id := fresh 0
    state := .toBeFilled
    timeline := p.timeline.copyForCorrection fun n => fresh (n + 1)
    approvals := .empty
    corrects := some p.id
    correctedBy := none
    caseId := none }

def containsDate (p : Period) (date : Date) : Bool :=
  p.start ≤ date ∧ date ≤ p.finish

def unsupported (p : Period) (operation : PeriodOperation) : Error :=
  .illegalState (.unsupported p.id operation p.state)

def ensureState (expected : PeriodState) (operation : PeriodOperation) : Step Period Unit :=
  Step.look fun p => if p.state = expected then .ok () else .error (p.unsupported operation)

def stateChanged (previous : Option PeriodState) (p : Period) : Notification :=
  .periodStateChanged p.id p.state previous p.start p.finish

def submission (p : Period) : Notification :=
  .periodSubmitted p.id p.start p.finish p.timeline.days p.caseId p.corrects

def onTimeline (f : Step Timeline α) : Step Period α :=
  Step.within timeline (fun t p => { p with timeline := t }) f

def onApprovals (f : Step ApprovalLog α) : Step Period α :=
  Step.within approvals (fun log p => { p with approvals := log }) f

def add (a : Activity) : Step Period Unit := do
  ensureState .toBeFilled .addActivity
  onTimeline (Timeline.add a)

def delete (activity : Id) : Step Period Unit := do
  ensureState .toBeFilled .deleteActivity
  onTimeline (Timeline.delete activity)

/-- Holds back an approval before its time, and one of a correction that changes nothing. -/
def ensureApprovable (reference : Date) (corrected : Option Timeline) (p : Period) :
    Except Error Unit :=
  if reference < p.approvableFrom then .error (.gateTooEarly p.approvableFrom reference)
  else if corrected.any p.timeline.sameContent then
    .error (.illegalState (.unchangedCorrection p.id))
  else .ok ()

/-- Enters the approval, locks the days and moves on. `corrected` is the
timeline of the period that this one corrects. -/
def approve (approval : Approval) (reference : Date) (corrected : Option Timeline) :
    Step Period (List Notification) := do
  ensureState .toBeFilled .approval
  Step.look (ensureApprovable reference corrected)
  onApprovals (ApprovalLog.add approval)
  onTimeline Timeline.lock
  Step.modify fun p => { p with state := .approved }
  let p ← Step.get
  pure [p.stateChanged (some .toBeFilled)]

def unapprove (revocation : Revocation) : Step Period (List Notification) := do
  ensureState .approved .unapproval
  onApprovals (ApprovalLog.revoke revocation)
  onTimeline Timeline.unlock
  Step.modify fun p => { p with state := .toBeFilled }
  let p ← Step.get
  pure [p.stateChanged (some .approved)]

def submit (caseId : Option String) : Step Period (List Notification) := do
  Step.modify fun p => { p with caseId, state := .submitted }
  let p ← Step.get
  pure [p.stateChanged (some .approved), p.submission]

def submitManually (caseId : Option String) : Step Period (List Notification) := do
  ensureState .approved .manualSubmission
  submit caseId

/-- Submits the period if it is due on `date`. -/
def submitByDeadline (date : Date) (caseId : Option String) :
    Step Period (List Notification) := do
  ensureState .approved .deadlineSubmission
  let p ← Step.get
  if date < p.finalizeAfter then pure [] else submit caseId

end Period

end Fortnight
