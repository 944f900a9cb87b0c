import Fortnight.History
import Fortnight.Obligation
import Fortnight.Period.Table

/-!
# Persons

A person has a history of obligations and a table of periods, and every event
goes through `Person.handle`, which changes all that the event asks for or
nothing. New identifiers come from a supply `fresh`, from which each event
takes the first ones.
-/

namespace Fortnight

structure Person where
  ident : String
  obligations : History Obligation
  periods : PeriodTable
  deriving DecidableEq

namespace Person

def appendObligation (o : Obligation) (p : Person) : Person :=
  { p with obligations := p.obligations.put o.effectiveFrom o }

/-- A person of whom nothing is known. The obligation that they do not have gets the identifier `id`. -/
def new (id : Id) (ident : String) : Person :=
  appendObligation (.absentSinceEver id) ⟨ident, .empty, .empty⟩

/-- A person with a given history, in which later entries replace earlier ones
of one instant, and a table of periods that is valid. -/
def ofParts (id : Id) (ident : String) (history : List Obligation) (periods : PeriodTable) :
    Except Error Person := do
  periods.validate
  let p := history.foldl (fun p o => p.appendObligation o) (new id ident)
  pure { p with periods }

def obligationAt (p : Person) (moment : Instant) : Except Error Obligation :=
  p.obligations.asOf moment

/-- Continues a run of obligations with one more, and gives the date on which the run began. -/
def continueRun (since : Option Date) (o : Obligation) : Option Date :=
  match o.kind with
  | .absent => none
  | .applicationBased | .decisionBased _ => some (since.getD o.startDate)

/-- The date on which the unbroken run of obligations began that is in effect at an instant. -/
def obligatedSince (p : Person) (moment : Instant) : Except Error Date :=
  let past := p.obligations.toList.takeWhile fun snapshot => snapshot.1 ≤ moment
  match (past.map Prod.snd).foldl continueRun none with
  | some date => .ok date
  | none => .error (.illegalState (.noObligation moment))

/-- End users act on their own periods only. -/
def authorize (p : Person) (actor : Actor) : Except Error Unit :=
  match actor with
  | .endUser ident =>
    if ident = p.ident then .ok ()
    else .error (.unauthorized (toString actor) "may only act on their own periods")
  | .caseWorker _ => .ok ()

def onPeriods (f : Step PeriodTable α) : Step Person α :=
  Step.within periods (fun periods p => { p with periods }) f

/-- Carries out an effect of an event that is effective at `moment`. A period
that is opened gets the identifier `id`. -/
def carryOut (id : Id) (rule : FinalizeRule) (moment : Instant) :
    Effect → Step Person (List Notification)
  | .requestSubmissionTimestamp application => pure [.submissionTimestampRequested application]
  | .append o => do
    Step.modify (appendObligation o)
    pure []
  | .openFirstPeriod start => onPeriods (PeriodTable.openFirst id start rule)
  | .openNextPeriod date => do
    let since ← Step.look fun p => p.obligatedSince moment
    onPeriods (PeriodTable.openNext id since date rule)
  | .submitDuePeriods date caseId => onPeriods (PeriodTable.submitDue date caseId)

def carryOutAll (id : Id) (rule : FinalizeRule) (moment : Instant) :
    List Effect → Step Person (List Notification)
  | [] => pure []
  | effect :: rest => do
    let first ← carryOut id rule moment effect
    let others ← carryOutAll id rule moment rest
    pure (first ++ others)

/-- Lets the obligation in effect decide about an event. -/
def applyByObligation (fresh : Nat → Id) (rule : FinalizeRule) (moment : Instant)
    (event : Event) : Step Person (List Notification) := do
  let o ← Step.look fun p => p.obligationAt moment
  carryOutAll (fresh 1) rule moment (o.decide (fresh 0) event)

/-- Applies an event step by step. -/
def apply (fresh : Nat → Id) (rule : FinalizeRule) (event : Event) :
    Step Person (List Notification) :=
  match event with
  | .applicationSubmitted _ submitted => applyByObligation fresh rule submitted event
  | .obligationStartDetermined _ start => applyByObligation fresh rule start.startOfDay event
  | .decisionGranted _ effective => applyByObligation fresh rule effective.startOfDay event
  | .newCycleStarted date => applyByObligation fresh rule date.startOfDay event
  | .deadlinePassed date => applyByObligation fresh rule date.startOfDay event
  | .decisionRejected _ effective => do
    Step.modify (appendObligation ⟨fresh 0, .absent, effective.startOfDay⟩)
    pure []
  | .addActivity period date hours type => do
    onPeriods (PeriodTable.add period (.create (fresh 0) date hours type))
    pure []
  | .deleteActivity period activity => do
    onPeriods (PeriodTable.delete period activity)
    pure []
  | .approve period actor reference moment justification => do
    Step.look fun p => p.authorize actor
    onPeriods
      (PeriodTable.approve period (.create (fresh 0) actor moment justification) reference)
  | .unapprove period actor moment justification => do
    Step.look fun p => p.authorize actor
    onPeriods (PeriodTable.unapprove period ⟨fresh 0, actor, moment, justification⟩)
  | .manualSubmit period moment => do
    let o ← Step.look fun p => p.obligationAt moment
    onPeriods (PeriodTable.submitManually period o.caseId?)
  | .correct period => onPeriods (PeriodTable.correct fresh period)

/-- Applies an event, or leaves the person as they were. -/
def handle (fresh : Nat → Id) (rule : FinalizeRule) (event : Event) :
    Step Person (List Notification) :=
  (apply fresh rule event).orNothing

end Person

end Fortnight
