import Fortnight.Person

/-!
# Records of persons

A person as rows: one for each obligation, period, approval, day and activity,
which name the period to which they belong. Reading a record puts the rows
together again and turns down a record whose rows do not fit each other.
-/

namespace Fortnight

/-- An obligation, with its kind by name and a case only if the kind has one. -/
structure ObligationRow where
  id : Id
  kind : String
  caseId : Option String
  effectiveFrom : Instant
  deriving DecidableEq

structure PeriodRow where
  id : Id
  start : Date
  finish : Date
  approvableFrom : Date
  finalizeAfter : Date
  state : PeriodState
  corrects : Option Id
  correctedBy : Option Id
  caseId : Option String
  deriving DecidableEq

structure ApprovalRow where
  id : Id
  period : Id
  /-- The place of the approval in the log of its period. -/
  position : Nat
  actor : Actor
  moment : Instant
  justification : Option String
  revokedBy : Option Revocation
  deriving DecidableEq

structure DayRow where
  period : Id
  date : Date
  policy : DayPolicy
  exempt : Bool
  deriving DecidableEq

structure ActivityRow where
  id : Id
  period : Id
  date : Date
  hours : Hours
  type : ActivityType
  state : ActivityState
  deriving DecidableEq, BEq

/-- The rows of a person. Of two records, `==` compares the size of hours and all else as written. -/
structure Record where
  ident : String
  obligations : List ObligationRow
  periods : List PeriodRow
  approvals : List ApprovalRow
  days : List DayRow
  activities : List ActivityRow
  deriving DecidableEq, BEq

namespace ObligationRow

def ofObligation (o : Obligation) : ObligationRow :=
  match o.kind with
  | .absent => ⟨o.id, "none", none, o.effectiveFrom⟩
  | .applicationBased => ⟨o.id, "application_based", none, o.effectiveFrom⟩
  | .decisionBased caseId => ⟨o.id, "decision_based", some caseId, o.effectiveFrom⟩

def kind? (row : ObligationRow) : Option ObligationKind :=
  if row.kind = "none" then some .absent
  else if row.kind = "application_based" then some .applicationBased
  else if row.kind = "decision_based" then row.caseId.map .decisionBased
  else none

def obligation (row : ObligationRow) : Except Error Obligation :=
  match row.kind? with
  | some kind => .ok ⟨row.id, kind, row.effectiveFrom⟩
  | none => .error (.illegalState (.obligationKind row.id row.kind))

end ObligationRow

namespace PeriodRow

def ofPeriod (p : Period) : PeriodRow where
  id := p.id
  start := p.start
  finish := p.finish
  approvableFrom := p.approvableFrom
  finalizeAfter := p.finalizeAfter
  state := p.state
  corrects := p.corrects
  correctedBy := p.correctedBy
  caseId := p.caseId

/-- The period of the row with its days and approvals. -/
def period (row : PeriodRow) (timeline : Timeline) (approvals : ApprovalLog) : Period where
  id := row.id
  start := row.start
  finish := row.finish
  approvableFrom := row.approvableFrom
  finalizeAfter := row.finalizeAfter
  state := row.state
  timeline := timeline
  approvals := approvals
  corrects := row.corrects
  correctedBy := row.correctedBy
  caseId := row.caseId

end PeriodRow

namespace ApprovalRow

def ofApproval (period : Id) (position : Nat) (a : Approval) : ApprovalRow :=
  ⟨a.id, period, position, a.actor, a.moment, a.justification, a.revokedBy⟩

def approval (row : ApprovalRow) : Approval :=
  ⟨row.id, row.actor, row.moment, row.justification, row.revokedBy⟩

end ApprovalRow

namespace DayRow

def ofDay (period : Id) (d : Day) : DayRow :=
  ⟨period, d.date, d.policy, d.exempt⟩

end DayRow

namespace ActivityRow

def ofActivity (period : Id) (a : Activity) : ActivityRow :=
  ⟨a.id, period, a.date, a.hours, a.type, a.state⟩

def activity (row : ActivityRow) : Activity :=
  ⟨row.id, row.date, row.hours, row.type, row.state⟩

end ActivityRow

namespace Period

def approvalRows (p : Period) : List ApprovalRow :=
  p.approvals.entries.mapIdx fun position a => .ofApproval p.id position a

def dayRows (p : Period) : List DayRow :=
  p.timeline.days.map (.ofDay p.id)

def activityRows (p : Period) : List ActivityRow :=
  (p.timeline.days.flatMap Day.activities).map (.ofActivity p.id)

end Period

namespace Person

/-- The record of a person: obligations by instant, periods and what belongs to
them by the identifiers of the periods. -/
def toRecord (p : Person) : Record where
  ident := p.ident
  obligations := p.obligations.toList.map fun snapshot => .ofObligation snapshot.2
  periods := p.periods.toList.map .ofPeriod
  approvals := p.periods.toList.flatMap Period.approvalRows
  days := p.periods.toList.flatMap Period.dayRows
  activities := p.periods.toList.flatMap Period.activityRows

end Person

namespace Record

/-- Turns down a second row for a day of a period. -/
def checkDays (seen : List (Id × Date)) : List DayRow → Except Error Unit
  | [] => .ok ()
  | row :: rest =>
    if (row.period, row.date) ∈ seen then
      .error (.illegalState (.repeatedDay row.period row.date))
    else checkDays ((row.period, row.date) :: seen) rest

/-- Requires a row for the day of the activity. -/
def checkActivity (r : Record) (row : ActivityRow) : Except Error Unit :=
  if r.days.any fun day => day.period = row.period ∧ day.date = row.date then .ok ()
  else .error (.illegalState (.unknownDay row.id row.date row.period))

def activitiesOf (r : Record) (period : Id) (date : Date) : List Activity :=
  (r.activities.filter fun row => row.period = period ∧ row.date = date).map
    ActivityRow.activity

def daysOf (r : Record) (period : Id) : List Day :=
  (r.days.filter fun row => row.period = period).map fun row =>
    ⟨row.date, r.activitiesOf period row.date, row.policy, row.exempt⟩

def approvalsOf (r : Record) (period : Id) : List Approval :=
  ((r.approvals.filter fun row => row.period = period).mergeSort
    fun a b => a.position ≤ b.position).map ApprovalRow.approval

/-- Adds the period of a row. Days belong to the first period row that they fit;
a second row with the identifier has none. -/
def addPeriod (r : Record) (t : PeriodTable) (row : PeriodRow) : Except Error PeriodTable := do
  let timeline ← Timeline.ofDays (if t.contains row.id then [] else r.daysOf row.id)
  if (timeline.days.head?.map Day.date) ≠ some row.start then
    throw (.illegalState (.timelineStart row.id row.start))
  let approvals ← ApprovalLog.ofEntries (r.approvalsOf row.id)
  t.extend (row.period timeline approvals)

/-- The first identifier of a period that a day or an approval names and that no row has. -/
def orphan? (r : Record) : Option Id :=
  (r.days.map DayRow.period ++ r.approvals.map ApprovalRow.period).find? fun id =>
    r.periods.all fun row => row.id ≠ id

/-- The person of the record. The obligation that they do not have before the
first row gets the identifier `id`. -/
def person (id : Id) (r : Record) : Except Error Person := do
  let obligations ← r.obligations.mapM ObligationRow.obligation
  checkDays [] r.days
  r.activities.forM r.checkActivity
  let periods ← r.periods.foldlM r.addPeriod .empty
  match r.orphan? with
  | some orphan => throw (.illegalState (.unknownPeriod orphan))
  | none => Person.ofParts id r.ident obligations periods

end Record

end Fortnight
