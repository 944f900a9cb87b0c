import Fortnight.Activity
import Fortnight.Calendar.Holiday

/-!
# Days

A day holds at most one live activity of at most 24 hours. Holidays and exempt
days hold none. Which further activity may be added is told by
`Day.allowedTypes`.
-/

namespace Fortnight

structure Day where
  date : Date
  /-- The activities in the order in which they were added, deleted ones included. -/
  activities : List Activity
  policy : DayPolicy
  exempt : Bool
  deriving DecidableEq

namespace Day

def blank (date : Date) : Day :=
  ⟨date, [], .singleActivityAllowed, false⟩

def liveActivities (d : Day) : List Activity :=
  d.activities.filter Activity.isLive

/-- The types of which an activity may still be added. -/
def allowedTypes (d : Day) : List ActivityType :=
  if d.date.isHoliday ∨ d.policy = .nothingAllowed ∨ d.liveActivities ≠ [] then []
  else ActivityType.all

/-- What stands against adding an activity. -/
def conflict? (d : Day) (a : Activity) : Option Conflict :=
  if a.date ≠ d.date then some (.otherDate a.date d.date)
  else if a.hours < Hours.zero ∨ Hours.dayLength < a.hours then
    some (.hoursOutOfBounds d.date a.hours)
  else if a.type ∉ d.allowedTypes then some (.typeNotAllowed a.type d.date d.allowedTypes)
  else none

def add (a : Activity) : Step Day Unit := fun d =>
  match d.conflict? a with
  | some c => (.error (.illegalState c), d)
  | none => (.ok (), { d with activities := d.activities ++ [a] })

def onActivities (f : Step (List Activity) α) : Step Day α :=
  Step.within activities (fun as d => { d with activities := as }) f

/-- Deletes an activity and tells whether the day has one with this identifier. -/
def delete (id : Id) : Step Day Bool :=
  onActivities ((fun found => found.isSome) <$> Step.onFirst (fun a => a.id = id) Activity.delete)

def markExempt (d : Day) : Day :=
  { d with exempt := true, policy := .nothingAllowed }

def eachLive (f : Step Activity Unit) : Step Day Unit :=
  onActivities (Step.each (Step.onlyIf Activity.isLive f))

/-- Locks the live activities, and then the day. -/
def lock : Step Day Unit := do
  eachLive Activity.lock
  Step.modify fun d => { d with policy := .nothingAllowed }

/-- The policy of a day that is not locked. -/
def openPolicy (exempt : Bool) : DayPolicy :=
  if exempt then .nothingAllowed else .singleActivityAllowed

/-- Unlocks the live activities, and then the day unless it is exempt. -/
def unlock : Step Day Unit := do
  eachLive Activity.unlock
  Step.modify fun d =>
    { d with policy := if d.exempt then d.policy else .singleActivityAllowed }

/-- The day with its live activities only, all unlocked and with identifiers of their own. -/
def copyForCorrection (fresh : Nat → Id) (d : Day) : Day where
  date := d.date
  activities := d.liveActivities.mapIdx fun i a => .create (fresh i) a.date a.hours a.type
  policy := openPolicy d.exempt
  exempt := d.exempt

/-- Type and size of an activity, without regard to how its hours are written. -/
abbrev Entry := ActivityType × Hours

def entryLE (a b : Entry) : Bool :=
  if a.1 = b.1 then ¬ b.2 < a.2 else a.1.rank ≤ b.1.rank

/-- What is reported for the day, in an order that does not depend on when it was added. -/
def content (d : Day) : List Entry :=
  (d.liveActivities.map fun a => (a.type, a.hours.normalize)).mergeSort entryLE

end Day

end Fortnight
