import Fortnight.Calendar.Week
import Fortnight.Day

/-!
# Timelines

The days of a period, fourteen in a row. Locking and unlocking go day by day and
stop at the first failure.
-/

namespace Fortnight

structure Timeline where
  days : List Day
  deriving DecidableEq

namespace Timeline

/-- A day as it is when its period is opened: exempt if it is a holiday. -/
def openingDay (date : Date) : Day :=
  if date.isHoliday then (Day.blank date).markExempt else Day.blank date

/-- The days from `start` on, as they are at first. -/
def starting (start : Date) : Except Error Timeline := do
  let days ← (List.range periodLength).mapM fun (k : Nat) => do
    let date ← start.shift k
    pure (openingDay date)
  pure ⟨days⟩

/-- Holds when each day is followed by the next one in the calendar. -/
def consecutive : List Day → Bool
  | [] => true
  | [_] => true
  | a :: b :: rest => a.date.next? = some b.date && consecutive (b :: rest)

/-- Puts fourteen days in order, which must then follow one another. -/
def ofDays (days : List Day) : Except Error Timeline :=
  let sorted := days.mergeSort fun a b => a.date ≤ b.date
  if sorted.length = periodLength ∧ consecutive sorted then .ok ⟨sorted⟩
  else .error (.illegalState (.timelineShape days.length))

def day? (t : Timeline) (date : Date) : Option Day :=
  t.days.find? fun d => d.date = date

def onDays (f : Step (List Day) α) : Step Timeline α :=
  Step.within days (fun ds _ => ⟨ds⟩) f

def onDay (date : Date) (f : Step Day α) : Step Timeline α := do
  match ← onDays (Step.onFirst (fun d => d.date = date) f) with
  | some a => pure a
  | none => Step.fail (.illegalState (.outsidePeriod date))

def add (a : Activity) : Step Timeline Unit :=
  onDay a.date (Day.add a)

/-- Deletes the activity from the first day that has it. -/
def deleteFrom (id : Id) : Step (List Day) Unit
  | [] => (.error (.notFound (.activity id)), [])
  | d :: rest =>
    match Day.delete id d with
    | (.error e, d) => (.error e, d :: rest)
    | (.ok true, d) => (.ok (), d :: rest)
    | (.ok false, d) =>
      match deleteFrom id rest with
      | (r, rest) => (r, d :: rest)

def delete (id : Id) : Step Timeline Unit :=
  onDays (deleteFrom id)

def markExempt (date : Date) : Step Timeline Unit :=
  onDay date (Step.modify Day.markExempt)

/-- Marks every day before `date` as exempt. -/
def markExemptBefore (date : Date) (t : Timeline) : Timeline :=
  ⟨t.days.map fun d => if d.date < date then d.markExempt else d⟩

def lock : Step Timeline Unit :=
  onDays (Step.each Day.lock)

def unlock : Step Timeline Unit :=
  onDays (Step.each Day.unlock)

/-- Copies day by day, each with identifiers that the days before it have left. -/
def copyDays (fresh : Nat → Id) : List Day → List Day
  | [] => []
  | d :: rest =>
    d.copyForCorrection fresh :: copyDays (fun n => fresh (d.liveActivities.length + n)) rest

def copyForCorrection (fresh : Nat → Id) (t : Timeline) : Timeline :=
  ⟨copyDays fresh t.days⟩

def content (t : Timeline) : List (Date × List Day.Entry) :=
  t.days.map fun d => (d.date, d.content)

/-- Holds when two timelines report the same. -/
def sameContent (a b : Timeline) : Bool :=
  a.content = b.content

/-- The hours of the live activities of a type, day by day. -/
def hoursOf (type : ActivityType) (t : Timeline) : List Hours :=
  ((t.days.flatMap Day.liveActivities).filter fun a => a.type = type).map Activity.hours

/-- The sum of the hours of a type, and nothing if it is too large. -/
def total? (type : ActivityType) (t : Timeline) : Option Hours :=
  Hours.sum? (t.hoursOf type)

end Timeline

end Fortnight
