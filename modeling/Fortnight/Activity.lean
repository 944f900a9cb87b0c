import Fortnight.Step

/-!
# Activities

An activity is one entry on one day: so many hours of work, sickness or
vacation. It is locked when its period is approved, unlocked when the approval
is taken back, and deleted only while it is unlocked. A deleted activity is kept
but counts no more.
-/

namespace Fortnight

structure Activity where
  id : Id
  date : Date
  hours : Hours
  type : ActivityType
  state : ActivityState
  deriving DecidableEq

namespace ActivityChange

/-- The state in which the change can be made. -/
def source : ActivityChange → ActivityState
  | lock => .unlocked
  | unlock => .locked
  | delete => .unlocked

/-- The state to which the change leads. -/
def target : ActivityChange → ActivityState
  | lock => .locked
  | unlock => .unlocked
  | delete => .deleted

end ActivityChange

namespace Activity

def create (id : Id) (date : Date) (hours : Hours) (type : ActivityType) : Activity :=
  ⟨id, date, hours, type, .unlocked⟩

def isLive (a : Activity) : Bool :=
  a.state ≠ .deleted

def change (c : ActivityChange) : Step Activity Unit := fun a =>
  if a.state = c.source then (.ok (), { a with state := c.target })
  else (.error (.illegalState (.activityState c a.id a.state)), a)

def lock : Step Activity Unit := change .lock

def unlock : Step Activity Unit := change .unlock

def delete : Step Activity Unit := change .delete

end Activity

end Fortnight
