import Fortnight.Calendar.Easter

/-!
# Public holidays

Five holidays have a fixed date and seven lie at a fixed distance from Easter
Sunday. Those that have no date in a year are left out.
-/

namespace Fortnight

structure Holiday where
  date : Date
  name : String
  deriving DecidableEq

namespace Holiday

/-- Month, day and name of the holidays with a fixed date. -/
def fixed : List (Nat × Nat × String) :=
  [(1, 1, "New Year's Day"), (5, 1, "Labour Day"), (5, 17, "Constitution Day"),
    (12, 25, "Christmas Day"), (12, 26, "Boxing Day")]

/-- Days after Easter Sunday and name of the other holidays. -/
def movable : List (Int × String) :=
  [(-3, "Maundy Thursday"), (-2, "Good Friday"), (0, "Easter Sunday"), (1, "Easter Monday"),
    (39, "Ascension Day"), (49, "Whit Sunday"), (50, "Whit Monday")]

def fixedInYear (year : Int) : List Holiday :=
  fixed.filterMap fun (month, day, name) =>
    (Date.ofCivil? year month day).map fun date => ⟨date, name⟩

def movableAround (easter : Date) : List Holiday :=
  movable.filterMap fun (days, name) => (easter.plus? days).map fun date => ⟨date, name⟩

/-- The holidays of a year, ordered by date; of two on one date the fixed one comes first. -/
def inYear (year : Int) : List Holiday :=
  let movables := match easterSunday? year with
    | some easter => movableAround easter
    | none => []
  (fixedInYear year ++ movables).mergeSort fun a b => a.date ≤ b.date

end Holiday

/-- Holds when the date is a holiday of its own year. -/
def Date.isHoliday (d : Date) : Bool :=
  (Holiday.inYear d.year).any fun h => h.date = d

end Fortnight
