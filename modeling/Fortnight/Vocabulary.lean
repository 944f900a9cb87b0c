/-!
# Vocabulary

The kinds of activities, the states of activities, days and periods, and the
actors who approve periods.
-/

namespace Fortnight

inductive ActivityType where
  | work
  | sick
  | vacation
  deriving DecidableEq

namespace ActivityType

def all : List ActivityType := [work, sick, vacation]

theorem mem_all (t : ActivityType) : t ∈ all := by
  cases t <;> decide

def name : ActivityType → String
  | work => "work"
  | sick => "sick"
  | vacation => "vacation"

instance : ToString ActivityType := ⟨name⟩

/-- The place of a type in the order of all types. -/
def rank : ActivityType → Nat
  | work => 0
  | sick => 1
  | vacation => 2

end ActivityType

/-- An activity is locked while its period is approved. -/
inductive ActivityState where
  | unlocked
  | locked
  | deleted
  deriving DecidableEq

namespace ActivityState

/-- The word that messages use. -/
def word : ActivityState → String
  | unlocked => "Open"
  | locked => "Locked"
  | deleted => "Deleted"

end ActivityState

inductive DayPolicy where
  | singleActivityAllowed
  | nothingAllowed
  deriving DecidableEq

inductive PeriodState where
  | toBeFilled
  | approved
  | submitted
  deriving DecidableEq

namespace PeriodState

/-- The words that messages use. -/
def words : PeriodState → String
  | toBeFilled => "to be filled"
  | approved => "approved"
  | submitted => "submitted"

instance : ToString PeriodState := ⟨words⟩

end PeriodState

/-- Who approves a period or takes an approval back. -/
inductive Actor where
  | endUser (ident : String)
  | caseWorker (id : String)
  deriving DecidableEq

namespace Actor

def description : Actor → String
  | endUser ident => "end user '" ++ ident ++ "'"
  | caseWorker id => "case worker '" ++ id ++ "'"

instance : ToString Actor := ⟨description⟩

end Actor

end Fortnight
