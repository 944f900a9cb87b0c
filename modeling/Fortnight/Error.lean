import Fortnight.Calendar.DateText
import Fortnight.Calendar.InstantText
import Fortnight.Hours.Text
import Fortnight.Identifier
import Fortnight.Vocabulary

/-!
# Errors

Every reason for which the engine turns something down, kept as the cause with
what it concerns. `Error.message` puts the cause into words.
-/

namespace Fortnight

/-- What was asked for and is not there. -/
inductive Missing where
  | period (id : Id)
  | activity (id : Id)
  | person (ident : String)
  | snapshot (moment : Instant)
  | stated (what : String)
  deriving DecidableEq

namespace Missing

def words : Missing → String
  | period id => "period " ++ toString id
  | activity id => "activity " ++ toString id
  | person ident => "person " ++ ident
  | snapshot t => "snapshot as of " ++ toString t
  | stated what => what

end Missing

/-- A change of the state of an activity. -/
inductive ActivityChange where
  | lock
  | unlock
  | delete
  deriving DecidableEq

namespace ActivityChange

def word : ActivityChange → String
  | lock => "lock"
  | unlock => "unlock"
  | delete => "delete"

end ActivityChange

/-- What is done to a period, and may not be supported in the state that it has. -/
inductive PeriodOperation where
  | addActivity
  | deleteActivity
  | approval
  | unapproval
  | deadlineSubmission
  | manualSubmission
  | correction
  deriving DecidableEq

namespace PeriodOperation

def words : PeriodOperation → String
  | addActivity => "adding an activity"
  | deleteActivity => "deleting an activity"
  | approval => "approval"
  | unapproval => "unapproval"
  | deadlineSubmission => "submission by deadline"
  | manualSubmission => "manual submission"
  | correction => "correction"

end PeriodOperation

/-- What stands against a change, or against accepting a stored record. -/
inductive Conflict where
  /-- There is no supported date `days` after `date`. -/
  | outOfRange (date : Date) (days : Int)
  | activityState (change : ActivityChange) (id : Id) (state : ActivityState)
  | otherDate (activity day : Date)
  | hoursOutOfBounds (day : Date) (hours : Hours)
  | typeNotAllowed (type : ActivityType) (day : Date) (allowed : List ActivityType)
  /-- The given count of days does not make a timeline. -/
  | timelineShape (count : Nat)
  | outsidePeriod (date : Date)
  | earlierLiveApproval
  | alreadyApproved
  | notApproved
  | unsupported (period : Id) (operation : PeriodOperation) (state : PeriodState)
  | unchangedCorrection (period : Id)
  | periodExists (id : Id)
  | cycle (period : Id)
  | unknownLink (period link : Id)
  /-- `period` is corrected by `link`, which does not correct it. -/
  | oneSidedLink (period link : Id)
  | noObligation (moment : Instant)
  | obligationKind (id : Id) (kind : String)
  | repeatedDay (period : Id) (date : Date)
  | unknownDay (activity : Id) (date : Date) (period : Id)
  | timelineStart (period : Id) (start : Date)
  | unknownPeriod (id : Id)
  | stated (what : String)
  deriving DecidableEq

namespace Conflict

def words : Conflict → String
  | outOfRange date days =>
    toString date ++ " shifted by " ++ toString days ++
      " days is outside the supported date range"
  | activityState change id state =>
    "cannot " ++ change.word ++ " activity " ++ toString id ++ " in state " ++ state.word
  | otherDate activity day =>
    "activity dated " ++ toString activity ++ " can not be added to " ++ toString day
  | hoursOutOfBounds day hours =>
    "activity on " ++ toString day ++ " has " ++ toString hours ++
      " hours, expected between 0 and 24"
  | typeNotAllowed type day allowed =>
    toString type ++ " is not allowed on " ++ toString day ++ ", allowed types: [" ++
      ", ".intercalate (allowed.map toString) ++ "]"
  | timelineShape count => "a timeline needs 14 consecutive days, got " ++ toString count
  | outsidePeriod date => toString date ++ " is outside the period"
  | earlierLiveApproval => "only the latest approval may be live"
  | alreadyApproved => "the period already has a live approval"
  | notApproved => "there is no live approval to revoke"
  | unsupported period operation state =>
    "period " ++ toString period ++ ": " ++ operation.words ++ " is not supported while " ++
      toString state
  | unchangedCorrection period =>
    "period " ++ toString period ++ ": the correction has no actual change"
  | periodExists id => "period " ++ toString id ++ " already exists"
  | cycle period => "correction chain of period " ++ toString period ++ " forms a cycle"
  | unknownLink period link =>
    "period " ++ toString period ++ " links to unknown period " ++ toString link
  | oneSidedLink period link =>
    "period " ++ toString period ++ " is corrected by " ++ toString link ++
      " which does not correct it"
  | noObligation t => "no obligation to report is in effect at " ++ toString t
  | obligationKind id kind =>
    "obligation " ++ toString id ++ " has invalid kind '" ++ kind ++ "'"
  | repeatedDay period date =>
    "period " ++ toString period ++ " has more than one day row for " ++ toString date
  | unknownDay activity date period =>
    "activity " ++ toString activity ++ " references unknown day " ++ toString date ++
      " of period " ++ toString period
  | timelineStart period start =>
    "timeline of period " ++ toString period ++ " does not start on " ++ toString start
  | unknownPeriod id => "rows reference unknown period " ++ toString id
  | stated what => what

end Conflict

inductive Error where
  | notFound (what : Missing)
  | illegalState (cause : Conflict)
  | gateTooEarly (approvableFrom attempted : Date)
  | unauthorized (actor reason : String)
  | settingsNotFound (path : String)
  | settingsMalformed (path reason : String)
  /-- A number leaves the range that it is computed in. -/
  | overflow
  deriving DecidableEq

namespace Error

def message : Error → String
  | notFound what => "Not found: " ++ what.words
  | illegalState cause => "Illegal state: " ++ cause.words
  | gateTooEarly approvableFrom attempted =>
    "Period can not be approved before " ++ toString approvableFrom ++ " (attempted " ++
      toString attempted ++ ")"
  | unauthorized actor reason => "Unauthorized " ++ actor ++ ": " ++ reason
  | settingsNotFound path => "Configuration file not found: " ++ path
  | settingsMalformed path reason =>
    "Failed to parse configuration file '" ++ path ++ "': " ++ reason
  | overflow => "a number is out of range"

section Bind

variable {α β : Type} {x : Except Error α} {f : α → Except Error β} {b : β}

@[simp] theorem ok_bind (a : α) (f : α → Except Error β) : (Except.ok a >>= f) = f a := rfl

@[simp] theorem error_bind (e : Error) (f : α → Except Error β) :
    (Except.error e >>= f) = .error e := rfl

theorem bind_eq_ok_iff : (x >>= f) = .ok b ↔ ∃ a, x = .ok a ∧ f a = .ok b := by
  cases x <;> simp

theorem forM_eq_ok_iff {f : α → Except Error Unit} {l : List α} :
    l.forM f = .ok () ↔ ∀ a ∈ l, f a = .ok () := by
  induction l with
  | nil => simp [pure, Except.pure]
  | cons a l ih =>
    change (f a >>= fun _ => l.forM f) = .ok () ↔ _
    rw [List.forall_mem_cons, ← ih]
    cases f a <;> simp

end Bind

end Error

end Fortnight
