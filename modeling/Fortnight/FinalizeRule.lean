import Fortnight.Calendar.Date

/-!
# When a period falls due

An approved period is submitted by deadline from its finalization date on. That
date lies within the period.
-/

namespace Fortnight

inductive FinalizeRule where
  | fromPeriodStart
  | daysBeforePeriodEnd (days : Nat)
  deriving DecidableEq

namespace FinalizeRule

/-- The rule that holds where none is given. -/
def standard : FinalizeRule := .daysBeforePeriodEnd 1

def finalizeAfter (rule : FinalizeRule) (start finish : Date) : Date :=
  match rule with
  | fromPeriodStart => start
  | daysBeforePeriodEnd days =>
    match finish.plus? (-(days : Int)) with
    | some date => if date < start then start else date
    | none => start

end FinalizeRule

end Fortnight
