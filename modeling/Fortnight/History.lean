import Fortnight.Error
import Fortnight.Register

/-!
# Histories

What was in effect when: values by the instant from which each one counts, until
the next one does.
-/

namespace Fortnight

instance : Ranked Instant where
  rank := Instant.rank
  eq_of_rank := Instant.ext_rank

abbrev History (α : Type) := Register fun snapshot : Instant × α => snapshot.1

namespace History

def put (h : History α) (moment : Instant) (a : α) : History α :=
  h.insert (moment, a)

/-- The value in effect at an instant. -/
def asOf (h : History α) (moment : Instant) : Except Error α :=
  match h.upTo? moment with
  | some snapshot => .ok snapshot.2
  | none => .error (.notFound (.snapshot moment))

def latest? (h : History α) : Option α :=
  h.last?.map Prod.snd

end History

end Fortnight
