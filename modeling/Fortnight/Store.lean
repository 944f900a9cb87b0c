import Fortnight.Person.Record

/-!
# The store of persons

Persons are stored as records. An event for a person is applied to the person of
the record, or to a new one, and the record of the outcome takes its place; an
event that fails leaves the store as it is.
-/

namespace Fortnight

/-- Records by the idents of their persons, in the order in which they were stored first. -/
structure Store where
  records : List (String × Record)
  deriving DecidableEq

namespace Store

def empty : Store := ⟨[]⟩

def count (s : Store) : Nat :=
  s.records.length

def record? (s : Store) (ident : String) : Option Record :=
  (s.records.find? fun entry => entry.1 = ident).map Prod.snd

/-- The stored person. What their record does not say about the earliest
obligation gets the identifier `id`. -/
def load (s : Store) (id : Id) (ident : String) : Except Error (Option Person) :=
  match s.record? ident with
  | none => .ok none
  | some r => (r.person id).map some

def replace (ident : String) (r : Record) : List (String × Record) → List (String × Record)
  | [] => [(ident, r)]
  | entry :: rest =>
    if entry.1 = ident then (ident, r) :: rest else entry :: replace ident r rest

def save (s : Store) (p : Person) : Store :=
  ⟨replace p.ident p.toRecord s.records⟩

def person (s : Store) (id : Id) (ident : String) : Except Error Person := do
  match ← s.load id ident with
  | some p => pure p
  | none => throw (.notFound (.person ident))

/-- The stored person, or a new one. -/
def loadOrNew (s : Store) (id : Id) (ident : String) : Except Error Person := do
  let p? ← s.load id ident
  pure (p?.getD (Person.new id ident))

/-- Applies an event to the person with this ident and stores the outcome. -/
def dispatch (fresh : Nat → Id) (rule : FinalizeRule) (ident : String) (event : Event) :
    Step Store (List Notification) := do
  let p ← Step.look fun s => s.loadOrNew (fresh 0) ident
  match Person.handle (fun n => fresh (n + 1)) rule event p with
  | (.ok notifications, p) => do
    Step.modify fun s => s.save p
    pure notifications
  | (.error e, _) => Step.fail e

end Store

end Fortnight
