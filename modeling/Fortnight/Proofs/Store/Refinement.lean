import Mathlib.Data.List.Induction
import Fortnight.Proofs.Person.RoundTrip
import Fortnight.Store

/-!
# The store keeps what persons have come to

The store writes a record after every event and reads it before the next one.
All the same it answers as if the persons themselves were kept, each with what
their own events have made of them (`known`): a record gives the person back,
and saving one person leaves the records of all others alone.
-/

namespace Fortnight

/-- A call for the person with an ident. -/
structure Delivery where
  ident : String
  call : Call

/-- The call with the identifiers that are left when the first one is taken. -/
def Call.later (c : Call) : Call :=
  { c with fresh := fun n => c.fresh (n + 1) }

namespace Store

section Save

variable {ident : String}

theorem find?_replace (r : Record) (other : String) (l : List (String × Record)) :
    (replace ident r l).find? (fun entry => entry.1 = other) =
      if ident = other then some (ident, r) else l.find? fun entry => entry.1 = other := by
  induction l with
  | nil => by_cases h : ident = other <;> simp [replace, h]
  | cons entry rest ih =>
    unfold replace
    split
    · rename_i he
      by_cases h : ident = other <;> simp [he, h]
    · rename_i he
      by_cases h : entry.1 = other
      · have hne : ident ≠ other := fun e => he (h.trans e.symm)
        simp [h, hne]
      · simp [h, ih]

theorem record?_save (s : Store) (p : Person) (other : String) :
    (s.save p).record? other = if p.ident = other then some p.toRecord else s.record? other := by
  simp only [record?, save, find?_replace]
  split <;> rfl

end Save

/-- The outcome of a delivery. -/
def answer (s : Store) (d : Delivery) : Except Error (List Notification) :=
  ((dispatch d.call.fresh d.call.rule d.ident d.call.event).run s).1

/-- The store after a delivery. -/
def after (s : Store) (d : Delivery) : Store :=
  ((dispatch d.call.fresh d.call.rule d.ident d.call.event).run s).2

/-- The store after one delivery after another. -/
def run (s : Store) (ds : List Delivery) : Store :=
  ds.foldl after s

/-- The deliveries with their outcomes. -/
def log (s : Store) : List Delivery → List (Delivery × Except Error (List Notification))
  | [] => []
  | d :: ds => (d, s.answer d) :: (s.after d).log ds

theorem log_append (s : Store) (ds : List Delivery) (d : Delivery) :
    s.log (ds ++ [d]) = s.log ds ++ [(d, (s.run ds).answer d)] := by
  induction ds generalizing s with
  | nil => rfl
  | cons d' ds ih =>
    rw [List.cons_append, log, ih]
    rfl

end Store

namespace Person

/-- The person to whom a call is made: the one who is known, or else a new one. -/
def orNew (before : Option Person) (ident : String) (c : Call) : Person :=
  before.getD (new (c.fresh 0) ident)

/-- What is known after a call: if nothing was, then only what has succeeded. -/
def learn (ident : String) (before : Option Person) (c : Call) : Option Person :=
  match (orNew before ident c).answer c.later with
  | .ok _ => some ((orNew before ident c).after c.later)
  | .error _ => before

/-- What the calls for one ident, in their order, have made of the person. -/
def known? (ident : String) (ds : List Delivery) : Option Person :=
  ((ds.filter fun d => d.ident = ident).map Delivery.call).foldl (learn ident) none

theorem known?_append (ident : String) (ds : List Delivery) (d : Delivery) :
    known? ident (ds ++ [d]) =
      if d.ident = ident then learn ident (known? ident ds) d.call else known? ident ds := by
  unfold known?
  rw [List.filter_append, List.map_append, List.foldl_append]
  by_cases h : d.ident = ident <;> simp [h]

theorem learn_eq_none_iff {ident : String} {before : Option Person} {c : Call} :
    learn ident before c = none ↔
      before = none ∧ ∃ e, (orNew before ident c).answer c.later = .error e := by
  unfold learn
  split
  · rename_i h
    simp [h]
  · rename_i h
    simp [h]

section Reachable

variable {ident : String} {before : Option Person} {c : Call}

theorem reachable_orNew (h : ∀ p, before = some p → p.Reachable ∧ p.ident = ident) :
    (orNew before ident c).Reachable ∧ (orNew before ident c).ident = ident := by
  cases before with
  | none => exact ⟨.new _ _, rfl⟩
  | some p => exact h p rfl

/-- Whoever is known is reachable, and has the ident under which they are known. -/
theorem reachable_of_learn (h : ∀ p, before = some p → p.Reachable ∧ p.ident = ident)
    {p : Person} (hp : learn ident before c = some p) : p.Reachable ∧ p.ident = ident := by
  obtain ⟨hreachable, hident⟩ := reachable_orNew (c := c) h
  unfold learn at hp
  split at hp
  · cases hp
    exact ⟨hreachable.after _, (evolves_after _ _).ident_eq.trans hident⟩
  · exact h p hp

end Reachable

end Person

namespace Store

/-- Holds when the store has a record of whoever is known, and of no one else. -/
structure Holds (s : Store) (known? : String → Option Person) : Prop where
  record?_eq : ∀ ident, s.record? ident = (known? ident).map Person.toRecord
  reachable : ∀ ident p, known? ident = some p → p.Reachable ∧ p.ident = ident

namespace Holds

variable {s : Store} {known? : String → Option Person}

theorem empty : Holds .empty fun _ => none :=
  ⟨fun _ => rfl, fun _ _ h => by cases h⟩

theorem load_eq (h : s.Holds known?) (id : Id) (ident : String) :
    s.load id ident = .ok (known? ident) := by
  rw [load, h.record?_eq]
  cases hk : known? ident with
  | none => rfl
  | some p =>
    have hp := (h.reachable ident p hk).1.storable.person_toRecord id
    simp [hp, Except.map]

theorem person_eq (h : s.Holds known?) (id : Id) (ident : String) :
    s.person id ident = (known? ident).elim (.error (.notFound (.person ident))) .ok := by
  rw [person, h.load_eq]
  cases known? ident <;> rfl

theorem run_dispatch (h : s.Holds known?) (ident : String) (c : Call) :
    (dispatch c.fresh c.rule ident c.event).run s =
      match (Person.orNew (known? ident) ident c).answer c.later with
      | .ok ns => (.ok ns, s.save ((Person.orNew (known? ident) ident c).after c.later))
      | .error e => (.error e, s) := by
  have hload : s.loadOrNew (c.fresh 0) ident = .ok (Person.orNew (known? ident) ident c) := by
    rw [loadOrNew, h.load_eq]
    rfl
  have hhandle : ∀ p : Person, Person.handle (fun n => c.fresh (n + 1)) c.rule c.event p =
      (p.answer c.later, p.after c.later) := fun _ => rfl
  rw [dispatch, Step.run_bind, Step.run_look, hload]
  simp only [hhandle]
  cases (Person.orNew (known? ident) ident c).answer c.later <;> rfl

theorem answer_eq (h : s.Holds known?) (d : Delivery) :
    s.answer d = (Person.orNew (known? d.ident) d.ident d.call).answer d.call.later := by
  rw [answer, h.run_dispatch]
  split
  · rename_i hok
    exact hok.symm
  · rename_i herror
    exact herror.symm

theorem record?_after (h : s.Holds known?) (d : Delivery) (ident : String) :
    (s.after d).record? ident =
      if d.ident = ident then (Person.learn ident (known? ident) d.call).map Person.toRecord
      else s.record? ident := by
  have hident : ((Person.orNew (known? d.ident) d.ident d.call).after d.call.later).ident =
      d.ident :=
    (Person.evolves_after _ _).ident_eq.trans (Person.reachable_orNew (h.reachable d.ident)).2
  rw [after, h.run_dispatch]
  cases ha : (Person.orNew (known? d.ident) d.ident d.call).answer d.call.later with
  | ok ns =>
    simp only [record?_save, hident]
    by_cases hd : d.ident = ident
    · subst hd
      simp [Person.learn, ha]
    · simp [hd]
  | error e =>
    by_cases hd : d.ident = ident
    · subst hd
      simp [Person.learn, ha, h.record?_eq]
    · simp [hd]

theorem after (h : s.Holds known?) (d : Delivery) :
    (s.after d).Holds fun ident =>
      if d.ident = ident then Person.learn ident (known? ident) d.call else known? ident where
  record?_eq ident := by
    rw [h.record?_after]
    split
    · rfl
    · exact h.record?_eq ident
  reachable ident p hp := by
    split at hp
    · exact Person.reachable_of_learn (h.reachable ident) hp
    · exact h.reachable ident p hp

end Holds

theorem holds_run (ds : List Delivery) :
    (empty.run ds).Holds fun ident => Person.known? ident ds := by
  induction ds using List.reverseRecOn with
  | nil => exact .empty
  | append_singleton ds d ih =>
    have hafter := ih.after d
    simp only [← Person.known?_append] at hafter
    rw [run, List.foldl_append]
    exact hafter

/-- Nothing is known of those for whom no delivery has succeeded. -/
theorem known?_eq_none_iff {ident : String} {ds : List Delivery} :
    Person.known? ident ds = none ↔
      ∀ entry ∈ empty.log ds, entry.1.ident = ident → ∃ e, entry.2 = .error e := by
  induction ds using List.reverseRecOn with
  | nil => simp [Person.known?, log]
  | append_singleton ds d ih =>
    rw [Person.known?_append, log_append, (holds_run ds).answer_eq]
    simp only [List.forall_mem_append, List.forall_mem_singleton, ← ih]
    split
    · rename_i hd
      subst hd
      simp [Person.learn_eq_none_iff]
    · rename_i hd
      simp [hd]

/-- Whatever was delivered before, the store answers as the persons themselves
would, loads them as they are, keeps the records of different persons apart, and
finds exactly those for whom some delivery has succeeded. -/
theorem refines_known (ds : List Delivery) :
    (∀ d, (empty.run ds).answer d =
      (Person.orNew (Person.known? d.ident ds) d.ident d.call).answer d.call.later) ∧
    (∀ id ident, (empty.run ds).load id ident = .ok (Person.known? ident ds)) ∧
    (∀ d ident, d.ident ≠ ident →
      ((empty.run ds).after d).record? ident = (empty.run ds).record? ident) ∧
    (∀ id ident p, (empty.run ds).person id ident = .ok p ↔ Person.known? ident ds = some p) ∧
    ∀ id ident, (empty.run ds).person id ident = .error (.notFound (.person ident)) ↔
      ∀ entry ∈ empty.log ds, entry.1.ident = ident → ∃ e, entry.2 = .error e := by
  have hholds := holds_run ds
  refine ⟨hholds.answer_eq, hholds.load_eq, fun d ident hne => ?_, fun id ident p => ?_,
    fun id ident => ?_⟩
  · rw [hholds.record?_after, if_neg hne]
  · rw [hholds.person_eq]
    cases Person.known? ident ds <;> simp
  · rw [hholds.person_eq, ← known?_eq_none_iff]
    cases Person.known? ident ds <;> simp

/-- Someone fills in a period of theirs, and in between someone else tries to correct it. -/
def intruded : List Delivery :=
  [⟨"01018012345", ⟨supplyFrom 10, .standard,
      .obligationStartDetermined (supplyFrom 9 0) (january 2)⟩⟩,
    ⟨"02029054321", ⟨supplyFrom 20, .standard, .correct (supplyFrom 12 0)⟩⟩,
    ⟨"01018012345", ⟨supplyFrom 30, .standard,
      .addActivity (supplyFrom 12 0) (january 3) Person.workday .work⟩⟩]

set_option maxRecDepth 4000 in
theorem refines_known_intruded :
    ((empty.log intruded).map fun entry => entry.2.isOk) = [true, false, true] ∧
    (∀ id ident, (empty.run intruded).load id ident = .ok (Person.known? ident intruded)) :=
  ⟨by cbv, (refines_known intruded).2.1⟩

end Store

end Fortnight
