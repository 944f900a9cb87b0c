import Mathlib
import Fortnight.Proofs.Calendar.Civil
import Fortnight.Proofs.Identifier
import Fortnight.Proofs.Person.Applied

/-!
# Reachable persons

A person is reachable when they come from a new one by any number of calls, of
which some may fail. Nothing is assumed of the supplies of identifiers: an
event that would use the identifier of another period fails.

A call that succeeds has one of five outcomes (`outcome_of_answer`). In each of
them it puts snapshots into the history and makes moves in the table of periods,
and does nothing else (`evolves_after`). What the empty table has and every move
keeps is therefore true of every reachable person.
-/

namespace Fortnight

/-- An event, with the rule and the supply of identifiers under which it is handled. -/
structure Call where
  fresh : ℕ → Id
  rule : FinalizeRule
  event : Event

namespace Person

/-- The outcome of a call. -/
def answer (p : Person) (c : Call) : Except Error (List Notification) :=
  ((handle c.fresh c.rule c.event).run p).1

/-- The person after a call. -/
def after (p : Person) (c : Call) : Person :=
  ((handle c.fresh c.rule c.event).run p).2

/-- The person after one call after another. -/
def run (p : Person) (calls : List Call) : Person :=
  calls.foldl after p

inductive Reachable : Person → Prop
  | new (id : Id) (ident : String) : Reachable (new id ident)
  | after {p : Person} (c : Call) : Reachable p → Reachable (p.after c)

theorem Reachable.run {p : Person} (h : Reachable p) (calls : List Call) :
    Reachable (p.run calls) := by
  induction calls generalizing p with
  | nil => exact h
  | cons c rest ih => exact ih (h.after c)

/-- What a call may do to a person. -/
structure Evolves (p p' : Person) : Prop where
  ident_eq : p'.ident = p.ident
  obligations : Relation.ReflTransGen (fun h h' => ∃ o : Obligation, h' = h.put o.effectiveFrom o)
    p.obligations p'.obligations
  periods : PeriodTable.Moves p.periods p'.periods

namespace Evolves

variable {p q r : Person}

theorem refl (p : Person) : Evolves p p :=
  ⟨rfl, .refl, .refl _⟩

theorem trans (h : Evolves p q) (h' : Evolves q r) : Evolves p r :=
  ⟨h'.ident_eq.trans h.ident_eq, h.obligations.trans h'.obligations, h.periods.trans h'.periods⟩

theorem appendObligation (o : Obligation) (p : Person) : Evolves p (p.appendObligation o) :=
  ⟨rfl, .single ⟨o, rfl⟩, .refl _⟩

theorem setPeriods {t : PeriodTable} (h : p.periods.Moves t) :
    Evolves p { p with periods := t } :=
  ⟨rfl, .refl, h⟩

theorem history_keep {P : History Obligation → Prop}
    (put : ∀ h o, P h → P (h.put o.effectiveFrom o)) (h : Evolves p q)
    (hp : P p.obligations) : P q.obligations := by
  have hputs := h.obligations
  generalize q.obligations = history at hputs ⊢
  induction hputs with
  | refl => exact hp
  | tail _ hput ih =>
    obtain ⟨o, rfl⟩ := hput
    exact put _ o ih

end Evolves

/-- What a call that succeeds has done to a person. -/
inductive Outcome (c : Call) (p : Person) (ns : List Notification) : Person → Prop
  /-- A snapshot was put into the history, and the periods are as they were. -/
  | noted {o : Obligation} : c.event.effective? = some o.effectiveFrom →
      Outcome c p ns (p.appendObligation o)
  /-- Tips were edited, or nothing was done at all. -/
  | edited {t : PeriodTable} : p.periods.Edits t → Outcome c p ns { p with periods := t }
  | corrected {id : Id} {t : PeriodTable} : c.event = .correct id →
      (PeriodTable.correct c.fresh id).run p.periods = (.ok ns, t) →
      Outcome c p ns { p with periods := t }
  /-- An obligation started where there was none. -/
  | started {date : Date} {before o : Obligation} {t : PeriodTable} :
      c.event.starts? = some date → p.obligationAt date.startOfDay = .ok before →
      before.kind = .absent → o.kind ≠ .absent → o.effectiveFrom = date.startOfDay →
      (PeriodTable.openFirst (c.fresh 1) date c.rule).run p.periods = (.ok ns, t) →
      Outcome c p ns { p.appendObligation o with periods := t }
  /-- A fortnight turned while there was an obligation. -/
  | continued {date since : Date} {t : PeriodTable} : c.event = .newCycleStarted date →
      p.obligatedSince date.startOfDay = .ok since →
      (PeriodTable.openNext (c.fresh 1) since date c.rule).run p.periods = (.ok ns, t) →
      Outcome c p ns { p with periods := t }

theorem Outcome.evolves {c : Call} {p p' : Person} {ns : List Notification}
    (h : Outcome c p ns p') : Evolves p p' := by
  cases h with
  | noted _ => exact .appendObligation _ p
  | edited hedits => exact .setPeriods hedits.moves
  | corrected _ hcorrect => exact .setPeriods (PeriodTable.moves_of_correct hcorrect)
  | @started _ _ o _ _ _ _ _ _ hopen =>
    have hmoves := PeriodTable.moves_of_openFirst hopen
    exact (Evolves.appendObligation o p).trans (.setPeriods hmoves)
  | continued _ _ hopen => exact .setPeriods (PeriodTable.moves_of_openNext hopen)

section Steps

variable {c : Call} {p p' : Person} {ns : List Notification} {moment : Instant}

theorem outcome_of_decided {o : Obligation} (hmoment : c.event.decidedAt? = some moment)
    (ho : p.obligationAt moment = .ok o)
    (h : Decided (c.fresh 1) c.rule moment p (o.decide (c.fresh 0) c.event) ns p') :
    Outcome c p ns p' := by
  have heffective := Event.effective?_of_decidedAt hmoment
  generalize heffects : o.decide (c.fresh 0) c.event = effects at h
  cases h with
  | ignored | requested => exact .edited (.refl _)
  | noted o' =>
    have hnoted := Obligation.effectiveFrom_of_decide heffects
    exact .noted (Event.effective?_of_decidedAt hnoted)
  | started hopen =>
    obtain ⟨habsent, hstarts, hpresent, hfrom⟩ := Obligation.start_of_decide heffects
    rw [Event.effective?_of_starts hstarts] at heffective
    cases heffective
    exact .started hstarts ho habsent hpresent hfrom hopen
  | continued hsince hopen =>
    have hevent := Obligation.event_eq_of_decide heffects
    rw [hevent] at hmoment
    cases hmoment
    exact .continued hevent hsince hopen
  | submitted hsubmit => exact .edited (PeriodTable.submissions_of_submitDue hsubmit).edits

theorem outcome_of_applied (h : Applied c.fresh c.rule p c.event ns p') : Outcome c p ns p' := by
  obtain ⟨fresh, rule, event⟩ := c
  cases h with
  | decided hmoment ho hdecided => exact outcome_of_decided hmoment ho hdecided
  | rejected => exact .noted rfl
  | edited _ htip hedited => exact .edited (.single htip hedited.edit)
  | corrected hcorrect => exact .corrected rfl hcorrect

/-- A call that succeeds applies its event; one that fails leaves the person alone. -/
theorem answer_cases (p : Person) (c : Call) :
    (∃ ns, p.answer c = .ok ns ∧ (apply c.fresh c.rule c.event).run p = (.ok ns, p.after c)) ∨
      ∃ e, p.answer c = .error e ∧ p.after c = p := by
  cases h : p.answer c with
  | ok ns =>
    have hrun : (handle c.fresh c.rule c.event).run p = (.ok ns, p.after c) := Prod.ext h rfl
    exact Or.inl ⟨ns, rfl, Step.run_orNothing_eq_ok_iff.mp hrun⟩
  | error e => exact Or.inr ⟨e, rfl, Step.run_orNothing_of_error h⟩

theorem apply_of_answer (h : p.answer c = .ok ns) :
    (apply c.fresh c.rule c.event).run p = (.ok ns, p.after c) := by
  rcases p.answer_cases c with ⟨ns', hok, happly⟩ | ⟨e, herror, _⟩
  · rw [h] at hok
    cases hok
    exact happly
  · rw [h] at herror
    cases herror

theorem applied_of_answer (h : p.answer c = .ok ns) :
    Applied c.fresh c.rule p c.event ns (p.after c) :=
  run_apply_eq_ok_iff.mp (apply_of_answer h)

theorem answer_of_applied (h : Applied c.fresh c.rule p c.event ns p') :
    p.answer c = .ok ns ∧ p.after c = p' := by
  have hrun := Step.run_orNothing_eq_ok_iff.mpr (run_apply_eq_ok_iff.mpr h)
  exact ⟨congrArg Prod.fst hrun, congrArg Prod.snd hrun⟩

theorem outcome_of_answer (h : p.answer c = .ok ns) : Outcome c p ns (p.after c) :=
  outcome_of_applied (applied_of_answer h)

theorem evolves_after (p : Person) (c : Call) : Evolves p (p.after c) := by
  rcases p.answer_cases c with ⟨ns, hok, _⟩ | ⟨e, _, h⟩
  · exact (outcome_of_answer hok).evolves
  · rw [h]
    exact .refl _

end Steps

namespace Reachable

variable {p : Person}

/-- What holds of no periods and is kept by every move holds of the periods of
every reachable person. -/
theorem periods_induction {P : PeriodTable → Prop} (empty : P .empty)
    (move : ∀ t t', P t → PeriodTable.Move t t' → P t') (h : Reachable p) : P p.periods := by
  induction h with
  | new => exact empty
  | @after p c _ ih => exact (p.evolves_after c).periods.keep move ih

/-- What holds of the history of a new person and is kept by every snapshot holds
of the history of every reachable person. -/
theorem obligations_induction {P : History Obligation → Prop}
    (new : ∀ id ident, P (Person.new id ident).obligations)
    (put : ∀ h o, P h → P (h.put o.effectiveFrom o)) (h : Reachable p) : P p.obligations := by
  induction h with
  | new id ident => exact new id ident
  | @after p c _ ih => exact (p.evolves_after c).history_keep put ih

end Reachable

section Restarted

def workday : Hours :=
  ⟨false, 75, 1, by decide, by decide⟩

/-- Someone whose first period was filled in and submitted, and who then started
to correct it, deleted what they had reported, and started the correction anew. -/
def restarted : Person :=
  (new (supplyFrom 1 0) "01018012345").run
    [⟨supplyFrom 10, .standard, .obligationStartDetermined (supplyFrom 9 0) (january 2)⟩,
      ⟨supplyFrom 20, .standard, .addActivity (supplyFrom 11 0) (january 3) workday .work⟩,
      ⟨supplyFrom 30, .standard, .approve (supplyFrom 11 0) (.endUser "01018012345")
        (january 15) (january 15).startOfDay none⟩,
      ⟨supplyFrom 40, .standard, .manualSubmit (supplyFrom 11 0) (january 15).startOfDay⟩,
      ⟨supplyFrom 50, .standard, .correct (supplyFrom 11 0)⟩,
      ⟨supplyFrom 60, .standard, .deleteActivity (supplyFrom 11 0) (supplyFrom 51 0)⟩,
      ⟨supplyFrom 70, .standard, .correct (supplyFrom 11 0)⟩]

theorem reachable_restarted : Reachable restarted :=
  (Reachable.new _ _).run _

end Restarted

end Person

end Fortnight
