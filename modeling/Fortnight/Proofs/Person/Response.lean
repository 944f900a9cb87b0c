import Fortnight.Proofs.Person.Reachable
import Fortnight.Proofs.Step

/-!
# What the tip of a chain makes of an event

An event that is addressed to a period is answered by the tip of the chain. What
it comes to is a list of notifications and of the periods that are written
(`response`), or an error. It is computed without the address, and reads no more
than the tip and what that corrects, who the person is and which obligation is in
effect, and whether the identifier of a new correction is taken.
-/

namespace Fortnight

namespace PeriodTable

variable {t : PeriodTable} {tip : Period} {id : Id} {α : Type}

theorem outcome_onPeriod_of_mem (hp : tip ∈ t) (f : Step Period α) :
    (onPeriod tip.id f).outcome t = (f.outcome tip).map fun r => (r.1, t.insert r.2) := by
  simp only [Step.outcome, Step.run, onPeriod, get_of_mem hp]
  rcases f tip with ⟨_ | _, _⟩ <;> rfl

theorem outcome_onTip (htip : t.tip id = .ok tip) (f : Step Period α) :
    (onTip id f).outcome t = (f.outcome tip).map fun r => (r.1, t.insert r.2) := by
  rw [onTip, Step.outcome_look_bind, htip, Error.ok_bind, outcome_onPeriod_of_mem (tip_mem htip)]

theorem outcome_approve (htip : t.tip id = .ok tip) (approval : Approval) (reference : Date) :
    (approve id approval reference).outcome t = t.corrected tip >>= fun corrected =>
      ((Period.approve approval reference corrected).outcome tip).map
        fun r => (r.1, t.insert r.2) := by
  rw [approve, Step.outcome_look_bind, htip, Error.ok_bind, Step.outcome_look_bind]
  simp only [outcome_onPeriod_of_mem (tip_mem htip)]

theorem outcome_insertNew (t : PeriodTable) (p : Period) :
    (insertNew p).outcome t = (t.extend p).map fun t' => ((), t') := by
  simp only [Step.outcome, Step.run, insertNew]
  cases t.extend p <;> rfl

/-- What a correction that is started at a tip comes to: it is written, and so are
the two periods that lead to it. -/
def correction (fresh : ℕ → Id) (t : PeriodTable) (tip : Period) :
    Except Error (List Notification × List Period) := do
  let corrected ← t.correctable tip
  if t.contains (fresh 0) then .error (.illegalState (.periodExists (fresh 0)))
  else pure ([(corrected.correctionOf fresh).stateChanged none],
    [corrected.correctionOf fresh, corrected.linkedTo (fresh 0), tip.linkedTo (fresh 0)])

theorem outcome_correct (htip : t.tip id = .ok tip) (fresh : ℕ → Id) :
    (correct fresh id).outcome t =
      (t.correction fresh tip).map fun r => (r.1, r.2.foldl Register.insert t) := by
  unfold correction
  cases hcorrectable : t.correctable tip with
  | error e =>
    rw [correct, Step.outcome_look_bind, htip, Error.ok_bind, Step.outcome_look_bind, hcorrectable]
    rfl
  | ok corrected =>
    have hid : (corrected.correctionOf fresh).id = fresh 0 := rfl
    rw [Error.ok_bind]
    split
    · rename_i hknown
      rw [correct, Step.outcome_look_bind, htip, Error.ok_bind, Step.outcome_look_bind,
        hcorrectable, Error.ok_bind, Step.outcome_bind, outcome_insertNew, extend, hid,
        if_pos hknown]
      rfl
    · rename_i hnew
      have hfind : t.find? (fresh 0) = none := by
        simpa [Register.contains] using hnew
      exact Step.outcome_eq_ok_iff.mpr (run_correct_eq_ok_iff.mpr
        ⟨tip, corrected, htip, hcorrectable, hfind, rfl, rfl⟩)

theorem correction_eq_ok_iff {fresh : ℕ → Id} {ns : List Notification} {changed : List Period} :
    t.correction fresh tip = .ok (ns, changed) ↔
      ∃ corrected, t.correctable tip = .ok corrected ∧ t.find? (fresh 0) = none ∧
        ns = [(corrected.correctionOf fresh).stateChanged none] ∧
        changed = [corrected.correctionOf fresh, corrected.linkedTo (fresh 0),
          tip.linkedTo (fresh 0)] := by
  rw [correction, Error.bind_eq_ok_iff]
  refine exists_congr fun corrected => and_congr_right fun _ => ?_
  rw [Register.contains]
  cases t.find? (fresh 0) <;> simp [pure, Except.pure, eq_comm]

theorem correctable_congr {t' : PeriodTable}
    (h : ∀ o, tip.corrects = some o → t'.get o = t.get o) :
    t'.correctable tip = t.correctable tip := by
  unfold correctable
  split
  · rfl
  · rename_i hcorrects
    exact h _ hcorrects
  · rfl

theorem corrected_congr {t' : PeriodTable}
    (h : ∀ o, tip.corrects = some o → t'.get o = t.get o) :
    t'.corrected tip = t.corrected tip := by
  unfold corrected
  split
  · rfl
  · rename_i hcorrects
    rw [h _ hcorrects]

end PeriodTable

namespace Person

variable {p p' : Person} {fresh : ℕ → Id} {rule : FinalizeRule} {event : Event} {tip tip' : Period}
  {id : Id} {ns : List Notification} {changed : List Period} {α : Type}

/-- What an event that is no correction makes of the tip to which it goes. -/
def edit (fresh : ℕ → Id) (p : Person) (tip : Period) :
    Event → Except Error (List Notification × Period)
  | .addActivity _ date hours type =>
    Step.outcome (do Period.add (.create (fresh 0) date hours type); pure []) tip
  | .deleteActivity _ activity =>
    Step.outcome (do Period.delete activity; pure []) tip
  | .approve _ actor reference moment justification => do
    p.authorize actor
    let corrected ← p.periods.corrected tip
    (Period.approve (.create (fresh 0) actor moment justification) reference corrected).outcome tip
  | .unapprove _ actor moment justification => do
    p.authorize actor
    (Period.unapprove ⟨fresh 0, actor, moment, justification⟩).outcome tip
  | .manualSubmit _ moment => do
    let o ← p.obligationAt moment
    (Period.submitManually o.caseId?).outcome tip
  | _ => pure ([], tip)

/-- What is notified and what is written when an event goes to a tip. -/
def response (fresh : ℕ → Id) (p : Person) (tip : Period) (event : Event) :
    Except Error (List Notification × List Period) :=
  match event with
  | .correct _ => p.periods.correction fresh tip
  | event => (edit fresh p tip event).map fun r => (r.1, [r.2])

/-- The person with some periods written over those that they have. -/
def write (p : Person) (changed : List Period) : Person :=
  { p with periods := changed.foldl Register.insert p.periods }

@[simp] theorem ident_write (p : Person) (changed : List Period) :
    (p.write changed).ident = p.ident := rfl

@[simp] theorem obligations_write (p : Person) (changed : List Period) :
    (p.write changed).obligations = p.obligations := rfl

theorem periods_write_correction (p : Person) (fresh : ℕ → Id) (corrected tip : Period) :
    (p.write [corrected.correctionOf fresh, corrected.linkedTo (fresh 0),
      tip.linkedTo (fresh 0)]).periods =
      p.periods.withCorrection (corrected.correctionOf fresh) corrected tip :=
  rfl

theorem outcome_onPeriods (f : Step PeriodTable α) (p : Person) :
    (onPeriods f).outcome p = (f.outcome p.periods).map fun r => (r.1, { p with periods := r.2 }) :=
  Step.outcome_within ..

theorem outcome_onPeriods_onTip (htip : p.periods.tip id = .ok tip) (f : Step Period α) :
    (onPeriods (PeriodTable.onTip id f)).outcome p =
      (f.outcome tip).map fun r => (r.1, p.write [r.2]) := by
  rw [outcome_onPeriods, PeriodTable.outcome_onTip htip]
  cases f.outcome tip <;> rfl

/-- What the tip of the chain makes of an event is what the event comes to. -/
theorem outcome_apply_edit (hid : event.period? = some id) (hne : ∀ id, event ≠ .correct id)
    (htip : p.periods.tip id = .ok tip) :
    (apply fresh rule event).outcome p =
      (edit fresh p tip event).map fun r => (r.1, p.write [r.2]) := by
  cases event with
  | addActivity period date hours type =>
    cases hid
    rw [apply, PeriodTable.add, Step.outcome_bind, outcome_onPeriods_onTip htip, edit,
      Step.outcome_bind]
    cases (Period.add (.create (fresh 0) date hours type)).outcome tip <;> rfl
  | deleteActivity period activity =>
    cases hid
    rw [apply, PeriodTable.delete, Step.outcome_bind, outcome_onPeriods_onTip htip, edit,
      Step.outcome_bind]
    cases (Period.delete activity).outcome tip <;> rfl
  | approve period actor reference moment justification =>
    cases hid
    rw [apply, Step.outcome_look_bind, outcome_onPeriods, PeriodTable.outcome_approve htip, edit]
    cases p.authorize actor with
    | error e => rfl
    | ok =>
      cases p.periods.corrected tip with
      | error e => rfl
      | ok corrected =>
        simp only [Error.ok_bind]
        cases (Period.approve (.create (fresh 0) actor moment justification) reference
          corrected).outcome tip <;> rfl
  | unapprove period actor moment justification =>
    cases hid
    rw [apply, Step.outcome_look_bind, PeriodTable.unapprove, outcome_onPeriods_onTip htip, edit]
    cases p.authorize actor <;> rfl
  | manualSubmit period moment =>
    cases hid
    rw [apply, Step.outcome_look_bind, edit]
    cases p.obligationAt moment with
    | error e => rfl
    | ok o => exact outcome_onPeriods_onTip htip _
  | correct period => exact absurd rfl (hne period)
  | _ => cases hid

theorem response_of_ne (hne : ∀ id, event ≠ .correct id) :
    response fresh p tip event = (edit fresh p tip event).map fun r => (r.1, [r.2]) := by
  unfold response
  split
  · exact absurd rfl (hne _)
  · rfl

theorem outcome_apply (hid : event.period? = some id) (htip : p.periods.tip id = .ok tip) :
    (apply fresh rule event).outcome p =
      (response fresh p tip event).map fun r => (r.1, p.write r.2) := by
  by_cases hcorrect : ∃ id, event = .correct id
  · obtain ⟨period, rfl⟩ := hcorrect
    cases hid
    rw [apply, outcome_onPeriods, PeriodTable.outcome_correct htip, response]
    cases p.periods.correction fresh tip <;> rfl
  · push Not at hcorrect
    rw [outcome_apply_edit hid hcorrect htip, response_of_ne hcorrect]
    cases edit fresh p tip event <;> rfl

theorem edited_of_edit (hid : event.period? = some id) (hne : ∀ id, event ≠ .correct id)
    (h : edit fresh p tip event = .ok (ns, tip')) : Edited fresh p tip event ns tip' := by
  cases event with
  | addActivity period date hours type =>
    obtain ⟨_, _, hadd, hpure⟩ := Step.run_bind_eq_ok_iff.mp (Step.outcome_eq_ok_iff.mp h)
    cases hpure
    exact .added hadd
  | deleteActivity period activity =>
    obtain ⟨_, _, hdelete, hpure⟩ := Step.run_bind_eq_ok_iff.mp (Step.outcome_eq_ok_iff.mp h)
    cases hpure
    exact .deleted hdelete
  | approve period actor reference moment justification =>
    obtain ⟨_, hactor, h⟩ := Error.bind_eq_ok_iff.mp h
    obtain ⟨corrected, hcorrected, h⟩ := Error.bind_eq_ok_iff.mp h
    exact .approved hactor hcorrected (Step.outcome_eq_ok_iff.mp h)
  | unapprove period actor moment justification =>
    obtain ⟨_, hactor, h⟩ := Error.bind_eq_ok_iff.mp h
    exact .unapproved hactor (Step.outcome_eq_ok_iff.mp h)
  | manualSubmit period moment =>
    obtain ⟨o, ho, h⟩ := Error.bind_eq_ok_iff.mp h
    exact .submitted ho (Step.outcome_eq_ok_iff.mp h)
  | correct period => exact absurd rfl (hne period)
  | _ => cases hid

/-- Either the tip is edited, or a correction is written with the two periods that
lead to it. -/
theorem response_cases (hid : event.period? = some id)
    (h : response fresh p tip event = .ok (ns, changed)) :
    (∀ id, event ≠ .correct id) ∧ (∃ tip', Edited fresh p tip event ns tip' ∧ changed = [tip']) ∨
      event = .correct id ∧ ∃ corrected, p.periods.correctable tip = .ok corrected ∧
        p.periods.find? (fresh 0) = none ∧
        ns = [(corrected.correctionOf fresh).stateChanged none] ∧
        changed = [corrected.correctionOf fresh, corrected.linkedTo (fresh 0),
          tip.linkedTo (fresh 0)] := by
  by_cases hcorrect : ∃ id, event = .correct id
  · obtain ⟨period, rfl⟩ := hcorrect
    cases hid
    exact Or.inr ⟨rfl, PeriodTable.correction_eq_ok_iff.mp h⟩
  · push Not at hcorrect
    rw [response_of_ne hcorrect] at h
    cases hedit : edit fresh p tip event with
    | error e =>
      rw [hedit] at h
      cases h
    | ok r =>
      rw [hedit] at h
      cases h
      exact Or.inl ⟨hcorrect, _, edited_of_edit hid hcorrect hedit, rfl⟩

theorem edit_congr (hident : p'.ident = p.ident) (hobligations : p'.obligations = p.obligations)
    (hcorrected : ∀ o, tip.corrects = some o → p'.periods.get o = p.periods.get o) :
    edit fresh p' tip event = edit fresh p tip event := by
  unfold edit authorize obligationAt
  rw [hident, hobligations, PeriodTable.corrected_congr hcorrected]

/-- A response depends on nothing else than who the person is, which obligations
they have, what the tip corrects and whether the identifier of a correction is taken. -/
theorem response_congr (hident : p'.ident = p.ident) (hobligations : p'.obligations = p.obligations)
    (hcorrected : ∀ o, tip.corrects = some o → p'.periods.get o = p.periods.get o)
    (hnew : ∀ id, event = .correct id →
      p'.periods.contains (fresh 0) = p.periods.contains (fresh 0)) :
    response fresh p' tip event = response fresh p tip event := by
  by_cases hcorrect : ∃ id, event = .correct id
  · obtain ⟨period, rfl⟩ := hcorrect
    unfold response PeriodTable.correction
    rw [PeriodTable.correctable_congr hcorrected, hnew period rfl]
  · push Not at hcorrect
    rw [response_of_ne hcorrect, response_of_ne hcorrect,
      edit_congr hident hobligations hcorrected]

/-- The periods that a response writes, which are none if it is an error. -/
def written : Except Error (List Notification × List Period) → List Period
  | .ok r => r.2
  | .error _ => []

section Calls

variable {c : Call}

theorem handle_eq (hid : c.event.period? = some id) (htip : p.periods.tip id = .ok tip) :
    (handle c.fresh c.rule c.event).run p =
      ((response c.fresh p tip c.event).map Prod.fst,
        p.write (written (response c.fresh p tip c.event))) := by
  rw [handle, Step.run_orNothing, outcome_apply hid htip]
  cases response c.fresh p tip c.event <;> rfl

theorem answer_eq_response (hid : c.event.period? = some id) (htip : p.periods.tip id = .ok tip) :
    p.answer c = (response c.fresh p tip c.event).map Prod.fst :=
  congrArg Prod.fst (handle_eq hid htip)

theorem after_eq_write (hid : c.event.period? = some id) (htip : p.periods.tip id = .ok tip) :
    p.after c = p.write (written (response c.fresh p tip c.event)) :=
  congrArg Prod.snd (handle_eq hid htip)

end Calls

end Person

end Fortnight
