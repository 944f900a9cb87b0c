import Fortnight.Proofs.Period.Correction
import Fortnight.Proofs.Person.Periods

/-!
# Corrections of reachable persons

A correction that was approved reports something else than what it corrects, in
whatever state the person is later. One that was just started reports the same,
and no approval is accepted before that has changed.
-/

namespace Fortnight

namespace Person

variable {p : Person} {c : Call} {ns : List Notification} {id : Id} {tip q : Period}

theorem Reachable.distinct (h : Reachable p) : p.periods.Distinct :=
  h.linked_induction .empty fun _ _ hlinked hdistinct hmove => hdistinct.move hlinked hmove

theorem not_sameContent_of_answer {actor : Actor} {reference : Date} {moment : Instant}
    {justification : Option String}
    (hevent : c.event = .approve id actor reference moment justification)
    (hok : p.answer c = .ok ns) (htip : p.periods.tip id = .ok tip) (hq : q ∈ p.periods)
    (hlink : tip.corrects = some q.id) : ¬ tip.timeline.sameContent q.timeline := by
  have happlied := applied_of_answer hok
  rw [hevent, applied_edited_iff rfl (by simp)] at happlied
  obtain ⟨tip', tip'', htip', hedited, _⟩ := happlied
  obtain rfl : tip = tip' := Except.ok.inj (htip.symm.trans htip')
  cases hedited with
  | approved _ hcorrected happrove =>
    rw [PeriodTable.corrected_of_corrects hq hlink] at hcorrected
    cases hcorrected
    obtain ⟨_, hgate, _⟩ := Period.run_approve_eq_ok_iff.mp happrove
    exact (Period.ensureApprovable_eq_ok_iff.mp hgate).2 _ rfl

theorem after_eq_of_error {e : Error} (h : p.answer c = .error e) : p.after c = p := by
  obtain ⟨ns, hok, _⟩ | ⟨_, _, hsame⟩ := p.answer_cases c
  · rw [h] at hok
    cases hok
  · exact hsame

theorem answer_of_sameContent {actor : Actor} {reference : Date} {moment : Instant}
    {justification : Option String}
    (hevent : c.event = .approve id actor reference moment justification)
    (htip : p.periods.tip id = .ok tip) (hq : q ∈ p.periods) (hlink : tip.corrects = some q.id)
    (hsame : tip.timeline.sameContent q.timeline) :
    (∃ e, p.answer c = .error e) ∧ p.after c = p := by
  cases hanswer : p.answer c with
  | ok ns => exact absurd hsame (not_sameContent_of_answer hevent hanswer htip hq hlink)
  | error e => exact ⟨⟨e, rfl⟩, after_eq_of_error hanswer⟩

/-- Corrections that were approved differ from what they correct. New ones do not,
and approvals of them are rejected until they do. -/
theorem corrections_of_reachable (h : Reachable p) :
    (∀ q ∈ p.periods, q.state ≠ .toBeFilled → ∀ o, q.corrects = some o →
      ∃ original, p.periods.find? o = some original ∧
        ¬ q.timeline.sameContent original.timeline) ∧
    (∀ c id ns, c.event = .correct id → p.answer c = .ok ns →
      ∃ draft newest, p.periods.find? draft.id = none ∧
        (p.after c).periods.StartsOver id draft newest) ∧
    ∀ c id actor reference moment justification tip original,
      c.event = .approve id actor reference moment justification →
      p.periods.tip id = .ok tip → original ∈ p.periods → tip.corrects = some original.id →
      tip.timeline.sameContent original.timeline →
      (∃ e, p.answer c = .error e) ∧ p.after c = p := by
  refine ⟨?_, ?_, ?_⟩
  · intro q hq hstate o hlink
    obtain ⟨original, horiginal, rfl, _⟩ := h.linked.back q hq o hlink
    exact ⟨original, Register.find?_of_mem horiginal,
      h.distinct q hq original horiginal hstate hlink⟩
  · intro c id ns hevent hok
    have happlied := applied_of_answer hok
    rw [hevent, applied_corrected_iff] at happlied
    obtain ⟨t, hcorrect, hafter⟩ := happlied
    rw [← hafter]
    exact PeriodTable.startsOver_of_correct h.linked hcorrect
  · intro c id actor reference moment justification tip original hevent htip horiginal hlink hsame
    exact answer_of_sameContent hevent htip horiginal hlink hsame

/-- The last correction is started once more. -/
def startAnew : Call :=
  ⟨supplyFrom 130, .standard, .correct (supplyFrom 11 0)⟩

/-- The last correction is approved before anything in it was changed. -/
def approveUnchanged : Call :=
  ⟨supplyFrom 150, .standard, .approve (supplyFrom 11 0) (.caseWorker "Z990001")
    (january 17) (january 17).startOfDay none⟩

set_option maxRecDepth 8000 in
/-- One of the corrections was submitted, and what corrects it in turn is a draft. -/
theorem corrections_restarted :
    ((restarted.run laterCalls).periods.toList.map fun q =>
      (q.id.value, q.state, q.corrects.map Id.value)) =
      [(11, .submitted, none), (50, .toBeFilled, some 11), (70, .toBeFilled, some 11),
        (80, .submitted, some 11), (120, .toBeFilled, some 80)] ∧
    ((restarted.run laterCalls).answer startAnew).isOk = true ∧
    ((restarted.run laterCalls).answer approveUnchanged).isOk = false ∧
    (∀ q ∈ (restarted.run laterCalls).periods, q.state ≠ .toBeFilled → ∀ o, q.corrects = some o →
      ∃ original, (restarted.run laterCalls).periods.find? o = some original ∧
        ¬ q.timeline.sameContent original.timeline) ∧
    (∀ c id ns, c.event = .correct id → (restarted.run laterCalls).answer c = .ok ns →
      ∃ draft newest, (restarted.run laterCalls).periods.find? draft.id = none ∧
        ((restarted.run laterCalls).after c).periods.StartsOver id draft newest) ∧
    ∀ c id actor reference moment justification tip original,
      c.event = .approve id actor reference moment justification →
      (restarted.run laterCalls).periods.tip id = .ok tip →
      original ∈ (restarted.run laterCalls).periods → tip.corrects = some original.id →
      tip.timeline.sameContent original.timeline →
      (∃ e, (restarted.run laterCalls).answer c = .error e) ∧
        (restarted.run laterCalls).after c = restarted.run laterCalls :=
  ⟨by cbv, by cbv, by cbv, corrections_of_reachable (reachable_restarted.run laterCalls)⟩

end Person

end Fortnight
