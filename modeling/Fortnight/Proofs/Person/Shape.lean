import Fortnight.Proofs.Period.Shape
import Fortnight.Proofs.Person.Periods

/-!
# The shape of the periods of reachable persons

Whatever was called, in whatever order and under whatever rules, the original
periods of a person follow each other without overlap, and every period has the
dates and the days that its start asks for.
-/

namespace Fortnight

namespace Person

variable {p p' : Person} {c : Call} {ns : List Notification}

theorem Reachable.regular (h : Reachable p) : p.periods.Regular :=
  h.linked_induction .empty fun _ _ hlinked hregular hmove => hregular.move hlinked hmove

theorem Outcome.addsOne (h : Outcome c p ns p') : p.periods.AddsOne p'.periods := by
  cases h with
  | noted _ => exact .refl _
  | edited hedits => exact .of_edits hedits
  | corrected _ hcorrect => exact .of_correct hcorrect
  | started _ _ _ _ _ hopen => exact .of_openFirst hopen
  | continued _ _ hopen => exact .of_openNext hopen

theorem addsOne_after (p : Person) (c : Call) : p.periods.AddsOne (p.after c).periods := by
  obtain ⟨ns, hok, _⟩ | ⟨_, _, hsame⟩ := p.answer_cases c
  · exact (outcome_of_answer hok).addsOne
  · rw [hsame]
    exact .refl _

/-- The original periods of a reachable person follow each other, calls open one
of them at a time, and all periods are regular, with the schedule of their root. -/
theorem regular_of_reachable (h : Reachable p) :
    (p.periods.roots.Pairwise fun q r => q.finish < r.start) ∧
      (p.periods.roots.map Period.start).Nodup ∧
      (∀ c, p.periods.AddsOne (p.after c).periods) ∧
      ∀ q ∈ p.periods, q.Regular ∧
        ∃ root, p.periods.root q.id = .ok root ∧ q.schedule = root.schedule := by
  have hregular := h.regular
  refine ⟨hregular.pairwise_finish_lt_start, hregular.nodup_starts, p.addsOne_after, ?_⟩
  intro q hq
  have hscheduled := hregular.scheduled q hq
  have hwf := (inStep_of_reachable h q hq).toWellFormed
  obtain ⟨l, root, hback⟩ := h.linked.exists_walk_back hq
  exact ⟨hscheduled.regular hwf, root, PeriodTable.root_of_walk hback,
    hregular.schedule_eq_of_walk hback⟩

/-- The next fortnight turns while a correction of the first period is a draft. -/
def nextCycle : Call :=
  ⟨supplyFrom 80, .fromPeriodStart, .newCycleStarted (january 15)⟩

set_option maxRecDepth 8000 in
/-- Beside the corrections of the first period there is a second one, under another rule. -/
theorem regular_nextCycle :
    ((restarted.after nextCycle).periods.toList.map fun q =>
      (q.id.value, q.corrects.map Id.value, decide (q.start = january 1),
        decide (q.finalizeAfter = january 13))) =
      [(11, none, true, true), (50, some 11, true, true), (70, some 11, true, true),
        (81, none, false, false)] ∧
    ((restarted.after nextCycle).periods.roots.Pairwise fun q r => q.finish < r.start) ∧
      ((restarted.after nextCycle).periods.roots.map Period.start).Nodup ∧
      (∀ c, (restarted.after nextCycle).periods.AddsOne
        ((restarted.after nextCycle).after c).periods) ∧
      ∀ q ∈ (restarted.after nextCycle).periods, q.Regular ∧
        ∃ root, (restarted.after nextCycle).periods.root q.id = .ok root ∧
          q.schedule = root.schedule :=
  ⟨by cbv, regular_of_reachable (reachable_restarted.after nextCycle)⟩

end Person

end Fortnight
