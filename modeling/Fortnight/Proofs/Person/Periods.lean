import Fortnight.Proofs.Period.Chain
import Fortnight.Proofs.Period.Frozen
import Fortnight.Proofs.Period.Lifecycle
import Fortnight.Proofs.Person.Reachable

/-!
# The periods of reachable persons

The table of every reachable person is linked, so that its chains are in order
and it is valid. To be valid is less: a valid table may still split a chain, so
that a record can hold what no call would have made. What is final in the table
stays so through all further calls, and the approvals and the days of each
period are as its state tells.
-/

namespace Fortnight

namespace Person

variable {p : Person}

theorem Reachable.linked (h : Reachable p) : PeriodTable.Linked p.periods :=
  h.periods_induction .empty fun _ _ hlinked hmove => hlinked.move hmove

theorem Reachable.linked_induction {P : PeriodTable → Prop} (empty : P .empty)
    (move : ∀ t t', PeriodTable.Linked t → P t → PeriodTable.Move t t' → P t')
    (h : Reachable p) : P p.periods := by
  have hboth : PeriodTable.Linked p.periods ∧ P p.periods := by
    refine h.periods_induction (P := fun t => PeriodTable.Linked t ∧ P t) ⟨.empty, empty⟩ ?_
    rintro t t' ⟨hlinked, ht⟩ hmove
    exact ⟨hlinked.move hmove, move t t' hlinked ht hmove⟩
  exact hboth.2

/-- The table of a reachable person is valid, and every period of it has a root, a
tip and a main path between them. -/
theorem mainPath_of_reachable (h : Reachable p) :
    p.periods.validate = .ok () ∧
      ∀ q ∈ p.periods, ∃ root tip path, p.periods.MainPath q root tip path :=
  ⟨h.linked.validate_eq_ok, fun _ hq => h.linked.exists_mainPath hq⟩

set_option maxRecDepth 4000 in
theorem mainPath_restarted :
    (restarted.periods.toList.map fun q => (q.id.value, q.state, q.correctedBy.map Id.value)) =
      [(11, .submitted, some 70), (50, .toBeFilled, some 70), (70, .toBeFilled, none)] ∧
    restarted.periods.validate = .ok () ∧
      ∀ q ∈ restarted.periods, ∃ root tip path, restarted.periods.MainPath q root tip path :=
  ⟨by cbv, mainPath_of_reachable reachable_restarted⟩

/-- What a valid table lacks for all periods to lead to the tip of their root. -/
theorem unsplit_iff_of_validate {t : PeriodTable} (h : t.validate = .ok ()) :
    t.Unsplit ↔ t.LeadsOn := by
  have hvalid := PeriodTable.validate_eq_ok_iff.mp h
  exact ⟨hvalid.leadsOn_of_unsplit, hvalid.unsplit_of_leadsOn⟩

theorem unsplit_iff_restarted :
    restarted.periods.validate = .ok () ∧
      (restarted.periods.Unsplit ↔ restarted.periods.LeadsOn) :=
  have hvalid := reachable_restarted.linked.validate_eq_ok
  ⟨hvalid, unsplit_iff_of_validate hvalid⟩

/-- The periods with their links to what they correct, but to nothing else. -/
def forgetful (t : PeriodTable) : PeriodTable :=
  .ofList (t.toList.map fun q => { q with correctedBy := none })

set_option maxRecDepth 8000 in
/-- The original does not lead to its correction, so that each of the two is a tip. -/
theorem not_unsplit_forgetful :
    (forgetful restarted.periods).validate = .ok () ∧
      ¬ (forgetful restarted.periods).Unsplit := by
  obtain ⟨hvalid, hcorrection, hroot, htip, htip'⟩ :
      (forgetful restarted.periods).validate = .ok () ∧
      (forgetful restarted.periods).contains (supplyFrom 70 0) = true ∧
      ((forgetful restarted.periods).root (supplyFrom 70 0)).map Period.id =
        .ok (supplyFrom 11 0) ∧
      ((forgetful restarted.periods).tip (supplyFrom 70 0)).map Period.id =
        .ok (supplyFrom 70 0) ∧
      ((forgetful restarted.periods).tip (supplyFrom 11 0)).map Period.id =
        .ok (supplyFrom 11 0) := by
    cbv
    simp only [and_self]
  refine ⟨hvalid, fun h => ?_⟩
  obtain ⟨p, hp, hid⟩ := Register.contains_iff.mp hcorrection
  obtain ⟨root, tip, hr, ht, ht'⟩ := h p hp
  rw [← hid, hr] at hroot
  rw [← hid, ht] at htip
  rw [← Except.ok.inj hroot, ht'] at htip'
  have hsame : supplyFrom 70 0 = supplyFrom 11 0 :=
    calc
      supplyFrom 70 0 = p.id := hid.symm
      _ = tip.id := (Except.ok.inj htip).symm
      _ = root.id := Except.ok.inj htip'
      _ = supplyFrom 11 0 := Except.ok.inj hroot
  exact absurd hsame (by decide)

theorem moves_run (p : Person) (calls : List Call) :
    PeriodTable.Moves p.periods (p.run calls).periods := by
  induction calls generalizing p with
  | nil => exact .refl _
  | cons c rest ih => exact (p.evolves_after c).periods.trans (ih (p.after c))

/-- Whatever is called and however often, what is final stays so. -/
theorem frozen_run (h : Reachable p) (calls : List Call) :
    p.periods.Frozen (p.run calls).periods :=
  h.linked.frozen_of_moves (p.moves_run calls)

/-- Starts the correction once more, under the identifier of a draft that was
replaced long ago, submits it, and starts the next one. -/
def laterCalls : List Call :=
  [⟨supplyFrom 80, .standard, .correct (supplyFrom 50 0)⟩,
    ⟨supplyFrom 90, .standard, .addActivity (supplyFrom 50 0) (january 4) workday .sick⟩,
    ⟨supplyFrom 100, .standard, .approve (supplyFrom 50 0) (.caseWorker "Z990001")
      (january 16) (january 16).startOfDay none⟩,
    ⟨supplyFrom 110, .standard, .manualSubmit (supplyFrom 50 0) (january 16).startOfDay⟩,
    ⟨supplyFrom 120, .standard, .correct (supplyFrom 11 0)⟩]

set_option maxRecDepth 8000 in
theorem frozen_restarted :
    ((restarted.run laterCalls).periods.toList.map fun q =>
      (q.id.value, q.state, q.correctedBy.map Id.value)) =
      [(11, .submitted, some 80), (50, .toBeFilled, some 70), (70, .toBeFilled, some 80),
        (80, .submitted, some 120), (120, .toBeFilled, none)] ∧
    restarted.periods.Frozen (restarted.run laterCalls).periods :=
  ⟨by cbv, frozen_run reachable_restarted laterCalls⟩

/-- Whatever was called, the state of a period, its approvals and its days go together. -/
theorem inStep_of_reachable (h : Reachable p) : ∀ q ∈ p.periods, q.InStep := by
  have hboth : PeriodTable.Linked p.periods ∧ ∀ q ∈ p.periods, q.InStep := by
    refine h.periods_induction (P := fun t => PeriodTable.Linked t ∧ ∀ q ∈ t, q.InStep) ?_ ?_
    · exact ⟨.empty, by simp⟩
    · rintro t t' ⟨hlinked, hinStep⟩ hmove
      exact ⟨hlinked.move hmove, hlinked.inStep_of_move hinStep hmove⟩
  exact hboth.2

set_option maxRecDepth 8000 in
theorem inStep_approved :
    ((restarted.run (laterCalls.take 3)).periods.toList.map fun q =>
      (q.id.value, q.state, q.approvals.isApproved,
        (q.timeline.days.flatMap Day.liveActivities).map Activity.state)) =
      [(11, .submitted, true, [.locked]), (50, .toBeFilled, false, []),
        (70, .toBeFilled, false, [.unlocked]), (80, .approved, true, [.locked, .locked])] ∧
    ∀ q ∈ (restarted.run (laterCalls.take 3)).periods, q.InStep :=
  ⟨by cbv, inStep_of_reachable (reachable_restarted.run _)⟩

end Person

end Fortnight
