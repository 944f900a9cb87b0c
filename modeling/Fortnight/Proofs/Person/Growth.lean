import Fortnight.Proofs.Period.Growth
import Fortnight.Proofs.Person.Enabling

/-!
# What is on record stays on record

An event that is accepted adds to what is known of a person. Activities and
approvals stay where they are, and in their order. An activity changes its state
at most, and an approval only by being taken back. An instant of which an
obligation is known keeps one. Whatever calls follow, a deleted activity stays
deleted and a revocation stays as it is.
-/

namespace Fortnight

open ActivityState (Follows Outlasts)

variable {moves moves' : ActivityState → ActivityState → Prop}

namespace Person

variable {p p' p'' : Person} {q : Period} {c : Call} {ns : List Notification} {fresh : ℕ → Id} {id : Id}
  {rule : FinalizeRule} {moment : Instant} {event : Event} {effects : List Effect}

/-- Holds when nothing that is on record for a person is missing later on. -/
structure Extends (moves : ActivityState → ActivityState → Prop) (p p' : Person) : Prop where
  periods : ∀ q ∈ p.periods, ∃ q' ∈ p'.periods, q.Extends moves q'
  instants : ∀ snapshot ∈ p.obligations, ∃ snapshot' ∈ p'.obligations, snapshot'.1 = snapshot.1

namespace Extends

theorem refl (hrefl : ∀ s, moves s s) (p : Person) : Extends moves p p where
  periods q hq := ⟨q, hq, (Period.Untouched.refl q).extends hrefl⟩
  instants snapshot hs := ⟨snapshot, hs, rfl⟩

theorem trans (htrans : ∀ s s' s'', moves s s' → moves s' s'' → moves s s'')
    (h : Extends moves p p') (h' : Extends moves p' p'') : Extends moves p p'' where
  periods := by
    intro q hq
    obtain ⟨q', hq', hext⟩ := h.periods q hq
    obtain ⟨q'', hq'', hext'⟩ := h'.periods q' hq'
    exact ⟨q'', hq'', hext.trans htrans hext'⟩
  instants := by
    intro snapshot hs
    obtain ⟨snapshot', hs', hsame⟩ := h.instants snapshot hs
    obtain ⟨snapshot'', hs'', hsame'⟩ := h'.instants snapshot' hs'
    exact ⟨snapshot'', hs'', hsame'.trans hsame⟩

theorem mono (himp : ∀ s s', moves s s' → moves' s s') (h : Extends moves p p') :
    Extends moves' p p' where
  periods := by
    intro q hq
    obtain ⟨q', hq', hext⟩ := h.periods q hq
    exact ⟨q', hq', hext.mono himp⟩
  instants := h.instants

end Extends

theorem Evolves.instants (h : Evolves p p') :
    ∀ snapshot ∈ p.obligations, ∃ snapshot' ∈ p'.obligations, snapshot'.1 = snapshot.1 := by
  intro snapshot hs
  refine h.history_keep (P := fun history => ∃ s ∈ history, s.1 = snapshot.1) ?_ ⟨_, hs, rfl⟩
  intro history o hkept
  obtain ⟨s, hs, hsame⟩ := hkept
  by_cases hkey : s.1 = o.effectiveFrom
  · exact ⟨_, Register.mem_insert.mpr (Or.inl rfl), hkey.symm.trans hsame⟩
  · exact ⟨s, Register.mem_insert.mpr (Or.inr ⟨hs, hkey⟩), hsame⟩

theorem Decided.exists_untouched (h : Decided id rule moment p effects ns p')
    (hq : q ∈ p.periods) : ∃ q' ∈ p'.periods, q.Untouched q' := by
  cases h with
  | ignored | requested | noted => exact ⟨q, hq, .refl q⟩
  | started hopen =>
    obtain ⟨_, _, ⟨_, rfl, _⟩ | ⟨_, _, hroot, rfl, _⟩⟩ := PeriodTable.openFirst_cases hopen
    · exact ⟨q, hq, .refl q⟩
    · exact ⟨q, PeriodTable.mem_insert_of_new hroot.find?_eq_none hq, .refl q⟩
  | continued _ hopen =>
    obtain ⟨_, _, ⟨_, rfl, _⟩ | ⟨_, _, hroot, rfl, _⟩⟩ := PeriodTable.openNext_cases hopen
    · exact ⟨q, hq, .refl q⟩
    · exact ⟨q, PeriodTable.mem_insert_of_new hroot.find?_eq_none hq, .refl q⟩
  | submitted hsubmit =>
    exact (PeriodTable.submissions_of_submitDue hsubmit).exists_untouched hq

/-- Days and approvals change at the tip alone to which an event is addressed. -/
theorem Applied.exists_edited (h : Applied fresh rule p event ns p') (hq : q ∈ p.periods) :
    ∃ q' ∈ p'.periods, q.Untouched q' ∨ Edited fresh p q event ns q' := by
  cases h with
  | decided _ _ hdecided =>
    obtain ⟨q', hq', hsame⟩ := hdecided.exists_untouched hq
    exact ⟨q', hq', Or.inl hsame⟩
  | rejected => exact ⟨q, hq, Or.inl (.refl q)⟩
  | @edited _ _ tip tip' _ _ htip hedited =>
    have hid := hedited.edit.id_eq
    rcases PeriodTable.exists_mem_insert_of_mem (PeriodTable.tip_mem htip) hid hq with
      ⟨rfl, hmem⟩ | hmem
    · exact ⟨tip', hmem, Or.inr hedited⟩
    · exact ⟨q, hmem, Or.inl (.refl q)⟩
  | corrected hcorrect =>
    obtain ⟨_, corrected, htip, hcorrectable, hnew, rfl⟩ :=
      PeriodTable.withCorrection_of_correct hcorrect
    have htip := PeriodTable.tip_mem htip
    have hcorrected := PeriodTable.mem_of_correctable htip hcorrectable
    obtain ⟨q', hq', hsame⟩ := PeriodTable.exists_untouched_withCorrection
      (c := corrected.correctionOf fresh) hnew hcorrected htip hq
    exact ⟨q', hq', Or.inl hsame⟩

theorem extends_of_answer (h : p.answer c = .ok ns) : p.Extends Follows (p.after c) where
  periods := by
    intro q hq
    obtain ⟨q', hq', hsame | hedited⟩ := (applied_of_answer h).exists_edited hq
    · exact ⟨q', hq', hsame.extends .same⟩
    · exact ⟨q', hq', Period.extends_of_edit hedited.edit⟩
  instants := (p.evolves_after c).instants

theorem extends_after (p : Person) (c : Call) : p.Extends Outlasts (p.after c) := by
  rcases p.answer_cases c with ⟨ns, hok, _⟩ | ⟨e, _, hsame⟩
  · exact (extends_of_answer hok).mono fun _ _ => Follows.outlasts
  · rw [hsame]
    exact .refl (fun _ => id) p

theorem extends_run (p : Person) (calls : List Call) : p.Extends Outlasts (p.run calls) := by
  induction calls generalizing p with
  | nil => exact .refl (fun _ => id) p
  | cons c calls ih =>
    have htrans : ∀ s s' s'', Outlasts s s' → Outlasts s' s'' → Outlasts s s'' :=
      fun _ _ _ h h' => h' ∘ h
    exact (p.extends_after c).trans htrans (ih (p.after c))

/-- An accepted event lets the history of a person grow, and no call that follows
takes anything of it back. -/
theorem appendOnly_of_answer (h : p.answer c = .ok ns) :
    p.Extends Follows (p.after c) ∧ ∀ calls, p.Extends Outlasts (p.run (c :: calls)) :=
  ⟨extends_of_answer h, fun calls => p.extends_run (c :: calls)⟩

set_option maxRecDepth 8000 in
/-- An approval that is taken back is still there, and so is what was entered. -/
theorem appendOnly_takingBack :
    approvedByThemselves.answer takingBack =
      .ok [.periodStateChanged (supplyFrom 11 0) .toBeFilled (some .approved) (january 1)
        (january 14)] ∧
    ((approvedByThemselves.after takingBack).periods.toList.map fun q =>
      (q.approvals.entries.map fun a => (a.id, a.isLive),
        q.timeline.activities.map fun a => (a.id, a.state))) =
      [([(supplyFrom 50 0, false)], [(supplyFrom 30 0, .unlocked)])] ∧
    approvedByThemselves.Extends Follows (approvedByThemselves.after takingBack) ∧
    ∀ calls, approvedByThemselves.Extends Outlasts
      (approvedByThemselves.run (takingBack :: calls)) := by
  have hok : approvedByThemselves.answer takingBack =
      .ok [.periodStateChanged (supplyFrom 11 0) .toBeFilled (some .approved) (january 1)
        (january 14)] := by
    cbv
  exact ⟨hok, by cbv, appendOnly_of_answer hok⟩

end Person

end Fortnight
