import Fortnight.Proofs.Period.Move

/-!
# Announcements

The notifications of an operation are exactly the difference that it makes: each
period that is new or has changed its state is announced once, as it is
afterwards and with the state that it had before. A period that has become
submitted is sent in right after that. When several periods are submitted one
after another, those that were announced first stay as they were announced, so
that the announcements can be put together.
-/

namespace Fortnight

namespace Period

/-- What is to be notified of a period that had the state `previous`, or that is new:
the state and the range that it has now, and if it is submitted, right after that,
all that it reports. -/
def announcement (previous : Option PeriodState) (p : Period) : List Notification :=
  .periodStateChanged p.id p.state previous p.start p.finish ::
    if p.state = .submitted then
      [.periodSubmitted p.id p.start p.finish p.timeline.days p.caseId p.corrects]
    else []

theorem announcement_of_ne {p : Period} {previous : Option PeriodState}
    (h : p.state ≠ .submitted) : p.announcement previous = [p.stateChanged previous] := by
  rw [announcement, if_neg h, stateChanged]

theorem announcement_of_submitted {p : Period} {previous : Option PeriodState}
    (h : p.state = .submitted) :
    p.announcement previous = [p.stateChanged previous, p.submission] := by
  rw [announcement, if_pos h, stateChanged, submission]

end Period

namespace PeriodTable

variable {t t' t'' : PeriodTable} {p q : Period} {changed later : List Period}
  {ns ns' : List Notification}

/-- The state of the period with an identifier, if there is one. -/
def stateOf? (t : PeriodTable) (id : Id) : Option PeriodState :=
  (t.find? id).map Period.state

theorem stateOf?_of_mem (h : p ∈ t) : t.stateOf? p.id = some p.state := by
  simp [stateOf?, Register.find?_of_mem h]

theorem stateOf?_of_new (h : t.find? p.id = none) : t.stateOf? p.id = none := by
  simp [stateOf?, h]

/-- What is notified of periods that are new or have another state than in `t`. -/
def announcements (t : PeriodTable) (changed : List Period) : List Notification :=
  changed.flatMap fun q => q.announcement (t.stateOf? q.id)

/-- No period is lost from `t` to `t'`, and `changed` are those that are new in
`t'` or have another state there, each of them once. -/
structure Difference (t t' : PeriodTable) (changed : List Period) : Prop where
  stays : ∀ p ∈ t, ∃ q ∈ t', q.id = p.id
  nodup : (changed.map Period.id).Nodup
  mem_iff : ∀ q, q ∈ changed ↔ q ∈ t' ∧ t.stateOf? q.id ≠ some q.state

namespace Difference

theorem refl (t : PeriodTable) : Difference t t [] where
  stays p hp := ⟨p, hp, rfl⟩
  nodup := List.nodup_nil
  mem_iff q := by
    constructor
    · intro hq
      cases hq
    · rintro ⟨hq, hne⟩
      exact absurd (stateOf?_of_mem hq) hne

theorem single (hp : p ∈ t') (hne : t.stateOf? p.id ≠ some p.state)
    (hstays : ∀ q ∈ t, ∃ q' ∈ t', q'.id = q.id)
    (hother : ∀ q ∈ t', q ≠ p → t.stateOf? q.id = some q.state) : Difference t t' [p] where
  stays := hstays
  nodup := by simp
  mem_iff q := by
    rw [List.mem_singleton]
    constructor
    · rintro rfl
      exact ⟨hp, hne⟩
    · rintro ⟨hq, hchanged⟩
      by_contra hqp
      exact hchanged (hother q hq hqp)

theorem stays_insert (p : Period) : ∀ q ∈ t, ∃ q' ∈ Register.insert t p, q'.id = q.id := by
  intro q hq
  by_cases hid : q.id = p.id
  · exact ⟨p, Register.mem_insert.mpr (Or.inl rfl), hid.symm⟩
  · exact ⟨q, Register.mem_insert.mpr (Or.inr ⟨hq, hid⟩), rfl⟩

theorem insert_of_stateOf?_eq (h : t.stateOf? p.id = some p.state) :
    Difference t (Register.insert t p) [] where
  stays := stays_insert p
  nodup := List.nodup_nil
  mem_iff q := by
    constructor
    · intro hq
      cases hq
    · rintro ⟨hq, hne⟩
      obtain rfl | ⟨hq, _⟩ := Register.mem_insert.mp hq
      · exact absurd h hne
      · exact absurd (stateOf?_of_mem hq) hne

theorem insert_of_stateOf?_ne (h : t.stateOf? p.id ≠ some p.state) :
    Difference t (Register.insert t p) [p] := by
  refine single (Register.mem_insert.mpr (Or.inl rfl)) h (stays_insert p) ?_
  intro q hq hne
  obtain rfl | ⟨hq, _⟩ := Register.mem_insert.mp hq
  · exact absurd rfl hne
  · exact stateOf?_of_mem hq

theorem withCorrection {c corrected tip : Period} (hnew : t.find? c.id = none)
    (hcorrected : corrected ∈ t) (htip : tip ∈ t) :
    Difference t (t.withCorrection c corrected tip) [c] := by
  have hmem := fun q => mem_withCorrection (q := q) hnew hcorrected htip
  refine single ((hmem c).mpr (Or.inl rfl)) ?_ ?_ ?_
  · simp [stateOf?_of_new hnew]
  · intro q hq
    exact ⟨_, (hmem _).mpr (Or.inr ⟨q, hq, rfl⟩), by simp⟩
  · intro q hq hne
    obtain rfl | ⟨r, hr, rfl⟩ := (hmem q).mp hq
    · exact absurd rfl hne
    · rw [Period.relinked_id, Period.relinked_state]
      exact stateOf?_of_mem hr

/-- A period that is announced later was not announced before, if what was
announced then is still as it was. -/
theorem id_ne_of_mem (h : Difference t t' changed) (h' : Difference t' t'' later)
    (hkeep : ∀ q ∈ changed, q ∈ t'') : ∀ p ∈ changed, ∀ q ∈ later, p.id ≠ q.id := by
  intro p hp q hq hid
  obtain ⟨hq, hne⟩ := (h'.mem_iff q).mp hq
  obtain rfl := Register.eq_of_key_eq (hkeep p hp) hq hid
  exact hne (stateOf?_of_mem ((h.mem_iff p).mp hp).1)

theorem stateOf?_eq (h : Difference t t' changed) {id : Id} (hid : ∀ p ∈ changed, p.id ≠ id) :
    t'.stateOf? id = t.stateOf? id := by
  cases hfind : t'.find? id with
  | none =>
    have hnone : t.find? id = none := by
      apply Register.find?_eq_none_iff.mpr
      intro p hp hpid
      obtain ⟨q, hq, hqp⟩ := h.stays p hp
      exact Register.find?_eq_none_iff.mp hfind q hq (hqp.trans hpid)
    rw [stateOf?, stateOf?, hfind, hnone]
  | some p =>
    obtain ⟨hp, rfl⟩ := Register.find?_eq_some_iff.mp hfind
    have hsame : ¬ (p ∈ t' ∧ t.stateOf? p.id ≠ some p.state) := fun hchanged =>
      hid p ((h.mem_iff p).mpr hchanged) rfl
    rw [stateOf?_of_mem hp]
    by_contra hne
    exact hsame ⟨hp, Ne.symm hne⟩

/-- One difference after another is one difference. -/
theorem append (h : Difference t t' changed) (h' : Difference t' t'' later)
    (hkeep : ∀ q ∈ changed, q ∈ t'') : Difference t t'' (changed ++ later) where
  stays p hp := by
    obtain ⟨q, hq, hid⟩ := h.stays p hp
    obtain ⟨r, hr, hid'⟩ := h'.stays q hq
    exact ⟨r, hr, hid'.trans hid⟩
  nodup := by
    rw [List.map_append]
    apply List.nodup_append.mpr ⟨h.nodup, h'.nodup, ?_⟩
    simpa using h.id_ne_of_mem h' hkeep
  mem_iff q := by
    have hne := h.id_ne_of_mem h' hkeep
    rw [List.mem_append]
    constructor
    · rintro (hq | hq)
      · exact ⟨hkeep q hq, ((h.mem_iff q).mp hq).2⟩
      · obtain ⟨hq', hchanged⟩ := (h'.mem_iff q).mp hq
        rw [h.stateOf?_eq fun p hp => hne p hp q hq] at hchanged
        exact ⟨hq', hchanged⟩
    · rintro ⟨hq, hchanged⟩
      by_cases hbefore : ∃ p ∈ changed, p.id = q.id
      · obtain ⟨p, hp, hid⟩ := hbefore
        obtain rfl := Register.eq_of_key_eq (hkeep p hp) hq hid
        exact Or.inl hp
      · push Not at hbefore
        refine Or.inr ((h'.mem_iff q).mpr ⟨hq, ?_⟩)
        rw [h.stateOf?_eq hbefore]
        exact hchanged

/-- What is announced later is announced with the state that it had at first. -/
theorem announcements_append (h : Difference t t' changed) (h' : Difference t' t'' later)
    (hkeep : ∀ q ∈ changed, q ∈ t'') :
    t.announcements (changed ++ later) = t.announcements changed ++ t'.announcements later := by
  have hsame : t.announcements later = t'.announcements later := by
    apply List.flatMap_congr
    intro q hq
    rw [h.stateOf?_eq fun p hp => h.id_ne_of_mem h' hkeep p hp q hq]
  rw [announcements, List.flatMap_append, ← hsame]
  rfl

end Difference

section Announcements

theorem announcements_new (hnew : t.find? p.id = none) (hstate : p.state ≠ .submitted) :
    t.announcements [p] = [p.stateChanged none] := by
  simp [announcements, stateOf?_of_new hnew, Period.announcement_of_ne hstate]

theorem announcements_old (hp : p ∈ t) (hid : q.id = p.id) :
    t.announcements [q] = q.announcement (some p.state) := by
  simp [announcements, hid, stateOf?_of_mem hp]

/-- What is notified is exactly the difference between two tables. -/
def Announces (t t' : PeriodTable) (ns : List Notification) : Prop :=
  ∃ changed, Difference t t' changed ∧ ns = t.announcements changed

theorem Announces.refl (t : PeriodTable) : Announces t t [] :=
  ⟨[], .refl t, rfl⟩

theorem Announces.kept (hp : p ∈ t) (hid : q.id = p.id) (hstate : q.state = p.state) :
    Announces t (Register.insert t q) [] := by
  refine ⟨[], .insert_of_stateOf?_eq ?_, rfl⟩
  rw [hid, hstate]
  exact stateOf?_of_mem hp

theorem Difference.moved (hp : p ∈ t) (hid : q.id = p.id) (hstate : q.state ≠ p.state) :
    Difference t (Register.insert t q) [q] := by
  apply insert_of_stateOf?_ne
  rw [hid, stateOf?_of_mem hp]
  intro h
  exact hstate (Option.some.inj h).symm

theorem Announces.moved (hp : p ∈ t) (hid : q.id = p.id) (hstate : q.state ≠ p.state) :
    Announces t (Register.insert t q) (q.announcement (some p.state)) :=
  ⟨[q], .moved hp hid hstate, (announcements_old hp hid).symm⟩

theorem NewRoot.announces {start since : Date} (h : t.NewRoot start since p) :
    Announces t (Register.insert t p) [p.stateChanged none] := by
  have hnew := h.find?_eq_none
  obtain ⟨_, _, _, _, _, _, _, rfl⟩ := h.exists_eq
  refine ⟨_, .insert_of_stateOf?_ne ?_, (announcements_new hnew (by simp)).symm⟩
  simp [stateOf?_of_new hnew]

end Announcements

theorem announces_of_openFirst {id : Id} {date : Date} {rule : FinalizeRule}
    (h : (openFirst id date rule).run t = (.ok ns, t')) : Announces t t' ns := by
  obtain ⟨_, _, ⟨_, rfl, rfl⟩ | ⟨_, p, hp, rfl, rfl⟩⟩ := openFirst_cases h
  · exact .refl t
  · exact hp.announces

theorem announces_of_openNext {id : Id} {since date : Date} {rule : FinalizeRule}
    (h : (openNext id since date rule).run t = (.ok ns, t')) : Announces t t' ns := by
  obtain ⟨_, _, ⟨_, rfl, rfl⟩ | ⟨_, p, hp, rfl, rfl⟩⟩ := openNext_cases h
  · exact .refl t
  · exact hp.announces

theorem announces_of_correct {fresh : ℕ → Id} {id : Id}
    (h : (correct fresh id).run t = (.ok ns, t')) : Announces t t' ns := by
  obtain ⟨tip, corrected, htip, hcorrectable, hnew, rfl, rfl⟩ := run_correct_eq_ok_iff.mp h
  have hmem := tip_mem htip
  have hcorrected := mem_of_correctable hmem hcorrectable
  refine ⟨_, .withCorrection hnew hcorrected hmem, ?_⟩
  exact (announcements_new hnew (by simp [Period.correctionOf])).symm

theorem announces_of_approve {approval : Approval} {reference : Date}
    {corrected : Option Timeline} (hp : p ∈ t)
    (h : (Period.approve approval reference corrected).run p = (.ok ns, q)) :
    Announces t (Register.insert t q) ns := by
  obtain ⟨hstate, _, approvals, timeline, _, _, rfl, rfl⟩ := Period.run_approve_eq_ok_iff.mp h
  rw [← hstate]
  exact .moved hp rfl (by simp [hstate])

theorem announces_of_unapprove {revocation : Revocation} (hp : p ∈ t)
    (h : (Period.unapprove revocation).run p = (.ok ns, q)) :
    Announces t (Register.insert t q) ns := by
  obtain ⟨hstate, approvals, timeline, _, _, rfl, rfl⟩ := Period.run_unapprove_eq_ok_iff.mp h
  rw [← hstate]
  exact .moved hp rfl (by simp [hstate])

theorem announces_of_submitManually {caseId : Option String} (hp : p ∈ t)
    (h : (Period.submitManually caseId).run p = (.ok ns, q)) :
    Announces t (Register.insert t q) ns := by
  obtain ⟨hstate, rfl, rfl⟩ := Period.run_submitManually_eq_ok_iff.mp h
  rw [← hstate]
  exact .moved hp rfl (by simp [hstate])

theorem Submissions.announces {caseId : Option String} (h : Submissions caseId t ns t') :
    Announces t t' ns := by
  induction h with
  | nil => exact .refl _
  | @cons t t' _ p p' _ others htip hsubmit hothers ih =>
    obtain ⟨hstate, hp', rfl⟩ := Period.run_submitManually_eq_ok_iff.mp hsubmit
    have hid : p'.id = p.id := by
      rw [← hp']
    have hsubmitted : p'.state = .submitted := by
      rw [← hp']
    have hdifference : Difference t (Register.insert t p') [p'] :=
      .moved (tip_mem htip) hid (by simp [hsubmitted, hstate])
    -- What is submitted stays as it is while other tips are submitted.
    have hstays : p' ∈ t' :=
      hothers.edits.mem_of_submitted (Register.mem_insert.mpr (Or.inl rfl)) hsubmitted
    have hkeep : ∀ q ∈ [p'], q ∈ t' := by
      simpa using hstays
    obtain ⟨later, hlater, rfl⟩ := ih
    refine ⟨[p'] ++ later, hdifference.append hlater hkeep, ?_⟩
    rw [hdifference.announcements_append hlater hkeep, announcements_old (tip_mem htip) hid,
      Period.announcement_of_submitted hsubmitted, hstate]

end PeriodTable

end Fortnight
