import Mathlib.Logic.Relation
import Fortnight.Proofs.Period.Operation

/-!
# Moves of a table of periods

All that an operation can do to a table, once and for all. The operations on a
tip edit that one period, a new root is put in, and a correction is put in and
linked. Each constructor keeps what the operation has checked. An operation that
succeeds makes no other moves than these (`Moves`), so that whatever every move
keeps is kept by every operation.
-/

namespace Fortnight

namespace Period

/-- The dates that are fixed for a period when it is opened. -/
def schedule (p : Period) : Date × Date × Date × Date :=
  (p.start, p.finish, p.approvableFrom, p.finalizeAfter)

/-- The period as it is once another one is its newest correction. -/
def linkedTo (p : Period) (correction : Id) : Period :=
  { p with correctedBy := some correction }

@[simp] theorem linkedTo_id (p : Period) (c : Id) : (p.linkedTo c).id = p.id := rfl

@[simp] theorem linkedTo_state (p : Period) (c : Id) : (p.linkedTo c).state = p.state := rfl

@[simp] theorem linkedTo_corrects (p : Period) (c : Id) : (p.linkedTo c).corrects = p.corrects :=
  rfl

@[simp] theorem linkedTo_correctedBy (p : Period) (c : Id) :
    (p.linkedTo c).correctedBy = some c := rfl

/-- The period as it is once a correction of `corrected` follows the tip `tip`. -/
def relinked (corrected tip correction : Id) (p : Period) : Period :=
  if p.id = corrected ∨ p.id = tip then p.linkedTo correction else p

section Relinked

variable (corrected tip c : Id) (p : Period)

@[simp] theorem relinked_id : (p.relinked corrected tip c).id = p.id := by
  unfold relinked
  split <;> rfl

@[simp] theorem relinked_state : (p.relinked corrected tip c).state = p.state := by
  unfold relinked
  split <;> rfl

@[simp] theorem relinked_corrects : (p.relinked corrected tip c).corrects = p.corrects := by
  unfold relinked
  split <;> rfl

@[simp] theorem relinked_timeline : (p.relinked corrected tip c).timeline = p.timeline := by
  unfold relinked
  split <;> rfl

@[simp] theorem relinked_approvals : (p.relinked corrected tip c).approvals = p.approvals := by
  unfold relinked
  split <;> rfl

@[simp] theorem relinked_schedule : (p.relinked corrected tip c).schedule = p.schedule := by
  unfold relinked
  split <;> rfl

theorem correctedBy_relinked {n : Id} (h : (p.relinked corrected tip c).correctedBy = some n) :
    n = c ∨ p.correctedBy = some n := by
  unfold relinked at h
  split at h
  · exact Or.inl (Option.some.inj h).symm
  · exact Or.inr h

@[simp] theorem relinked_self : (p.relinked p.id tip c) = p.linkedTo c :=
  if_pos (Or.inl rfl)

@[simp] theorem relinked_tip : (p.relinked corrected p.id c) = p.linkedTo c :=
  if_pos (Or.inr rfl)

end Relinked

/-- `tip` is a tip, and a correction that is started there is one of `corrected`. -/
inductive CorrectedAt : (corrected tip : Period) → Prop
  | itself {p} : p.state = .submitted → p.correctedBy = none → CorrectedAt p p
  | draft {p q} : p.state = .submitted → p.correctedBy = some q.id → q.state = .toBeFilled →
      q.corrects = some p.id → q.correctedBy = none → CorrectedAt p q

namespace CorrectedAt

variable {corrected tip : Period}

theorem submitted (h : CorrectedAt corrected tip) : corrected.state = .submitted := by
  cases h <;> assumption

theorem tip_correctedBy (h : CorrectedAt corrected tip) : tip.correctedBy = none := by
  cases h <;> assumption

theorem tip_state_ne (h : CorrectedAt corrected tip) : tip.state ≠ .approved := by
  cases h <;> simp_all

end CorrectedAt

end Period

namespace PeriodTable

variable {t t' : PeriodTable} {α : Type}

/-- What is done to a tip without touching another period. -/
inductive Edit (t : PeriodTable) : Period → Period → Prop
  | add {p a timeline} : p.state = .toBeFilled → a.state = .unlocked →
      (Timeline.add a).run p.timeline = (.ok (), timeline) → Edit t p { p with timeline }
  | delete {p activity timeline} : p.state = .toBeFilled →
      (Timeline.delete activity).run p.timeline = (.ok (), timeline) →
      Edit t p { p with timeline }
  | approve {p approval reference corrected approvals timeline} : p.state = .toBeFilled →
      approval.isLive → t.corrected p = .ok corrected →
      p.ensureApprovable reference corrected = .ok () →
      (ApprovalLog.add approval).run p.approvals = (.ok (), approvals) →
      Timeline.lock.run p.timeline = (.ok (), timeline) →
      Edit t p { p with approvals, timeline, state := .approved }
  | unapprove {p revocation approvals timeline} : p.state = .approved →
      (ApprovalLog.revoke revocation).run p.approvals = (.ok (), approvals) →
      Timeline.unlock.run p.timeline = (.ok (), timeline) →
      Edit t p { p with approvals, timeline, state := .toBeFilled }
  | submit {p caseId} : p.state = .approved → Edit t p { p with caseId, state := .submitted }

namespace Edit

variable {p p' : Period}

@[simp] theorem id_eq (h : Edit t p p') : p'.id = p.id := by
  cases h <;> rfl

@[simp] theorem start_eq (h : Edit t p p') : p'.start = p.start := by
  cases h <;> rfl

@[simp] theorem finish_eq (h : Edit t p p') : p'.finish = p.finish := by
  cases h <;> rfl

@[simp] theorem schedule_eq (h : Edit t p p') : p'.schedule = p.schedule := by
  cases h <;> rfl

@[simp] theorem corrects_eq (h : Edit t p p') : p'.corrects = p.corrects := by
  cases h <;> rfl

@[simp] theorem correctedBy_eq (h : Edit t p p') : p'.correctedBy = p.correctedBy := by
  cases h <;> rfl

theorem state_ne (h : Edit t p p') : p.state ≠ .submitted := by
  cases h with
  | add hs _ _ => simp [hs]
  | delete hs _ => simp [hs]
  | approve hs _ _ _ _ _ => simp [hs]
  | unapprove hs _ _ => simp [hs]
  | submit hs => simp [hs]

end Edit

/-- `p` is new to the table, and is as a root from `start` on begins, the days
before `since` being exempt. -/
def NewRoot (t : PeriodTable) (start since : Date) (p : Period) : Prop :=
  t.find? p.id = none ∧ ∃ id rule q, Period.starting id start rule = .ok q ∧
    p = { q with timeline := q.timeline.markExemptBefore since }

theorem NewRoot.exists_eq {start since : Date} {p : Period} (h : t.NewRoot start since p) :
    ∃ id finish approvableFrom finalizeAfter timeline, start.periodEnd = .ok finish ∧
      Timeline.starting start = .ok timeline ∧
      p = ⟨id, start, finish, approvableFrom, finalizeAfter, .toBeFilled,
        timeline.markExemptBefore since, .empty, none, none, none⟩ := by
  obtain ⟨_, _, _, q, hq, rfl⟩ := h
  obtain ⟨finish, _, timeline, hfinish, _, htimeline, rfl⟩ := Period.starting_eq_ok_iff.mp hq
  exact ⟨_, finish, _, _, timeline, hfinish, htimeline, rfl⟩

theorem NewRoot.find?_eq_none {start since : Date} {p : Period} (h : t.NewRoot start since p) :
    t.find? p.id = none :=
  h.1

theorem relinked_of_ne {corrected tip p : Period} (hcorrected : corrected ∈ t) (htip : tip ∈ t)
    (hp : p ∈ t) (hpc : p ≠ corrected) (hpt : p ≠ tip) (c : Id) :
    p.relinked corrected.id tip.id c = p := by
  refine if_neg ?_
  rintro (e | e)
  · exact hpc (Register.eq_of_key_eq hp hcorrected e)
  · exact hpt (Register.eq_of_key_eq hp htip e)

/-- The table with a correction in it to which both the period that it corrects
and the tip that it follows lead. -/
def withCorrection (t : PeriodTable) (correction corrected tip : Period) : PeriodTable :=
  ((t.insert correction).insert (corrected.linkedTo correction.id)).insert
    (tip.linkedTo correction.id)

/-- With a correction that is new, a table has the periods that it had, two of
them with a new link. -/
theorem mem_withCorrection {correction corrected tip q : Period}
    (hnew : t.find? correction.id = none) (hcorrected : corrected ∈ t) (htip : tip ∈ t) :
    q ∈ t.withCorrection correction corrected tip ↔
      q = correction ∨ ∃ p ∈ t, p.relinked corrected.id tip.id correction.id = q := by
  have hne : ∀ p ∈ t, p.id ≠ correction.id := Register.find?_eq_none_iff.mp hnew
  simp only [withCorrection, Register.mem_insert, Period.linkedTo_id]
  constructor
  · rintro (rfl | ⟨rfl | ⟨rfl | ⟨hq, _⟩, hc⟩, ht⟩)
    · exact Or.inr ⟨tip, htip, Period.relinked_tip ..⟩
    · exact Or.inr ⟨corrected, hcorrected, Period.relinked_self ..⟩
    · exact Or.inl rfl
    · exact Or.inr ⟨q, hq, by simp [Period.relinked, hc, ht]⟩
  · rintro (rfl | ⟨p, hp, rfl⟩)
    · exact Or.inr ⟨Or.inr ⟨Or.inl rfl, (hne _ hcorrected).symm⟩, (hne _ htip).symm⟩
    · by_cases ht : p = tip
      · subst ht
        exact Or.inl (Period.relinked_tip ..)
      · by_cases hc : p = corrected
        · subst hc
          exact Or.inr ⟨Or.inl (Period.relinked_self ..), fun e =>
            ht (Register.eq_of_key_eq hp htip (by simpa using e))⟩
        · rw [relinked_of_ne hcorrected htip hp hc ht]
          exact Or.inr ⟨Or.inr ⟨Or.inr ⟨hp, hne p hp⟩, fun e =>
            hc (Register.eq_of_key_eq hp hcorrected e)⟩, fun e =>
            ht (Register.eq_of_key_eq hp htip e)⟩

inductive Move (t : PeriodTable) : PeriodTable → Prop
  | edit {id p p'} : t.tip id = .ok p → Edit t p p' → Move t (t.insert p')
  | openFirst {date start p} : date.mondayOnOrBefore = .ok start →
      (∀ r ∈ t.roots, r.finish < start) → t.NewRoot start date p → Move t (t.insert p)
  | openNext {since date start p} : t.nextStart since = .ok start → start ≤ date →
      t.NewRoot start since p → Move t (t.insert p)
  | correct {fresh id tip corrected} : t.tip id = .ok tip →
      t.correctable tip = .ok corrected → t.find? (fresh 0) = none →
      Move t (t.withCorrection (corrected.correctionOf fresh) corrected tip)

/-- One move after another. -/
def Moves : PeriodTable → PeriodTable → Prop := Relation.ReflTransGen Move

namespace Moves

variable {t'' : PeriodTable}

@[refl] theorem refl (t : PeriodTable) : Moves t t := Relation.ReflTransGen.refl

theorem single (h : Move t t') : Moves t t' := Relation.ReflTransGen.single h

theorem trans (h : Moves t t') (h' : Moves t' t'') : Moves t t'' :=
  Relation.ReflTransGen.trans h h'

/-- What every single move keeps is kept by any number of moves. -/
theorem keep {P : PeriodTable → Prop} (move : ∀ t t', P t → Move t t' → P t')
    (h : Moves t t') (ht : P t) : P t' := by
  induction h with
  | refl => exact ht
  | tail _ hmove ih => exact move _ _ ih hmove

end Moves

/-- Tips edited one after another, which is all that is done to periods that are there. -/
def Edits : PeriodTable → PeriodTable → Prop :=
  Relation.ReflTransGen fun t t' => ∃ id p p', t.tip id = .ok p ∧ Edit t p p' ∧ t.insert p' = t'

namespace Edits

variable {t'' : PeriodTable}

@[refl] theorem refl (t : PeriodTable) : Edits t t := Relation.ReflTransGen.refl

theorem single {id : Id} {p p' : Period} (hp : t.tip id = .ok p) (h : Edit t p p') :
    Edits t (t.insert p') :=
  Relation.ReflTransGen.single ⟨id, p, p', hp, h, rfl⟩

theorem trans (h : Edits t t') (h' : Edits t' t'') : Edits t t'' :=
  Relation.ReflTransGen.trans h h'

theorem moves (h : Edits t t') : Moves t t' := by
  induction h with
  | refl => exact .refl t
  | tail _ hedit ih =>
    obtain ⟨_, _, _, hp, he, rfl⟩ := hedit
    exact ih.trans (.single (.edit hp he))

/-- No period is there that was not there before. -/
theorem exists_before (h : Edits t t') : ∀ q ∈ t', ∃ p ∈ t, p.id = q.id := by
  induction h with
  | refl => exact fun q hq => ⟨q, hq, rfl⟩
  | tail _ hedit ih =>
    obtain ⟨_, p, p', hp, he, rfl⟩ := hedit
    intro q hq
    rcases Register.mem_insert.mp hq with rfl | ⟨hq, _⟩
    · rw [he.id_eq]
      exact ih p (tip_mem hp)
    · exact ih q hq

theorem mem_of_submitted (h : Edits t t') {q : Period} (hq : q ∈ t)
    (hstate : q.state = .submitted) : q ∈ t' := by
  induction h with
  | refl => exact hq
  | tail _ hedit ih =>
    obtain ⟨_, p, p', hp, he, rfl⟩ := hedit
    refine Register.mem_insert.mpr (Or.inr ⟨ih, fun hid => he.state_ne ?_⟩)
    rw [he.id_eq] at hid
    rw [← Register.eq_of_key_eq ih (tip_mem hp) hid]
    exact hstate

end Edits

section Operations

variable {p p' : Period} {ns : List Notification}

theorem Submissions.edits {caseId : Option String} (h : Submissions caseId t ns t') :
    Edits t t' := by
  induction h with
  | nil => exact .refl _
  | cons htip hsubmit _ ih =>
    obtain ⟨hstate, rfl, _⟩ := Period.run_submitManually_eq_ok_iff.mp hsubmit
    exact (Edits.single htip (.submit hstate)).trans ih

theorem run_insertNew_eq_ok_iff {u : Unit} :
    (insertNew p).run t = (.ok u, t') ↔ t.find? p.id = none ∧ t.insert p = t' := by
  cases hf : t.find? p.id <;> simp [Step.run, insertNew, extend, Register.contains, hf]

theorem newRoot_of_openPeriod {id : Id} {start since : Date} {rule : FinalizeRule}
    (h : (openPeriod id start since rule).run t = (.ok ns, t')) :
    ∃ p, t.NewRoot start since p ∧ t.insert p = t' ∧ ns = [p.stateChanged none] := by
  obtain ⟨q, _, hlook, h⟩ := Step.run_bind_eq_ok_iff.mp h
  obtain ⟨hq, rfl⟩ := Prod.mk.inj hlook
  obtain ⟨_, u, hnew, h⟩ := Step.run_bind_eq_ok_iff.mp h
  obtain ⟨hnone, rfl⟩ := run_insertNew_eq_ok_iff.mp hnew
  cases h
  exact ⟨_, ⟨hnone, id, rule, q, hq, rfl⟩, rfl, rfl⟩

/-- The first period is opened only if every root ends before the week of `date`. -/
theorem openFirst_cases {id : Id} {date : Date} {rule : FinalizeRule}
    (h : (openFirst id date rule).run t = (.ok ns, t')) :
    ∃ start, date.mondayOnOrBefore = .ok start ∧
      ((∃ r ∈ t.roots, start ≤ r.finish) ∧ t = t' ∧ ns = [] ∨
        (∀ r ∈ t.roots, r.finish < start) ∧
          ∃ p, t.NewRoot start date p ∧ t.insert p = t' ∧ ns = [p.stateChanged none]) := by
  obtain ⟨start, _, hlook, h⟩ := Step.run_bind_eq_ok_iff.mp h
  obtain ⟨hstart, rfl⟩ := Prod.mk.inj hlook
  obtain ⟨_, _, hget, h⟩ := Step.run_bind_eq_ok_iff.mp h
  cases hget
  refine ⟨start, hstart, ?_⟩
  split at h
  · rename_i hroots
    cases h
    exact Or.inl ⟨by simpa using hroots, rfl, rfl⟩
  · rename_i hroots
    have hbefore : ∀ r ∈ t.roots, r.finish < start := by
      simpa [Date.le_iff, Date.lt_iff] using hroots
    exact Or.inr ⟨hbefore, newRoot_of_openPeriod h⟩

theorem moves_of_openFirst {id : Id} {date : Date} {rule : FinalizeRule}
    (h : (openFirst id date rule).run t = (.ok ns, t')) : Moves t t' := by
  obtain ⟨start, hstart, ⟨_, rfl, _⟩ | ⟨hbefore, p, hp, rfl, _⟩⟩ := openFirst_cases h
  · exact .refl t
  · exact .single (.openFirst hstart hbefore hp)

/-- The next period is opened only if it has started by `date`. -/
theorem openNext_cases {id : Id} {since date : Date} {rule : FinalizeRule}
    (h : (openNext id since date rule).run t = (.ok ns, t')) :
    ∃ start, t.nextStart since = .ok start ∧
      (date < start ∧ t = t' ∧ ns = [] ∨
        start ≤ date ∧
          ∃ p, t.NewRoot start since p ∧ t.insert p = t' ∧ ns = [p.stateChanged none]) := by
  obtain ⟨start, _, hlook, h⟩ := Step.run_bind_eq_ok_iff.mp h
  obtain ⟨hstart, rfl⟩ := Prod.mk.inj hlook
  refine ⟨start, hstart, ?_⟩
  split at h
  · rename_i hdate
    cases h
    exact Or.inl ⟨hdate, rfl, rfl⟩
  · rename_i hdate
    have hle : start ≤ date := by
      simpa [Date.le_iff, Date.lt_iff] using hdate
    exact Or.inr ⟨hle, newRoot_of_openPeriod h⟩

theorem moves_of_openNext {id : Id} {since date : Date} {rule : FinalizeRule}
    (h : (openNext id since date rule).run t = (.ok ns, t')) : Moves t t' := by
  obtain ⟨start, hstart, ⟨_, rfl, _⟩ | ⟨hle, p, hp, rfl, _⟩⟩ := openNext_cases h
  · exact .refl t
  · exact .single (.openNext hstart hle hp)

theorem mem_of_correctable {tip corrected : Period} (htip : tip ∈ t)
    (h : t.correctable tip = .ok corrected) : corrected ∈ t := by
  simp only [correctable] at h
  split at h
  · cases h
    exact htip
  · exact (get_eq_ok_iff.mp h).1
  · cases h

/-- What a correction is made of: a submitted tip, or what a draft corrects. -/
theorem correctable_eq_ok {tip corrected : Period} (h : t.correctable tip = .ok corrected) :
    tip.state = .submitted ∧ corrected = tip ∨
      tip.state = .toBeFilled ∧ tip.corrects = some corrected.id ∧ corrected ∈ t := by
  simp only [correctable] at h
  split at h
  · rename_i hs
    cases h
    exact Or.inl ⟨hs, rfl⟩
  · rename_i hs hc
    obtain ⟨hmem, hid⟩ := get_eq_ok_iff.mp h
    exact Or.inr ⟨hs, hid ▸ hc, hmem⟩
  · cases h

theorem run_setCorrectedBy_eq_ok_iff {id correction : Id} {u : Unit} :
    (setCorrectedBy id correction).run t = (.ok u, t') ↔
      ∃ p, t.get id = .ok p ∧ t.insert (p.linkedTo correction) = t' := by
  rw [setCorrectedBy, run_onPeriod_eq_ok_iff]
  constructor
  · rintro ⟨p, _, hp, hmodify, rfl⟩
    cases hmodify
    exact ⟨p, hp, rfl⟩
  · rintro ⟨p, hp, rfl⟩
    exact ⟨p, _, hp, rfl, rfl⟩

section Correction

variable {c corrected tip : Period}

theorem linkedTo_eq_of_mem {q : Period} (hnew : t.find? c.id = none)
    (hcorrected : corrected ∈ t) (htip : tip ∈ t)
    (hq : q ∈ (t.insert c).insert (corrected.linkedTo c.id)) (hid : q.id = tip.id) :
    q.linkedTo c.id = tip.linkedTo c.id := by
  have hfresh : tip.id ≠ c.id := Register.find?_eq_none_iff.mp hnew tip htip
  rcases Register.mem_insert.mp hq with rfl | ⟨hq, hne⟩
  · rw [Register.eq_of_key_eq hcorrected htip hid]
    rfl
  · rcases Register.mem_insert.mp hq with rfl | ⟨hq, _⟩
    · exact absurd hid.symm hfresh
    · rw [Register.eq_of_key_eq hq htip hid]

theorem run_setCorrectedBy_corrected (hnew : t.find? c.id = none) (hcorrected : corrected ∈ t)
    {u : Unit} :
    (setCorrectedBy corrected.id c.id).run (t.insert c) = (.ok u, t') ↔
      (t.insert c).insert (corrected.linkedTo c.id) = t' := by
  have hne := Register.find?_eq_none_iff.mp hnew corrected hcorrected
  have hkeep : corrected ∈ t.insert c := Register.mem_insert.mpr (Or.inr ⟨hcorrected, hne⟩)
  simp [run_setCorrectedBy_eq_ok_iff, get_of_mem hkeep]

theorem run_setCorrectedBy_tip (hnew : t.find? c.id = none) (hcorrected : corrected ∈ t)
    (htip : tip ∈ t) {u : Unit} :
    (setCorrectedBy tip.id c.id).run ((t.insert c).insert (corrected.linkedTo c.id)) =
        (.ok u, t') ↔
      t.withCorrection c corrected tip = t' := by
  have hne : tip.id ≠ c.id := Register.find?_eq_none_iff.mp hnew tip htip
  have hfound : ∃ q ∈ (t.insert c).insert (corrected.linkedTo c.id), q.id = tip.id := by
    by_cases hid : tip.id = corrected.id
    · exact ⟨_, Register.mem_insert.mpr (Or.inl rfl), hid.symm⟩
    · have hkeep : tip ∈ t.insert c := Register.mem_insert.mpr (Or.inr ⟨htip, hne⟩)
      exact ⟨tip, Register.mem_insert.mpr (Or.inr ⟨hkeep, hid⟩), rfl⟩
  obtain ⟨q, hq, hid⟩ := hfound
  have hlinked := linkedTo_eq_of_mem hnew hcorrected htip hq hid
  rw [run_setCorrectedBy_eq_ok_iff, ← hid]
  simp [get_of_mem hq, hlinked, withCorrection]

/-- A submitted tip is itself what the correction corrects, and is linked only once. -/
theorem withCorrection_self :
    t.withCorrection c tip tip = (t.insert c).insert (tip.linkedTo c.id) :=
  Register.insert_of_mem (Register.mem_insert.mpr (Or.inl rfl))

/-- A correction is started exactly where there is something to correct, under an
identifier that no period has, and is announced. -/
theorem run_correct_eq_ok_iff {fresh : ℕ → Id} {id : Id} :
    (correct fresh id).run t = (.ok ns, t') ↔
      ∃ tip corrected, t.tip id = .ok tip ∧ t.correctable tip = .ok corrected ∧
        t.find? (fresh 0) = none ∧
        t.withCorrection (corrected.correctionOf fresh) corrected tip = t' ∧
        ns = [(corrected.correctionOf fresh).stateChanged none] := by
  constructor
  · intro h
    obtain ⟨tip, htip, h⟩ := Step.run_look_bind_eq_ok_iff.mp h
    obtain ⟨corrected, hcorrectable, h⟩ := Step.run_look_bind_eq_ok_iff.mp h
    have hcorrected := mem_of_correctable (tip_mem htip) hcorrectable
    obtain ⟨_, _, hinsert, h⟩ := Step.run_bind_eq_ok_iff.mp h
    obtain ⟨hnew, rfl⟩ := run_insertNew_eq_ok_iff.mp hinsert
    obtain ⟨_, _, hlink, h⟩ := Step.run_bind_eq_ok_iff.mp h
    obtain rfl := (run_setCorrectedBy_corrected hnew hcorrected).mp hlink
    refine ⟨tip, corrected, htip, hcorrectable, hnew, ?_⟩
    split at h
    · obtain ⟨_, _, hlink, h⟩ := Step.run_bind_eq_ok_iff.mp h
      obtain rfl := (run_setCorrectedBy_tip hnew hcorrected (tip_mem htip)).mp hlink
      cases h
      exact ⟨rfl, rfl⟩
    · rename_i hstate
      cases h
      obtain ⟨_, rfl⟩ | ⟨hdraft, _⟩ := correctable_eq_ok hcorrectable
      · exact ⟨withCorrection_self, rfl⟩
      · simp [hdraft] at hstate
  · rintro ⟨tip, corrected, htip, hcorrectable, hnew, rfl, rfl⟩
    have hcorrected := mem_of_correctable (tip_mem htip) hcorrectable
    refine Step.run_look_bind_eq_ok_iff.mpr ⟨tip, htip, ?_⟩
    refine Step.run_look_bind_eq_ok_iff.mpr ⟨corrected, hcorrectable, ?_⟩
    have hinsert : (insertNew (corrected.correctionOf fresh)).run t = (.ok (), _) :=
      run_insertNew_eq_ok_iff.mpr ⟨hnew, rfl⟩
    refine Step.run_bind_eq_ok_iff.mpr ⟨(), _, hinsert, ?_⟩
    have hlink : (setCorrectedBy corrected.id (fresh 0)).run _ = (.ok (), _) :=
      (run_setCorrectedBy_corrected (c := corrected.correctionOf fresh) hnew hcorrected).mpr rfl
    refine Step.run_bind_eq_ok_iff.mpr ⟨(), _, hlink, ?_⟩
    split
    · have hlink : (setCorrectedBy tip.id (fresh 0)).run _ = (.ok (), _) :=
        (run_setCorrectedBy_tip (c := corrected.correctionOf fresh) hnew hcorrected
          (tip_mem htip)).mpr rfl
      exact Step.run_bind_eq_ok_iff.mpr ⟨(), _, hlink, rfl⟩
    · rename_i hstate
      obtain ⟨_, rfl⟩ | ⟨hdraft, _⟩ := correctable_eq_ok hcorrectable
      · rw [withCorrection_self]
        rfl
      · simp [hdraft] at hstate

theorem withCorrection_of_correct {fresh : ℕ → Id} {id : Id}
    (h : (correct fresh id).run t = (.ok ns, t')) :
    ∃ tip corrected, t.tip id = .ok tip ∧ t.correctable tip = .ok corrected ∧
      t.find? (fresh 0) = none ∧
      t.withCorrection (corrected.correctionOf fresh) corrected tip = t' := by
  obtain ⟨tip, corrected, htip, hcorrectable, hnew, ht, _⟩ := run_correct_eq_ok_iff.mp h
  exact ⟨tip, corrected, htip, hcorrectable, hnew, ht⟩

theorem moves_of_correct {fresh : ℕ → Id} {id : Id}
    (h : (correct fresh id).run t = (.ok ns, t')) : Moves t t' := by
  obtain ⟨tip, corrected, htip, hcorrectable, hnone, rfl⟩ := withCorrection_of_correct h
  exact .single (.correct htip hcorrectable hnone)

end Correction

end Operations

end PeriodTable

end Fortnight
