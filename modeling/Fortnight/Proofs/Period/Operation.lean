import Fortnight.Proofs.Period.Walk

/-!
# When operations on a period succeed

An operation on a period succeeds exactly when the period has the state that it
needs and none of its parts objects. What the period is like afterwards, and
what is notified of it, is then fixed. An operation of the table that is
addressed to a period does the same to the tip of its chain and puts the outcome
in its place.
-/

namespace Fortnight

namespace Period

variable {p p' : Period} {α : Type} {a : α} {ns : List Notification}

theorem run_ensureState_bind_eq_ok_iff {expected : PeriodState} {operation : PeriodOperation}
    {g : Unit → Step Period α} :
    (ensureState expected operation >>= g).run p = (.ok a, p') ↔
      p.state = expected ∧ (g ()).run p = (.ok a, p') := by
  rw [ensureState, Step.run_look_bind_eq_ok_iff]
  split
  · rename_i hstate
    constructor
    · rintro ⟨_, _, h⟩
      exact ⟨hstate, h⟩
    · rintro ⟨_, h⟩
      exact ⟨(), rfl, h⟩
  · rename_i hstate
    simp [hstate]

theorem run_add_eq_ok_iff {activity : Activity} {u : Unit} :
    (add activity).run p = (.ok u, p') ↔
      p.state = .toBeFilled ∧ ∃ timeline,
        (Timeline.add activity).run p.timeline = (.ok (), timeline) ∧ { p with timeline } = p' := by
  rw [add, run_ensureState_bind_eq_ok_iff, onTimeline, Step.run_within_eq_ok_iff]

theorem run_delete_eq_ok_iff {activity : Id} {u : Unit} :
    (delete activity).run p = (.ok u, p') ↔
      p.state = .toBeFilled ∧ ∃ timeline,
        (Timeline.delete activity).run p.timeline = (.ok (), timeline) ∧
          { p with timeline } = p' := by
  rw [delete, run_ensureState_bind_eq_ok_iff, onTimeline, Step.run_within_eq_ok_iff]

theorem ensureApprovable_eq_ok_iff {reference : Date} {corrected : Option Timeline} :
    p.ensureApprovable reference corrected = .ok () ↔
      p.approvableFrom ≤ reference ∧ ∀ t, corrected = some t → ¬ p.timeline.sameContent t := by
  unfold ensureApprovable
  split
  · rename_i hearly
    rw [Date.lt_iff] at hearly
    simp only [reduceCtorEq, false_iff, not_and, Date.le_iff]
    intro hle
    omega
  · rename_i hearly
    have hle : p.approvableFrom ≤ reference := by
      rw [Date.lt_iff] at hearly
      rw [Date.le_iff]
      omega
    cases corrected with
    | none => simp [hle]
    | some t => simp [hle]

theorem run_approve_eq_ok_iff {approval : Approval} {reference : Date}
    {corrected : Option Timeline} :
    (approve approval reference corrected).run p = (.ok ns, p') ↔
      p.state = .toBeFilled ∧ p.ensureApprovable reference corrected = .ok () ∧
        ∃ approvals timeline,
          (ApprovalLog.add approval).run p.approvals = (.ok (), approvals) ∧
            Timeline.lock.run p.timeline = (.ok (), timeline) ∧
              { p with approvals, timeline, state := .approved } = p' ∧
                ns = [p'.stateChanged (some .toBeFilled)] := by
  rw [approve, run_ensureState_bind_eq_ok_iff, Step.run_look_bind_eq_ok_iff]
  constructor
  · rintro ⟨hstate, _, hgate, h⟩
    obtain ⟨_, approvals, happrovals, h⟩ := Step.run_within_bind_eq_ok_iff.mp h
    obtain ⟨_, timeline, htimeline, h⟩ := Step.run_within_bind_eq_ok_iff.mp h
    cases h
    exact ⟨hstate, hgate, approvals, timeline, happrovals, htimeline, rfl, rfl⟩
  · rintro ⟨hstate, hgate, approvals, timeline, happrovals, htimeline, rfl, rfl⟩
    refine ⟨hstate, (), hgate, ?_⟩
    apply Step.run_within_bind_eq_ok_iff.mpr ⟨(), approvals, happrovals, ?_⟩
    exact Step.run_within_bind_eq_ok_iff.mpr ⟨(), timeline, htimeline, rfl⟩

theorem run_unapprove_eq_ok_iff {revocation : Revocation} :
    (unapprove revocation).run p = (.ok ns, p') ↔
      p.state = .approved ∧ ∃ approvals timeline,
        (ApprovalLog.revoke revocation).run p.approvals = (.ok (), approvals) ∧
          Timeline.unlock.run p.timeline = (.ok (), timeline) ∧
            { p with approvals, timeline, state := .toBeFilled } = p' ∧
              ns = [p'.stateChanged (some .approved)] := by
  rw [unapprove, run_ensureState_bind_eq_ok_iff]
  constructor
  · rintro ⟨hstate, h⟩
    obtain ⟨_, approvals, happrovals, h⟩ := Step.run_within_bind_eq_ok_iff.mp h
    obtain ⟨_, timeline, htimeline, h⟩ := Step.run_within_bind_eq_ok_iff.mp h
    cases h
    exact ⟨hstate, approvals, timeline, happrovals, htimeline, rfl, rfl⟩
  · rintro ⟨hstate, approvals, timeline, happrovals, htimeline, rfl, rfl⟩
    refine ⟨hstate, ?_⟩
    apply Step.run_within_bind_eq_ok_iff.mpr ⟨(), approvals, happrovals, ?_⟩
    exact Step.run_within_bind_eq_ok_iff.mpr ⟨(), timeline, htimeline, rfl⟩

theorem run_submit_eq_ok_iff {caseId : Option String} :
    (submit caseId).run p = (.ok ns, p') ↔
      { p with caseId, state := .submitted } = p' ∧
        ns = [p'.stateChanged (some .approved), p'.submission] := by
  constructor
  · intro h
    cases h
    exact ⟨rfl, rfl⟩
  · rintro ⟨rfl, rfl⟩
    rfl

theorem run_submitManually_eq_ok_iff {caseId : Option String} :
    (submitManually caseId).run p = (.ok ns, p') ↔
      p.state = .approved ∧ { p with caseId, state := .submitted } = p' ∧
        ns = [p'.stateChanged (some .approved), p'.submission] := by
  rw [submitManually, run_ensureState_bind_eq_ok_iff, run_submit_eq_ok_iff]

/-- A period that is not due yet stays as it is. -/
theorem run_submitByDeadline_eq_ok_iff {date : Date} {caseId : Option String} :
    (submitByDeadline date caseId).run p = (.ok ns, p') ↔
      p.state = .approved ∧ (date < p.finalizeAfter ∧ p = p' ∧ ns = [] ∨
        ¬ date < p.finalizeAfter ∧ { p with caseId, state := .submitted } = p' ∧
          ns = [p'.stateChanged (some .approved), p'.submission]) := by
  rw [submitByDeadline, run_ensureState_bind_eq_ok_iff]
  refine and_congr_right fun _ => ?_
  change (if date < p.finalizeAfter then pure [] else submit caseId : Step Period _).run p = _ ↔ _
  split
  · rename_i hdate
    simp [hdate, eq_comm, and_comm]
  · rename_i hdate
    simp [hdate, run_submit_eq_ok_iff]

end Period

namespace PeriodTable

variable {t t' : PeriodTable} {α : Type} {a : α} {ns : List Notification}

theorem run_onPeriod_eq_ok_iff {id : Id} {f : Step Period α} :
    (onPeriod id f).run t = (.ok a, t') ↔
      ∃ p p', t.get id = .ok p ∧ f.run p = (.ok a, p') ∧ t.insert p' = t' := by
  simp only [Step.run, onPeriod]
  cases t.get id with
  | error => simp
  | ok p =>
    rcases hf : f p with ⟨r, p'⟩
    simp [hf, and_assoc]

theorem run_onPeriod_of_mem {p : Period} {f : Step Period α} (hp : p ∈ t) :
    (onPeriod p.id f).run t = (.ok a, t') ↔ ∃ p', f.run p = (.ok a, p') ∧ t.insert p' = t' := by
  simp [run_onPeriod_eq_ok_iff, get_of_mem hp]

/-- What is addressed to a period is done to its tip. -/
theorem run_onTip_eq_ok_iff {id : Id} {f : Step Period α} :
    (onTip id f).run t = (.ok a, t') ↔
      ∃ p p', t.tip id = .ok p ∧ f.run p = (.ok a, p') ∧ t.insert p' = t' := by
  rw [onTip, Step.run_look_bind_eq_ok_iff]
  refine exists_congr fun p => ?_
  constructor
  · rintro ⟨hp, h⟩
    obtain ⟨p', hf, hinsert⟩ := (run_onPeriod_of_mem (tip_mem hp)).mp h
    exact ⟨p', hp, hf, hinsert⟩
  · rintro ⟨p', hp, hf, hinsert⟩
    exact ⟨hp, (run_onPeriod_of_mem (tip_mem hp)).mpr ⟨p', hf, hinsert⟩⟩

theorem corrected_of_corrects {p q : Period} (hq : q ∈ t) (h : p.corrects = some q.id) :
    t.corrected p = .ok (some q.timeline) := by
  rw [corrected, h]
  dsimp only
  rw [get_of_mem hq]
  rfl

theorem corrected_of_root {p : Period} (h : p.corrects = none) : t.corrected p = .ok none := by
  rw [corrected, h]

theorem run_approve_eq_ok_iff {id : Id} {approval : Approval} {reference : Date} :
    (approve id approval reference).run t = (.ok ns, t') ↔
      ∃ p p' corrected, t.tip id = .ok p ∧ t.corrected p = .ok corrected ∧
        (Period.approve approval reference corrected).run p = (.ok ns, p') ∧ t.insert p' = t' := by
  rw [approve, Step.run_look_bind_eq_ok_iff]
  refine exists_congr fun p => ?_
  simp only [Step.run_look_bind_eq_ok_iff]
  constructor
  · rintro ⟨hp, corrected, hc, h⟩
    obtain ⟨p', hf, hinsert⟩ := (run_onPeriod_of_mem (tip_mem hp)).mp h
    exact ⟨p', corrected, hp, hc, hf, hinsert⟩
  · rintro ⟨p', corrected, hp, hc, hf, hinsert⟩
    exact ⟨hp, corrected, hc, (run_onPeriod_of_mem (tip_mem hp)).mpr ⟨p', hf, hinsert⟩⟩

/-- A tip is submitted by deadline if it is approved and due, and else nothing is done. -/
theorem submitTip_cases {date : Date} {caseId : Option String} {root : Id}
    (h : (submitTip date caseId root).run t = (.ok ns, t')) :
    t = t' ∧ ns = [] ∨ ∃ p p', t.tip root = .ok p ∧
      (Period.submitManually caseId).run p = (.ok ns, p') ∧ t.insert p' = t' := by
  obtain ⟨p, hp, h⟩ := Step.run_look_bind_eq_ok_iff.mp h
  split at h
  · obtain ⟨p', hf, hinsert⟩ := (run_onPeriod_of_mem (tip_mem hp)).mp h
    obtain ⟨hstate, ⟨_, rfl, rfl⟩ | ⟨_, hp', hns⟩⟩ := Period.run_submitByDeadline_eq_ok_iff.mp hf
    · rw [Register.insert_of_mem (tip_mem hp)] at hinsert
      exact Or.inl ⟨hinsert, rfl⟩
    · refine Or.inr ⟨p, p', hp, ?_, hinsert⟩
      exact Period.run_submitManually_eq_ok_iff.mpr ⟨hstate, hp', hns⟩
  · cases h
    exact Or.inl ⟨rfl, rfl⟩

/-- Tips that are submitted one after another, with what is notified of them. -/
inductive Submissions (caseId : Option String) :
    PeriodTable → List Notification → PeriodTable → Prop
  | nil (t : PeriodTable) : Submissions caseId t [] t
  | cons {t t' : PeriodTable} {root : Id} {p p' : Period} {ns others : List Notification} :
      t.tip root = .ok p → (Period.submitManually caseId).run p = (.ok ns, p') →
      Submissions caseId (t.insert p') others t' → Submissions caseId t (ns ++ others) t'

theorem submissions_of_submitTips {date : Date} {caseId : Option String} {roots : List Id}
    (h : (submitTips date caseId roots).run t = (.ok ns, t')) : Submissions caseId t ns t' := by
  induction roots generalizing t ns with
  | nil =>
    cases h
    exact .nil _
  | cons root rest ih =>
    obtain ⟨first, u, hfirst, h⟩ := Step.run_bind_eq_ok_iff.mp h
    obtain ⟨others, u', hrest, h⟩ := Step.run_bind_eq_ok_iff.mp h
    cases h
    obtain ⟨rfl, rfl⟩ | ⟨p, p', htip, hsubmit, rfl⟩ := submitTip_cases hfirst
    · exact ih hrest
    · exact .cons htip hsubmit (ih hrest)

theorem submissions_of_submitDue {date : Date} {caseId : Option String}
    (h : (submitDue date caseId).run t = (.ok ns, t')) : Submissions caseId t ns t' := by
  obtain ⟨_, _, hget, h⟩ := Step.run_bind_eq_ok_iff.mp h
  cases hget
  exact submissions_of_submitTips h

end PeriodTable

end Fortnight
