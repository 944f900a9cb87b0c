import Fortnight.Proofs.Period.Lifecycle
import Fortnight.Proofs.Timeline.Reporting

/-!
# When nothing stands in the way

The parts of a period each check what is asked of them: the log whether there is
an approval, the days whether all activities are in one state. Where the parts
are in step with the state of the period, none of these checks can fail once the
state is right. What is left is what each operation asks for by itself.
-/

namespace Fortnight

namespace ApprovalLog

variable {log : ApprovalLog}

/-- A case worker may take the last approval back, and so may who gave it. -/
def RevocableBy (actor : Actor) (log : ApprovalLog) : Prop :=
  (∃ id, actor = .caseWorker id) ∨
    ∃ last, log.entries.getLast? = some last ∧ actor = last.actor

theorem exists_run_add_iff (a : Approval) :
    (∃ log', (add a).run log = (.ok (), log')) ↔ ¬ log.isApproved := by
  simp only [Step.run, add]
  split <;> simp_all

theorem ensureRevocableBy_eq_ok_iff {actor : Actor} (h : log.isApproved) :
    log.ensureRevocableBy actor = .ok () ↔ log.RevocableBy actor := by
  obtain ⟨live, hlive⟩ := Option.isSome_iff_exists.mp h
  have hlast : log.entries.getLast? = some live := (Option.filter_eq_some_iff.mp hlive).1
  unfold ensureRevocableBy RevocableBy
  rw [hlive, hlast]
  cases actor <;> simp

theorem exists_run_revoke_iff (r : Revocation) (h : log.isApproved) :
    (∃ log', (revoke r).run log = (.ok (), log')) ↔ log.RevocableBy r.actor := by
  rw [← ensureRevocableBy_eq_ok_iff h, revoke]
  simp only [Step.run_look_bind_eq_ok_iff, Step.run_modify]
  constructor
  · rintro ⟨_, _, hensure, _⟩
    exact hensure
  · intro hensure
    exact ⟨_, (), hensure, rfl⟩

end ApprovalLog

theorem Day.Fillable.conflict?_eq_none_iff {d : Day} (h : d.Fillable) {a : Activity}
    (hdate : a.date = d.date) :
    d.conflict? a = none ↔ a.hours.WithinDay ∧ ¬ d.exempt ∧ d.liveActivities = [] := by
  rw [Day.conflict?_eq_none_iff, mem_allowedTypes_iff, and_iff_right hdate, ne_eq, h.policy_iff]
  constructor
  · rintro ⟨hhours, _, hexempt, hlive⟩
    exact ⟨hhours, hexempt, hlive⟩
  · rintro ⟨hhours, hexempt, hlive⟩
    exact ⟨hhours, fun hholiday => hexempt (h.exempt_of_holiday hholiday), hexempt, hlive⟩

namespace Period

variable {p : Period}

theorem exists_run_add_iff (h : p.InStep) (a : Activity) :
    (∃ p', (add a).run p = (.ok (), p')) ↔
      p.state = .toBeFilled ∧ a.hours.WithinDay ∧
        ∃ d, p.timeline.day? a.date = some d ∧ ¬ d.exempt ∧ d.liveActivities = [] := by
  have hday : ∀ d, p.state = .toBeFilled → p.timeline.day? a.date = some d →
      (d.conflict? a = none ↔ a.hours.WithinDay ∧ ¬ d.exempt ∧ d.liveActivities = []) := by
    intro d hstate hd
    have hdate : a.date = d.date := by
      simpa [eq_comm] using List.find?_some hd
    exact (h.fillable hstate d (List.mem_of_find?_eq_some hd)).conflict?_eq_none_iff hdate
  constructor
  · rintro ⟨p', hadd⟩
    obtain ⟨hstate, timeline, htimeline, _⟩ := run_add_eq_ok_iff.mp hadd
    obtain ⟨d, hd, hnone⟩ := Timeline.exists_run_add_iff.mp ⟨timeline, htimeline⟩
    obtain ⟨hhours, hexempt, hlive⟩ := (hday d hstate hd).mp hnone
    exact ⟨hstate, hhours, d, hd, hexempt, hlive⟩
  · rintro ⟨hstate, hhours, d, hd, hexempt, hlive⟩
    have hnone := (hday d hstate hd).mpr ⟨hhours, hexempt, hlive⟩
    obtain ⟨timeline, htimeline⟩ := Timeline.exists_run_add_iff.mpr ⟨d, hd, hnone⟩
    exact ⟨_, run_add_eq_ok_iff.mpr ⟨hstate, timeline, htimeline, rfl⟩⟩

theorem exists_run_delete_iff (hnodup : p.timeline.ids.Nodup) (activity : Id) :
    (∃ p', (delete activity).run p = (.ok (), p')) ↔
      p.state = .toBeFilled ∧
        ∃ a ∈ p.timeline.activities, a.id = activity ∧ a.state = .unlocked := by
  rw [← Timeline.exists_run_delete_iff hnodup]
  constructor
  · rintro ⟨p', hdelete⟩
    obtain ⟨hstate, timeline, htimeline, _⟩ := run_delete_eq_ok_iff.mp hdelete
    exact ⟨hstate, timeline, htimeline⟩
  · rintro ⟨hstate, timeline, htimeline⟩
    exact ⟨_, run_delete_eq_ok_iff.mpr ⟨hstate, timeline, htimeline, rfl⟩⟩

theorem exists_run_approve_iff (h : p.InStep) (approval : Approval) (reference : Date)
    (corrected : Option Timeline) :
    (∃ ns p', (approve approval reference corrected).run p = (.ok ns, p')) ↔
      p.state = .toBeFilled ∧ p.ensureApprovable reference corrected = .ok () := by
  constructor
  · rintro ⟨ns, p', happrove⟩
    obtain ⟨hstate, hgate, _⟩ := run_approve_eq_ok_iff.mp happrove
    exact ⟨hstate, hgate⟩
  · rintro ⟨hstate, hgate⟩
    have hlog : ¬ p.approvals.isApproved := by
      rw [h.isApproved_iff]
      exact fun hne => hne hstate
    obtain ⟨approvals, happrovals⟩ := (ApprovalLog.exists_run_add_iff approval).mpr hlog
    have hlock := Timeline.run_lock_eq_ok_iff.mpr
      ⟨fun d hd => (h.fillable hstate d hd).unlocked, rfl⟩
    exact ⟨_, _, run_approve_eq_ok_iff.mpr
      ⟨hstate, hgate, approvals, _, happrovals, hlock, rfl, rfl⟩⟩

theorem exists_run_unapprove_iff (h : p.InStep) (revocation : Revocation) :
    (∃ ns p', (unapprove revocation).run p = (.ok ns, p')) ↔
      p.state = .approved ∧ p.approvals.RevocableBy revocation.actor := by
  constructor
  · rintro ⟨ns, p', hunapprove⟩
    obtain ⟨hstate, approvals, _, happrovals, _⟩ := run_unapprove_eq_ok_iff.mp hunapprove
    have hlog : p.approvals.isApproved := h.isApproved_iff.mpr (by simp [hstate])
    exact ⟨hstate, (ApprovalLog.exists_run_revoke_iff revocation hlog).mp ⟨approvals, happrovals⟩⟩
  · rintro ⟨hstate, hrevocable⟩
    have hopen : p.state ≠ .toBeFilled := by
      simp [hstate]
    have hlog : p.approvals.isApproved := h.isApproved_iff.mpr hopen
    obtain ⟨approvals, happrovals⟩ :=
      (ApprovalLog.exists_run_revoke_iff revocation hlog).mpr hrevocable
    have hunlock := Timeline.run_unlock_eq_ok_iff.mpr
      ⟨fun d hd => (h.closed hopen d hd).locked, rfl⟩
    exact ⟨_, _, run_unapprove_eq_ok_iff.mpr
      ⟨hstate, approvals, _, happrovals, hunlock, rfl, rfl⟩⟩

theorem exists_run_submitManually_iff (caseId : Option String) :
    (∃ ns p', (submitManually caseId).run p = (.ok ns, p')) ↔ p.state = .approved := by
  constructor
  · rintro ⟨ns, p', hsubmit⟩
    exact (run_submitManually_eq_ok_iff.mp hsubmit).1
  · intro hstate
    exact ⟨_, _, run_submitManually_eq_ok_iff.mpr ⟨hstate, rfl, rfl⟩⟩

end Period

namespace PeriodTable

variable {t : PeriodTable} {tip : Period} {id : Id} {fresh : ℕ → Id}

/-- What a period corrects is always there to be compared with it. -/
theorem Linked.exists_approvable_iff (h : Linked t) (htip : tip ∈ t) (reference : Date) :
    (∃ corrected, t.corrected tip = .ok corrected ∧
        tip.ensureApprovable reference corrected = .ok ()) ↔
      tip.approvableFrom ≤ reference ∧ ∀ o, tip.corrects = some o →
        ∃ q, t.find? o = some q ∧ ¬ tip.timeline.sameContent q.timeline := by
  simp only [Period.ensureApprovable_eq_ok_iff]
  cases hlink : tip.corrects with
  | none => simp [corrected_of_root hlink]
  | some o =>
    obtain ⟨q, hq, rfl, _⟩ := h.back tip htip o hlink
    simp [corrected_of_corrects hq hlink, Register.find?_of_mem hq]

/-- What a draft corrects is always there to be corrected again. -/
theorem Linked.exists_correctable_iff (h : Linked t) (htip : tip ∈ t) :
    (∃ corrected, t.correctable tip = .ok corrected) ↔
      tip.state = .submitted ∨ tip.state = .toBeFilled ∧ tip.corrects ≠ none := by
  constructor
  · rintro ⟨corrected, hcorrectable⟩
    obtain ⟨hstate, _⟩ | ⟨hstate, hlink, _⟩ := correctable_eq_ok hcorrectable
    · exact Or.inl hstate
    · exact Or.inr ⟨hstate, by simp [hlink]⟩
  · rintro (hstate | ⟨hstate, hlink⟩)
    · exact ⟨tip, by simp [correctable, hstate]⟩
    · obtain ⟨o, ho⟩ := Option.ne_none_iff_exists'.mp hlink
      obtain ⟨q, hq, rfl, _⟩ := h.back tip htip o ho
      exact ⟨q, by simp [correctable, hstate, ho, get_of_mem hq]⟩

theorem Linked.exists_run_correct_iff (h : Linked t) (hnew : t.find? (fresh 0) = none)
    (htip : t.tip id = .ok tip) :
    (∃ ns t', (correct fresh id).run t = (.ok ns, t')) ↔
      tip.state = .submitted ∨ tip.state = .toBeFilled ∧ tip.corrects ≠ none := by
  rw [← h.exists_correctable_iff (tip_mem htip)]
  constructor
  · rintro ⟨ns, t', hcorrect⟩
    obtain ⟨tip', corrected, htip', hcorrectable, _⟩ := run_correct_eq_ok_iff.mp hcorrect
    obtain rfl : tip = tip' := Except.ok.inj (htip.symm.trans htip')
    exact ⟨corrected, hcorrectable⟩
  · rintro ⟨corrected, hcorrectable⟩
    exact ⟨_, _, run_correct_eq_ok_iff.mpr
      ⟨tip, corrected, htip, hcorrectable, hnew, rfl, rfl⟩⟩

end PeriodTable

end Fortnight
