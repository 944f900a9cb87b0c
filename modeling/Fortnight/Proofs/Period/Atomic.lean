import Fortnight.Proofs.Period.Deadline
import Fortnight.Proofs.Period.Enabling
import Fortnight.Proofs.Timeline.Atomic

/-!
# Operations that fail leave nothing behind

An operation of the table changes periods in place, one write after another.
Most of them look first and write once. The others write more than once: an
approval enters the log and then locks the days, a correction is put in and then
linked, a deadline goes from chain to chain. What follows the first write cannot
fail there, because the parts of a period are in step with its state and the links
of a table lead to periods of it.
-/

namespace Fortnight

namespace ApprovalLog

theorem atomicAt_add (a : Approval) (log : ApprovalLog) : Step.AtomicAt (add a) log := by
  intro e
  simp only [Step.run, add]
  split
  · exact fun _ => rfl
  · simp

theorem atomicAt_revoke (r : Revocation) (log : ApprovalLog) : Step.AtomicAt (revoke r) log := by
  apply Step.atomicAt_look_bind
  intro _ _
  exact Step.atomicAt_of_run_eq_ok rfl

end ApprovalLog

namespace Period

variable {p : Period} {α : Type}

theorem atomicAt_ensureState_bind {expected : PeriodState} {operation : PeriodOperation}
    {g : Unit → Step Period α} (hg : p.state = expected → Step.AtomicAt (g ()) p) :
    Step.AtomicAt (ensureState expected operation >>= g) p := by
  apply Step.atomicAt_look_bind
  intro _ hensure
  apply hg
  simpa using hensure

theorem atomicAt_add (a : Activity) (p : Period) : Step.AtomicAt (add a) p :=
  atomicAt_ensureState_bind fun _ =>
    Step.AtomicAt.within rfl (Timeline.atomicAt_add a p.timeline)

theorem atomicAt_delete (activity : Id) (p : Period) : Step.AtomicAt (delete activity) p :=
  atomicAt_ensureState_bind fun _ =>
    Step.AtomicAt.within rfl (Timeline.atomicAt_delete activity p.timeline)

theorem atomicAt_submitManually (caseId : Option String) (p : Period) :
    Step.AtomicAt (submitManually caseId) p :=
  atomicAt_ensureState_bind fun _ => Step.atomicAt_of_run_eq_ok rfl

/-- The days of a period that is filled in can be locked once the approval was entered. -/
theorem InStep.atomicAt_approve (h : p.InStep) (approval : Approval) (reference : Date)
    (corrected : Option Timeline) :
    Step.AtomicAt (approve approval reference corrected) p := by
  apply atomicAt_ensureState_bind
  intro hstate
  apply Step.atomicAt_look_bind
  intro _ _
  apply Step.AtomicAt.bind (Step.AtomicAt.within rfl (ApprovalLog.atomicAt_add approval _))
  intro _ p' hadd
  obtain ⟨approvals, _, rfl⟩ := Step.run_within_eq_ok_iff.mp hadd
  have hlock := Timeline.run_lock_eq_ok_iff.mpr
    ⟨fun d hd => (h.fillable hstate d hd).unlocked, rfl⟩
  exact Or.inl ⟨_, _, Step.run_within_bind_eq_ok_iff.mpr ⟨(), _, hlock, rfl⟩⟩

/-- The days of an approved period can be unlocked once the approval was taken back. -/
theorem InStep.atomicAt_unapprove (h : p.InStep) (revocation : Revocation) :
    Step.AtomicAt (unapprove revocation) p := by
  apply atomicAt_ensureState_bind
  intro hstate
  apply Step.AtomicAt.bind (Step.AtomicAt.within rfl (ApprovalLog.atomicAt_revoke revocation _))
  intro _ p' hrevoke
  obtain ⟨approvals, _, rfl⟩ := Step.run_within_eq_ok_iff.mp hrevoke
  have hunlock := Timeline.run_unlock_eq_ok_iff.mpr
    ⟨fun d hd => (h.closed (by simp [hstate]) d hd).locked, rfl⟩
  exact Or.inl ⟨_, _, Step.run_within_bind_eq_ok_iff.mpr ⟨(), _, hunlock, rfl⟩⟩

end Period

namespace PeriodTable

variable {t : PeriodTable} {α : Type}

theorem atomicAt_onPeriod {id : Id} {f : Step Period α}
    (hf : ∀ p, t.get id = .ok p → Step.AtomicAt f p) : Step.AtomicAt (onPeriod id f) t := by
  intro e
  simp only [Step.run, onPeriod]
  cases hp : t.get id with
  | error e' => exact fun _ => rfl
  | ok p =>
    intro he
    have hsame : (f p).2 = p := hf p hp e he
    change Register.insert t (f p).2 = t
    rw [hsame, Register.insert_of_mem (get_eq_ok_iff.mp hp).1]

theorem atomicAt_onPeriod_of_mem {p : Period} {f : Step Period α} (hp : p ∈ t)
    (hf : Step.AtomicAt f p) : Step.AtomicAt (onPeriod p.id f) t := by
  apply atomicAt_onPeriod
  intro q hq
  rw [get_of_mem hp] at hq
  cases hq
  exact hf

theorem atomicAt_onTip {id : Id} {f : Step Period α} (hf : ∀ p ∈ t, Step.AtomicAt f p) :
    Step.AtomicAt (onTip id f) t := by
  apply Step.atomicAt_look_bind
  intro tip htip
  exact atomicAt_onPeriod_of_mem (tip_mem htip) (hf tip (tip_mem htip))

theorem atomicAt_add (id : Id) (a : Activity) (t : PeriodTable) : Step.AtomicAt (add id a) t :=
  atomicAt_onTip fun p _ => p.atomicAt_add a

theorem atomicAt_delete (id activity : Id) (t : PeriodTable) :
    Step.AtomicAt (delete id activity) t :=
  atomicAt_onTip fun p _ => p.atomicAt_delete activity

theorem atomicAt_insertNew (p : Period) (t : PeriodTable) : Step.AtomicAt (insertNew p) t := by
  intro e
  simp only [Step.run, insertNew]
  cases t.extend p with
  | ok t' => simp
  | error e' => exact fun _ => rfl

theorem atomicAt_openPeriod (id : Id) (start since : Date) (rule : FinalizeRule)
    (t : PeriodTable) : Step.AtomicAt (openPeriod id start since rule) t := by
  apply Step.atomicAt_look_bind (f := fun _ => Period.starting id start rule)
  intro p _
  apply (atomicAt_insertNew _ t).bind
  intro _ t' _
  exact Or.inl ⟨_, t', rfl⟩

theorem atomicAt_openFirst (id : Id) (date : Date) (rule : FinalizeRule) (t : PeriodTable) :
    Step.AtomicAt (openFirst id date rule) t := by
  apply Step.atomicAt_look_bind (f := fun _ => date.mondayOnOrBefore)
  intro start _
  apply Step.atomicAt_look_bind (f := Except.ok)
  intro t' _
  split
  · exact Step.atomicAt_of_run_eq_ok rfl
  · exact atomicAt_openPeriod id start date rule t

theorem atomicAt_openNext (id : Id) (since date : Date) (rule : FinalizeRule)
    (t : PeriodTable) : Step.AtomicAt (openNext id since date rule) t := by
  apply Step.atomicAt_look_bind
  intro start _
  split
  · exact Step.atomicAt_of_run_eq_ok rfl
  · exact atomicAt_openPeriod id start since rule t

/-- Once a correction was put in, what it is linked to is there. -/
theorem atomicAt_correct (fresh : ℕ → Id) (id : Id) (t : PeriodTable) :
    Step.AtomicAt (correct fresh id) t := by
  apply Step.atomicAt_look_bind
  intro tip htip
  apply Step.atomicAt_look_bind
  intro corrected hcorrectable
  apply (atomicAt_insertNew _ t).bind
  intro _ t' hinsert
  obtain ⟨hnew, _⟩ := run_insertNew_eq_ok_iff.mp hinsert
  have hrun := run_correct_eq_ok_iff.mpr
    ⟨tip, corrected, htip, hcorrectable, hnew, rfl, rfl⟩
  obtain ⟨_, htip', hrun⟩ := Step.run_look_bind_eq_ok_iff.mp hrun
  obtain rfl := Except.ok.inj (htip.symm.trans htip')
  obtain ⟨_, hcorrectable', hrun⟩ := Step.run_look_bind_eq_ok_iff.mp hrun
  obtain rfl := Except.ok.inj (hcorrectable.symm.trans hcorrectable')
  obtain ⟨_, _, hinsert', hlinks⟩ := Step.run_bind_eq_ok_iff.mp hrun
  cases hinsert.symm.trans hinsert'
  exact Or.inl ⟨_, _, hlinks⟩

theorem atomicAt_approve (h : ∀ p ∈ t, p.InStep) (id : Id) (approval : Approval)
    (reference : Date) : Step.AtomicAt (approve id approval reference) t := by
  apply Step.atomicAt_look_bind
  intro tip htip
  apply Step.atomicAt_look_bind
  intro corrected _
  have hinStep := h tip (tip_mem htip)
  exact atomicAt_onPeriod_of_mem (tip_mem htip) (hinStep.atomicAt_approve _ _ _)

/-- What can be asked of the table. -/
inductive Operation where
  | add (id : Id) (a : Activity)
  | delete (id activity : Id)
  | approve (id : Id) (approval : Approval) (reference : Date)
  | unapprove (id : Id) (revocation : Revocation)
  | submitManually (id : Id) (caseId : Option String)
  | correct (fresh : ℕ → Id) (id : Id)
  | openFirst (id : Id) (obligationStart : Date) (rule : FinalizeRule)
  | openNext (id : Id) (obligatedSince date : Date) (rule : FinalizeRule)
  | submitDue (date : Date) (caseId : Option String)

/-- The operation itself. What is done to activities is not announced. -/
def Operation.step : Operation → Step PeriodTable (List Notification)
  | add id a => (fun _ => []) <$> PeriodTable.add id a
  | delete id activity => (fun _ => []) <$> PeriodTable.delete id activity
  | approve id approval reference => PeriodTable.approve id approval reference
  | unapprove id revocation => PeriodTable.unapprove id revocation
  | submitManually id caseId => PeriodTable.submitManually id caseId
  | correct fresh id => PeriodTable.correct fresh id
  | openFirst id obligationStart rule => PeriodTable.openFirst id obligationStart rule
  | openNext id obligatedSince date rule => PeriodTable.openNext id obligatedSince date rule
  | submitDue date caseId => PeriodTable.submitDue date caseId

theorem Linked.atomicAt_operation (h : Linked t) (hregular : t.Regular)
    (hinStep : ∀ p ∈ t, p.InStep) (operation : Operation) :
    Step.AtomicAt operation.step t := by
  cases operation with
  | add id a => exact (atomicAt_add id a t).map _
  | delete id activity => exact (atomicAt_delete id activity t).map _
  | approve id approval reference => exact atomicAt_approve hinStep id approval reference
  | unapprove id revocation =>
    exact atomicAt_onTip fun p hp => (hinStep p hp).atomicAt_unapprove revocation
  | submitManually id caseId => exact atomicAt_onTip fun p _ => p.atomicAt_submitManually caseId
  | correct fresh id => exact atomicAt_correct fresh id t
  | openFirst id obligationStart rule => exact atomicAt_openFirst id obligationStart rule t
  | openNext id obligatedSince date rule => exact atomicAt_openNext id obligatedSince date rule t
  | submitDue date caseId =>
    obtain ⟨ns, hrun⟩ := h.exists_run_submitDue hregular date caseId
    exact Step.atomicAt_of_run_eq_ok hrun

end PeriodTable

end Fortnight
