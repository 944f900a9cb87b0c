import Fortnight.Proofs.Period.Linked
import Fortnight.Proofs.Period.WellFormed
import Fortnight.Proofs.Timeline.Filling

/-!
# The parts of a period move in step

The state of a period, its log of approvals and its days are changed by
different steps, and each of the events that move a period on changes all three.
So the state alone tells whether the period is approved, and whether its days
are still filled in or closed. An approved period has no correction: to start
one takes a tip that is submitted or a draft.
-/

namespace Fortnight

namespace ApprovalLog

variable {log log' : ApprovalLog} {u : Unit}

theorem not_isApproved_empty : ¬ empty.isApproved := by
  decide

theorem isApproved_of_add {a : Approval} (h : (add a).run log = (.ok u, log'))
    (hlive : a.isLive) : log'.isApproved := by
  simp only [Step.run, add] at h
  split at h
  · cases h
  · cases h
    simp [isApproved, live?, hlive]

theorem not_isApproved_of_revoke {r : Revocation} (h : (revoke r).run log = (.ok u, log')) :
    ¬ log'.isApproved := by
  obtain ⟨_, _, hlook, hmodify⟩ := Step.run_bind_eq_ok_iff.mp h
  obtain ⟨_, rfl⟩ := Prod.mk.inj hlook
  cases hmodify
  simp only [isApproved, live?, getLast?_modifyLast]
  cases log.entries.getLast? <;> simp [Approval.isLive]

end ApprovalLog

namespace Period

/-- The state of the period tells what its approvals and its days are like. -/
structure InStep (p : Period) : Prop extends p.WellFormed where
  isApproved_iff : p.approvals.isApproved ↔ p.state ≠ .toBeFilled
  submitted_of_caseId : p.caseId ≠ none → p.state = .submitted
  correctedBy_of_approved : p.state = .approved → p.correctedBy = none
  fillable : p.state = .toBeFilled → ∀ d ∈ p.timeline.days, d.Fillable
  closed : p.state ≠ .toBeFilled → ∀ d ∈ p.timeline.days, d.Closed

namespace InStep

variable {p p' : Period}

theorem sound (h : p.InStep) {d : Day} (hd : d ∈ p.timeline.days) : d.Sound := by
  by_cases hstate : p.state = .toBeFilled
  · exact (h.fillable hstate d hd).toSound
  · exact (h.closed hstate d hd).toSound

theorem of_toBeFilled (hwf : p.WellFormed) (hstate : p.state = .toBeFilled)
    (happroved : ¬ p.approvals.isApproved) (hcase : p.caseId = none)
    (hdays : ∀ d ∈ p.timeline.days, d.Fillable) : p.InStep where
  toWellFormed := hwf
  isApproved_iff := by simp [happroved, hstate]
  submitted_of_caseId hne := absurd hcase hne
  correctedBy_of_approved happroved := by
    rw [hstate] at happroved
    cases happroved
  fillable _ := hdays
  closed hne := absurd hstate hne

theorem caseId_eq_none (h : p.InStep) (hstate : p.state ≠ .submitted) : p.caseId = none := by
  by_contra hne
  exact hstate (h.submitted_of_caseId hne)

/-- What is edited is a tip: when it is approved, it has no correction. -/
theorem edit {t : PeriodTable} (h : p.InStep) (htip : p.correctedBy = none)
    (hedit : t.Edit p p') : p'.InStep := by
  have hwf := h.toWellFormed.edit hedit
  have hcase := h.caseId_eq_none hedit.state_ne
  have happroved := h.isApproved_iff
  cases hedit with
  | add hstate hunlocked htimeline =>
    have hdays := (Timeline.keeps_fillable_add hunlocked).of_run htimeline (h.fillable hstate)
    exact of_toBeFilled hwf hstate (by simp [happroved, hstate]) hcase hdays
  | delete hstate htimeline =>
    have hdays := (Timeline.keeps_fillable_delete _).of_run htimeline (h.fillable hstate)
    exact of_toBeFilled hwf hstate (by simp [happroved, hstate]) hcase hdays
  | approve hstate hlive _ _ happrovals htimeline =>
    have hdays := Timeline.closed_of_lock htimeline (h.fillable hstate)
    exact {
      toWellFormed := hwf
      isApproved_iff := by simp [ApprovalLog.isApproved_of_add happrovals hlive]
      submitted_of_caseId := absurd hcase
      correctedBy_of_approved _ := htip
      fillable := nofun
      closed _ := hdays }
  | unapprove hstate happrovals htimeline =>
    have hdays := Timeline.fillable_of_unlock htimeline (h.closed (by simp [hstate]))
    exact of_toBeFilled hwf rfl (ApprovalLog.not_isApproved_of_revoke happrovals) hcase hdays
  | submit hstate =>
    exact {
      toWellFormed := hwf
      isApproved_iff := by simp [happroved, hstate]
      submitted_of_caseId _ := rfl
      correctedBy_of_approved := nofun
      fillable := nofun
      closed _ := h.closed (by simp [hstate]) }

theorem correctionOf (h : p.InStep) (fresh : ℕ → Id) : (p.correctionOf fresh).InStep :=
  of_toBeFilled (h.toWellFormed.correctionOf fresh) rfl ApprovalLog.not_isApproved_empty rfl
    (Timeline.fillable_copyForCorrection (fun _ hd => h.sound hd) _)

theorem linkedTo (h : p.InStep) (hstate : p.state ≠ .approved) (c : Id) :
    (p.linkedTo c).InStep where
  toWellFormed := h.toWellFormed.linkedTo c
  isApproved_iff := h.isApproved_iff
  submitted_of_caseId := h.submitted_of_caseId
  correctedBy_of_approved := fun h => absurd h hstate
  fillable := h.fillable
  closed := h.closed

end InStep

end Period

namespace PeriodTable

variable {t t' : PeriodTable} {p : Period}

theorem NewRoot.inStep {start since : Date} (h : t.NewRoot start since p) : p.InStep := by
  have hwf := h.wellFormed
  obtain ⟨_, _, _, _, timeline, _, htimeline, rfl⟩ := h.exists_eq
  exact .of_toBeFilled hwf rfl ApprovalLog.not_isApproved_empty rfl
    (Timeline.fillable_of_starting htimeline since)

theorem Linked.inStep_of_move (hlinked : Linked t) (h : ∀ p ∈ t, p.InStep) (hmove : Move t t') :
    ∀ p ∈ t', p.InStep := by
  cases hmove with
  | edit htip hedit =>
    exact Register.forall_mem_insert h ((h _ (tip_mem htip)).edit (tip_correctedBy htip) hedit)
  | openFirst _ _ hnew | openNext _ _ hnew => exact Register.forall_mem_insert h hnew.inStep
  | @correct fresh _ tip corrected htip hcorrectable _ =>
    have htip' := tip_mem htip
    have hcorrected := mem_of_correctable htip' hcorrectable
    have hat := hlinked.correctedAt htip' (tip_correctedBy htip) hcorrectable
    refine Register.forall_mem_insert
      (Register.forall_mem_insert (Register.forall_mem_insert h ?_) ?_) ?_
    · exact (h _ hcorrected).correctionOf _
    · exact (h _ hcorrected).linkedTo (by simp [hat.submitted]) _
    · exact (h _ htip').linkedTo hat.tip_state_ne _

end PeriodTable

end Fortnight
