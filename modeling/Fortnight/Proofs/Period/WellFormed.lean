import Fortnight.Proofs.Period.Move
import Fortnight.Proofs.Timeline

/-!
# Well-formed periods

The days of a well-formed period are the fortnight from its start on, each with
activities of its own date, and none of its approvals but the last one is live.
New periods are well-formed, and moves keep all periods so.
-/

namespace Fortnight

namespace ApprovalLog

def Settled (log : ApprovalLog) : Prop :=
  ∀ a ∈ log.entries.dropLast, ¬ a.isLive

theorem settled_empty : Settled .empty := by
  simp [Settled, empty]

theorem ofEntries_of_settled {log : ApprovalLog} (h : log.Settled) :
    ofEntries log.entries = .ok log := by
  rw [ofEntries, if_neg]
  simpa [Settled] using h

/-- An approval is added when no entry is live, the last one included. -/
theorem keeps_add (a : Approval) :
    Step.Keeps (fun log log' => log.Settled → log'.Settled) (add a) := by
  intro log hsettled
  simp only [Step.run, add]
  split
  · exact hsettled
  · rename_i happroved
    intro b hb
    rw [List.dropLast_concat] at hb
    cases hlast : log.entries.getLast? with
    | none =>
      rw [List.getLast?_eq_none_iff.mp hlast] at hb
      cases hb
    | some last =>
      have hdead : ¬ last.isLive := by
        simpa [isApproved, live?, hlast, Option.filter_some] using happroved
      rw [← List.dropLast_append_getLast? last hlast] at hb
      rcases List.mem_append.mp hb with hb | hb
      · exact hsettled b hb
      · rw [List.mem_singleton.mp hb]
        exact hdead

theorem modifyLast_ne_nil {α : Type} (f : α → α) {l : List α} (h : l ≠ []) :
    modifyLast f l ≠ [] := by
  cases l with
  | nil => exact absurd rfl h
  | cons a l => cases l <;> simp [modifyLast]

theorem dropLast_modifyLast {α : Type} (f : α → α) (l : List α) :
    (modifyLast f l).dropLast = l.dropLast := by
  induction l with
  | nil => rfl
  | cons a l ih =>
    cases l with
    | nil => rfl
    | cons b l =>
      have hne := modifyLast_ne_nil f (List.cons_ne_nil b l)
      rw [modifyLast, List.dropLast_cons_of_ne_nil hne, ih]
      · rfl
      · simp

theorem getLast?_modifyLast {α : Type} (f : α → α) (l : List α) :
    (modifyLast f l).getLast? = l.getLast?.map f := by
  induction l with
  | nil => rfl
  | cons a l ih =>
    cases l with
    | nil => rfl
    | cons b l =>
      have hne := modifyLast_ne_nil f (List.cons_ne_nil b l)
      rw [modifyLast, List.getLast?_cons_of_ne_nil hne, ih, List.getLast?_cons_cons]
      simp

theorem keeps_revoke (r : Revocation) :
    Step.Keeps (fun log log' => log.Settled → log'.Settled) (revoke r) := by
  refine Step.Keeps.bind (fun h h' => h' ∘ h) (fun _ h => h) fun _ => Step.keeps_modify ?_
  intro log hsettled
  simpa [Settled, dropLast_modifyLast] using hsettled

end ApprovalLog

namespace Period

structure WellFormed (p : Period) : Prop where
  dates : p.start.IsFortnight p.timeline.dates
  tidy : ∀ d ∈ p.timeline.days, d.Tidy
  settled : p.approvals.Settled

namespace WellFormed

variable {p p' : Period}

/-- What only the start, the timeline and the approvals decide, up to the
continuation of the timeline. -/
theorem of_continues (h : p.WellFormed) (hstart : p'.start = p.start)
    (htimeline : p.timeline.Continues p'.timeline) (hsettled : p'.approvals.Settled) :
    p'.WellFormed where
  dates := by
    rw [hstart, htimeline.dates_eq]
    exact h.dates
  tidy := htimeline.tidy h.tidy
  settled := hsettled

theorem starting {id : Id} {start : Date} {rule : FinalizeRule}
    (h : Period.starting id start rule = .ok p) : p.WellFormed := by
  obtain ⟨_, _, timeline, _, _, htimeline, rfl⟩ := starting_eq_ok_iff.mp h
  exact ⟨Timeline.isFortnight_of_starting htimeline, Timeline.tidy_of_starting htimeline,
    ApprovalLog.settled_empty⟩

theorem correctionOf (h : p.WellFormed) (fresh : ℕ → Id) : (p.correctionOf fresh).WellFormed :=
  h.of_continues rfl (Timeline.continues_copyForCorrection _ _) ApprovalLog.settled_empty

theorem linkedTo (h : p.WellFormed) (c : Id) : (p.linkedTo c).WellFormed :=
  h.of_continues rfl (.refl _) h.settled

theorem edit {t : PeriodTable} (h : p.WellFormed) (hedit : t.Edit p p') : p'.WellFormed := by
  cases hedit with
  | add _ _ htimeline =>
    exact h.of_continues rfl ((Timeline.keeps_add _).of_run htimeline) h.settled
  | delete _ htimeline =>
    exact h.of_continues rfl ((Timeline.keeps_delete _).of_run htimeline) h.settled
  | approve _ _ _ _ happrovals htimeline =>
    exact h.of_continues rfl (Timeline.keeps_lock.of_run htimeline)
      ((ApprovalLog.keeps_add _).of_run happrovals h.settled)
  | unapprove _ happrovals htimeline =>
    exact h.of_continues rfl (Timeline.keeps_unlock.of_run htimeline)
      ((ApprovalLog.keeps_revoke _).of_run happrovals h.settled)
  | submit _ => exact h.of_continues rfl (.refl _) h.settled

end WellFormed

end Period

namespace PeriodTable

variable {t t' : PeriodTable} {p : Period}

theorem NewRoot.wellFormed {start since : Date} (h : t.NewRoot start since p) :
    p.WellFormed := by
  obtain ⟨_, _, _, q, hq, rfl⟩ := h
  have hwf := Period.WellFormed.starting hq
  exact hwf.of_continues rfl (Timeline.continues_markExemptBefore _ _) hwf.settled

theorem wellFormed_of_move (h : ∀ p ∈ t, p.WellFormed) (hmove : Move t t') :
    ∀ p ∈ t', p.WellFormed := by
  cases hmove with
  | edit htip hedit => exact Register.forall_mem_insert h ((h _ (tip_mem htip)).edit hedit)
  | openFirst _ _ hnew | openNext _ _ hnew => exact Register.forall_mem_insert h hnew.wellFormed
  | correct htip hcorrectable _ =>
    have hcorrected := h _ (mem_of_correctable (tip_mem htip) hcorrectable)
    refine Register.forall_mem_insert
      (Register.forall_mem_insert (Register.forall_mem_insert h ?_) ?_) ?_
    · exact hcorrected.correctionOf _
    · exact hcorrected.linkedTo _
    · exact (h _ (tip_mem htip)).linkedTo _

end PeriodTable

end Fortnight
