import Fortnight.Proofs.Period.Enabling
import Fortnight.Proofs.Timeline.Growth

/-!
# Periods grow

What is on record for a period stays there. New approvals come behind the old
ones, of which only the last can change, by being taken back once. The days grow
as timelines do. All that is done to a table of periods lets every period of it
grow in this way.
-/

namespace Fortnight

open ActivityState (Follows)

namespace ApprovalLog

variable {log log' log'' : ApprovalLog}

theorem isApproved_iff :
    log.isApproved ↔ ∃ before a, log.entries = before ++ [a] ∧ a.isLive := by
  unfold isApproved live?
  rw [Option.isSome_iff_exists]
  constructor
  · intro h
    obtain ⟨a, ha⟩ := h
    obtain ⟨hlast, hlive⟩ := Option.filter_eq_some_iff.mp ha
    obtain ⟨before, hentries⟩ := List.getLast?_eq_some_iff.mp hlast
    exact ⟨before, a, hentries, hlive⟩
  · intro h
    obtain ⟨before, a, hentries, hlive⟩ := h
    refine ⟨a, Option.filter_eq_some_iff.mpr ⟨?_, hlive⟩⟩
    rw [hentries, List.getLast?_concat]

theorem modifyLast_concat {α : Type} (f : α → α) (l : List α) (a : α) :
    modifyLast f (l ++ [a]) = l ++ [f a] := by
  have hlast : (modifyLast f (l ++ [a])).getLast? = some (f a) := by
    rw [getLast?_modifyLast, List.getLast?_concat]
    rfl
  rw [← List.dropLast_append_getLast? _ hlast, dropLast_modifyLast, List.dropLast_concat]

theorem run_add_eq_ok_iff {a : Approval} :
    (add a).run log = (.ok (), log') ↔ ¬ log.isApproved ∧ ⟨log.entries ++ [a]⟩ = log' := by
  simp only [Step.run, add]
  split <;> simp_all

/-- Only a live entry is taken back, which is the last one, and only by whom it
was made or by a case worker. -/
theorem run_revoke_eq_ok_iff {r : Revocation} :
    (revoke r).run log = (.ok (), log') ↔
      ∃ before a, log.entries = before ++ [a] ∧ a.isLive ∧
        ((∃ id, r.actor = .caseWorker id) ∨ r.actor = a.actor) ∧
        ⟨before ++ [{ a with revokedBy := some r }]⟩ = log' := by
  have hmodify : ∀ before a, log.entries = before ++ [a] →
      (Step.modify fun log : ApprovalLog =>
        ⟨modifyLast (fun a => { a with revokedBy := some r }) log.entries⟩).run log =
        (.ok (), ⟨before ++ [{ a with revokedBy := some r }]⟩) := by
    intro before a hentries
    rw [Step.run_modify, hentries, modifyLast_concat]
  rw [revoke, Step.run_look_bind_eq_ok_iff]
  constructor
  · intro h
    obtain ⟨_, hensure, hlog⟩ := h
    have happroved : log.isApproved := by
      cases hlive : log.live? with
      | none => simp [ensureRevocableBy, hlive] at hensure
      | some live => simp [isApproved, hlive]
    obtain ⟨before, a, hentries, hlive⟩ := isApproved_iff.mp happroved
    have hactor := (ensureRevocableBy_eq_ok_iff happroved).mp hensure
    rw [RevocableBy, hentries, List.getLast?_concat] at hactor
    rw [hmodify before a hentries] at hlog
    cases hlog
    exact ⟨before, a, hentries, hlive, by simpa using hactor, rfl⟩
  · intro h
    obtain ⟨before, a, hentries, hlive, hactor, rfl⟩ := h
    have happroved := isApproved_iff.mpr ⟨before, a, hentries, hlive⟩
    refine ⟨(), (ensureRevocableBy_eq_ok_iff happroved).mpr ?_, hmodify before a hentries⟩
    rw [RevocableBy, hentries, List.getLast?_concat]
    simpa using hactor

/-- Holds when the entries come first in a later log, but that the last one may
have been taken back. -/
def Grows (log log' : ApprovalLog) : Prop :=
  log.entries <+: log'.entries ∨
    ∃ before a r, log.entries = before ++ [a] ∧ a.isLive ∧
      before ++ [{ a with revokedBy := some r }] <+: log'.entries

namespace Grows

theorem refl (log : ApprovalLog) : Grows log log :=
  Or.inl (List.prefix_refl log.entries)

theorem trans (h : Grows log log') (h' : Grows log' log'') : Grows log log'' := by
  rcases h' with hfront' | ⟨before', a', r', hentries', hlive', hfront'⟩
  · rcases h with hfront | ⟨before, a, r, hentries, hlive, hfront⟩
    · exact Or.inl (hfront.trans hfront')
    · exact Or.inr ⟨before, a, r, hentries, hlive, hfront.trans hfront'⟩
  -- What is taken back in the second step is the last entry of the log between the two.
  have hbefore' : before' <+: log''.entries := (List.prefix_append _ _).trans hfront'
  rcases h with hfront | ⟨before, a, r, hentries, hlive, hfront⟩
  · rw [hentries', List.prefix_concat_iff] at hfront
    rcases hfront with hsame | hshorter
    · exact Or.inr ⟨before', a', r', hsame, hlive', hfront'⟩
    · exact Or.inl (hshorter.trans hbefore')
  · rw [hentries', List.prefix_concat_iff] at hfront
    rcases hfront with hsame | hshorter
    · obtain ⟨_, hlast⟩ := List.append_inj' hsame rfl
      rw [← List.head_eq_of_cons_eq hlast] at hlive'
      simp [Approval.isLive] at hlive'
    · exact Or.inr ⟨before, a, r, hentries, hlive, hshorter.trans hbefore'⟩

end Grows

theorem grows_of_add {a : Approval} (h : (add a).run log = (.ok (), log')) : log.Grows log' := by
  obtain ⟨_, rfl⟩ := run_add_eq_ok_iff.mp h
  exact Or.inl (List.prefix_append _ _)

theorem grows_of_revoke {r : Revocation} (h : (revoke r).run log = (.ok (), log')) :
    log.Grows log' := by
  obtain ⟨before, a, hentries, hlive, _, rfl⟩ := run_revoke_eq_ok_iff.mp h
  exact Or.inr ⟨before, a, r, hentries, hlive, List.prefix_refl _⟩

end ApprovalLog

variable {moves moves' : ActivityState → ActivityState → Prop}

namespace Period

/-- Holds when the days and the approvals of a period are as they were. -/
structure Untouched (p p' : Period) : Prop where
  id_eq : p'.id = p.id
  timeline_eq : p'.timeline = p.timeline
  approvals_eq : p'.approvals = p.approvals

/-- Holds when nothing that is on record for a period is missing later on. -/
structure Extends (moves : ActivityState → ActivityState → Prop) (p p' : Period) : Prop where
  id_eq : p'.id = p.id
  timeline : p.timeline.Extends moves p'.timeline
  approvals : p.approvals.Grows p'.approvals

variable {p p' p'' : Period}

theorem Untouched.refl (p : Period) : Untouched p p :=
  ⟨rfl, rfl, rfl⟩

theorem Untouched.trans (h : Untouched p p') (h' : Untouched p' p'') : Untouched p p'' :=
  ⟨h'.id_eq.trans h.id_eq, h'.timeline_eq.trans h.timeline_eq,
    h'.approvals_eq.trans h.approvals_eq⟩

theorem Untouched.extends (hrefl : ∀ s, moves s s) (h : Untouched p p') :
    Extends moves p p' where
  id_eq := h.id_eq
  timeline := by
    rw [h.timeline_eq]
    exact .refl hrefl _
  approvals := by
    rw [h.approvals_eq]
    exact .refl _

theorem Extends.trans (htrans : ∀ s s' s'', moves s s' → moves s' s'' → moves s s'')
    (h : Extends moves p p') (h' : Extends moves p' p'') : Extends moves p p'' where
  id_eq := h'.id_eq.trans h.id_eq
  timeline := h.timeline.trans htrans h'.timeline
  approvals := h.approvals.trans h'.approvals

theorem Extends.mono (himp : ∀ s s', moves s s' → moves' s s') (h : Extends moves p p') :
    Extends moves' p p' :=
  ⟨h.id_eq, h.timeline.mono himp, h.approvals⟩

theorem extends_of_edit {t : PeriodTable} (h : t.Edit p p') : p.Extends Follows p' := by
  cases h with
  | add _ _ hadd => exact ⟨rfl, Timeline.extends_of_add hadd, .refl _⟩
  | delete _ hdelete => exact ⟨rfl, Timeline.extends_of_delete hdelete, .refl _⟩
  | approve _ _ _ _ hadd hlock =>
    exact ⟨rfl, Timeline.extends_of_lock hlock, ApprovalLog.grows_of_add hadd⟩
  | unapprove _ hrevoke hunlock =>
    exact ⟨rfl, Timeline.extends_of_unlock hunlock, ApprovalLog.grows_of_revoke hrevoke⟩
  | submit => exact ⟨rfl, .refl .same _, .refl _⟩

end Period

namespace PeriodTable

variable {t t' : PeriodTable} {p q tip tip' c corrected : Period} {ns : List Notification}

theorem exists_mem_insert_of_mem (htip : tip ∈ t) (hid : tip'.id = tip.id) (hq : q ∈ t) :
    q = tip ∧ tip' ∈ Register.insert t tip' ∨ q ∈ Register.insert t tip' := by
  by_cases hsame : q.id = tip'.id
  · have heq := Register.eq_of_key_eq hq htip (hsame.trans hid)
    exact Or.inl ⟨heq, Register.mem_insert.mpr (Or.inl rfl)⟩
  · exact Or.inr (Register.mem_insert.mpr (Or.inr ⟨hq, hsame⟩))

theorem mem_insert_of_new (hnew : t.find? p.id = none) (hq : q ∈ t) :
    q ∈ Register.insert t p :=
  Register.mem_insert.mpr (Or.inr ⟨hq, Register.find?_eq_none_iff.mp hnew q hq⟩)

/-- A new correction is linked to, and nothing else is done. -/
theorem exists_untouched_withCorrection (hnew : t.find? c.id = none)
    (hcorrected : corrected ∈ t) (htip : tip ∈ t) (hq : q ∈ t) :
    ∃ q' ∈ t.withCorrection c corrected tip, q.Untouched q' := by
  refine ⟨q.relinked corrected.id tip.id c.id, ?_, ⟨by simp, by simp, by simp⟩⟩
  exact (mem_withCorrection hnew hcorrected htip).mpr (Or.inr ⟨q, hq, rfl⟩)

theorem Submissions.exists_untouched {caseId : Option String} (h : Submissions caseId t ns t')
    (hq : q ∈ t) : ∃ q' ∈ t', q.Untouched q' := by
  induction h generalizing q with
  | nil => exact ⟨q, hq, .refl q⟩
  | @cons t t' root tip tip' ns others htip hsubmit _ ih =>
    obtain ⟨_, htip', _⟩ := Period.run_submitManually_eq_ok_iff.mp hsubmit
    have huntouched : tip.Untouched tip' := by
      rw [← htip']
      exact ⟨rfl, rfl, rfl⟩
    rcases exists_mem_insert_of_mem (tip_mem htip) huntouched.id_eq hq with ⟨rfl, hmem⟩ | hmem
    · obtain ⟨q', hq', hsame⟩ := ih hmem
      exact ⟨q', hq', huntouched.trans hsame⟩
    · exact ih hmem

end PeriodTable

end Fortnight
