import Fortnight.Proofs.Person.Growth

/-!
# Who approves and who takes back

An approval is entered by the person themselves or by a case worker, and so it is
taken back. What an end user takes back they have entered themselves: the person
compares who acts with who they are, and the log of a period compares who acts
with whose entry it is. So an approval by a case worker stands until a case worker
takes it back, whatever else is called.
-/

namespace Fortnight

theorem Person.Permits.congr {p p' : Person} {actor : Actor} (hident : p'.ident = p.ident)
    (h : p.Permits actor) : p'.Permits actor := by
  unfold Permits at h ⊢
  rw [hident]
  exact h

namespace Approval

/-- Holds when those who made an entry and took it back were allowed to do so. -/
structure Authorized (p : Person) (a : Approval) : Prop where
  made : p.Permits a.actor
  revoked : ∀ r, a.revokedBy = some r → p.Permits r.actor
  /-- What an end user has taken back they had made. -/
  own : ∀ r ident, a.revokedBy = some r → r.actor = .endUser ident → a.actor = .endUser ident

namespace Authorized

variable {p p' : Person} {a : Approval}

theorem congr (hident : p'.ident = p.ident) (h : a.Authorized p) : a.Authorized p' where
  made := h.made.congr hident
  revoked r hr := (h.revoked r hr).congr hident
  own := h.own

theorem create {id : Id} {actor : Actor} {moment : Instant} {justification : Option String}
    (hactor : p.Permits actor) : (Approval.create id actor moment justification).Authorized p where
  made := hactor
  revoked r hr := by cases hr
  own r ident hr := by cases hr

theorem takenBack (h : a.Authorized p) {r : Revocation} (hpermits : p.Permits r.actor)
    (hactor : (∃ id, r.actor = .caseWorker id) ∨ r.actor = a.actor) :
    Authorized p { a with revokedBy := some r } where
  made := h.made
  revoked r' hr' := by
    cases hr'
    exact hpermits
  own r' ident hr' huser := by
    cases hr'
    rcases hactor with ⟨id, hworker⟩ | hsame
    · rw [hworker] at huser
      cases huser
    · exact hsame.symm.trans huser

end Authorized

end Approval

namespace PeriodTable

variable {t t' : PeriodTable} {q : Period} {start since : Date}

theorem NewRoot.approvals_eq (h : t.NewRoot start since q) : q.approvals = .empty := by
  obtain ⟨_, _, _, _, _, _, _, rfl⟩ := h.exists_eq
  rfl

theorem Submissions.not_new {caseId : Option String} {ns : List Notification}
    (h : Submissions caseId t ns t') (hq : q ∈ t') : t.find? q.id ≠ none := by
  intro hnew
  obtain ⟨p, hp, hid⟩ := h.edits.exists_before q hq
  exact Register.find?_eq_none_iff.mp hnew p hp hid

end PeriodTable

namespace Person

variable {p p' : Person} {q q' : Period} {c : Call} {ns : List Notification} {fresh : ℕ → Id}
  {id : Id} {rule : FinalizeRule} {moment : Instant} {event : Event} {effects : List Effect}
  {a : Approval}

theorem Decided.approvals_eq_of_new (h : Decided id rule moment p effects ns p')
    (hq : q ∈ p'.periods) (hnew : p.periods.find? q.id = none) : q.approvals = .empty := by
  cases h with
  | ignored | requested | noted =>
    exact absurd rfl (Register.find?_eq_none_iff.mp hnew q hq)
  | started hopen =>
    obtain ⟨_, hroot⟩ := PeriodTable.newRoot_of_openFirst hopen hq hnew
    exact hroot.approvals_eq
  | continued _ hopen =>
    obtain ⟨_, hroot⟩ := PeriodTable.newRoot_of_openNext hopen hq hnew
    exact hroot.approvals_eq
  | submitted hsubmit =>
    exact absurd hnew ((PeriodTable.submissions_of_submitDue hsubmit).not_new hq)

theorem Applied.approvals_eq_of_new (h : Applied fresh rule p event ns p')
    (hq : q ∈ p'.periods) (hnew : p.periods.find? q.id = none) : q.approvals = .empty := by
  cases h with
  | decided _ _ hdecided => exact hdecided.approvals_eq_of_new hq hnew
  | rejected => exact absurd rfl (Register.find?_eq_none_iff.mp hnew q hq)
  | edited _ htip hedited =>
    rcases Register.mem_insert.mp hq with rfl | ⟨hq, _⟩
    · have hid := hedited.edit.id_eq
      have htip := PeriodTable.tip_mem htip
      exact absurd hid.symm (Register.find?_eq_none_iff.mp hnew _ htip)
    · exact absurd rfl (Register.find?_eq_none_iff.mp hnew q hq)
  | corrected hcorrect =>
    obtain ⟨_, corrected, htip, hcorrectable, hunused, rfl⟩ :=
      PeriodTable.withCorrection_of_correct hcorrect
    have htip := PeriodTable.tip_mem htip
    have hcorrected := PeriodTable.mem_of_correctable htip hcorrectable
    rw [PeriodTable.mem_withCorrection hunused hcorrected htip] at hq
    obtain rfl | ⟨x, hx, rfl⟩ := hq
    · rfl
    · rw [Period.relinked_id] at hnew
      exact absurd rfl (Register.find?_eq_none_iff.mp hnew x hx)

/-- A period that was there before has the approvals that it had, or was edited. -/
theorem Applied.approvals_cases (h : Applied fresh rule p event ns p') (hq' : q' ∈ p'.periods) :
    q'.approvals = .empty ∨
      ∃ q ∈ p.periods, q'.approvals = q.approvals ∨ Edited fresh p q event ns q' := by
  cases hfind : p.periods.find? q'.id with
  | none => exact Or.inl (h.approvals_eq_of_new hq' hfind)
  | some q =>
    obtain ⟨hq, hid⟩ := Register.find?_eq_some_iff.mp hfind
    obtain ⟨q'', hq'', hcases⟩ := h.exists_edited hq
    have hsame : q''.id = q'.id := by
      rcases hcases with huntouched | hedited
      · exact huntouched.id_eq.trans hid
      · exact hedited.edit.id_eq.trans hid
    obtain rfl := Register.eq_of_key_eq hq'' hq' hsame
    exact Or.inr ⟨q, hq, hcases.imp_left Period.Untouched.approvals_eq⟩

/-- What becomes of the log of a period to which an event is addressed. -/
inductive LogChange (p : Person) (event : Event) (log : ApprovalLog) : ApprovalLog → Prop
  | kept : LogChange p event log log
  | approved {id : Id} {actor : Actor} {moment : Instant} {justification : Option String} :
      p.Permits actor →
      LogChange p event log ⟨log.entries ++ [.create id actor moment justification]⟩
  | takenBack {period : Id} {r : Revocation} {before : List Approval} {last : Approval} :
      event = .unapprove period r.actor r.moment r.justification → p.Permits r.actor →
      log.entries = before ++ [last] → (∃ id, r.actor = .caseWorker id) ∨ r.actor = last.actor →
      LogChange p event log ⟨before ++ [{ last with revokedBy := some r }]⟩

theorem Edited.logChange (h : Edited fresh p q event ns q') :
    LogChange p event q.approvals q'.approvals := by
  cases h with
  | added hadd =>
    obtain ⟨_, _, _, rfl⟩ := Period.run_add_eq_ok_iff.mp hadd
    exact .kept
  | deleted hdelete =>
    obtain ⟨_, _, _, rfl⟩ := Period.run_delete_eq_ok_iff.mp hdelete
    exact .kept
  | submitted _ hsubmit =>
    obtain ⟨_, rfl, _⟩ := Period.run_submitManually_eq_ok_iff.mp hsubmit
    exact .kept
  | approved hactor _ happrove =>
    obtain ⟨_, _, _, _, hadd, _, rfl, _⟩ := Period.run_approve_eq_ok_iff.mp happrove
    obtain ⟨_, rfl⟩ := ApprovalLog.run_add_eq_ok_iff.mp hadd
    exact .approved (authorize_eq_ok_iff.mp hactor)
  | unapproved hactor hunapprove =>
    obtain ⟨_, _, _, hrevoke, _, rfl, _⟩ := Period.run_unapprove_eq_ok_iff.mp hunapprove
    obtain ⟨_, _, hentries, _, hown, rfl⟩ := ApprovalLog.run_revoke_eq_ok_iff.mp hrevoke
    exact .takenBack rfl (authorize_eq_ok_iff.mp hactor) hentries hown

section Logs

variable {log log' : ApprovalLog}

theorem LogChange.authorized (h : LogChange p event log log')
    (hlog : ∀ a ∈ log.entries, a.Authorized p) : ∀ a ∈ log'.entries, a.Authorized p := by
  cases h with
  | kept => exact hlog
  | approved hpermits =>
    intro a ha
    rcases List.mem_append.mp ha with ha | ha
    · exact hlog a ha
    · rw [List.mem_singleton.mp ha]
      exact .create hpermits
  | @takenBack _ _ before last _ hpermits hentries hown =>
    rw [hentries] at hlog
    intro a ha
    rcases List.mem_append.mp ha with ha | ha
    · exact hlog a (List.mem_append_left _ ha)
    · have hlast := hlog last (by simp)
      rw [List.mem_singleton.mp ha]
      exact hlast.takenBack hpermits hown

theorem LogChange.mem (h : LogChange p event log log')
    (hevent : ∀ period id moment justification,
      event ≠ .unapprove period (.caseWorker id) moment justification)
    (ha : a ∈ log.entries) (hworker : ∃ id, a.actor = .caseWorker id) : a ∈ log'.entries := by
  cases h with
  | kept => exact ha
  | approved => exact List.mem_append_left _ ha
  | @takenBack _ r before last hunapprove _ hentries hown =>
    rw [hentries] at ha
    rcases List.mem_append.mp ha with ha | ha
    · exact List.mem_append_left _ ha
    · -- The entry is the last one, and none but case workers may take it back.
      rw [← List.mem_singleton.mp ha] at hown
      obtain ⟨id, hid⟩ := hworker
      rcases hown with ⟨id', hactor⟩ | hactor
      · rw [hactor] at hunapprove
        exact absurd hunapprove (hevent _ _ _ _)
      · rw [hactor, hid] at hunapprove
        exact absurd hunapprove (hevent _ _ _ _)

end Logs

/-- All entries of the logs are by those who may act for the person. -/
def AllAuthorized (p : Person) : Prop :=
  ∀ q ∈ p.periods, ∀ a ∈ q.approvals.entries, a.Authorized p

theorem AllAuthorized.after (h : AllAuthorized p) (c : Call) : AllAuthorized (p.after c) := by
  rcases p.answer_cases c with ⟨ns, hok, _⟩ | ⟨e, _, hsame⟩
  · intro q' hq' a ha
    apply Approval.Authorized.congr (p.evolves_after c).ident_eq
    rcases (applied_of_answer hok).approvals_cases hq' with hempty | ⟨q, hq, hkept | hedited⟩
    · rw [hempty] at ha
      cases ha
    · rw [hkept] at ha
      exact h q hq a ha
    · exact hedited.logChange.authorized (h q hq) a ha
  · rw [hsame]
    exact h

theorem Reachable.allAuthorized (h : Reachable p) : AllAuthorized p := by
  induction h with
  | new id ident => exact fun q hq => absurd hq (Register.not_mem_empty q)
  | after c _ ih => exact ih.after c

theorem exists_mem_approvals_run {calls : List Call}
    (hcalls : ∀ c ∈ calls, ∀ period id moment justification,
      c.event ≠ .unapprove period (.caseWorker id) moment justification)
    (hq : q ∈ p.periods) (ha : a ∈ q.approvals.entries)
    (hworker : ∃ id, a.actor = .caseWorker id) :
    ∃ q' ∈ (p.run calls).periods, q'.id = q.id ∧ a ∈ q'.approvals.entries := by
  induction calls generalizing p q with
  | nil => exact ⟨q, hq, rfl, ha⟩
  | cons c calls ih =>
    obtain ⟨hevent, hcalls⟩ := List.forall_mem_cons.mp hcalls
    have hafter : ∃ q' ∈ (p.after c).periods, q'.id = q.id ∧ a ∈ q'.approvals.entries := by
      rcases p.answer_cases c with ⟨ns, hok, _⟩ | ⟨e, _, hsame⟩
      · obtain ⟨q', hq', huntouched | hedited⟩ := (applied_of_answer hok).exists_edited hq
        · exact ⟨q', hq', huntouched.id_eq, huntouched.approvals_eq ▸ ha⟩
        · exact ⟨q', hq', hedited.edit.id_eq, hedited.logChange.mem hevent ha hworker⟩
      · rw [hsame]
        exact ⟨q, hq, rfl, ha⟩
    obtain ⟨q', hq', hid, ha'⟩ := hafter
    obtain ⟨q'', hq'', hid', ha''⟩ := ih hcalls hq' ha'
    exact ⟨q'', hq'', hid'.trans hid, ha''⟩

/-- Where the entries but the last are not live, a live one is the approval of the period. -/
theorem state_ne_of_mem_approvals (h : q.InStep) (ha : a ∈ q.approvals.entries)
    (hlive : a.isLive) : q.state ≠ .toBeFilled := by
  rw [← h.isApproved_iff]
  have hne : q.approvals.entries ≠ [] := List.ne_nil_of_mem ha
  have hlast := List.dropLast_append_getLast hne
  rw [← hlast] at ha
  rcases List.mem_append.mp ha with ha | ha
  · exact absurd hlive (h.settled a ha)
  · refine ApprovalLog.isApproved_iff.mpr ⟨q.approvals.entries.dropLast, a, ?_, hlive⟩
    rw [List.mem_singleton.mp ha]
    exact hlast.symm

/-- Only those who may act for a person approve and take back, end users take back
only what they have approved, and what a case worker has approved stays approved
in the course of any calls by which no case worker takes an approval back. -/
theorem authorized_of_reachable (h : Reachable p) :
    (∀ q ∈ p.periods, ∀ a ∈ q.approvals.entries, a.Authorized p) ∧
      ∀ calls : List Call,
        (∀ c ∈ calls, ∀ period id moment justification,
          c.event ≠ .unapprove period (.caseWorker id) moment justification) →
        ∀ q ∈ p.periods, ∀ a ∈ q.approvals.entries, a.isLive →
          (∃ id, a.actor = .caseWorker id) →
          ∃ q' ∈ (p.run calls).periods, q'.id = q.id ∧ a ∈ q'.approvals.entries ∧
            q'.state ≠ .toBeFilled := by
  refine ⟨h.allAuthorized, ?_⟩
  intro calls hcalls q hq a ha hlive hworker
  obtain ⟨q', hq', hid, ha'⟩ := exists_mem_approvals_run hcalls hq ha hworker
  have hinStep := inStep_of_reachable (h.run calls) q' hq'
  exact ⟨q', hq', hid, ha', state_ne_of_mem_approvals hinStep ha' hlive⟩

/-- Someone whose own approval was taken back, and whose case worker then approved. -/
def approvedForThem : Person :=
  approvedByThemselves.run
    [takingBack,
      ⟨supplyFrom 90, .standard, .approve (supplyFrom 11 0) (.caseWorker "cw-1")
        (january 17) (january 17).startOfDay none⟩]

theorem reachable_approvedForThem : Reachable approvedForThem :=
  freshlyReachable_approvedByThemselves.reachable.run _

/-- They try to take it back once more, and then submit the period. -/
def tryingToTakeBack : List Call :=
  [⟨supplyFrom 100, .standard,
      .unapprove (supplyFrom 11 0) (.endUser "01018012345") (january 18).startOfDay none⟩,
    ⟨supplyFrom 110, .standard, .manualSubmit (supplyFrom 11 0) (january 18).startOfDay⟩]

set_option maxRecDepth 8000 in
/-- The first approval was theirs to take back, and the second one is not. -/
theorem authorized_approvedForThem :
    Reachable approvedForThem ∧
    ∃ q ∈ approvedForThem.periods, ∃ theirs others : Approval,
      q.approvals.entries = [theirs, others] ∧ theirs.Authorized approvedForThem ∧
      theirs.revokedBy.map Revocation.actor = some (.endUser "01018012345") ∧
      ∃ q' ∈ (approvedForThem.run tryingToTakeBack).periods, q'.id = q.id ∧
        others ∈ q'.approvals.entries ∧ q'.state ≠ .toBeFilled := by
  have hlogs : (approvedForThem.periods.toList.map fun q => q.approvals.entries) =
      [[⟨supplyFrom 50 0, .endUser "01018012345", (january 15).startOfDay, none,
          some ⟨supplyFrom 70 0, .endUser "01018012345", (january 16).startOfDay, none⟩⟩,
        .create (supplyFrom 90 0) (.caseWorker "cw-1") (january 17).startOfDay none]] := by
    cbv
  obtain ⟨q, hperiods, hentries⟩ := List.map_eq_singleton_iff.mp hlogs
  have hq : q ∈ approvedForThem.periods := by
    rw [Register.mem_def, hperiods]
    exact List.mem_singleton_self q
  have hcalls : ∀ c ∈ tryingToTakeBack, ∀ period id moment justification,
      c.event ≠ .unapprove period (.caseWorker id) moment justification := by
    simp [tryingToTakeBack]
  obtain ⟨hauthorized, hstands⟩ := authorized_of_reachable reachable_approvedForThem
  refine ⟨reachable_approvedForThem, q, hq, _, _, hentries, ?_, rfl, ?_⟩
  · exact hauthorized q hq _ (by simp [hentries])
  · exact hstands tryingToTakeBack hcalls q hq _ (by simp [hentries]) rfl ⟨"cw-1", rfl⟩

end Person

end Fortnight
