import Fortnight.Proofs.Period.Growth
import Fortnight.Proofs.Period.Lineage

/-!
# Approvals that are taken back

An approval locks the days of a period, and taking it back unlocks them. Both go
by the live activities and by the exemptions, and what a day was like before is
kept nowhere. For a period whose days are filled in that is enough to get them
back: taking the approval back leaves nothing of it but an entry in the log.
-/

namespace Fortnight

namespace Timeline

variable {t t' t'' : Timeline}

theorem unlock_lock (hlock : lock.run t = (.ok (), t')) (hunlock : unlock.run t' = (.ok (), t''))
    (h : ∀ d ∈ t.days, d.Fillable) : t'' = t := by
  obtain ⟨_, rfl⟩ := run_lock_eq_ok_iff.mp hlock
  obtain ⟨_, rfl⟩ := run_unlock_eq_ok_iff.mp hunlock
  have hdays : (t.days.map Day.locked).map Day.unlocked = t.days :=
    Step.map_map_eq_self fun d hd => (h d hd).unlocked_locked
  rw [hdays]

end Timeline

namespace ApprovalLog

variable {log log' log'' : ApprovalLog}

theorem revoke_add {a : Approval} {r : Revocation} (hadd : (add a).run log = (.ok (), log'))
    (hrevoke : (revoke r).run log' = (.ok (), log'')) :
    log'' = ⟨log.entries ++ [{ a with revokedBy := some r }]⟩ := by
  obtain ⟨_, rfl⟩ := run_add_eq_ok_iff.mp hadd
  obtain ⟨before, a', hentries, _, _, rfl⟩ := run_revoke_eq_ok_iff.mp hrevoke
  obtain ⟨hbefore, ha⟩ := List.append_inj' hentries rfl
  rw [hbefore, List.head_eq_of_cons_eq ha]

end ApprovalLog

namespace Period

variable {p p' p'' : Period} {ns ns' : List Notification}

/-- An approval that is taken back at once leaves an entry in the log, and nothing else. -/
theorem InStep.unapprove_approve (h : p.InStep) {approval : Approval} {reference : Date}
    {corrected : Option Timeline} {revocation : Revocation}
    (happrove : (approve approval reference corrected).run p = (.ok ns, p'))
    (hunapprove : (unapprove revocation).run p' = (.ok ns', p'')) :
    p'' = { p with
      approvals := ⟨p.approvals.entries ++ [{ approval with revokedBy := some revocation }]⟩ } := by
  obtain ⟨hstate, _, approvals, timeline, hadd, hlock, rfl, _⟩ :=
    run_approve_eq_ok_iff.mp happrove
  obtain ⟨_, approvals', timeline', hrevoke, hunlock, rfl, _⟩ :=
    run_unapprove_eq_ok_iff.mp hunapprove
  have happrovals := ApprovalLog.revoke_add hadd hrevoke
  have htimeline := Timeline.unlock_lock hlock hunlock (h.fillable hstate)
  rw [happrovals, htimeline, ← hstate]

end Period

namespace PeriodTable

variable {t : PeriodTable} {p : Period} {a root : Id}

theorem Linked.tip_eq_of_correctedBy (h : Linked t) (hp : p ∈ t) (hlast : p.correctedBy = none)
    (hroot : t.rootId p.id = .ok root) (ha : t.rootId a = .ok root) : t.tip a = .ok p := by
  obtain ⟨tip, htip, htip'⟩ := h.exists_tip_of_rootId ha hroot
  rw [tip_of_walk (.last hp hlast)] at htip'
  cases htip'
  exact htip

end PeriodTable

end Fortnight
