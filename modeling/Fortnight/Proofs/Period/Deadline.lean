import Fortnight.Proofs.Period.Announcement
import Fortnight.Proofs.Period.Lineage
import Fortnight.Proofs.Period.Shape

/-!
# Periods that are due

A deadline submits the periods that are approved and due, and changes nothing
else. It goes from root to root and looks at their tips only, and it leaves out
the roots that start later. Nothing is missed by that: an approved period is the
tip of its chain, and it has the schedule of its root, which starts before any
date on which the period is due.
-/

namespace Fortnight

namespace Period

variable {p : Period} {date : Date} {caseId : Option String}

/-- The period is approved and is to be submitted by `date` at the latest. -/
def IsDue (date : Date) (p : Period) : Prop :=
  p.state = .approved ∧ p.finalizeAfter ≤ date

instance (date : Date) (p : Period) : Decidable (p.IsDue date) :=
  inferInstanceAs (Decidable (_ ∧ _))

/-- The period as it is once it was submitted. -/
def submittedUnder (caseId : Option String) (p : Period) : Period :=
  { p with caseId, state := .submitted }

/-- The period as a deadline leaves it. -/
def afterDeadline (date : Date) (caseId : Option String) (p : Period) : Period :=
  if p.IsDue date then p.submittedUnder caseId else p

theorem afterDeadline_of_isDue (h : p.IsDue date) :
    p.afterDeadline date caseId = p.submittedUnder caseId :=
  if_pos h

theorem afterDeadline_of_not_isDue (h : ¬ p.IsDue date) : p.afterDeadline date caseId = p :=
  if_neg h

@[simp] theorem afterDeadline_id (date : Date) (caseId : Option String) (p : Period) :
    (p.afterDeadline date caseId).id = p.id := by
  unfold afterDeadline
  split <;> rfl

theorem not_isDue_submittedUnder : ¬ (p.submittedUnder caseId).IsDue date := by
  simp [IsDue, submittedUnder]

theorem not_isDue_afterDeadline : ¬ (p.afterDeadline date caseId).IsDue date := by
  by_cases h : p.IsDue date
  · rw [afterDeadline_of_isDue h]
    exact not_isDue_submittedUnder
  · rw [afterDeadline_of_not_isDue h]
    exact h

/-- Nothing is left for the same deadline when it passes again. -/
theorem afterDeadline_afterDeadline (caseId' : Option String) :
    (p.afterDeadline date caseId).afterDeadline date caseId' = p.afterDeadline date caseId :=
  afterDeadline_of_not_isDue not_isDue_afterDeadline

theorem exists_run_submitByDeadline (h : p.state = .approved) (date : Date)
    (caseId : Option String) :
    ∃ ns, (submitByDeadline date caseId).run p = (.ok ns, p.afterDeadline date caseId) := by
  simp only [run_submitByDeadline_eq_ok_iff, h, true_and]
  by_cases hdue : p.IsDue date
  · rw [afterDeadline_of_isDue hdue]
    have hdate : ¬ date < p.finalizeAfter := Int.not_lt.mpr hdue.2
    exact ⟨_, Or.inr ⟨hdate, rfl, rfl⟩⟩
  · rw [afterDeadline_of_not_isDue hdue]
    have hdate : date < p.finalizeAfter := Int.not_le.mp fun hle => hdue ⟨h, hle⟩
    exact ⟨[], Or.inl ⟨hdate, rfl, rfl⟩⟩

end Period

namespace PeriodTable

variable {t : PeriodTable} {p e : Period} {root : Id} {roots : List Id} {date : Date}
  {caseId : Option String}

/-- The table as a deadline leaves it. -/
def afterDeadline (date : Date) (caseId : Option String) (t : PeriodTable) : PeriodTable :=
  t.map (Period.afterDeadline date caseId) (Period.afterDeadline_id date caseId)

@[simp] theorem mem_afterDeadline {q : Period} :
    q ∈ t.afterDeadline date caseId ↔ ∃ p ∈ t, p.afterDeadline date caseId = q :=
  Register.mem_map

theorem not_isDue_of_mem_afterDeadline {q : Period} (hq : q ∈ t.afterDeadline date caseId) :
    ¬ q.IsDue date := by
  obtain ⟨p, _, rfl⟩ := mem_afterDeadline.mp hq
  exact Period.not_isDue_afterDeadline

theorem afterDeadline_eq_self (h : ∀ p ∈ t, ¬ p.IsDue date) : t.afterDeadline date caseId = t := by
  apply Register.map_eq_self
  intro p hp
  exact Period.afterDeadline_of_not_isDue (h p hp)

theorem afterDeadline_insert (hp : p ∈ t) :
    afterDeadline date caseId (t.insert (p.afterDeadline date caseId)) =
      t.afterDeadline date caseId :=
  Register.map_insert_of_mem hp (Period.afterDeadline_id ..)
    (Period.afterDeadline_afterDeadline caseId)

theorem exists_run_submitTip (htip : t.tip root = .ok e) (date : Date) (caseId : Option String) :
    ∃ ns, (submitTip date caseId root).run t =
      (.ok ns, t.insert (e.afterDeadline date caseId)) := by
  unfold submitTip
  simp only [Step.run_look_bind_eq_ok_iff, htip, Except.ok.injEq, exists_eq_left']
  by_cases hstate : e.state = .approved
  · obtain ⟨ns, hrun⟩ := Period.exists_run_submitByDeadline hstate date caseId
    rw [if_pos hstate]
    exact ⟨ns, (run_onPeriod_of_mem (tip_mem htip)).mpr ⟨_, hrun, rfl⟩⟩
  · have hdue : ¬ e.IsDue date := fun h => hstate h.1
    rw [if_neg hstate, Period.afterDeadline_of_not_isDue hdue,
      Register.insert_of_mem (tip_mem htip)]
    exact ⟨[], rfl⟩

theorem tips_of_isDue (htip : t.tip root = .ok e)
    (hdue : ∀ p ∈ t, p.IsDue date → ∃ id ∈ root :: roots, t.tip id = .ok p) :
    ∀ q ∈ Register.insert t (e.afterDeadline date caseId), q.IsDue date →
      ∃ id ∈ roots, PeriodTable.tip (t.insert (e.afterDeadline date caseId)) id = .ok q := by
  intro q hq hqdue
  rcases Register.mem_insert.mp hq with rfl | ⟨hq, hid⟩
  · exact absurd hqdue Period.not_isDue_afterDeadline
  · have hne : q ≠ e := by
      rintro rfl
      simp at hid
    obtain ⟨id, hmem, hqtip⟩ := hdue q hq hqdue
    rcases List.mem_cons.mp hmem with rfl | hmem
    · exact absurd (Except.ok.inj (hqtip.symm.trans htip)) hne
    · refine ⟨id, hmem, ?_⟩
      exact tip_insert_of_ne (tip_mem htip) (tip_correctedBy htip) (Period.afterDeadline_id ..)
        hne hqtip

theorem mem_roots_of_walk {l : List Period} (hw : t.Walk Period.corrects p l e) : e ∈ t.roots :=
  mem_roots.mpr ⟨hw.end_mem, hw.end_link⟩

namespace Linked

theorem afterDeadline_tip (h : Linked t) (htip : t.tip root = .ok e) :
    Linked (t.insert (e.afterDeadline date caseId)) := by
  by_cases hdue : e.IsDue date
  · rw [Period.afterDeadline_of_isDue hdue]
    exact h.move (.edit htip (.submit hdue.1))
  · rw [Period.afterDeadline_of_not_isDue hdue, Register.insert_of_mem (tip_mem htip)]
    exact h

/-- Chains in a row are dealt with one by one. All that is due is the tip of one
that is still to come. -/
theorem exists_run_submitTips (h : Linked t) (hroots : ∀ root ∈ roots, ∃ p ∈ t, p.id = root)
    (hdue : ∀ p ∈ t, p.IsDue date → ∃ root ∈ roots, t.tip root = .ok p) :
    ∃ ns, (submitTips date caseId roots).run t = (.ok ns, t.afterDeadline date caseId) := by
  induction roots generalizing t with
  | nil =>
    have hnone : ∀ p ∈ t, ¬ p.IsDue date := by
      intro p hp hpdue
      obtain ⟨_, hroot, _⟩ := hdue p hp hpdue
      cases hroot
    rw [afterDeadline_eq_self hnone]
    exact ⟨[], rfl⟩
  | cons root rest ih =>
    obtain ⟨⟨p, hp, rfl⟩, hrest⟩ := List.forall_mem_cons.mp hroots
    obtain ⟨l, e, hw⟩ := h.exists_walk_forward hp
    have htip := tip_of_walk hw
    have he := tip_mem htip
    obtain ⟨first, hfirst⟩ := exists_run_submitTip htip date caseId
    have hstays : ∀ root ∈ rest, ∃ p ∈ Register.insert t (e.afterDeadline date caseId),
        p.id = root := by
      intro root hroot
      obtain ⟨q, hq, rfl⟩ := hrest root hroot
      exact Difference.stays_insert _ q hq
    obtain ⟨others, hothers⟩ := ih (h.afterDeadline_tip htip) hstays (tips_of_isDue htip hdue)
    rw [afterDeadline_insert he] at hothers
    refine ⟨first ++ others, ?_⟩
    apply Step.run_bind_eq_ok_iff.mpr ⟨first, _, hfirst, ?_⟩
    exact Step.run_bind_eq_ok_iff.mpr ⟨others, _, hothers, rfl⟩

theorem exists_root_of_isDue (h : Linked t) (hregular : t.Regular) (hp : p ∈ t)
    (hdue : p.IsDue date) : ∃ r ∈ t.roots, r.start ≤ date ∧ t.tip r.id = .ok p := by
  obtain ⟨l, r, hback⟩ := h.exists_walk_back hp
  obtain ⟨m, e, hforward⟩ := h.exists_walk_forward hback.end_mem
  have hlast := h.correctedBy_of_approved hp hdue.1
  obtain rfl := h.end_eq_of_root hback (.last hp hlast) hforward
  obtain ⟨hstart, _, _, _⟩ := Period.schedule_eq_iff.mp (hregular.schedule_eq_of_walk hback)
  refine ⟨r, mem_roots_of_walk hback, ?_, tip_of_walk hforward⟩
  rw [← hstart]
  exact Int.le_trans (hregular.scheduled p hp).start_le hdue.2

/-- A deadline always passes, and it submits what is due. -/
theorem exists_run_submitDue (h : Linked t) (hregular : t.Regular) (date : Date)
    (caseId : Option String) :
    ∃ ns, (submitDue date caseId).run t = (.ok ns, t.afterDeadline date caseId) := by
  have hroots : ∀ root ∈ (t.roots.filter fun p => p.start ≤ date).map Period.id,
      ∃ p ∈ t, p.id = root := by
    intro root hroot
    obtain ⟨p, hp, rfl⟩ := List.mem_map.mp hroot
    exact ⟨p, (mem_roots.mp (List.mem_filter.mp hp).1).1, rfl⟩
  have hdue : ∀ p ∈ t, p.IsDue date →
      ∃ root ∈ (t.roots.filter fun p => p.start ≤ date).map Period.id, t.tip root = .ok p := by
    intro p hp hpdue
    obtain ⟨r, hr, hstart, htip⟩ := h.exists_root_of_isDue hregular hp hpdue
    exact ⟨r.id, List.mem_map_of_mem (List.mem_filter.mpr ⟨hr, by simpa using hstart⟩), htip⟩
  obtain ⟨ns, hrun⟩ := h.exists_run_submitTips hroots hdue
  exact ⟨ns, Step.run_bind_eq_ok_iff.mpr ⟨t, t, rfl, hrun⟩⟩

end Linked

end PeriodTable

end Fortnight
