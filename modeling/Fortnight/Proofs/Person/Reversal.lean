import Fortnight.Proofs.Period.Deadline
import Fortnight.Proofs.Period.Reversal
import Fortnight.Proofs.Person.Independence

/-!
# Taking an approval back later

Between an approval and its being taken back, other chains may be worked on,
fortnights may turn and deadlines may pass. None of this changes a period of the
chain, but that a deadline may submit it, and then the approval cannot be taken
back any more. So when it is, the period is as it was before it was approved.
-/

namespace Fortnight

/-- The period is there as it was, or as it is once it was submitted. -/
def PeriodTable.StillHas (t : PeriodTable) (e : Period) : Prop :=
  e ∈ t ∨ ∃ caseId, e.submittedUnder caseId ∈ t

theorem PeriodTable.stillHas_afterDeadline {t : PeriodTable} {e : Period} (he : e ∈ t) (date : Date)
    (caseId : Option String) : (t.afterDeadline date caseId).StillHas e := by
  have hafter : e.afterDeadline date caseId ∈ t.afterDeadline date caseId :=
    mem_afterDeadline.mpr ⟨e, he, rfl⟩
  by_cases hdue : e.IsDue date
  · rw [Period.afterDeadline_of_isDue hdue] at hafter
    exact Or.inr ⟨caseId, hafter⟩
  · rw [Period.afterDeadline_of_not_isDue hdue] at hafter
    exact Or.inl hafter

namespace Person

variable {p p' : Person} {c d : Call} {id a root : Id} {e tip : Period} {calls : List Call}
  {ns : List Notification}

/-- Each of the calls is addressed elsewhere than to the chain with this root. -/
def Elsewhere (root : Id) : Person → List Call → Prop
  | _, [] => True
  | p, c :: rest => ¬ p.Addressed c root ∧ Elsewhere root (p.after c) rest

theorem Addressed.not_addressed {other : Id} (h : p.Addressed c other) (hne : other ≠ root) :
    ¬ p.Addressed c root := by
  intro h'
  obtain ⟨id, hid, hother⟩ := h
  obtain ⟨id', hid', hroot⟩ := h'
  obtain rfl : id = id' := Option.some.inj (hid.symm.trans hid')
  exact hne (Except.ok.inj (hother.symm.trans hroot))

namespace Reachable

theorem stillHas_of_decided (h : Reachable p) {id : Id} {rule : FinalizeRule} {moment : Instant}
    {effects : List Effect} (hdecided : Decided id rule moment p effects ns p')
    (he : e ∈ p.periods) : p'.periods.StillHas e := by
  cases hdecided with
  | ignored | requested | noted => exact Or.inl he
  | started hopen =>
    obtain ⟨_, _, ⟨_, rfl, _⟩ | ⟨_, r, hr, rfl, _⟩⟩ := PeriodTable.openFirst_cases hopen
    · exact Or.inl he
    · exact Or.inl (PeriodTable.mem_insert_of_new hr.find?_eq_none he)
  | continued _ hopen =>
    obtain ⟨_, _, ⟨_, rfl, _⟩ | ⟨_, r, hr, rfl, _⟩⟩ := PeriodTable.openNext_cases hopen
    · exact Or.inl he
    · exact Or.inl (PeriodTable.mem_insert_of_new hr.find?_eq_none he)
  | @submitted date caseId _ _ hsubmit =>
    obtain ⟨_, hrun⟩ := h.linked.exists_run_submitDue h.regular date caseId
    cases hsubmit.symm.trans hrun
    exact PeriodTable.stillHas_afterDeadline he date caseId

theorem stillHas_of_applied (h : Reachable p) {fresh : ℕ → Id} {rule : FinalizeRule}
    {event : Event} (happlied : Applied fresh rule p event ns p') (hnone : event.period? = none)
    (he : e ∈ p.periods) : p'.periods.StillHas e := by
  cases happlied with
  | decided _ _ hdecided => exact h.stillHas_of_decided hdecided he
  | rejected => exact Or.inl he
  | edited hid =>
    rw [hnone] at hid
    cases hid
  | corrected => cases hnone

theorem stillHas_after (h : Reachable p) (he : e ∈ p.periods)
    (hroot : p.periods.rootId e.id = .ok root) (hc : ¬ p.Addressed c root) :
    (p.after c).periods.StillHas e := by
  cases hanswer : p.answer c with
  | error =>
    rw [after_eq_of_error hanswer]
    exact Or.inl he
  | ok ns =>
    have happlied := applied_of_answer hanswer
    cases hid : c.event.period? with
    | none => exact h.stillHas_of_applied happlied hid he
    | some a =>
      obtain ⟨tip, htip⟩ := happlied.exists_tip hid
      obtain ⟨q, hq, rfl, _⟩ := PeriodTable.walk_of_get_follow htip
      obtain ⟨other, hother⟩ := h.linked.exists_rootId hq
      have hne : root ≠ other := by
        rintro rfl
        exact hc ⟨q.id, hid, hother⟩
      exact Or.inl ((h.agreesOutside_after hid hother).mem he hroot hne)

/-- However many calls are addressed elsewhere, they leave the periods of a chain as
they are, or submit them. -/
theorem stillHas_run (h : Reachable p) (he : e ∈ p.periods)
    (hroot : p.periods.rootId e.id = .ok root) (hcalls : p.Elsewhere root calls) :
    (p.run calls).periods.StillHas e := by
  induction calls generalizing p e with
  | nil => exact Or.inl he
  | cons c rest ih =>
    obtain ⟨hc, hrest⟩ := hcalls
    have hroot' := (h.frozen_after c).rootId_eq hroot
    rcases h.stillHas_after he hroot hc with hsame | ⟨caseId, hsubmitted⟩
    · exact ih (h.after c) hsame hroot' hrest
    · -- The induction does not know that nothing is submitted twice. It need not: of two
      -- submissions the later one counts.
      right
      rcases ih (h.after c) hsubmitted hroot' hrest with hsame | ⟨caseId', hsame⟩
      · exact ⟨caseId, hsame⟩
      · exact ⟨caseId', hsame⟩

theorem rootId_run (h : Reachable p) (ha : p.periods.rootId a = .ok root) (calls : List Call) :
    (p.run calls).periods.rootId a = .ok root := by
  induction calls generalizing p with
  | nil => exact ha
  | cons c rest ih => exact ih (h.after c) ((h.frozen_after c).rootId_eq ha)

theorem exists_tip_run (h : Reachable p) (hroot : p.periods.rootId id = .ok root)
    (htip : p.periods.tip id = .ok tip) (hcalls : p.Elsewhere root calls)
    (ha : (p.run calls).periods.rootId a = .ok root) :
    ∃ e, (p.run calls).periods.tip a = .ok e ∧
      (e = tip ∨ ∃ caseId, e = tip.submittedUnder caseId) := by
  have hlinked := (h.run calls).linked
  have hlast := PeriodTable.tip_correctedBy htip
  have htiproot : p.periods.rootId tip.id = .ok root := (h.linked.rootId_of_tip htip).trans hroot
  have hroot' := h.rootId_run htiproot calls
  rcases h.stillHas_run (PeriodTable.tip_mem htip) htiproot hcalls with hsame | ⟨caseId, hsubmitted⟩
  · exact ⟨tip, hlinked.tip_eq_of_correctedBy hsame hlast hroot' ha, Or.inl rfl⟩
  · refine ⟨tip.submittedUnder caseId, ?_, Or.inr ⟨caseId, rfl⟩⟩
    exact hlinked.tip_eq_of_correctedBy hsubmitted hlast hroot' ha

theorem exists_tip_after (h : Reachable p) (hroot : p.periods.rootId id = .ok root)
    (htip : p.periods.tip id = .ok tip) (hid : c.event.period? = some id)
    (hne : ∀ id, c.event ≠ .correct id) (hok : p.answer c = .ok ns) :
    ∃ tip', Edited c.fresh p tip c.event ns tip' ∧
      ∀ a, p.periods.rootId a = .ok root → (p.after c).periods.tip a = .ok tip' := by
  obtain ⟨_, tip', htip', hedited, hafter⟩ :=
    (applied_edited_iff hid hne).mp (applied_of_answer hok)
  obtain rfl := Except.ok.inj (htip.symm.trans htip')
  refine ⟨tip', hedited, ?_⟩
  intro a ha
  have hfrozen := h.frozen_after c
  have hmem : tip' ∈ (p.after c).periods := by
    rw [← hafter]
    exact Register.mem_insert.mpr (Or.inl rfl)
  have hlast : tip'.correctedBy = none :=
    hedited.edit.correctedBy_eq.trans (PeriodTable.tip_correctedBy htip)
  have hroot' : (p.after c).periods.rootId tip'.id = .ok root := by
    rw [hedited.edit.id_eq]
    exact hfrozen.rootId_eq ((h.linked.rootId_of_tip htip).trans hroot)
  exact (h.after c).linked.tip_eq_of_correctedBy hmem hlast hroot' (hfrozen.rootId_eq ha)

end Reachable

/-- An approval that is taken back leaves an entry in the log and nothing else, whatever
was addressed elsewhere in the meantime. -/
theorem unapproval_undoes_approval (h : Reachable p) {id' : Id} {actor actor' : Actor}
    {reference : Date} {moment moment' : Instant} {justification justification' : Option String}
    {ns' : List Notification} (hroot : p.periods.rootId id = .ok root)
    (htip : p.periods.tip id = .ok tip)
    (hc : c.event = .approve id actor reference moment justification)
    (happroved : p.answer c = .ok ns) (hcalls : (p.after c).Elsewhere root calls)
    (hd : d.event = .unapprove id' actor' moment' justification')
    (hroot' : ((p.after c).run calls).periods.rootId id' = .ok root)
    (hunapproved : ((p.after c).run calls).answer d = .ok ns') :
    ∀ a, p.periods.rootId a = .ok root →
      (((p.after c).run calls).after d).periods.tip a = .ok { tip with
        approvals := ⟨tip.approvals.entries ++ [⟨c.fresh 0, actor, moment, justification,
          some ⟨d.fresh 0, actor', moment', justification'⟩⟩]⟩ } := by
  have hkeep : ∀ a, p.periods.rootId a = .ok root → (p.after c).periods.rootId a = .ok root :=
    fun a ha => (h.frozen_after c).rootId_eq ha
  obtain ⟨approved, happrove, htip₁⟩ :=
    h.exists_tip_after hroot htip (by rw [hc]; rfl) (by simp [hc]) happroved
  obtain ⟨e, htip₂, hsame⟩ :=
    (h.after c).exists_tip_run (hkeep id hroot) (htip₁ id hroot) hcalls hroot'
  obtain ⟨reverted, hunapprove, htip₃⟩ :=
    ((h.after c).run calls).exists_tip_after hroot' htip₂ (by rw [hd]; rfl) (by simp [hd])
      hunapproved
  rw [hc] at happrove
  rw [hd] at hunapprove
  cases happrove with
  | approved _ _ happrove =>
    cases hunapprove with
    | unapproved _ hunapprove =>
      rcases hsame with rfl | ⟨caseId, rfl⟩
      · have hinStep := inStep_of_reachable h tip (PeriodTable.tip_mem htip)
        obtain rfl := hinStep.unapprove_approve happrove hunapprove
        intro a ha
        exact htip₃ a ((h.after c).rootId_run (hkeep a ha) calls)
      · obtain ⟨hstate, _⟩ := Period.run_unapprove_eq_ok_iff.mp hunapprove
        cases hstate

section Twice

/-- Someone with two periods. In the first one an activity was added, and another one
added and deleted. -/
def filledTwice : Person :=
  (new (supplyFrom 1 0) "01018012345").run
    [⟨supplyFrom 10, .standard, .obligationStartDetermined (supplyFrom 9 0) (january 2)⟩,
      ⟨supplyFrom 20, .standard, .newCycleStarted (january 15)⟩,
      ⟨supplyFrom 30, .standard, .addActivity (supplyFrom 11 0) (january 3) workday .work⟩,
      ⟨supplyFrom 40, .standard, .addActivity (supplyFrom 11 0) (january 4) workday .sick⟩,
      ⟨supplyFrom 50, .standard, .deleteActivity (supplyFrom 11 0) (supplyFrom 40 0)⟩]

theorem reachable_filledTwice : Reachable filledTwice :=
  (Reachable.new _ _).run _

/-- The first of the two periods is approved. -/
def approveFirst : Call :=
  ⟨supplyFrom 60, .standard, .approve (supplyFrom 11 0) (.endUser "01018012345")
    (january 15) (january 15).startOfDay none⟩

/-- The second period is approved, and a deadline passes by which none of them is due. -/
def meanwhile : List Call :=
  [⟨supplyFrom 70, .standard, .approve (supplyFrom 21 0) (.caseWorker "Z990001")
      (january 29) (january 29).startOfDay none⟩,
    ⟨supplyFrom 80, .standard, .deadlinePassed (january 12)⟩]

/-- A case worker takes the approval of the first period back. -/
def takeBackFirst : Call :=
  ⟨supplyFrom 90, .standard, .unapprove (supplyFrom 11 0) (.caseWorker "Z990001")
    (january 30).startOfDay none⟩

set_option maxRecDepth 8000 in
theorem rootId_filledTwice :
    filledTwice.periods.rootId (supplyFrom 11 0) = .ok (supplyFrom 11 0) ∧
      filledTwice.periods.rootId (supplyFrom 21 0) = .ok (supplyFrom 21 0) := by
  cbv
  exact ⟨rfl, rfl⟩

theorem elsewhere_meanwhile :
    (filledTwice.after approveFirst).Elsewhere (supplyFrom 11 0) meanwhile := by
  refine ⟨?_, ?_, trivial⟩
  · have hroot := (reachable_filledTwice.frozen_after approveFirst).rootId_eq rootId_filledTwice.2
    exact Addressed.not_addressed ⟨supplyFrom 21 0, rfl, hroot⟩ (by decide)
  · intro h
    obtain ⟨_, hid, _⟩ := h
    cases hid

set_option maxRecDepth 8000 in
theorem isOk_filledTwice :
    (filledTwice.answer approveFirst).isOk ∧
      (((filledTwice.after approveFirst).run meanwhile).answer takeBackFirst).isOk := by
  cbv

/-- Not even the deleted activity is different. -/
theorem unapproval_undoes_approval_filledTwice :
    Reachable filledTwice ∧ filledTwice.periods.rootId (supplyFrom 11 0) = .ok (supplyFrom 11 0) ∧
      (filledTwice.after approveFirst).Elsewhere (supplyFrom 11 0) meanwhile ∧
      ∃ tip ns ns', filledTwice.periods.tip (supplyFrom 11 0) = .ok tip ∧
        filledTwice.answer approveFirst = .ok ns ∧
        ((filledTwice.after approveFirst).run meanwhile).answer takeBackFirst = .ok ns' ∧
        ∀ a, filledTwice.periods.rootId a = .ok (supplyFrom 11 0) →
          (((filledTwice.after approveFirst).run meanwhile).after takeBackFirst).periods.tip a =
            .ok { tip with approvals := ⟨tip.approvals.entries ++
              [⟨supplyFrom 60 0, .endUser "01018012345", (january 15).startOfDay, none,
                some ⟨supplyFrom 90 0, .caseWorker "Z990001", (january 30).startOfDay,
                  none⟩⟩]⟩ } := by
  have hreachable := reachable_filledTwice
  obtain ⟨hroot, _⟩ := rootId_filledTwice
  obtain ⟨tip, htip, _⟩ := hreachable.linked.exists_tip_of_rootId hroot hroot
  obtain ⟨ns, happroved⟩ := Error.exists_of_isOk isOk_filledTwice.1
  obtain ⟨ns', hunapproved⟩ := Error.exists_of_isOk isOk_filledTwice.2
  have hroot' := (hreachable.after approveFirst).rootId_run
    ((hreachable.frozen_after approveFirst).rootId_eq hroot) meanwhile
  exact ⟨hreachable, hroot, elsewhere_meanwhile, tip, ns, ns', htip, happroved, hunapproved,
    unapproval_undoes_approval hreachable hroot htip rfl happroved elsewhere_meanwhile rfl hroot'
      hunapproved⟩

end Twice

end Person

end Fortnight
