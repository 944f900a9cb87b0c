import Fortnight.Proofs.Period.Enabling
import Fortnight.Proofs.Person.Fresh
import Fortnight.Proofs.Person.History
import Fortnight.Proofs.Person.Shape

/-!
# Which events are accepted

What an event that is addressed to a period asks for can be read off the tip of
its chain (`Enables`), and that is all: in a person who can be reached by calls
with fresh identifiers, such an event is accepted exactly if its tip allows it.
None of the checks on the way stands in the way of it, and none is missing.
-/

namespace Fortnight

namespace Person

variable {p : Person} {c : Call} {id : Id} {tip : Period}

/-- A case worker may act for anybody, and an end user for themselves. -/
def Permits (p : Person) (actor : Actor) : Prop :=
  (∃ id, actor = .caseWorker id) ∨ actor = .endUser p.ident

theorem authorize_eq_ok_iff {actor : Actor} : p.authorize actor = .ok () ↔ p.Permits actor := by
  unfold authorize Permits
  cases actor with
  | endUser ident => simp
  | caseWorker id => simp

theorem Reachable.exists_obligationAt (h : Reachable p) (moment : Instant) :
    ∃ o, p.obligationAt moment = .ok o :=
  h.anchored.exists_asOf moment

/-- What an event that is addressed to a period asks of the tip of its chain. -/
def Enables (p : Person) (tip : Period) : Event → Prop
  | .addActivity _ date hours _ =>
    tip.state = .toBeFilled ∧ tip.containsDate date ∧ hours.WithinDay ∧
      ∃ d, tip.timeline.day? date = some d ∧ ¬ d.exempt ∧ d.liveActivities = []
  | .deleteActivity _ activity =>
    tip.state = .toBeFilled ∧ ∃ a ∈ tip.timeline.activities, a.id = activity ∧ a.state = .unlocked
  | .approve _ actor reference _ _ =>
    p.Permits actor ∧ tip.state = .toBeFilled ∧ tip.approvableFrom ≤ reference ∧
      ∀ o, tip.corrects = some o →
        ∃ q, p.periods.find? o = some q ∧ ¬ tip.timeline.sameContent q.timeline
  | .unapprove _ actor _ _ =>
    p.Permits actor ∧ tip.state = .approved ∧ tip.approvals.RevocableBy actor
  | .manualSubmit _ _ => tip.state = .approved
  | .correct _ => tip.state = .submitted ∨ tip.state = .toBeFilled ∧ tip.corrects ≠ none
  | _ => False

theorem exists_answer_eq_ok_iff :
    (∃ ns, p.answer c = .ok ns) ↔ ∃ ns p', Applied c.fresh c.rule p c.event ns p' := by
  constructor
  · rintro ⟨ns, hok⟩
    exact ⟨ns, _, applied_of_answer hok⟩
  · rintro ⟨ns, p', happlied⟩
    have hrun := Step.run_orNothing_eq_ok_iff.mpr (run_apply_eq_ok_iff.mpr happlied)
    exact ⟨ns, congrArg Prod.fst hrun⟩

theorem exists_edited_iff (h : FreshlyReachable p) (htip : tip ∈ p.periods) {event : Event}
    (hid : event.period? = some id) (hne : ∀ id, event ≠ .correct id) (fresh : ℕ → Id) :
    (∃ ns tip', Edited fresh p tip event ns tip') ↔ p.Enables tip event := by
  have hinStep := inStep_of_reachable h.reachable tip htip
  cases event with
  | addActivity period date hours type =>
    have hadd := Period.exists_run_add_iff hinStep (.create (fresh 0) date hours type)
    have hregular := (h.reachable.regular.scheduled tip htip).regular hinStep.toWellFormed
    constructor
    · rintro ⟨_, tip', hedited⟩
      cases hedited with
      | added hrun =>
        obtain ⟨hstate, hhours, d, hd, hfree⟩ := hadd.mp ⟨tip', hrun⟩
        exact ⟨hstate, hregular.containsDate_of_day? hd, hhours, d, hd, hfree⟩
    · rintro ⟨hstate, _, hhours, hday⟩
      obtain ⟨tip', hrun⟩ := hadd.mpr ⟨hstate, hhours, hday⟩
      exact ⟨_, tip', .added hrun⟩
  | deleteActivity period activity =>
    have hdelete := Period.exists_run_delete_iff (h.identified tip htip) activity
    constructor
    · rintro ⟨_, tip', hedited⟩
      cases hedited with
      | deleted hrun => exact hdelete.mp ⟨tip', hrun⟩
    · intro henabled
      obtain ⟨tip', hrun⟩ := hdelete.mpr henabled
      exact ⟨_, tip', .deleted hrun⟩
  | approve period actor reference moment justification =>
    have happrovable := h.reachable.linked.exists_approvable_iff htip reference
    constructor
    · rintro ⟨ns, tip', hedited⟩
      cases hedited with
      | approved hactor hcorrected hrun =>
        obtain ⟨hstate, hgate⟩ :=
          (Period.exists_run_approve_iff hinStep _ _ _).mp ⟨ns, tip', hrun⟩
        have hready := happrovable.mp ⟨_, hcorrected, hgate⟩
        exact ⟨authorize_eq_ok_iff.mp hactor, hstate, hready⟩
    · rintro ⟨hactor, hstate, hready⟩
      obtain ⟨corrected, hcorrected, hgate⟩ := happrovable.mpr hready
      obtain ⟨ns, tip', hrun⟩ := (Period.exists_run_approve_iff hinStep
        (.create (fresh 0) actor moment justification) reference corrected).mpr ⟨hstate, hgate⟩
      exact ⟨ns, tip', .approved (authorize_eq_ok_iff.mpr hactor) hcorrected hrun⟩
  | unapprove period actor moment justification =>
    have hunapprove := Period.exists_run_unapprove_iff hinStep
      ⟨fresh 0, actor, moment, justification⟩
    constructor
    · rintro ⟨ns, tip', hedited⟩
      cases hedited with
      | unapproved hactor hrun =>
        exact ⟨authorize_eq_ok_iff.mp hactor, hunapprove.mp ⟨ns, tip', hrun⟩⟩
    · rintro ⟨hactor, henabled⟩
      obtain ⟨ns, tip', hrun⟩ := hunapprove.mpr henabled
      exact ⟨ns, tip', .unapproved (authorize_eq_ok_iff.mpr hactor) hrun⟩
  | manualSubmit period moment =>
    constructor
    · rintro ⟨ns, tip', hedited⟩
      cases hedited with
      | submitted _ hrun => exact (Period.exists_run_submitManually_iff _).mp ⟨ns, tip', hrun⟩
    · intro happroved
      obtain ⟨o, ho⟩ := h.reachable.exists_obligationAt moment
      obtain ⟨ns, tip', hrun⟩ := (Period.exists_run_submitManually_iff o.caseId?).mpr happroved
      exact ⟨ns, tip', .submitted ho hrun⟩
  | correct period => exact absurd rfl (hne period)
  | _ => cases hid

/-- A call that is addressed to a period is accepted exactly where the tip of its
chain allows it. -/
theorem exists_applied_iff (h : FreshlyReachable p) (hfresh : c.IsFresh p)
    (hid : c.event.period? = some id) (htip : p.periods.tip id = .ok tip) :
    (∃ ns p', Applied c.fresh c.rule p c.event ns p') ↔ p.Enables tip c.event := by
  have hmem := PeriodTable.tip_mem htip
  by_cases hcorrect : ∃ id, c.event = .correct id
  · obtain ⟨id', hevent⟩ := hcorrect
    rw [hevent] at hid ⊢
    cases hid
    have hnew : p.periods.find? (c.fresh 0) = none := by
      refine Register.find?_eq_none_iff.mpr fun q hq hqid => ?_
      have hunused := hfresh.unused (c.fresh 0) (List.mem_map_of_mem (by decide))
      exact hunused (hqid ▸ PeriodTable.mem_ids_of_mem hq)
    have henabled := h.reachable.linked.exists_run_correct_iff hnew htip
    simp only [applied_corrected_iff]
    constructor
    · rintro ⟨ns, _, t, hrun, _⟩
      exact henabled.mp ⟨ns, t, hrun⟩
    · intro henables
      obtain ⟨ns, t, hrun⟩ := henabled.mpr henables
      exact ⟨ns, _, t, hrun, rfl⟩
  · push Not at hcorrect
    rw [← exists_edited_iff h hmem hid hcorrect c.fresh]
    simp only [applied_edited_iff hid hcorrect]
    constructor
    · rintro ⟨ns, _, tip', _, htip', hedited, _⟩
      obtain rfl : tip = tip' := Except.ok.inj (htip.symm.trans htip')
      exact ⟨ns, _, hedited⟩
    · rintro ⟨ns, tip', hedited⟩
      exact ⟨ns, _, tip, tip', htip, hedited, rfl⟩

theorem Applied.exists_tip {fresh : ℕ → Id} {rule : FinalizeRule} {event : Event}
    {ns : List Notification} {p' : Person} (h : Applied fresh rule p event ns p')
    (hid : event.period? = some id) : ∃ tip, p.periods.tip id = .ok tip := by
  cases h with
  | decided hmoment =>
    rw [Event.period?_of_decidedAt hmoment] at hid
    cases hid
  | rejected => cases hid
  | edited hid' htip =>
    rw [hid] at hid'
    cases hid'
    exact ⟨_, htip⟩
  | corrected hcorrect =>
    cases hid
    obtain ⟨tip, _, htip, _⟩ := PeriodTable.run_correct_eq_ok_iff.mp hcorrect
    exact ⟨tip, htip⟩

/-- An event for a period is accepted exactly if the tip of the chain allows it, and
always rejected if there is no such period. -/
theorem answer_of_freshlyReachable (h : FreshlyReachable p) (hfresh : c.IsFresh p)
    (hid : c.event.period? = some id) :
    (p.periods.contains id → ∃ tip, p.periods.tip id = .ok tip ∧
      ((∃ ns, p.answer c = .ok ns) ↔ p.Enables tip c.event)) ∧
    (¬ p.periods.contains id → ∃ e, p.answer c = .error e) := by
  constructor
  · intro hcontains
    obtain ⟨q, hq, rfl⟩ := Register.contains_iff.mp hcontains
    obtain ⟨l, tip, hw⟩ := h.reachable.linked.exists_walk_forward hq
    have htip := PeriodTable.tip_of_walk hw
    refine ⟨tip, htip, ?_⟩
    rw [exists_answer_eq_ok_iff, exists_applied_iff h hfresh hid htip]
  · intro hmissing
    cases hanswer : p.answer c with
    | error e => exact ⟨e, rfl⟩
    | ok ns =>
      obtain ⟨tip, htip⟩ := (applied_of_answer hanswer).exists_tip hid
      obtain ⟨q, hq, hqid, _⟩ := PeriodTable.walk_of_get_follow htip
      exact absurd (Register.contains_iff.mpr ⟨q, hq, hqid⟩) hmissing

section Approved

/-- The calls by which someone fills in a period and approves it. -/
def approvingCalls : List Call :=
  [⟨supplyFrom 10, .standard, .obligationStartDetermined (supplyFrom 9 0) (january 2)⟩,
    ⟨supplyFrom 30, .standard, .addActivity (supplyFrom 11 0) (january 3) workday .work⟩,
    ⟨supplyFrom 50, .standard, .approve (supplyFrom 11 0) (.endUser "01018012345")
      (january 15) (january 15).startOfDay none⟩]

def approvedByThemselves : Person :=
  (new (supplyFrom 1 0) "01018012345").run approvingCalls

set_option maxRecDepth 8000 in
theorem freshlyReachable_approvedByThemselves : FreshlyReachable approvedByThemselves := by
  have hfresh : (new (supplyFrom 1 0) "01018012345").freshRun approvingCalls := by
    cbv
  exact (FreshlyReachable.new _ _).run hfresh

/-- The approval is taken back by who gave it. -/
def takingBack : Call :=
  ⟨supplyFrom 70, .standard,
    .unapprove (supplyFrom 11 0) (.endUser "01018012345") (january 16).startOfDay none⟩

set_option maxRecDepth 8000 in
theorem isFresh_takingBack : takingBack.IsFresh approvedByThemselves := by
  have hfresh : decide (takingBack.IsFresh approvedByThemselves) = true := by
    cbv
  exact of_decide_eq_true hfresh

set_option maxRecDepth 8000 in
theorem answer_takingBack :
    FreshlyReachable approvedByThemselves ∧ takingBack.IsFresh approvedByThemselves ∧
      takingBack.event.period? = some (supplyFrom 11 0) ∧
      approvedByThemselves.periods.contains (supplyFrom 11 0) ∧
      (approvedByThemselves.answer takingBack).isOk ∧
      (approvedByThemselves.periods.contains (supplyFrom 11 0) →
        ∃ tip, approvedByThemselves.periods.tip (supplyFrom 11 0) = .ok tip ∧
          ((∃ ns, approvedByThemselves.answer takingBack = .ok ns) ↔
            approvedByThemselves.Enables tip takingBack.event)) ∧
      (¬ approvedByThemselves.periods.contains (supplyFrom 11 0) →
        ∃ e, approvedByThemselves.answer takingBack = .error e) :=
  ⟨freshlyReachable_approvedByThemselves, isFresh_takingBack, rfl, by cbv, by cbv,
    answer_of_freshlyReachable freshlyReachable_approvedByThemselves isFresh_takingBack rfl⟩

end Approved

end Person

end Fortnight
