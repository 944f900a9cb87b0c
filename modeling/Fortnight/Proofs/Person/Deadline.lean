import Fortnight.Proofs.Period.Deadline
import Fortnight.Proofs.Person.Announcement
import Fortnight.Proofs.Person.Enabling

/-!
# How periods are submitted

A deadline submits what is due, under the case of the obligation in effect at the
start of its date, and passes without a trace where there is no obligation. The
other way to submit a period is to do so by hand, under the obligation in effect
at the instant of the event. There is no third way, so that the case of a
submitted period tells which obligation was in effect, according to the history
as it was then, for the event that submitted it.
-/

namespace Fortnight

/-- The instant of which the obligation decides under which case the event submits
a period. -/
def Event.submitsAt? : Event → Option Instant
  | deadlinePassed date => some date.startOfDay
  | manualSubmit _ moment => some moment
  | _ => none

namespace Obligation

variable {id : Id} {o : Obligation} {event : Event} {date : Date} {caseId : Option String}

theorem decide_deadlinePassed (h : o.kind ≠ .absent) (id : Id) (date : Date) :
    o.decide id (.deadlinePassed date) = [.submitDuePeriods date o.caseId?] :=
  decide_of_present h

theorem submit_of_decide (h : o.decide id event = [.submitDuePeriods date caseId]) :
    event = .deadlinePassed date ∧ caseId = o.caseId? := by
  by_cases hkind : o.kind = .absent
  · rw [decide_of_absent hkind] at h
    cases event <;> cases h
  · rw [decide_of_present hkind] at h
    cases event with
    | deadlinePassed =>
      cases h
      exact ⟨rfl, rfl⟩
    | _ => cases h

end Obligation

namespace PeriodTable

variable {t t' : PeriodTable} {q : Period} {id : Id} {caseId : Option String}

/-- There is a submitted period with this identifier and this case. -/
def HasSubmitted (t : PeriodTable) (id : Id) (caseId : Option String) : Prop :=
  ∃ q ∈ t, q.id = id ∧ q.state = .submitted ∧ q.caseId = caseId

theorem Frozen.hasSubmitted (h : t.Frozen t') (hq : t.HasSubmitted id caseId) :
    t'.HasSubmitted id caseId := by
  obtain ⟨q, hq, hid, hstate, hcase⟩ := hq
  obtain ⟨c, hq', _⟩ := h.submitted q hq hstate
  exact ⟨_, hq', hid, hstate, hcase⟩

theorem NewRoot.of_hasSubmitted {start since : Date} {p : Period} (hroot : t.NewRoot start since p)
    (h : HasSubmitted (t.insert p) id caseId) : t.HasSubmitted id caseId := by
  obtain ⟨_, _, _, _, _, _, _, rfl⟩ := hroot.exists_eq
  obtain ⟨q, hq, hrest⟩ := h
  rcases Register.mem_insert.mp hq with rfl | ⟨hq, _⟩
  · cases hrest.2.1
  · exact ⟨q, hq, hrest⟩

theorem hasSubmitted_of_correct {fresh : ℕ → Id} {period : Id} {ns : List Notification}
    (hcorrect : (correct fresh period).run t = (.ok ns, t')) (h : t'.HasSubmitted id caseId) :
    t.HasSubmitted id caseId := by
  obtain ⟨tip, corrected, htip, hcorrectable, hnew, rfl⟩ := withCorrection_of_correct hcorrect
  have htip := tip_mem htip
  have hcorrected := mem_of_correctable htip hcorrectable
  obtain ⟨q, hq, hid, hstate, hcase⟩ := h
  rcases (mem_withCorrection hnew hcorrected htip).mp hq with rfl | ⟨p, hp, rfl⟩
  · cases hstate
  · -- A new link submits nothing.
    rw [Period.relinked_id] at hid
    rw [Period.relinked_state] at hstate
    refine ⟨p, hp, hid, hstate, ?_⟩
    rw [← hcase]
    unfold Period.relinked
    split <;> rfl

end PeriodTable

namespace Person

variable {p p' : Person} {c : Call} {ns : List Notification} {id : Id} {caseId : Option String}
  {date : Date} {moment : Instant} {tip tip' : Period}

/-- The call submits the approved period with this identifier, under the case of
the obligation that is in effect at the instant of the call. -/
structure Submits (p : Person) (c : Call) (id : Id) (caseId : Option String) : Prop where
  exists_case : ∃ moment o, c.event.submitsAt? = some moment ∧ p.obligationAt moment = .ok o ∧
    caseId = o.caseId?
  exists_period : ∃ q ∈ p.periods, q.id = id ∧ q.state = .approved ∧
    q.submittedUnder caseId ∈ (p.after c).periods

theorem Submits.hasSubmitted (h : p.Submits c id caseId) :
    (p.after c).periods.HasSubmitted id caseId := by
  obtain ⟨q, _, hid, _, hq⟩ := h.exists_period
  exact ⟨_, hq, hid, rfl, rfl⟩

/-- A deadline passes without a trace where there is no obligation. Otherwise it
leaves the periods as those are that are due. -/
theorem Reachable.deadline (h : Reachable p) (hevent : c.event = .deadlinePassed date) :
    ∃ o ns, p.obligationAt date.startOfDay = .ok o ∧ p.answer c = .ok ns ∧
      (o.kind = .absent → ns = [] ∧ p.after c = p) ∧
      (o.kind ≠ .absent →
        p.after c = { p with periods := p.periods.afterDeadline date o.caseId? }) := by
  obtain ⟨o, ho⟩ := h.exists_obligationAt date.startOfDay
  have hmoment : c.event.decidedAt? = some date.startOfDay := by
    rw [hevent]
    rfl
  by_cases hkind : o.kind = .absent
  · have hdecided : Decided (c.fresh 1) c.rule date.startOfDay p
        (o.decide (c.fresh 0) c.event) [] p := by
      rw [hevent, Obligation.decide_of_absent hkind]
      exact .ignored
    obtain ⟨hok, hafter⟩ := answer_of_applied (.decided hmoment ho hdecided)
    exact ⟨o, [], ho, hok, fun _ => ⟨rfl, hafter⟩, fun hne => absurd hkind hne⟩
  · obtain ⟨ns, hrun⟩ := h.linked.exists_run_submitDue h.regular date o.caseId?
    have hdecided : Decided (c.fresh 1) c.rule date.startOfDay p
        (o.decide (c.fresh 0) c.event) ns
        { p with periods := p.periods.afterDeadline date o.caseId? } := by
      rw [hevent, Obligation.decide_deadlinePassed hkind]
      exact .submitted hrun
    obtain ⟨hok, hafter⟩ := answer_of_applied (.decided hmoment ho hdecided)
    exact ⟨o, ns, ho, hok, fun he => absurd he hkind, fun _ => hafter⟩

theorem submits_of_deadline (h : Reachable p) (hevent : c.event = .deadlinePassed date)
    (hq : (p.after c).periods.HasSubmitted id caseId) :
    p.periods.HasSubmitted id caseId ∨ p.Submits c id caseId := by
  obtain ⟨o, ns, ho, _, habsent, hpresent⟩ := h.deadline hevent
  by_cases hkind : o.kind = .absent
  · rw [(habsent hkind).2] at hq
    exact Or.inl hq
  · have hafter := hpresent hkind
    obtain ⟨q', hq', rfl, hstate, rfl⟩ := hq
    rw [hafter] at hq'
    obtain ⟨q, hq, rfl⟩ := PeriodTable.mem_afterDeadline.mp hq'
    by_cases hdue : q.IsDue date
    · rw [Period.afterDeadline_of_isDue hdue] at hq' ⊢
      refine Or.inr ⟨⟨date.startOfDay, o, ?_, ho, rfl⟩, q, hq, rfl, hdue.1, ?_⟩
      · rw [hevent]
        rfl
      · rw [hafter]
        exact hq'
    · rw [Period.afterDeadline_of_not_isDue hdue] at hstate ⊢
      exact Or.inl ⟨q, hq, rfl, hstate, rfl⟩

theorem manualSubmit_of_answer (hevent : c.event = .manualSubmit id moment)
    (hok : p.answer c = .ok ns) :
    ∃ o tip, p.obligationAt moment = .ok o ∧ p.periods.tip id = .ok tip ∧
      tip.state = .approved ∧
      p.after c = { p with periods := p.periods.insert (tip.submittedUnder o.caseId?) } := by
  have happlied := applied_of_answer hok
  rw [hevent, applied_edited_iff rfl (by simp)] at happlied
  obtain ⟨tip, tip', htip, hedited, hafter⟩ := happlied
  cases hedited with
  | submitted ho hsubmit =>
    obtain ⟨hstate, rfl, _⟩ := Period.run_submitManually_eq_ok_iff.mp hsubmit
    exact ⟨_, tip, ho, htip, hstate, hafter.symm⟩

theorem submits_of_manualSubmit {period : Id} (hevent : c.event = .manualSubmit period moment)
    (hok : p.answer c = .ok ns) (hq : (p.after c).periods.HasSubmitted id caseId) :
    p.periods.HasSubmitted id caseId ∨ p.Submits c id caseId := by
  obtain ⟨o, tip, ho, htip, hstate, hafter⟩ := manualSubmit_of_answer hevent hok
  obtain ⟨q, hq, rfl, hqstate, rfl⟩ := hq
  rw [hafter] at hq
  rcases Register.mem_insert.mp hq with rfl | ⟨hold, _⟩
  · refine Or.inr ⟨⟨moment, o, ?_, ho, rfl⟩, tip, PeriodTable.tip_mem htip, rfl, hstate, ?_⟩
    · rw [hevent]
      rfl
    · rw [hafter]
      exact hq
  · exact Or.inl ⟨q, hold, rfl, hqstate, rfl⟩

theorem Applied.of_hasSubmitted {fresh : ℕ → Id} {rule : FinalizeRule} {event : Event}
    (h : Applied fresh rule p event ns p') (hnone : event.submitsAt? = none)
    (hq : p'.periods.HasSubmitted id caseId) : p.periods.HasSubmitted id caseId := by
  cases h with
  | @decided _ _ o _ _ _ _ hdecided =>
    generalize heffects : o.decide (fresh 0) event = effects at hdecided
    cases hdecided with
    | ignored | requested | noted => exact hq
    | started hopen =>
      obtain ⟨_, _, ⟨_, rfl, _⟩ | ⟨_, r, hr, rfl, _⟩⟩ := PeriodTable.openFirst_cases hopen
      · exact hq
      · exact hr.of_hasSubmitted hq
    | continued _ hopen =>
      obtain ⟨_, _, ⟨_, rfl, _⟩ | ⟨_, r, hr, rfl, _⟩⟩ := PeriodTable.openNext_cases hopen
      · exact hq
      · exact hr.of_hasSubmitted hq
    | submitted =>
      obtain ⟨rfl, _⟩ := Obligation.submit_of_decide heffects
      cases hnone
  | rejected => exact hq
  | edited _ _ hedited =>
    obtain ⟨q, hq, hid, hstate, hcase⟩ := hq
    rcases Register.mem_insert.mp hq with rfl | ⟨hq, _⟩
    · -- What another event than a submission leaves is a draft or approved.
      exfalso
      cases hedited with
      | submitted => cases hnone
      | added hadd =>
        obtain ⟨hdraft, _, _, rfl⟩ := Period.run_add_eq_ok_iff.mp hadd
        simp [hdraft] at hstate
      | deleted hdelete =>
        obtain ⟨hdraft, _, _, rfl⟩ := Period.run_delete_eq_ok_iff.mp hdelete
        simp [hdraft] at hstate
      | approved _ _ happrove =>
        obtain ⟨_, _, _, _, _, _, rfl, _⟩ := Period.run_approve_eq_ok_iff.mp happrove
        cases hstate
      | unapproved _ hunapprove =>
        obtain ⟨_, _, _, _, _, rfl, _⟩ := Period.run_unapprove_eq_ok_iff.mp hunapprove
        cases hstate
    · exact ⟨q, hq, hid, hstate, hcase⟩
  | corrected hcorrect => exact PeriodTable.hasSubmitted_of_correct hcorrect hq

theorem Reachable.hasSubmitted_after_iff (h : Reachable p) (c : Call) :
    (p.after c).periods.HasSubmitted id caseId ↔
      p.periods.HasSubmitted id caseId ∨ p.Submits c id caseId := by
  constructor
  · intro hq
    obtain ⟨ns, hok, _⟩ | ⟨_, _, hsame⟩ := p.answer_cases c
    · by_cases hsubmits : c.event.submitsAt? = none
      · exact Or.inl ((applied_of_answer hok).of_hasSubmitted hsubmits hq)
      · cases hevent : c.event with
        | deadlinePassed => exact submits_of_deadline h hevent hq
        | manualSubmit => exact submits_of_manualSubmit hevent hok hq
        | _ => exact absurd (congrArg Event.submitsAt? hevent) hsubmits
    · rw [hsame] at hq
      exact Or.inl hq
  · rintro (hq | hq)
    · exact (h.linked.frozen_of_moves (p.evolves_after c).periods).hasSubmitted hq
    · exact hq.hasSubmitted

theorem Reachable.hasSubmitted_run_iff (h : Reachable p) (calls : List Call) :
    (p.run calls).periods.HasSubmitted id caseId ↔
      p.periods.HasSubmitted id caseId ∨
        ∃ before c later, calls = before ++ c :: later ∧ (p.run before).Submits c id caseId := by
  induction calls generalizing p with
  | nil =>
    constructor
    · intro hq
      exact Or.inl hq
    · rintro (hq | ⟨before, _, _, hcalls, _⟩)
      · exact hq
      · simp at hcalls
  | cons c rest ih =>
    change ((p.after c).run rest).periods.HasSubmitted id caseId ↔ _
    rw [ih (h.after c), h.hasSubmitted_after_iff c]
    constructor
    · rintro ((hq | hq) | ⟨before, c', later, rfl, hq⟩)
      · exact Or.inl hq
      · exact Or.inr ⟨[], c, rest, rfl, hq⟩
      · exact Or.inr ⟨c :: before, c', later, rfl, hq⟩
    · rintro (hq | ⟨_ | ⟨d, before⟩, c', later, hcalls, hq⟩)
      · exact Or.inl (Or.inl hq)
      · cases hcalls
        exact Or.inl (Or.inr hq)
      · cases hcalls
        exact Or.inr ⟨before, c', later, rfl, hq⟩

theorem Reachable.submits_of_mem (h : Reachable p) (hok : p.answer c = .ok ns)
    {start finish : Date} {days : List Day} {corrects : Option Id}
    (hn : .periodSubmitted id start finish days caseId corrects ∈ ns) :
    p.Submits c id caseId := by
  obtain ⟨requests, told, rfl, hrequests, changed, hdifference, rfl⟩ :=
    (applied_of_answer hok).announces
  have htold : .periodSubmitted id start finish days caseId corrects ∈
      p.periods.announcements changed := by
    rcases List.mem_append.mp hn with hn | hn
    · obtain ⟨_, hrequest⟩ := hrequests _ hn
      cases hrequest
    · exact hn
  obtain ⟨q, hq, hn⟩ := List.mem_flatMap.mp htold
  obtain ⟨hmem, hchanged⟩ := (hdifference.mem_iff q).mp hq
  by_cases hstate : q.state = .submitted
  · rw [Period.announcement_of_submitted hstate] at hn
    obtain ⟨rfl, rfl⟩ : id = q.id ∧ caseId = q.caseId := by
      simp_all [Period.stateChanged, Period.submission]
    rcases (h.hasSubmitted_after_iff c).mp ⟨q, hmem, rfl, hstate, rfl⟩ with hbefore | hsubmits
    · obtain ⟨r, hr, hid, hrstate, _⟩ := hbefore
      rw [← hid, PeriodTable.stateOf?_of_mem hr, hrstate, hstate] at hchanged
      exact absurd rfl hchanged
    · exact hsubmits
  · rw [Period.announcement_of_ne hstate] at hn
    simp [Period.stateChanged] at hn

/-- A deadline leaves nothing that is due and changes nothing else. What it submits,
and what is submitted by hand, gets the case of the obligation in effect at the
instant of the event, and nothing else is ever submitted. -/
theorem submissions_of_reachable (h : Reachable p) :
    (∀ c date, c.event = .deadlinePassed date →
      ∃ o ns, p.obligationAt date.startOfDay = .ok o ∧ p.answer c = .ok ns ∧
        (o.kind = .absent → ns = [] ∧ p.after c = p) ∧
        (o.kind ≠ .absent →
          (p.after c).ident = p.ident ∧ (p.after c).obligations = p.obligations ∧
          (p.after c).periods.toList =
            p.periods.toList.map (Period.afterDeadline date o.caseId?) ∧
          ∀ q ∈ (p.after c).periods, ¬ q.IsDue date)) ∧
    (∀ c id moment ns, c.event = .manualSubmit id moment → p.answer c = .ok ns →
      ∃ o tip, p.obligationAt moment = .ok o ∧ p.periods.tip id = .ok tip ∧
        tip.state = .approved ∧
        p.after c = { p with periods := p.periods.insert (tip.submittedUnder o.caseId?) }) ∧
    (∀ c ns id start finish days caseId corrects, p.answer c = .ok ns →
      .periodSubmitted id start finish days caseId corrects ∈ ns → p.Submits c id caseId) ∧
    ∀ calls id caseId, (p.run calls).periods.HasSubmitted id caseId ↔
      p.periods.HasSubmitted id caseId ∨
        ∃ before c later, calls = before ++ c :: later ∧
          (p.run before).Submits c id caseId := by
  refine ⟨?_, ?_, ?_, ?_⟩
  · intro c date hevent
    obtain ⟨o, ns, ho, hok, habsent, hpresent⟩ := h.deadline hevent
    refine ⟨o, ns, ho, hok, habsent, ?_⟩
    intro hkind
    rw [hpresent hkind]
    exact ⟨rfl, rfl, rfl, fun q hq => PeriodTable.not_isDue_of_mem_afterDeadline hq⟩
  · intro c id moment ns hevent hok
    exact manualSubmit_of_answer hevent hok
  · intro c ns id start finish days caseId corrects hok hn
    exact h.submits_of_mem hok hn
  · intro calls id caseId
    exact h.hasSubmitted_run_iff calls

section Granted

/-- A decision for someone of whom a correction of the first period is approved. -/
def grantedLater : List Call :=
  laterCalls.take 3 ++
    [⟨supplyFrom 130, .standard, .decisionGranted "case-1" (january 20)⟩]

set_option maxRecDepth 8000 in
/-- The original was submitted without a case. The correction gets that of the decision. -/
theorem submissions_grantedLater :
    (restarted.run grantedLater).obligationAt (january 31).startOfDay =
      .ok ⟨supplyFrom 130 0, .decisionBased "case-1", (january 20).startOfDay⟩ ∧
    (((restarted.run grantedLater).after deadline).periods.toList.map fun q =>
      (q.id.value, q.state, q.corrects.map Id.value, q.caseId)) =
      [(11, .submitted, none, none), (50, .toBeFilled, some 11, none),
        (70, .toBeFilled, some 11, none), (80, .submitted, some 11, some "case-1")] ∧
    (∀ c date, c.event = .deadlinePassed date →
      ∃ o ns, (restarted.run grantedLater).obligationAt date.startOfDay = .ok o ∧
        (restarted.run grantedLater).answer c = .ok ns ∧
        (o.kind = .absent → ns = [] ∧
          (restarted.run grantedLater).after c = restarted.run grantedLater) ∧
        (o.kind ≠ .absent →
          ((restarted.run grantedLater).after c).ident = (restarted.run grantedLater).ident ∧
          ((restarted.run grantedLater).after c).obligations =
            (restarted.run grantedLater).obligations ∧
          ((restarted.run grantedLater).after c).periods.toList =
            (restarted.run grantedLater).periods.toList.map
              (Period.afterDeadline date o.caseId?) ∧
          ∀ q ∈ ((restarted.run grantedLater).after c).periods, ¬ q.IsDue date)) ∧
    (∀ c id moment ns, c.event = .manualSubmit id moment →
      (restarted.run grantedLater).answer c = .ok ns →
      ∃ o tip, (restarted.run grantedLater).obligationAt moment = .ok o ∧
        (restarted.run grantedLater).periods.tip id = .ok tip ∧ tip.state = .approved ∧
        (restarted.run grantedLater).after c =
          { restarted.run grantedLater with
            periods := (restarted.run grantedLater).periods.insert
              (tip.submittedUnder o.caseId?) }) ∧
    (∀ c ns id start finish days caseId corrects,
      (restarted.run grantedLater).answer c = .ok ns →
      .periodSubmitted id start finish days caseId corrects ∈ ns →
      (restarted.run grantedLater).Submits c id caseId) ∧
    ∀ calls id caseId,
      ((restarted.run grantedLater).run calls).periods.HasSubmitted id caseId ↔
        (restarted.run grantedLater).periods.HasSubmitted id caseId ∨
          ∃ before c later, calls = before ++ c :: later ∧
            ((restarted.run grantedLater).run before).Submits c id caseId :=
  ⟨by cbv, by cbv, submissions_of_reachable (reachable_restarted.run grantedLater)⟩

end Granted

end Person

end Fortnight
