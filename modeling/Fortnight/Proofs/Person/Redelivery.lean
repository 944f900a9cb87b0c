import Fortnight.Proofs.Person.Deadline
import Fortnight.Proofs.Person.Opening

/-!
# Events that come twice

News about the application and the decision, and the passing of a deadline, may
be delivered again. The second delivery is decided by the obligation that the
first one has left behind, which is none that would open a period, and no period
is due any more. All that can be different is the identifier of the obligation
that the event brings.
-/

namespace Fortnight

/-- News about the application and the decision, and the passing of a deadline. -/
def Event.isNews : Event → Bool
  | applicationSubmitted .. | obligationStartDetermined .. | decisionGranted ..
  | decisionRejected .. | deadlinePassed .. => true
  | newCycleStarted .. | addActivity .. | deleteActivity .. | approve .. | unapprove ..
  | manualSubmit .. | correct .. => false

namespace Obligation

variable {id : Id} {o o' : Obligation} {event : Event}

theorem decide_again (h : .append o' ∈ o.decide id event) (id' : Id) :
    o'.decide id' event = [] ∨ o'.decide id' event = [.append { o' with id := id' }] := by
  by_cases hkind : o.kind = .absent
  · rw [decide_of_absent hkind] at h
    cases event with
    | obligationStartDetermined =>
      simp only [decideAbsent, List.mem_cons, Effect.append.injEq, reduceCtorEq,
        List.not_mem_nil, or_false] at h
      subst h
      exact Or.inl rfl
    | decisionGranted =>
      simp only [decideAbsent, List.mem_cons, Effect.append.injEq, reduceCtorEq,
        List.not_mem_nil, or_false] at h
      subst h
      exact Or.inr rfl
    | _ => simp [decideAbsent] at h
  · rw [decide_of_present hkind] at h
    cases event with
    | decisionGranted =>
      obtain rfl := Effect.append.inj (List.mem_singleton.mp h)
      exact Or.inr rfl
    | _ => simp [decidePresent] at h

theorem decide_eq_of_not_append (h : ∀ o', .append o' ∉ o.decide id event) (id' : Id) :
    o.decide id' event = o.decide id event := by
  by_cases hkind : o.kind = .absent
  · rw [decide_of_absent hkind] at h
    rw [decide_of_absent hkind, decide_of_absent hkind]
    cases event with
    | obligationStartDetermined => simp [decideAbsent] at h
    | decisionGranted => simp [decideAbsent] at h
    | _ => rfl
  · rw [decide_of_present hkind] at h
    rw [decide_of_present hkind, decide_of_present hkind]
    cases event with
    | decisionGranted => simp [decidePresent] at h
    | _ => rfl

end Obligation

namespace History

variable {h h' : History Obligation} {moment : Instant}

/-- At most the obligation at one instant has another identifier. -/
def RenamedAt (moment : Instant) (h h' : History Obligation) : Prop :=
  h' = h ∨ ∃ o id, (moment, o) ∈ h ∧ h' = h.put moment { o with id }

theorem renamedAt_put (h : History Obligation) (moment : Instant) (o : Obligation) (id : Id) :
    RenamedAt moment (h.put moment o) ((h.put moment o).put moment { o with id }) :=
  Or.inr ⟨o, id, Register.mem_insert.mpr (Or.inl rfl), rfl⟩

theorem asOf_put (h : History Obligation) (moment : Instant) (o : Obligation) :
    (h.put moment o).asOf moment = .ok o :=
  asOf_eq_ok_iff.mpr ⟨moment, by rw [upTo_put, List.getLast?_concat]⟩

end History

namespace PeriodTable

theorem Difference.eq_nil {t : PeriodTable} {changed : List Period}
    (h : Difference t t changed) : changed = [] := by
  apply List.eq_nil_iff_forall_not_mem.mpr
  intro q hq
  obtain ⟨hmem, hne⟩ := (h.mem_iff q).mp hq
  exact hne (stateOf?_of_mem hmem)

end PeriodTable

namespace Person

variable {p p' : Person} {c d : Call} {ns : List Notification} {moment : Instant} {date : Date}

/-- The call is accepted and does nothing, except that the obligation at its instant
may get another identifier. -/
structure IsRepeated (p : Person) (c : Call) : Prop where
  exists_answer : ∃ ns, p.answer c = .ok ns ∧ ∀ n ∈ ns, n.period? = none
  ident_eq : (p.after c).ident = p.ident
  periods_eq : (p.after c).periods = p.periods
  obligations : ∃ moment, c.event.effective? = some moment ∧
    History.RenamedAt moment p.obligations (p.after c).obligations

theorem period?_eq_none_of_answer (hok : p.answer c = .ok ns)
    (hsame : (p.after c).periods = p.periods) : ∀ n ∈ ns, n.period? = none := by
  obtain ⟨requests, told, rfl, hrequests, changed, hdifference, rfl⟩ :=
    (applied_of_answer hok).announces
  rw [hsame] at hdifference
  rw [hdifference.eq_nil, PeriodTable.announcements, List.flatMap_nil, List.append_nil]
  intro n hn
  obtain ⟨_, rfl⟩ := hrequests n hn
  rfl

theorem IsRepeated.of_applied (h : Applied c.fresh c.rule p c.event ns p')
    (hident : p'.ident = p.ident) (hperiods : p'.periods = p.periods)
    (hmoment : c.event.effective? = some moment)
    (hobligations : History.RenamedAt moment p.obligations p'.obligations) : p.IsRepeated c := by
  obtain ⟨hok, rfl⟩ := answer_of_applied h
  exact ⟨⟨ns, hok, period?_eq_none_of_answer hok hperiods⟩, hident, hperiods,
    moment, hmoment, hobligations⟩

theorem isRepeated_of_decide {o : Obligation} {id : Id} {effects : List Effect}
    (hmoment : c.event.decidedAt? = some moment) (ho : p.obligationAt moment = .ok o)
    (heffects : o.decide id c.event = effects) (hnothing : ∀ o', .append o' ∉ effects)
    (hdecided : Decided (c.fresh 1) c.rule moment p effects ns p) : p.IsRepeated c := by
  subst heffects
  rw [← Obligation.decide_eq_of_not_append hnothing (c.fresh 0)] at hdecided
  have happlied : Applied c.fresh c.rule p c.event ns p := .decided hmoment ho hdecided
  exact .of_applied happlied rfl rfl (Event.effective?_of_decidedAt hmoment) (Or.inl rfl)

theorem isRepeated_of_append {o o' : Obligation} {id : Id} {history : History Obligation}
    (hmoment : c.event.decidedAt? = some moment) (heffective : o'.effectiveFrom = moment)
    (happend : .append o' ∈ o.decide id c.event)
    (hobligations : p.obligations = history.put o'.effectiveFrom o') : p.IsRepeated c := by
  subst heffective
  have ho : p.obligationAt o'.effectiveFrom = .ok o' := by
    rw [obligationAt, hobligations, History.asOf_put]
  rcases Obligation.decide_again happend (c.fresh 0) with hdecide | hdecide
  · exact isRepeated_of_decide hmoment ho hdecide (by simp) .ignored
  · -- The obligation brings itself once more, under a new identifier.
    have happlied : Applied c.fresh c.rule p c.event []
        (p.appendObligation { o' with id := c.fresh 0 }) :=
      .decided hmoment ho (hdecide ▸ .noted _)
    refine .of_applied happlied rfl rfl (Event.effective?_of_decidedAt hmoment) ?_
    rw [appendObligation, hobligations]
    exact History.renamedAt_put history o'.effectiveFrom o' (c.fresh 0)

theorem isRepeated_of_deadline (h : Reachable p) (hc : c.event = .deadlinePassed date)
    (hd : d.event = .deadlinePassed date) : (p.after c).IsRepeated d := by
  obtain ⟨o, _, ho, _, habsent, hpresent⟩ := h.deadline hc
  obtain ⟨o', ns, ho', hok, habsent', hpresent'⟩ := (h.after c).deadline hd
  have hobligations : (p.after c).obligations = p.obligations := by
    by_cases hkind : o.kind = .absent
    · rw [(habsent hkind).2]
    · rw [hpresent hkind]
  have hsame : o = o' := by
    rw [obligationAt, hobligations] at ho'
    exact Except.ok.inj (ho.symm.trans ho')
  subst hsame
  have hafter : (p.after c).after d = p.after c := by
    by_cases hkind : o.kind = .absent
    · exact (habsent' hkind).2
    · have hnone : ∀ q ∈ (p.after c).periods, ¬ q.IsDue date := by
        rw [hpresent hkind]
        intro q hq
        exact PeriodTable.not_isDue_of_mem_afterDeadline hq
      rw [hpresent' hkind, PeriodTable.afterDeadline_eq_self hnone]
  have hperiods : ((p.after c).after d).periods = (p.after c).periods := by
    rw [hafter]
  have hmoment : d.event.effective? = some date.startOfDay := by
    rw [hd]
    rfl
  refine ⟨⟨ns, hok, period?_eq_none_of_answer hok hperiods⟩, ?_, hperiods,
    date.startOfDay, hmoment, Or.inl ?_⟩
  · rw [hafter]
  · rw [hafter]

/-- The first delivery leaves everything as the second one would have it. -/
theorem isRepeated_of_applied (hsame : d.event = c.event) (hnews : c.event.isNews)
    (hnot : ∀ date, c.event ≠ .deadlinePassed date)
    (h : Applied c.fresh c.rule p c.event ns p') : p'.IsRepeated d := by
  obtain ⟨fresh, rule, event⟩ := c
  cases h with
  | @decided _ moment o _ _ hmoment ho hdecided =>
    have hmoment' : d.event.decidedAt? = some moment := by
      rw [hsame]
      exact hmoment
    generalize heffects : o.decide (fresh 0) event = effects at hdecided
    have hdecides : o.decide (fresh 0) d.event = effects := by
      rw [hsame]
      exact heffects
    cases hdecided with
    | ignored => exact isRepeated_of_decide hmoment' ho hdecides (by simp) .ignored
    | requested application =>
      exact isRepeated_of_decide hmoment' ho hdecides (by simp) (.requested application)
    | noted o' =>
      have hfrom := hmoment.symm.trans (Obligation.effectiveFrom_of_decide heffects)
      have happend : .append o' ∈ o.decide (fresh 0) d.event := by
        simp [hdecides]
      exact isRepeated_of_append hmoment' (Option.some.inj hfrom).symm happend rfl
    | @started o' date _ _ hopen =>
      obtain ⟨_, hstarts, _, hfrom⟩ := Obligation.start_of_decide heffects
      have hdate := hmoment.symm.trans (Event.decidedAt?_of_starts hstarts)
      have happend : .append o' ∈ o.decide (fresh 0) d.event := by
        simp [hdecides]
      exact isRepeated_of_append hmoment' (hfrom.trans (Option.some.inj hdate).symm) happend rfl
    | continued =>
      obtain rfl := Obligation.event_eq_of_decide heffects
      cases hnews
    | submitted =>
      obtain ⟨rfl, _⟩ := Obligation.submit_of_decide heffects
      exact absurd rfl (hnot _)
  | rejected caseId effective =>
    have hmoment : d.event.effective? = some effective.startOfDay := by
      rw [hsame]
      rfl
    have happlied : Applied d.fresh d.rule
        (p.appendObligation ⟨fresh 0, .absent, effective.startOfDay⟩) d.event []
        ((p.appendObligation ⟨fresh 0, .absent, effective.startOfDay⟩).appendObligation
          ⟨d.fresh 0, .absent, effective.startOfDay⟩) := by
      rw [hsame]
      exact .rejected caseId effective
    exact .of_applied happlied rfl rfl hmoment (History.renamedAt_put ..)
  | edited hid =>
    cases event <;> simp [Event.isNews, Event.period?] at hnews hid
  | corrected => cases hnews

/-- News that was accepted is accepted again, and then does nothing. -/
theorem isRepeated_of_answer (h : Reachable p) (hsame : d.event = c.event)
    (hnews : c.event.isNews) (hok : p.answer c = .ok ns) : (p.after c).IsRepeated d := by
  by_cases hdeadline : ∃ date, c.event = .deadlinePassed date
  · obtain ⟨date, hc⟩ := hdeadline
    exact isRepeated_of_deadline h hc (hsame.trans hc)
  · push Not at hdeadline
    exact isRepeated_of_applied hsame hnews hdeadline (applied_of_answer hok)

/-- The decision is delivered once more. -/
def regrantedAgain : Call :=
  ⟨supplyFrom 40, .standard, .decisionGranted "case-2" (february 7)⟩

set_option maxRecDepth 8000 in
/-- At first a period is opened. Then only the identifier of the obligation changes. -/
theorem isRepeated_regranted :
    Reachable rejected ∧ regrantedAgain.event = regranted.event ∧ regranted.event.isNews ∧
      rejected.answer regranted =
        .ok [.periodStateChanged (supplyFrom 31 0) .toBeFilled none (february 5) (february 18)] ∧
      (rejected.after regranted).obligationAt (february 7).startOfDay =
        .ok ⟨supplyFrom 30 0, .decisionBased "case-2", (february 7).startOfDay⟩ ∧
      ((rejected.after regranted).after regrantedAgain).obligationAt (february 7).startOfDay =
        .ok ⟨supplyFrom 40 0, .decisionBased "case-2", (february 7).startOfDay⟩ ∧
      (rejected.after regranted).IsRepeated regrantedAgain := by
  have hok : rejected.answer regranted =
      .ok [.periodStateChanged (supplyFrom 31 0) .toBeFilled none (february 5) (february 18)] := by
    cbv
  exact ⟨reachable_rejected, rfl, rfl, hok, by cbv, by cbv,
    isRepeated_of_answer reachable_rejected rfl rfl hok⟩

end Person

end Fortnight
