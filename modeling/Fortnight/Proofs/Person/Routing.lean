import Fortnight.Proofs.Period.Lineage
import Fortnight.Proofs.Person.Correction
import Fortnight.Proofs.Person.Enabling
import Fortnight.Proofs.Person.Response

/-!
# Where events go

Whichever period of a chain an event is addressed to, it goes to the tip and
comes to the same. What it writes belongs to that chain: the tip alone, or a new
correction with the links of the one or two periods that lead to it.
-/

namespace Fortnight

namespace Event

variable {event : Event} {id : Id}

/-- The event addressed to another period, if it is addressed to one at all. -/
def readdressed (id : Id) : Event → Event
  | addActivity _ date hours type => addActivity id date hours type
  | deleteActivity _ activity => deleteActivity id activity
  | approve _ actor reference moment justification =>
    approve id actor reference moment justification
  | unapprove _ actor moment justification => unapprove id actor moment justification
  | manualSubmit _ moment => manualSubmit id moment
  | correct _ => correct id
  | event => event

theorem readdressed_self (h : event.period? = some id) : event.readdressed id = event := by
  cases event <;> cases h <;> rfl

theorem period?_readdressed (h : event.period? = some id) (id' : Id) :
    (event.readdressed id').period? = some id' := by
  cases event <;> cases h <;> rfl

end Event

/-- The call with its event addressed to another period. -/
def Call.readdressed (c : Call) (id : Id) : Call :=
  { c with event := c.event.readdressed id }

namespace PeriodTable

/-- Another period has taken the place of the tip, with the links that the tip had. -/
def EditsTip (t t' : PeriodTable) (tip : Period) : Prop :=
  ∃ tip', tip'.id = tip.id ∧ tip'.corrects = tip.corrects ∧
    tip'.correctedBy = tip.correctedBy ∧ t' = t.insert tip'

/-- One period more is there, which corrects the submitted tip, or what a draft at
the tip corrects. That period leads to it, and so does the draft. -/
def AddsCorrection (t t' : PeriodTable) (tip : Period) : Prop :=
  ∃ corrected c, (tip.state = .submitted ∧ corrected = tip ∨
      tip.state = .toBeFilled ∧ tip.corrects = some corrected.id ∧ corrected ∈ t) ∧
    t.find? c.id = none ∧ c.corrects = some corrected.id ∧ c.correctedBy = none ∧
    ∀ q, q ∈ t' ↔ q = c ∨ ∃ p ∈ t, p.relinked corrected.id tip.id c.id = q

end PeriodTable

namespace Person

variable {p : Person} {c : Call} {a b root : Id} {tip : Period} {ns : List Notification}
  {changed : List Period} {q : Period}

theorem response_readdressed {event : Event} (hid : event.period? = some a) (b : Id)
    (fresh : ℕ → Id) : response fresh p tip (event.readdressed b) = response fresh p tip event := by
  cases event <;> cases hid <;> rfl

theorem handle_readdressed (h : PeriodTable.Linked p.periods)
    (hab : p.periods.rootId a = p.periods.rootId b) (hid : c.event.period? = some a) :
    (handle c.fresh c.rule (c.event.readdressed b)).run p =
      (handle c.fresh c.rule c.event).run p := by
  rcases h.eq_or_rootId_eq_ok hab with rfl | ⟨root, ha, hb⟩
  · rw [Event.readdressed_self hid]
  · obtain ⟨tip, htip, htip'⟩ := h.exists_tip_of_rootId ha hb
    have hid' := Event.period?_readdressed hid b
    rw [handle_eq hid htip, ← response_readdressed hid b c.fresh]
    exact handle_eq (c := c.readdressed b) hid' htip'

/-- What is written is of the chain of the tip, unless it is a new correction in it. -/
theorem mem_written (h : PeriodTable.Linked p.periods) (hid : c.event.period? = some a)
    (htip : p.periods.tip a = .ok tip) (hq : q ∈ written (response c.fresh p tip c.event)) :
    p.periods.rootId q.id = p.periods.rootId a ∨
      c.event = .correct a ∧ q.id = c.fresh 0 ∧ p.periods.find? q.id = none ∧
        ∃ corrected ∈ p.periods, q.corrects = some corrected.id ∧
          p.periods.rootId corrected.id = p.periods.rootId a ∧
          (p.after c).periods = p.periods.withCorrection q corrected tip := by
  have hmem := PeriodTable.tip_mem htip
  have hroot := h.rootId_of_tip htip
  have hafter := after_eq_write hid htip
  cases hresponse : response c.fresh p tip c.event with
  | error e =>
    rw [hresponse] at hq
    cases hq
  | ok r =>
    obtain ⟨ns, changed⟩ := r
    rw [hresponse] at hq hafter
    rcases response_cases hid hresponse with ⟨_, tip', hedited, rfl⟩ |
      ⟨hevent, corrected, hcorrectable, hnew, rfl, rfl⟩
    · obtain rfl := List.mem_singleton.mp hq
      rw [hedited.edit.id_eq]
      exact Or.inl hroot
    · have hcorrected := (h.rootId_of_correctable hmem hcorrectable).trans hroot
      simp only [written, List.mem_cons, List.not_mem_nil, or_false] at hq
      rcases hq with rfl | rfl | rfl
      · refine Or.inr ⟨hevent, rfl, hnew, corrected, ?_, rfl, hcorrected, ?_⟩
        · exact PeriodTable.mem_of_correctable hmem hcorrectable
        · rw [hafter, written, periods_write_correction]
      · exact Or.inl hcorrected
      · exact Or.inl hroot

theorem exists_written (hid : c.event.period? = some a) (htip : p.periods.tip a = .ok tip) {id : Id}
    (hdiffers : (p.after c).periods.find? id ≠ p.periods.find? id) :
    ∃ q ∈ written (response c.fresh p tip c.event), q.id = id := by
  by_contra hnone
  push Not at hnone
  rw [after_eq_write hid htip] at hdiffers
  exact hdiffers (Register.find?_foldl_insert_of_ne hnone)

namespace Reachable

theorem frozen_after (h : Reachable p) (c : Call) : p.periods.Frozen (p.after c).periods :=
  h.linked.frozen_of_moves (p.evolves_after c).periods

theorem rootId_of_written (h : Reachable p) (hid : c.event.period? = some a)
    (htip : p.periods.tip a = .ok tip) (hroot : p.periods.rootId a = .ok root)
    (hq : q ∈ written (response c.fresh p tip c.event)) :
    (p.after c).periods.rootId q.id = .ok root := by
  have hfrozen := h.frozen_after c
  rcases mem_written h.linked hid htip hq with hold |
    ⟨_, _, hnew, corrected, hcorrected, hlink, hchain, hafter⟩
  · exact hfrozen.rootId_eq (hold.trans hroot)
  · have hlinked := (h.after c).linked
    rw [← hfrozen.rootId_eq (hchain.trans hroot), hafter]
    rw [hafter] at hlinked
    exact hlinked.rootId_withCorrection hnew hcorrected (PeriodTable.tip_mem htip) hlink

theorem agreesOutside_after (h : Reachable p) (hid : c.event.period? = some a)
    (hroot : p.periods.rootId a = .ok root) :
    p.periods.AgreesOutside (p.after c).periods root := by
  obtain ⟨tip, htip, _⟩ := h.linked.exists_tip_of_rootId hroot hroot
  apply h.linked.agreesOutside (h.frozen_after c)
  intro id hdiffers
  obtain ⟨q, hq, rfl⟩ := exists_written hid htip hdiffers
  exact h.rootId_of_written hid htip hroot hq

end Reachable

theorem frame_of_answer (hid : c.event.period? = some a)
    (htip : p.periods.tip a = .ok tip) (hok : p.answer c = .ok ns) :
    ((∀ id, c.event ≠ .correct id) → p.periods.EditsTip (p.after c).periods tip) ∧
      (∀ id, c.event = .correct id → p.periods.AddsCorrection (p.after c).periods tip) := by
  rw [answer_eq_response hid htip] at hok
  have hafter := after_eq_write hid htip
  cases hresponse : response c.fresh p tip c.event with
  | error e =>
    rw [hresponse] at hok
    cases hok
  | ok r =>
    obtain ⟨ns', changed⟩ := r
    rw [hresponse] at hafter
    rw [hafter]
    rcases response_cases hid hresponse with ⟨hne, tip', hedited, rfl⟩ |
      ⟨hevent, corrected, hcorrectable, hnew, _, rfl⟩
    · refine ⟨fun _ => ?_, fun id hevent => absurd hevent (hne id)⟩
      have hedit := hedited.edit
      exact ⟨tip', hedit.id_eq, hedit.corrects_eq, hedit.correctedBy_eq, rfl⟩
    · refine ⟨fun hne => absurd hevent (hne a), fun _ _ => ?_⟩
      have hmem := PeriodTable.tip_mem htip
      have hcorrected := PeriodTable.mem_of_correctable hmem hcorrectable
      rw [written, periods_write_correction]
      exact ⟨corrected, corrected.correctionOf c.fresh,
        PeriodTable.correctable_eq_ok hcorrectable, hnew, rfl, rfl,
        fun q => PeriodTable.mem_withCorrection hnew hcorrected hmem⟩

/-- Periods of one chain are one address, and what is done under it stays in the
chain, at its tip. -/
theorem routing_of_reachable (h : Reachable p) (hab : p.periods.rootId a = p.periods.rootId b)
    (hid : c.event.period? = some a) :
    p.answer (c.readdressed b) = p.answer c ∧ p.after (c.readdressed b) = p.after c ∧
      ∀ ns, p.answer c = .ok ns →
        (p.after c).ident = p.ident ∧ (p.after c).obligations = p.obligations ∧
        ∃ root tip, p.periods.rootId a = .ok root ∧ p.periods.tip a = .ok tip ∧
          p.periods.rootId tip.id = .ok root ∧
          p.periods.AgreesOutside (p.after c).periods root ∧
          ((∀ id, c.event ≠ .correct id) → p.periods.EditsTip (p.after c).periods tip) ∧
          (∀ id, c.event = .correct id → p.periods.AddsCorrection (p.after c).periods tip) := by
  have hhandle := handle_readdressed (c := c) h.linked hab hid
  refine ⟨congrArg Prod.fst hhandle, congrArg Prod.snd hhandle, ?_⟩
  intro ns hok
  obtain ⟨tip, htip⟩ := (applied_of_answer hok).exists_tip hid
  obtain ⟨q, hq, rfl, _⟩ := PeriodTable.walk_of_get_follow htip
  obtain ⟨root, hroot⟩ := h.linked.exists_rootId hq
  have hafter := after_eq_write hid htip
  have hident : (p.after c).ident = p.ident := by
    rw [hafter, ident_write]
  have hobligations : (p.after c).obligations = p.obligations := by
    rw [hafter, obligations_write]
  refine ⟨hident, hobligations, root, tip, hroot, htip, ?_, ?_, ?_⟩
  · exact (h.linked.rootId_of_tip htip).trans hroot
  · exact h.agreesOutside_after hid hroot
  · exact frame_of_answer hid htip hok

set_option maxRecDepth 8000 in
/-- A draft that was replaced long ago is as good an address as the original. The last
draft is replaced in turn. -/
theorem routing_startAnew :
    (restarted.run laterCalls).periods.rootId (supplyFrom 11 0) =
      (restarted.run laterCalls).periods.rootId (supplyFrom 50 0) ∧
    startAnew.event.period? = some (supplyFrom 11 0) ∧
    ((restarted.run laterCalls).answer startAnew).isOk = true ∧
    (((restarted.run laterCalls).after startAnew).periods.toList.map fun q =>
      (q.id.value, q.corrects.map Id.value, q.correctedBy.map Id.value)) =
      [(11, none, some 80), (50, some 11, some 70), (70, some 11, some 80),
        (80, some 11, some 130), (120, some 80, some 130), (130, some 80, none)] ∧
    (restarted.run laterCalls).answer (startAnew.readdressed (supplyFrom 50 0)) =
      (restarted.run laterCalls).answer startAnew ∧
    (restarted.run laterCalls).after (startAnew.readdressed (supplyFrom 50 0)) =
      (restarted.run laterCalls).after startAnew ∧
    ∀ ns, (restarted.run laterCalls).answer startAnew = .ok ns →
      ((restarted.run laterCalls).after startAnew).ident = (restarted.run laterCalls).ident ∧
      ((restarted.run laterCalls).after startAnew).obligations =
        (restarted.run laterCalls).obligations ∧
      ∃ root tip, (restarted.run laterCalls).periods.rootId (supplyFrom 11 0) = .ok root ∧
        (restarted.run laterCalls).periods.tip (supplyFrom 11 0) = .ok tip ∧
        (restarted.run laterCalls).periods.rootId tip.id = .ok root ∧
        (restarted.run laterCalls).periods.AgreesOutside
          ((restarted.run laterCalls).after startAnew).periods root ∧
        ((∀ id, startAnew.event ≠ .correct id) → (restarted.run laterCalls).periods.EditsTip
          ((restarted.run laterCalls).after startAnew).periods tip) ∧
        (∀ id, startAnew.event = .correct id → (restarted.run laterCalls).periods.AddsCorrection
          ((restarted.run laterCalls).after startAnew).periods tip) := by
  have hroots : (restarted.run laterCalls).periods.rootId (supplyFrom 11 0) =
      (restarted.run laterCalls).periods.rootId (supplyFrom 50 0) := by
    cbv
  exact ⟨hroots, rfl, by cbv, by cbv,
    routing_of_reachable (reachable_restarted.run laterCalls) hroots rfl⟩

end Person

end Fortnight
