import Fortnight.Proofs.Person.Announcement
import Fortnight.Proofs.Person.Routing

/-!
# Events on different chains

What the tip of a chain makes of an event is not changed by an event on another
chain: that one leaves the tip as it is, and what the tip corrects as well. The
two write different periods, too, as long as they do not start corrections under
one identifier. So they can come in either order.
-/

namespace Fortnight

/-- Two calls do not start corrections under the same identifier. The identifiers
that are generated for different corrections are different, and for all other pairs
of calls there is nothing to be apart. -/
def Call.DrawsApart (c d : Call) : Prop :=
  ∀ a b, c.event = .correct a → d.event = .correct b → c.fresh 0 ≠ d.fresh 0

theorem Call.DrawsApart.symm {c d : Call} (h : c.DrawsApart d) : d.DrawsApart c := by
  intro a b hd hc
  exact (h b a hc hd).symm

namespace Person

variable {p : Person} {c d : Call} {id root other : Id} {tip q r : Period}

/-- The event of the call is addressed to a period of the chain with this root. -/
def Addressed (p : Person) (c : Call) (root : Id) : Prop :=
  ∃ id, c.event.period? = some id ∧ p.periods.rootId id = .ok root

/-- The period is of the chain with this root, or a correction that the call starts
under a new identifier. -/
def Writes (p : Person) (c : Call) (root : Id) (q : Period) : Prop :=
  p.periods.rootId q.id = .ok root ∨
    (∃ a, c.event = .correct a) ∧ q.id = c.fresh 0 ∧ p.periods.find? q.id = none

theorem contains_of_rootId (h : p.periods.rootId id = .ok root) : p.periods.contains id := by
  obtain ⟨q, hq, hid, _⟩ := PeriodTable.exists_walk_of_rootId h
  exact Register.contains_iff.mpr ⟨q, hq, hid⟩

theorem Writes.id_ne (hq : p.Writes c root q) (hr : p.Writes d other r) (hne : root ≠ other)
    (hapart : c.DrawsApart d) : q.id ≠ r.id := by
  intro hid
  rcases hq with hq | ⟨⟨a, ha⟩, hfresh, hnew⟩
  · rcases hr with hr | ⟨_, _, hnew⟩
    · rw [← hid, hq] at hr
      exact hne (Except.ok.inj hr)
    · have hknown := contains_of_rootId hq
      rw [hid, Register.contains, hnew] at hknown
      cases hknown
  · rcases hr with hr | ⟨⟨b, hb⟩, hfresh', _⟩
    · have hknown := contains_of_rootId hr
      rw [← hid, Register.contains, hnew] at hknown
      cases hknown
    · exact hapart a b ha hb (hfresh.symm.trans (hid.trans hfresh'))

namespace Reachable

theorem writes_of_written (h : Reachable p) (hid : c.event.period? = some id)
    (htip : p.periods.tip id = .ok tip) (hroot : p.periods.rootId id = .ok root)
    (hq : q ∈ written (response c.fresh p tip c.event)) : p.Writes c root q := by
  rcases mem_written h.linked hid htip hq with hold | ⟨hevent, hfresh, hnew, _⟩
  · exact Or.inl (hold.trans hroot)
  · exact Or.inr ⟨⟨id, hevent⟩, hfresh, hnew⟩

theorem contains_after (h : Reachable p) (hc : p.Addressed c root) {new : Id}
    (hother : ∀ a, c.event = .correct a → c.fresh 0 ≠ new) :
    (p.after c).periods.contains new = p.periods.contains new := by
  obtain ⟨id, hid, hroot⟩ := hc
  obtain ⟨tip, htip, _⟩ := h.linked.exists_tip_of_rootId hroot hroot
  by_cases hsame : (p.after c).periods.find? new = p.periods.find? new
  · rw [Register.contains, hsame]
    rfl
  · obtain ⟨q, hq, rfl⟩ := exists_written hid htip hsame
    rcases h.writes_of_written hid htip hroot hq with hold | ⟨⟨a, ha⟩, hfresh, _⟩
    · rw [contains_of_rootId hold, contains_of_rootId ((h.frozen_after c).rootId_eq hold)]
    · exact absurd hfresh.symm (hother a ha)

theorem response_after (h : Reachable p) (hc : p.Addressed c root)
    (hroot : p.periods.rootId id = .ok other)
    (hne : root ≠ other) (hapart : c.DrawsApart d) (htip : p.periods.tip id = .ok tip) :
    (p.after c).periods.tip id = .ok tip ∧
      response d.fresh (p.after c) tip d.event = response d.fresh p tip d.event := by
  obtain ⟨a, ha, hrootc⟩ := hc
  obtain ⟨tipc, htipc, _⟩ := h.linked.exists_tip_of_rootId hrootc hrootc
  have hagree := h.agreesOutside_after ha hrootc
  have hafter := after_eq_write ha htipc
  refine ⟨(hagree.tip_eq h.linked hroot hne.symm).trans htip, ?_⟩
  apply response_congr
  · rw [hafter, ident_write]
  · rw [hafter, obligations_write]
  · -- What the tip corrects is of the same chain.
    intro o ho
    have hmem := PeriodTable.tip_mem htip
    obtain ⟨q, hq, rfl, _⟩ := h.linked.back tip hmem o ho
    have hchain : p.periods.rootId q.id = .ok other := by
      rw [← h.linked.rootId_of_corrects hq hmem ho, h.linked.rootId_of_tip htip, hroot]
    exact hagree.get_eq hchain hne.symm
  · intro b hb
    apply h.contains_after ⟨a, ha, hrootc⟩
    intro a' ha'
    exact hapart a' b ha' hb

/-- After a call on another chain, a call has the same answer and writes the same. -/
theorem exists_writes (h : Reachable p) (hc : p.Addressed c root) (hd : p.Addressed d other)
    (hne : root ≠ other) (hapart : c.DrawsApart d) :
    ∃ changed, p.after d = p.write changed ∧ (p.after c).after d = (p.after c).write changed ∧
      (p.after c).answer d = p.answer d ∧ ∀ q ∈ changed, p.Writes d other q := by
  obtain ⟨id, hid, hroot⟩ := hd
  obtain ⟨tip, htip, _⟩ := h.linked.exists_tip_of_rootId hroot hroot
  obtain ⟨htip', hresponse⟩ := h.response_after hc hroot hne hapart htip
  refine ⟨written (response d.fresh p tip d.event), after_eq_write hid htip, ?_, ?_, ?_⟩
  · rw [after_eq_write hid htip', hresponse]
  · rw [answer_eq_response hid htip', hresponse, answer_eq_response hid htip]
  · intro q hq
    exact h.writes_of_written hid htip hroot hq

end Reachable

/-- Calls on different chains come to the same in either order, and neither has a
part in the answer of the other. -/
theorem commute_of_reachable (h : Reachable p) (hc : p.Addressed c root)
    (hd : p.Addressed d other) (hne : root ≠ other) (hapart : c.DrawsApart d) :
    (p.after c).after d = (p.after d).after c ∧ (p.after d).answer c = p.answer c ∧
      (p.after c).answer d = p.answer d := by
  obtain ⟨changed, hafter, hboth, hanswer, hwrites⟩ := h.exists_writes hc hd hne hapart
  obtain ⟨changed', hafter', hboth', hanswer', hwrites'⟩ :=
    h.exists_writes hd hc hne.symm hapart.symm
  refine ⟨?_, hanswer', hanswer⟩
  rw [hboth, hboth', hafter, hafter']
  have hperiods : changed.foldl Register.insert (changed'.foldl Register.insert p.periods) =
      changed'.foldl Register.insert (changed.foldl Register.insert p.periods) :=
    Register.foldl_insert_comm fun q hq r hr =>
      (hwrites' q hq).id_ne (hwrites r hr) hne hapart
  unfold write
  rw [hperiods]

section Corrections

/-- Someone of whom two periods are approved. -/
def approvedTwice : Person :=
  (new (supplyFrom 1 0) "01018012345").run
    [⟨supplyFrom 10, .standard, .obligationStartDetermined (supplyFrom 9 0) (january 2)⟩,
      ⟨supplyFrom 20, .standard, .newCycleStarted (january 15)⟩,
      ⟨supplyFrom 30, .standard, .approve (supplyFrom 11 0) (.endUser "01018012345")
        (january 15) (january 15).startOfDay none⟩,
      ⟨supplyFrom 40, .standard, .approve (supplyFrom 21 0) (.caseWorker "Z990001")
        (january 29) (january 29).startOfDay none⟩]

/-- Someone of whom two periods are submitted. -/
def submittedTwice : Person :=
  approvedTwice.after deadline

theorem reachable_submittedTwice : Reachable submittedTwice :=
  ((Reachable.new _ _).run _).after deadline

/-- The first of the two is corrected. -/
def correctFirst : Call :=
  ⟨supplyFrom 60, .standard, .correct (supplyFrom 11 0)⟩

/-- The second one is corrected. -/
def correctSecond : Call :=
  ⟨supplyFrom 80, .standard, .correct (supplyFrom 21 0)⟩

theorem drawsApart_corrections : correctFirst.DrawsApart correctSecond := by
  intro a b _ _
  decide

set_option maxRecDepth 8000 in
/-- Both corrections are started, whichever is the first. -/
theorem commute_corrections :
    Reachable submittedTwice ∧ submittedTwice.Addressed correctFirst (supplyFrom 11 0) ∧
      submittedTwice.Addressed correctSecond (supplyFrom 21 0) ∧
      supplyFrom 11 0 ≠ supplyFrom 21 0 ∧ correctFirst.DrawsApart correctSecond ∧
      ((submittedTwice.after correctFirst).after correctSecond).periods.toList.map
        (fun q => (q.id.value, q.state, q.corrects.map Id.value, q.correctedBy.map Id.value)) =
        [(11, .submitted, none, some 60), (21, .submitted, none, some 80),
          (60, .toBeFilled, some 11, none), (80, .toBeFilled, some 21, none)] ∧
      (submittedTwice.after correctFirst).after correctSecond =
        (submittedTwice.after correctSecond).after correctFirst ∧
      (submittedTwice.after correctSecond).answer correctFirst =
        submittedTwice.answer correctFirst ∧
      (submittedTwice.after correctFirst).answer correctSecond =
        submittedTwice.answer correctSecond := by
  have hfirst : submittedTwice.Addressed correctFirst (supplyFrom 11 0) :=
    ⟨supplyFrom 11 0, rfl, by cbv⟩
  have hsecond : submittedTwice.Addressed correctSecond (supplyFrom 21 0) :=
    ⟨supplyFrom 21 0, rfl, by cbv⟩
  have hne : supplyFrom 11 0 ≠ supplyFrom 21 0 := by decide
  exact ⟨reachable_submittedTwice, hfirst, hsecond, hne, drawsApart_corrections, by cbv,
    commute_of_reachable reachable_submittedTwice hfirst hsecond hne drawsApart_corrections⟩

end Corrections

end Person

end Fortnight
