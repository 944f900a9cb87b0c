import Fortnight.Proofs.Period.Chain
import Fortnight.Proofs.Timeline.Content

/-!
# Corrections and what they correct

A correction starts with the content of the newest submitted period of its chain
and cannot be approved as long as it has no other. From then on neither of the
two changes what it reports: the correction is locked, and the period that it
corrects is submitted. So a correction that was approved differs from what it
corrects for good.
-/

namespace Fortnight

namespace PeriodTable

variable {t t' : PeriodTable} {p q c corrected tip : Period} {path : List Period} {id : Id}
  {fresh : ℕ → Id} {ns : List Notification}

/-- Corrections that are no drafts report something else than what they correct. -/
def Distinct (t : PeriodTable) : Prop :=
  ∀ p ∈ t, ∀ q ∈ t, p.state ≠ .toBeFilled → p.corrects = some q.id →
    ¬ p.timeline.sameContent q.timeline

namespace Linked

theorem corrects_ne_of_edit (h : Linked t) (hp : p ∈ t) (htip : tip ∈ t) {tip' : Period}
    (hedit : Edit t tip tip') : p.corrects ≠ some tip.id := fun hlink =>
  hedit.state_ne (h.submitted_of_corrects htip hp hlink)

theorem corrects_ne_of_new (h : Linked t) (hp : p ∈ t) (hnew : t.find? id = none) :
    p.corrects ≠ some id := by
  intro hlink
  obtain ⟨q, hq, hid, _⟩ := h.back p hp _ hlink
  exact Register.find?_eq_none_iff.mp hnew q hq hid

end Linked

/-- An edit leads out of a draft only where the draft differs from what it corrects. -/
theorem Edit.not_sameContent {tip' : Period} (h : Edit t tip tip') (hq : q ∈ t)
    (hlink : tip.corrects = some q.id) (hstate : tip'.state ≠ .toBeFilled)
    (hbefore : tip.state ≠ .toBeFilled → ¬ tip.timeline.sameContent q.timeline) :
    ¬ tip'.timeline.sameContent q.timeline := by
  cases h with
  | add hdraft | delete hdraft => exact absurd hdraft hstate
  | unapprove => exact absurd rfl hstate
  | submit happroved => exact hbefore (by simp [happroved])
  | approve _ _ hcorrected hgate _ hlock =>
    rw [corrected_of_corrects hq hlink] at hcorrected
    cases hcorrected
    have hdiffers := (Period.ensureApprovable_eq_ok_iff.mp hgate).2 _ rfl
    obtain ⟨_, rfl⟩ := Timeline.run_lock_eq_ok_iff.mp hlock
    simpa [Timeline.sameContent, Timeline.content_locked] using hdiffers

namespace Distinct

theorem empty : Distinct (.empty : PeriodTable) :=
  fun p hp => absurd hp (Register.not_mem_empty p)

theorem edit (h : Distinct t) (hlinked : Linked t) (htip : tip ∈ t) {tip' : Period}
    (hedit : Edit t tip tip') : Distinct (Register.insert t tip') := by
  intro p hp q hq hstate hlink
  obtain rfl | ⟨hq', _⟩ := Register.mem_insert.mp hq
  · rw [hedit.id_eq] at hlink
    obtain rfl | ⟨hp, _⟩ := Register.mem_insert.mp hp
    · rw [hedit.corrects_eq] at hlink
      exact absurd hlink (hlinked.corrects_ne_self htip)
    · exact absurd hlink (hlinked.corrects_ne_of_edit hp htip hedit)
  · obtain rfl | ⟨hp, _⟩ := Register.mem_insert.mp hp
    · rw [hedit.corrects_eq] at hlink
      exact hedit.not_sameContent hq' hlink hstate fun hne => h tip htip q hq' hne hlink
    · exact h p hp q hq' hstate hlink

theorem insert_root (h : Distinct t) (hlinked : Linked t) {start since : Date}
    (hroot : t.NewRoot start since c) : Distinct (Register.insert t c) := by
  have hnew := hroot.find?_eq_none
  obtain ⟨_, _, _, _, _, _, _, rfl⟩ := hroot.exists_eq
  intro p hp q hq hstate hlink
  obtain rfl | ⟨hp, _⟩ := Register.mem_insert.mp hp
  · cases hlink
  · obtain rfl | ⟨hq, _⟩ := Register.mem_insert.mp hq
    · exact absurd hlink (hlinked.corrects_ne_of_new hp hnew)
    · exact h p hp q hq hstate hlink

theorem withCorrection (h : Distinct t) (hlinked : Linked t) (hnew : t.find? c.id = none)
    (hcorrected : corrected ∈ t) (htip : tip ∈ t) (hdraft : c.state = .toBeFilled) :
    Distinct (t.withCorrection c corrected tip) := by
  intro p hp q hq hstate hlink
  obtain rfl | ⟨x, hx, rfl⟩ := (mem_withCorrection hnew hcorrected htip).mp hp
  · exact absurd hdraft hstate
  · rw [Period.relinked_corrects] at hlink
    obtain rfl | ⟨y, hy, rfl⟩ := (mem_withCorrection hnew hcorrected htip).mp hq
    · exact absurd hlink (hlinked.corrects_ne_of_new hx hnew)
    · rw [Period.relinked_timeline, Period.relinked_timeline]
      rw [Period.relinked_state] at hstate
      rw [Period.relinked_id] at hlink
      exact h x hx y hy hstate hlink

theorem move (h : Distinct t) (hlinked : Linked t) (hmove : Move t t') : Distinct t' := by
  cases hmove with
  | edit htip hedit => exact h.edit hlinked (tip_mem htip) hedit
  | openFirst _ _ hroot | openNext _ _ hroot => exact h.insert_root hlinked hroot
  | correct htip hcorrectable hnew =>
    have hcorrected := mem_of_correctable (tip_mem htip) hcorrectable
    exact h.withCorrection hlinked hnew hcorrected (tip_mem htip) rfl

end Distinct

theorem Walk.withCorrection (hnew : t.find? c.id = none) (hcorrected : corrected ∈ t)
    (htip : tip ∈ t) (hlast : c.correctedBy = none) {l : List Period}
    (hw : t.Walk Period.correctedBy p l tip) :
    ∃ l', (t.withCorrection c corrected tip).Walk Period.correctedBy
      (p.relinked corrected.id tip.id c.id) l' c := by
  have hmem := fun q => mem_withCorrection (q := q) hnew hcorrected htip
  have hend : (t.withCorrection c corrected tip).Walk Period.correctedBy c [c] c :=
    .last ((hmem c).mpr (Or.inl rfl)) hlast
  have hlinked : ∀ p ∈ t, (p.relinked corrected.id tip.id c.id).correctedBy = some c.id →
      ∃ l', (t.withCorrection c corrected tip).Walk Period.correctedBy
        (p.relinked corrected.id tip.id c.id) l' c := fun p hp hlink =>
    ⟨_, .next ((hmem _).mpr (Or.inr ⟨p, hp, rfl⟩)) hlink hend⟩
  induction hw with
  | @last p hp _ => exact hlinked p hp (by simp)
  | @next p q l e hp hlink hw ih =>
    by_cases hrelinked : p.id = corrected.id ∨ p.id = e.id
    · apply hlinked p hp
      rw [Period.relinked, if_pos hrelinked]
      rfl
    · obtain ⟨l', hw'⟩ := ih htip hmem hend hlinked
      have hsame : p.relinked corrected.id e.id c.id = p := if_neg hrelinked
      refine ⟨p :: l', ?_⟩
      rw [hsame]
      refine .next ((hmem p).mpr (Or.inr ⟨p, hp, hsame⟩)) ?_ hw'
      rw [Period.relinked_id]
      exact hlink

theorem tip_withCorrection (hnew : t.find? c.id = none) (hcorrected : corrected ∈ t)
    (hlast : c.correctedBy = none) (htip : t.tip id = .ok tip) :
    (t.withCorrection c corrected tip).tip id = .ok c := by
  obtain ⟨p, hp, rfl, l, hw⟩ := walk_of_get_follow htip
  obtain ⟨l', hw'⟩ := hw.withCorrection hnew hcorrected (tip_mem htip) hlast
  rw [← tip_of_walk hw', Period.relinked_id]

/-- The last submitted period of a path. -/
def newestSubmitted? (path : List Period) : Option Period :=
  (path.filter fun p => p.state = .submitted).getLast?

/-- Behind a root, the newest submitted period of a path that ends with a draft is
the one that the draft corrects. -/
theorem newestSubmitted?_of_isChain (hchain : path.IsChain Period.IsFollowedBy)
    (hlast : path.getLast? = some tip) (hhead : path.head? ≠ some tip)
    (hstate : tip.state ≠ .submitted) :
    ∃ p ∈ path, newestSubmitted? path = some p ∧ tip.corrects = some p.id := by
  obtain ⟨before, rfl⟩ := List.getLast?_eq_some_iff.mp hlast
  cases hbefore : before.getLast? with
  | none =>
    rw [List.getLast?_eq_none_iff.mp hbefore] at hhead
    exact absurd rfl hhead
  | some p =>
    obtain ⟨older, rfl⟩ := List.getLast?_eq_some_iff.mp hbefore
    have hfollowed : p.IsFollowedBy tip :=
      (List.isChain_append.mp hchain).2.2 p (by simp) tip (by simp)
    refine ⟨p, by simp, ?_, hfollowed.back⟩
    simp [newestSubmitted?, List.filter_append, hstate, hfollowed.submitted]

/-- The tip of a chain is a draft with the content of the newest submitted period
of the chain, and with no approvals of its own. -/
structure StartsOver (t : PeriodTable) (id : Id) (draft newest : Period) : Prop where
  tip_eq : t.tip id = .ok draft
  state_eq : draft.state = .toBeFilled
  approvals_eq : draft.approvals = .empty
  corrects_eq : draft.corrects = some newest.id
  sameContent : draft.timeline.sameContent newest.timeline
  newest : ∃ root path, t.root id = .ok root ∧ t.chain root.id = .ok path ∧
    newestSubmitted? path = some newest

theorem Linked.newest_of_tip (h : Linked t) (htip : t.tip id = .ok tip)
    (hstate : tip.state ≠ .submitted) (hcorrects : tip.corrects ≠ none) :
    ∃ newest ∈ t, tip.corrects = some newest.id ∧ ∃ root path, t.root id = .ok root ∧
      t.chain root.id = .ok path ∧ newestSubmitted? path = some newest := by
  obtain ⟨p, hp, rfl, l, hw⟩ := walk_of_get_follow htip
  obtain ⟨root, tip', path, hpath⟩ := h.exists_mainPath hp
  obtain rfl : tip = tip' := Except.ok.inj (htip.symm.trans hpath.tip_eq)
  obtain ⟨_, hback⟩ := exists_walk_of_root hp hpath.root_eq
  obtain ⟨path', hforward⟩ := exists_walk_of_tip hback.end_mem hpath.tip_of_root
  obtain rfl : path = path' :=
    Except.ok.inj (hpath.chain_eq.symm.trans (chain_of_walk hforward))
  have hhead : path.head? ≠ some tip := by
    rw [hpath.head_eq]
    rintro heq
    cases heq
    exact hcorrects hback.end_link
  obtain ⟨newest, hmem, hnewest, hlink⟩ :=
    newestSubmitted?_of_isChain hpath.isChain hpath.last_eq hhead hstate
  exact ⟨newest, hforward.mem_table newest hmem, hlink, root, path, hpath.root_eq,
    hpath.chain_eq, hnewest⟩

theorem startsOver_of_correct (hlinked : Linked t)
    (h : (correct fresh id).run t = (.ok ns, t')) :
    ∃ draft newest, t.find? draft.id = none ∧ t'.StartsOver id draft newest := by
  obtain ⟨tip, corrected, htip, hcorrectable, hnew, rfl⟩ := withCorrection_of_correct h
  have hcorrected := mem_of_correctable (tip_mem htip) hcorrectable
  have hlinked' := hlinked.move (.correct htip hcorrectable hnew)
  have htip' := tip_withCorrection (c := corrected.correctionOf fresh) hnew hcorrected rfl htip
  obtain ⟨newest, hnewest, hlink, hpath⟩ :=
    hlinked'.newest_of_tip htip' (by simp [Period.correctionOf]) (by simp [Period.correctionOf])
  refine ⟨_, newest, hnew, htip', rfl, rfl, hlink, ?_, hpath⟩
  -- What is corrected has a new link now, but the timeline that was copied.
  have hid : corrected.id = newest.id := Option.some.inj hlink
  obtain rfl | ⟨x, hx, rfl⟩ := (mem_withCorrection hnew hcorrected (tip_mem htip)).mp hnewest
  · exact absurd hid (Register.find?_eq_none_iff.mp hnew corrected hcorrected)
  · rw [Period.relinked_id] at hid
    obtain rfl := Register.eq_of_key_eq hcorrected hx hid
    rw [Period.relinked_timeline]
    simp [Timeline.sameContent, Period.correctionOf, Timeline.content_copyForCorrection]

end PeriodTable

end Fortnight
