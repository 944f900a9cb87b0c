import Fortnight.Proofs.Period.Linked

/-!
# What moves leave alone

Periods are never taken away. A submitted period only gets to know its newest
correction, and a draft that has been replaced does not change at all: moves go
to tips, and a tip is neither.
-/

namespace Fortnight

namespace PeriodTable

/-- What was final in `t` is so in `t'`. -/
structure Frozen (t t' : PeriodTable) : Prop where
  stays : ∀ p ∈ t, ∃ p' ∈ t', p'.id = p.id ∧ p'.corrects = p.corrects
  submitted : ∀ p ∈ t, p.state = .submitted →
    ∃ c, { p with correctedBy := c } ∈ t' ∧
      (c = p.correctedBy ∨ ∃ q ∈ t', c = some q.id ∧ q.corrects = some p.id)
  replaced : ∀ p ∈ t, p.state ≠ .submitted → p.correctedBy ≠ none → p ∈ t'

namespace Frozen

variable {t t' t'' : PeriodTable}

theorem of_tip {tip tip' : Period} (hid : tip'.id = tip.id)
    (hcorrects : tip'.corrects = tip.corrects) (hstate : tip.state ≠ .submitted)
    (hnone : tip.correctedBy = none) (htip : tip' ∈ t')
    (hkeep : ∀ p ∈ t, p ≠ tip → p ∈ t') : Frozen t t' where
  stays p hp := by
    by_cases h : p = tip
    · exact ⟨tip', htip, by rw [hid, h], by rw [hcorrects, h]⟩
    · exact ⟨p, hkeep p hp h, rfl, rfl⟩
  submitted p hp hs := ⟨_, hkeep p hp fun h => hstate (h ▸ hs), Or.inl rfl⟩
  replaced p hp _ hc := hkeep p hp fun h => hc (h ▸ hnone)

theorem of_subset (h : ∀ p ∈ t, p ∈ t') : Frozen t t' where
  stays p hp := ⟨p, h p hp, rfl, rfl⟩
  submitted p hp _ := ⟨_, h p hp, Or.inl rfl⟩
  replaced p hp _ _ := h p hp

theorem refl (t : PeriodTable) : Frozen t t :=
  of_subset fun _ hp => hp

theorem trans (h : Frozen t t') (h' : Frozen t' t'') : Frozen t t'' where
  stays p hp := by
    obtain ⟨p', hp', hid, hc⟩ := h.stays p hp
    obtain ⟨p'', hp'', hid', hc'⟩ := h'.stays p' hp'
    exact ⟨p'', hp'', hid'.trans hid, hc'.trans hc⟩
  submitted p hp hs := by
    obtain ⟨c, hp', hc⟩ := h.submitted p hp hs
    obtain ⟨c', hp'', hc'⟩ := h'.submitted _ hp' hs
    refine ⟨c', hp'', ?_⟩
    rcases hc' with rfl | hc'
    · rcases hc with hc | ⟨q, hq, hcq, hback⟩
      · exact Or.inl hc
      · obtain ⟨q', hq', hid, hback'⟩ := h'.stays q hq
        exact Or.inr ⟨q', hq', by rw [hid]; exact hcq, hback'.trans hback⟩
    · exact Or.inr hc'
  replaced p hp hs hc := h'.replaced p (h.replaced p hp hs hc) hs hc

end Frozen

variable {t t' : PeriodTable}

/-- A correction changes the forward links of the period that it corrects and of
the tip, which is either the same period or a draft. -/
theorem frozen_withCorrection {c corrected tip : Period} (hnew : t.find? c.id = none)
    (hcorrected : corrected ∈ t) (htip : tip ∈ t) (hat : corrected.CorrectedAt tip)
    (hc : c.corrects = some corrected.id) : Frozen t (t.withCorrection c corrected tip) := by
  have hmem : ∀ p ∈ t, p.relinked corrected.id tip.id c.id ∈ t.withCorrection c corrected tip :=
    fun p hp => (mem_withCorrection hnew hcorrected htip).mpr (Or.inr ⟨p, hp, rfl⟩)
  refine ⟨fun p hp => ⟨_, hmem p hp, by simp, by simp⟩, fun p hp hs => ?_, fun p hp hs hl => ?_⟩
  · have hp' := hmem p hp
    by_cases hpc : p = corrected
    · subst hpc
      rw [Period.relinked_self] at hp'
      refine ⟨some c.id, hp', Or.inr ⟨c, ?_, rfl, hc⟩⟩
      exact (mem_withCorrection hnew hcorrected htip).mpr (Or.inl rfl)
    · rw [Linked.relinked_of_submitted hat hcorrected htip hp hs hpc] at hp'
      exact ⟨_, hp', Or.inl rfl⟩
  · have hpc : p ≠ corrected := fun e => hs (e ▸ hat.submitted)
    have hpt : p ≠ tip := fun e => hl (e ▸ hat.tip_correctedBy)
    have hp' := hmem p hp
    rwa [relinked_of_ne hcorrected htip hp hpc hpt] at hp'

theorem Linked.frozen_of_move (h : Linked t) (hmove : Move t t') : Frozen t t' := by
  cases hmove with
  | @edit id p p' htip hedit =>
    refine .of_tip hedit.id_eq hedit.corrects_eq hedit.state_ne (tip_correctedBy htip)
      (Register.mem_insert.mpr (Or.inl rfl)) fun q hq hne => ?_
    refine Register.mem_insert.mpr (Or.inr ⟨hq, fun e => hne ?_⟩)
    exact Register.eq_of_key_eq hq (tip_mem htip) (e.trans hedit.id_eq)
  | openFirst _ _ hnew | openNext _ _ hnew =>
    exact .of_subset fun q hq =>
      Register.mem_insert.mpr (Or.inr ⟨hq, Register.find?_eq_none_iff.mp hnew.find?_eq_none q hq⟩)
  | correct htip hcorrectable hnew =>
    have hat := h.correctedAt (tip_mem htip) (tip_correctedBy htip) hcorrectable
    exact frozen_withCorrection hnew (mem_of_correctable (tip_mem htip) hcorrectable)
      (tip_mem htip) hat rfl

theorem Linked.frozen_of_moves (h : Linked t) (hmoves : Moves t t') : Frozen t t' := by
  have hkeep : Linked t' ∧ Frozen t t' := by
    refine hmoves.keep (P := fun u => Linked u ∧ Frozen t u) ?_ ⟨h, .refl t⟩
    rintro u v ⟨hu, hf⟩ hmove
    exact ⟨hu.move hmove, hf.trans (hu.frozen_of_move hmove)⟩
  exact hkeep.2

end PeriodTable

end Fortnight
