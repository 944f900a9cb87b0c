import Fortnight.Proofs.Period.Move

/-!
# Linked tables

The links of a table are a tree for each root, since a correction that is
started anew leaves the old draft behind. `Linked` says what ties the links of
two periods and their states together, and that links follow an order of age, so
that no walk can go round. Every move keeps it.
-/

namespace Fortnight

/-- A draft that another draft has replaced. -/
def Period.IsReplaced (p : Period) : Prop :=
  p.state = .toBeFilled ∧ p.correctedBy ≠ none

namespace PeriodTable

structure Linked (t : PeriodTable) : Prop where
  /-- What is corrected is submitted, and leads back to its correction unless
  that one has been replaced. -/
  back : ∀ p ∈ t, ∀ o, p.corrects = some o →
    ∃ q ∈ t, q.id = o ∧ q.state = .submitted ∧ (q.correctedBy = some p.id ↔ ¬ p.IsReplaced)
  /-- A submitted period leads to a correction of it, and a replaced draft to a
  correction of the same period. -/
  forward : ∀ p ∈ t, ∀ n, p.correctedBy = some n →
    ∃ q ∈ t, q.id = n ∧ (p.state = .submitted ∧ q.corrects = some p.id ∨
      p.state = .toBeFilled ∧ p.corrects ≠ none ∧ q.corrects = p.corrects)
  /-- Links lead from older periods to younger ones, and back. -/
  aged : ∃ age : Id → ℕ, ∀ p ∈ t, (∀ o, p.corrects = some o → age o < age p.id) ∧
    ∀ n, p.correctedBy = some n → age p.id < age n

namespace Linked

variable {t t' : PeriodTable} {p p' q : Period}

theorem empty : Linked (.empty : PeriodTable) where
  back p hp := absurd hp (Register.not_mem_empty p)
  forward p hp := absurd hp (Register.not_mem_empty p)
  aged := ⟨fun _ => 0, fun p hp => absurd hp (Register.not_mem_empty p)⟩

theorem not_isReplaced_of_none (h : p.correctedBy = none) : ¬ p.IsReplaced :=
  fun hr => hr.2 h

theorem not_isReplaced_of_submitted (h : p.state = .submitted) : ¬ p.IsReplaced := by
  intro hr
  rw [hr.1] at h
  cases h

theorem corrects_ne_self (h : Linked t) (hp : p ∈ t) : p.corrects ≠ some p.id := by
  intro hself
  obtain ⟨age, hage⟩ := h.aged
  exact absurd ((hage p hp).1 _ hself) (Nat.lt_irrefl _)

theorem root_not_isReplaced (h : Linked t) (hp : p ∈ t) (hroot : p.corrects = none) :
    ¬ p.IsReplaced := by
  rintro ⟨hs, hc⟩
  obtain ⟨n, hn⟩ := Option.ne_none_iff_exists'.mp hc
  obtain ⟨q, _, _, ⟨hsub, _⟩ | ⟨_, hcorrects, _⟩⟩ := h.forward p hp n hn
  · rw [hs] at hsub
    cases hsub
  · exact hcorrects hroot

/-- Replacing a period that leads nowhere by one with the same links. Nothing
corrects the period before, since it is not submitted. -/
theorem insert_tip (h : Linked t) (hp : p ∈ t) (htip : p.correctedBy = none)
    (hstate : p.state ≠ .submitted) (hid : p'.id = p.id) (hcorrects : p'.corrects = p.corrects)
    (hcorrectedBy : p'.correctedBy = none) : Linked (t.insert p') := by
  have hkeep : ∀ x ∈ t, x.id ≠ p.id → x ∈ t.insert p' := fun x hx hne =>
    Register.mem_insert.mpr (Or.inr ⟨hx, hid ▸ hne⟩)
  have hsub : ∀ x ∈ t, x.state = .submitted → x.id ≠ p.id := fun x hx hs e =>
    hstate (Register.eq_of_key_eq hx hp e ▸ hs)
  refine ⟨fun x hx o ho => ?_, fun x hx n hn => ?_, ?_⟩
  · rcases Register.mem_insert.mp hx with rfl | ⟨hx, _⟩
    · obtain ⟨q, hq, hqo, hqs, hqc⟩ := h.back p hp o (hcorrects ▸ ho)
      refine ⟨q, hkeep q hq (hsub q hq hqs), hqo, hqs, ?_⟩
      rw [hid, hqc]
      simp [not_isReplaced_of_none, htip, hcorrectedBy]
    · obtain ⟨q, hq, hqo, hqs, hqc⟩ := h.back x hx o ho
      exact ⟨q, hkeep q hq (hsub q hq hqs), hqo, hqs, hqc⟩
  · rcases Register.mem_insert.mp hx with rfl | ⟨hx, _⟩
    · rw [hcorrectedBy] at hn
      cases hn
    · obtain ⟨q, hq, hqn, hlink⟩ := h.forward x hx n hn
      by_cases hqp : q.id = p.id
      · have := Register.eq_of_key_eq hq hp hqp
        subst this
        exact ⟨p', Register.mem_insert.mpr (Or.inl rfl), hid.trans hqn, by rwa [hcorrects]⟩
      · exact ⟨q, hkeep q hq hqp, hqn, hlink⟩
  · obtain ⟨age, hage⟩ := h.aged
    refine ⟨age, fun x hx => ?_⟩
    rcases Register.mem_insert.mp hx with rfl | ⟨hx, _⟩
    · simpa [hid, hcorrects, hcorrectedBy, htip] using hage p hp
    · exact hage x hx

theorem insert_root (h : Linked t) (hnew : t.find? p.id = none) (hcorrects : p.corrects = none)
    (hcorrectedBy : p.correctedBy = none) : Linked (t.insert p) := by
  have hkeep : ∀ x ∈ t, x ∈ t.insert p := fun x hx =>
    Register.mem_insert.mpr (Or.inr ⟨hx, Register.find?_eq_none_iff.mp hnew x hx⟩)
  refine ⟨fun x hx o ho => ?_, fun x hx n hn => ?_, ?_⟩
  · rcases Register.mem_insert.mp hx with rfl | ⟨hx, _⟩
    · rw [hcorrects] at ho
      cases ho
    · obtain ⟨q, hq, hrest⟩ := h.back x hx o ho
      exact ⟨q, hkeep q hq, hrest⟩
  · rcases Register.mem_insert.mp hx with rfl | ⟨hx, _⟩
    · rw [hcorrectedBy] at hn
      cases hn
    · obtain ⟨q, hq, hrest⟩ := h.forward x hx n hn
      exact ⟨q, hkeep q hq, hrest⟩
  · obtain ⟨age, hage⟩ := h.aged
    refine ⟨age, fun x hx => ?_⟩
    rcases Register.mem_insert.mp hx with rfl | ⟨hx, _⟩
    · simp [hcorrects, hcorrectedBy]
    · exact hage x hx

/-- What a table lets be corrected from a tip is submitted: it is the tip, or
what the tip corrects as long as that one is a draft. -/
theorem correctedAt (h : Linked t) {tip corrected : Period} (htip : tip ∈ t)
    (hnone : tip.correctedBy = none) (hc : t.correctable tip = .ok corrected) :
    corrected.CorrectedAt tip := by
  rcases correctable_eq_ok hc with ⟨hs, rfl⟩ | ⟨hs, hcorrects, hmem⟩
  · exact .itself hs hnone
  · obtain ⟨q, hq, hid, hqs, hlink⟩ := h.back tip htip _ hcorrects
    obtain rfl := Register.eq_of_key_eq hq hmem hid
    have hforward := hlink.mpr (not_isReplaced_of_none hnone)
    exact .draft hqs hforward hs hcorrects hnone

section Correction

variable {c corrected tip : Period}

theorem relinked_of_submitted (hat : corrected.CorrectedAt tip) (hcorrected : corrected ∈ t)
    (htip : tip ∈ t) (hp : p ∈ t) (hs : p.state = .submitted) (hne : p ≠ corrected) (c : Id) :
    p.relinked corrected.id tip.id c = p := by
  refine relinked_of_ne hcorrected htip hp hne ?_ c
  rintro rfl
  cases hat with
  | itself => exact hne rfl
  | draft _ _ hdraft =>
    rw [hs] at hdraft
    cases hdraft

theorem isReplaced_of_corrects (h : Linked t) (hat : corrected.CorrectedAt tip)
    (hcorrected : corrected ∈ t) (htip : tip ∈ t) (hp : p ∈ t)
    (hc : p.corrects = some corrected.id) (c : Id) :
    (p.relinked corrected.id tip.id c).IsReplaced := by
  have hpc : p ≠ corrected := by
    rintro rfl
    exact h.corrects_ne_self hp hc
  by_cases hpt : p = tip
  · subst hpt
    cases hat with
    | itself => exact absurd rfl hpc
    | draft _ _ hdraft => simp [Period.IsReplaced, hdraft]
  · rw [relinked_of_ne hcorrected htip hp hpc hpt]
    by_contra hr
    obtain ⟨q, hq, hid, _, hlink⟩ := h.back p hp _ hc
    obtain rfl := Register.eq_of_key_eq hq hcorrected hid
    have hforward := hlink.mpr hr
    cases hat with
    | itself _ hnone =>
      rw [hnone] at hforward
      cases hforward
    | draft _ hother =>
      -- The tip is the only correction that has not been replaced.
      rw [hother] at hforward
      exact hpt (Register.eq_of_key_eq hp htip (Option.some.inj hforward).symm)

theorem isReplaced_relinked_iff (hat : corrected.CorrectedAt tip) (hcorrected : corrected ∈ t)
    (htip : tip ∈ t) (hp : p ∈ t) (hc : p.corrects ≠ some corrected.id) (c : Id) :
    (p.relinked corrected.id tip.id c).IsReplaced ↔ p.IsReplaced := by
  by_cases hpc : p = corrected
  · subst hpc
    simp [not_isReplaced_of_submitted, hat.submitted]
  · have hpt : p ≠ tip := by
      rintro rfl
      cases hat with
      | itself => exact hpc rfl
      | draft _ _ _ hcorrects => exact hc hcorrects
    rw [relinked_of_ne hcorrected htip hp hpc hpt]

theorem back_withCorrection (h : Linked t) (hnew : t.find? c.id = none)
    (hcorrected : corrected ∈ t) (htip : tip ∈ t) (hat : corrected.CorrectedAt tip)
    (hc : c.corrects = some corrected.id) (hcn : c.correctedBy = none) :
    ∀ p ∈ t.withCorrection c corrected tip, ∀ o, p.corrects = some o →
      ∃ q ∈ t.withCorrection c corrected tip, q.id = o ∧ q.state = .submitted ∧
        (q.correctedBy = some p.id ↔ ¬ p.IsReplaced) := by
  have hne : ∀ p ∈ t, p.id ≠ c.id := Register.find?_eq_none_iff.mp hnew
  intro p hp o ho
  simp only [mem_withCorrection hnew hcorrected htip] at hp ⊢
  rcases hp with rfl | ⟨x, hx, rfl⟩
  · rw [hc] at ho
    cases ho
    refine ⟨_, Or.inr ⟨corrected, hcorrected, rfl⟩, by simp, by simp [hat.submitted], ?_⟩
    simp [not_isReplaced_of_none hcn]
  · rw [Period.relinked_corrects] at ho
    obtain ⟨y, hy, rfl, hys, hlink⟩ := h.back x hx o ho
    refine ⟨_, Or.inr ⟨y, hy, rfl⟩, by simp, by simp [hys], ?_⟩
    rw [Period.relinked_id]
    by_cases hyc : y = corrected
    · subst hyc
      have hreplaced := h.isReplaced_of_corrects hat hcorrected htip hx ho c.id
      simp [hreplaced, (hne x hx).symm]
    · have hother : x.corrects ≠ some corrected.id := by
        rw [ho]
        intro e
        exact hyc (Register.eq_of_key_eq hy hcorrected (Option.some.inj e))
      rw [relinked_of_submitted hat hcorrected htip hy hys hyc, hlink,
        isReplaced_relinked_iff hat hcorrected htip hx hother]

theorem forward_withCorrection (h : Linked t) (hnew : t.find? c.id = none)
    (hcorrected : corrected ∈ t) (htip : tip ∈ t) (hat : corrected.CorrectedAt tip)
    (hc : c.corrects = some corrected.id) (hcn : c.correctedBy = none) :
    ∀ p ∈ t.withCorrection c corrected tip, ∀ n, p.correctedBy = some n →
      ∃ q ∈ t.withCorrection c corrected tip, q.id = n ∧
        (p.state = .submitted ∧ q.corrects = some p.id ∨
          p.state = .toBeFilled ∧ p.corrects ≠ none ∧ q.corrects = p.corrects) := by
  intro p hp n hn
  simp only [mem_withCorrection hnew hcorrected htip] at hp ⊢
  rcases hp with rfl | ⟨x, hx, rfl⟩
  · rw [hcn] at hn
    cases hn
  · simp only [Period.relinked_state, Period.relinked_corrects, Period.relinked_id]
    by_cases hxc : x = corrected
    · subst hxc
      rw [Period.relinked_self, Period.linkedTo_correctedBy] at hn
      exact ⟨c, Or.inl rfl, Option.some.inj hn, Or.inl ⟨hat.submitted, hc⟩⟩
    · by_cases hxt : x = tip
      · subst hxt
        rw [Period.relinked_tip, Period.linkedTo_correctedBy] at hn
        refine ⟨c, Or.inl rfl, Option.some.inj hn, Or.inr ?_⟩
        cases hat with
        | itself => exact absurd rfl hxc
        | draft _ _ hdraft hcorrects =>
          exact ⟨hdraft, by simp [hcorrects], hc.trans hcorrects.symm⟩
      · rw [relinked_of_ne hcorrected htip hx hxc hxt] at hn
        obtain ⟨y, hy, hyn, hlink⟩ := h.forward x hx n hn
        refine ⟨_, Or.inr ⟨y, hy, rfl⟩, by simpa using hyn, ?_⟩
        simpa using hlink

theorem exists_lt_age (t : PeriodTable) (age : Id → ℕ) : ∃ now, ∀ p ∈ t, age p.id < now :=
  ⟨(t.toList.map fun p => age p.id).max?.getD 0 + 1, fun _ hp =>
    Nat.lt_succ_of_le (List.le_max?_getD_of_mem (List.mem_map_of_mem hp))⟩

theorem aged_withCorrection (h : Linked t) (hnew : t.find? c.id = none)
    (hcorrected : corrected ∈ t) (htip : tip ∈ t) (hc : c.corrects = some corrected.id)
    (hcn : c.correctedBy = none) :
    ∃ age : Id → ℕ, ∀ p ∈ t.withCorrection c corrected tip,
      (∀ o, p.corrects = some o → age o < age p.id) ∧
        ∀ n, p.correctedBy = some n → age p.id < age n := by
  have hne : ∀ p ∈ t, p.id ≠ c.id := Register.find?_eq_none_iff.mp hnew
  obtain ⟨age, hage⟩ := h.aged
  obtain ⟨now, hnow⟩ := exists_lt_age t age
  let younger := fun id => if id = c.id then now else age id
  have hold : ∀ p ∈ t, younger p.id = age p.id := fun p hp => if_neg (hne p hp)
  have hyoung : younger c.id = now := if_pos rfl
  refine ⟨younger, fun p hp => ?_⟩
  rcases (mem_withCorrection hnew hcorrected htip).mp hp with rfl | ⟨x, hx, rfl⟩
  · rw [hc, hcn, hyoung]
    refine ⟨fun o ho => ?_, fun n hn => by cases hn⟩
    cases ho
    rw [hold corrected hcorrected]
    exact hnow corrected hcorrected
  · rw [Period.relinked_id, Period.relinked_corrects, hold x hx]
    refine ⟨fun o ho => ?_, fun n hn => ?_⟩
    · obtain ⟨y, hy, rfl, _⟩ := h.back x hx o ho
      rw [hold y hy]
      exact (hage x hx).1 _ ho
    · rcases Period.correctedBy_relinked _ _ _ _ hn with rfl | hn
      · rw [hyoung]
        exact hnow x hx
      · obtain ⟨y, hy, rfl, _⟩ := h.forward x hx n hn
        rw [hold y hy]
        exact (hage x hx).2 _ hn

end Correction

/-- Whatever happens to a table, its links stay a tree for each root. -/
theorem move (h : Linked t) (hmove : Move t t') : Linked t' := by
  cases hmove with
  | edit htip hedit =>
    exact h.insert_tip (tip_mem htip) (tip_correctedBy htip) hedit.state_ne hedit.id_eq
      hedit.corrects_eq (hedit.correctedBy_eq.trans (tip_correctedBy htip))
  | openFirst _ _ hnew | openNext _ _ hnew =>
    have hnone := hnew.find?_eq_none
    obtain ⟨_, _, _, _, _, _, _, rfl⟩ := hnew.exists_eq
    exact h.insert_root hnone rfl rfl
  | correct htip hcorrectable hnew =>
    have hmem := mem_of_correctable (tip_mem htip) hcorrectable
    have hat := h.correctedAt (tip_mem htip) (tip_correctedBy htip) hcorrectable
    exact {
      back := h.back_withCorrection hnew hmem (tip_mem htip) hat rfl rfl
      forward := h.forward_withCorrection hnew hmem (tip_mem htip) hat rfl rfl
      aged := h.aged_withCorrection hnew hmem (tip_mem htip) rfl rfl }

end Linked

end PeriodTable

end Fortnight
