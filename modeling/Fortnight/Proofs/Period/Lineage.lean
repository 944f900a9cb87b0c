import Fortnight.Proofs.Period.Chain
import Fortnight.Proofs.Period.Frozen
import Fortnight.Proofs.Register

/-!
# Which chain a period belongs to

Two periods are of one chain when they have the same root. Moves never change
what a period corrects, so that every period stays in its chain. In a linked
table no link leads out of a chain either: whatever a walk passes has one root,
and all periods of a chain have one tip.
-/

namespace Fortnight

namespace PeriodTable

variable {t t' : PeriodTable} {link : Period → Option Id} {p q e : Period} {l : List Period}
  {id a b root : Id}

/-- The identifier of the first period of the chain. -/
def rootId (t : PeriodTable) (id : Id) : Except Error Id :=
  (t.root id).map Period.id

theorem Walk.mono (h : t.Walk link p l e) (hl : ∀ q ∈ l, q ∈ t') : t'.Walk link p l e := by
  induction h with
  | last _ hn => exact .last (hl _ (by simp)) hn
  | next _ hlink _ ih =>
    obtain ⟨hp, hrest⟩ := List.forall_mem_cons.mp hl
    exact .next hp hlink (ih hrest)

theorem Walk.eq_end (h : t.Walk link p l e) (hq : q ∈ l) (hn : link q = none) : q = e := by
  obtain ⟨m, hrest, _⟩ := h.from_mem hq
  exact (Walk.unique (.last hrest.start_mem hn) hrest).2

theorem tip_insert_of_ne {tip tip' : Period} (htip : tip ∈ t) (hlast : tip.correctedBy = none)
    (hid : tip'.id = tip.id) (hne : e ≠ tip) (h : t.tip id = .ok e) :
    PeriodTable.tip (t.insert tip') id = .ok e := by
  obtain ⟨p, _, rfl, l, hw⟩ := walk_of_get_follow h
  apply tip_of_walk
  apply hw.mono
  intro q hq
  refine Register.mem_insert.mpr (Or.inr ⟨hw.mem_table q hq, ?_⟩)
  intro heq
  -- The old tip leads nowhere, so that a walk which passes it ends there.
  obtain rfl := Register.eq_of_key_eq (hw.mem_table q hq) htip (heq.trans hid)
  exact hne (hw.eq_end hq hlast).symm

theorem rootId_of_walk (h : t.Walk Period.corrects p l e) : t.rootId p.id = .ok e.id := by
  rw [rootId, root_of_walk h]
  rfl

theorem exists_walk_of_rootId (h : t.rootId id = .ok root) :
    ∃ p ∈ t, p.id = id ∧ ∃ l e, t.Walk Period.corrects p l e ∧ e.id = root := by
  unfold rootId at h
  cases hroot : t.root id with
  | error => simp [hroot, Except.map] at h
  | ok e =>
    obtain ⟨p, hp, hid, l, hw⟩ := walk_of_get_follow hroot
    rw [hroot] at h
    exact ⟨p, hp, hid, l, e, hw, Except.ok.inj h⟩

/-- Periods stay in their chains as long as they correct what they corrected. -/
theorem Frozen.rootId_eq (h : t.Frozen t') (hroot : t.rootId id = .ok root) :
    t'.rootId id = .ok root := by
  obtain ⟨p, hp, rfl, l, e, hw, rfl⟩ := exists_walk_of_rootId hroot
  have hwalk : ∀ p' ∈ t', p'.id = p.id → p'.corrects = p.corrects →
      ∃ l' e', t'.Walk Period.corrects p' l' e' ∧ e'.id = e.id := by
    clear hroot hp
    induction hw with
    | last _ hn =>
      intro p' hp' hid hcorrects
      exact ⟨_, p', .last hp' (hcorrects.trans hn), hid⟩
    | next _ hlink hw ih =>
      intro p' hp' _ hcorrects
      obtain ⟨q', hq', hid, hcorrects'⟩ := h.stays _ hw.start_mem
      obtain ⟨l', e', hw', he⟩ := ih q' hq' hid hcorrects'
      exact ⟨_, e', .next hp' (by rw [hcorrects, hlink, hid]) hw', he⟩
  obtain ⟨p', hp', hid, hcorrects⟩ := h.stays p hp
  obtain ⟨l', e', hw', he⟩ := hwalk p' hp' hid hcorrects
  rw [← hid, rootId_of_walk hw', he]

namespace Linked

theorem exists_rootId (h : Linked t) (hp : p ∈ t) : ∃ root, t.rootId p.id = .ok root := by
  obtain ⟨l, e, hw⟩ := h.exists_walk_back hp
  exact ⟨e.id, rootId_of_walk hw⟩

theorem get_eq_error (h : Linked t) {error : Error} (hroot : t.rootId id = .error error) :
    error = .notFound (.period id) := by
  unfold rootId PeriodTable.root at hroot
  cases hget : t.get id with
  | ok p =>
    obtain ⟨hp, rfl⟩ := get_eq_ok_iff.mp hget
    obtain ⟨root, hok⟩ := h.exists_rootId hp
    unfold rootId PeriodTable.root at hok
    rw [hok] at hroot
    cases hroot
  | error error' =>
    rw [hget] at hroot
    obtain rfl : error' = error := Except.error.inj hroot
    unfold get at hget
    split at hget
    · cases hget
    · exact (Except.error.inj hget).symm

/-- Identifiers that come to the same root are those of one chain, unless they are
one identifier, of no period. -/
theorem eq_or_rootId_eq_ok (h : Linked t) (hab : t.rootId a = t.rootId b) :
    a = b ∨ ∃ root, t.rootId a = .ok root ∧ t.rootId b = .ok root := by
  cases ha : t.rootId a with
  | ok root => exact Or.inr ⟨root, rfl, by rw [← hab, ha]⟩
  | error error =>
    have hmissing := h.get_eq_error ha
    rw [hab] at ha
    have hmissing' := h.get_eq_error ha
    rw [hmissing] at hmissing'
    left
    simpa using hmissing'

theorem rootId_of_corrects (h : Linked t) (hp : p ∈ t) (hq : q ∈ t)
    (hc : q.corrects = some p.id) : t.rootId q.id = t.rootId p.id := by
  obtain ⟨l, e, hw⟩ := h.exists_walk_back hp
  rw [rootId_of_walk hw, rootId_of_walk (.next hq hc hw)]

/-- A submitted period leads to a correction of itself, and a replaced draft to one
of what it corrects. -/
theorem rootId_of_correctedBy (h : Linked t) (hp : p ∈ t) (hq : q ∈ t)
    (hc : p.correctedBy = some q.id) : t.rootId q.id = t.rootId p.id := by
  obtain ⟨q', hq', hid, hlink⟩ := h.forward p hp _ hc
  obtain rfl := Register.eq_of_key_eq hq' hq hid
  rcases hlink with ⟨_, hback⟩ | ⟨_, hcorrects, hback⟩
  · exact h.rootId_of_corrects hp hq hback
  · obtain ⟨o, ho⟩ := Option.ne_none_iff_exists'.mp hcorrects
    obtain ⟨r, hr, rfl, _⟩ := h.back p hp o ho
    rw [h.rootId_of_corrects hr hp ho, h.rootId_of_corrects hr hq (hback.trans ho)]

theorem rootId_of_walk (h : Linked t) (hw : t.Walk Period.correctedBy p l e) :
    ∀ q ∈ l, t.rootId q.id = t.rootId p.id := by
  induction hw with
  | last => simp
  | next hp hlink hw ih =>
    have hnext := h.rootId_of_correctedBy hp hw.start_mem hlink
    intro r hr
    rcases List.mem_cons.mp hr with rfl | hr
    · rfl
    · rw [ih r hr, hnext]

theorem rootId_of_tip (h : Linked t) (htip : t.tip id = .ok e) :
    t.rootId e.id = t.rootId id := by
  obtain ⟨p, _, rfl, l, hw⟩ := walk_of_get_follow htip
  exact h.rootId_of_walk hw e hw.end_mem_list

/-- All periods of a chain have one tip. -/
theorem exists_tip_of_rootId (h : Linked t) (ha : t.rootId a = .ok root)
    (hb : t.rootId b = .ok root) : ∃ tip, t.tip a = .ok tip ∧ t.tip b = .ok tip := by
  obtain ⟨p, hp, rfl, l, r, hw, hr⟩ := exists_walk_of_rootId ha
  obtain ⟨q, hq, rfl, m, s, hw', rfl⟩ := exists_walk_of_rootId hb
  obtain rfl := Register.eq_of_key_eq hw.end_mem hw'.end_mem hr
  obtain ⟨_, tip, hp'⟩ := h.exists_walk_forward hp
  obtain ⟨_, tip', hq'⟩ := h.exists_walk_forward hq
  obtain ⟨_, tip'', hr'⟩ := h.exists_walk_forward hw.end_mem
  obtain rfl := h.end_eq_of_root hw hp' hr'
  obtain rfl := h.end_eq_of_root hw' hq' hr'
  exact ⟨_, tip_of_walk hp', tip_of_walk hq'⟩

theorem rootId_of_correctable (h : Linked t) (hp : p ∈ t) (hc : t.correctable p = .ok q) :
    t.rootId q.id = t.rootId p.id := by
  rcases correctable_eq_ok hc with ⟨_, rfl⟩ | ⟨_, hcorrects, hq⟩
  · rfl
  · exact (h.rootId_of_corrects hq hp hcorrects).symm

theorem rootId_withCorrection {c corrected tip : Period}
    (h : Linked (t.withCorrection c corrected tip)) (hnew : t.find? c.id = none)
    (hcorrected : corrected ∈ t) (htip : tip ∈ t) (hc : c.corrects = some corrected.id) :
    (t.withCorrection c corrected tip).rootId c.id =
      (t.withCorrection c corrected tip).rootId corrected.id := by
  have hmem := fun q => mem_withCorrection (q := q) hnew hcorrected htip
  have hcorrected' := (hmem _).mpr (Or.inr ⟨corrected, hcorrected, rfl⟩)
  have hc' := (hmem c).mpr (Or.inl rfl)
  have hroot := h.rootId_of_corrects hcorrected' hc' (by simpa using hc)
  rw [hroot, Period.relinked_id]

theorem correctedBy_of_approved (h : Linked t) (hp : p ∈ t) (hstate : p.state = .approved) :
    p.correctedBy = none := by
  by_contra hne
  obtain ⟨n, hn⟩ := Option.ne_none_iff_exists'.mp hne
  obtain ⟨_, _, _, ⟨hs, _⟩ | ⟨hs, _⟩⟩ := h.forward p hp n hn
  · simp [hstate] at hs
  · simp [hstate] at hs

end Linked

/-- Two tables have the same periods in all chains but the one with this root. -/
structure AgreesOutside (t t' : PeriodTable) (root : Id) : Prop where
  rootId_iff : ∀ id other, other ≠ root → (t'.rootId id = .ok other ↔ t.rootId id = .ok other)
  find?_eq : ∀ id other, t.rootId id = .ok other → other ≠ root → t'.find? id = t.find? id

namespace AgreesOutside

variable {other : Id}

theorem get_eq (h : AgreesOutside t t' root) (hid : t.rootId id = .ok other)
    (hne : other ≠ root) : t'.get id = t.get id := by
  unfold get
  rw [h.find?_eq id other hid hne]

theorem mem (h : AgreesOutside t t' root) (hp : p ∈ t) (hid : t.rootId p.id = .ok other)
    (hne : other ≠ root) : p ∈ t' := by
  have hfind := h.find?_eq p.id other hid hne
  rw [Register.find?_of_mem hp] at hfind
  exact Register.mem_of_find? hfind

theorem tip_eq (h : AgreesOutside t t' root) (hlinked : Linked t) (hid : t.rootId id = .ok other)
    (hne : other ≠ root) : t'.tip id = t.tip id := by
  obtain ⟨p, hp, rfl, _⟩ := exists_walk_of_rootId hid
  obtain ⟨l, e, hw⟩ := hlinked.exists_walk_forward hp
  have hw' : t'.Walk Period.correctedBy p l e := by
    apply hw.mono
    intro q hq
    have hroot := hlinked.rootId_of_walk hw q hq
    exact h.mem (hw.mem_table q hq) (hroot.trans hid) hne
  rw [tip_of_walk hw, tip_of_walk hw']

end AgreesOutside

theorem Linked.agreesOutside (h : Linked t) (hfrozen : t.Frozen t')
    (hchanged : ∀ id, t'.find? id ≠ t.find? id → t'.rootId id = .ok root) :
    AgreesOutside t t' root where
  rootId_iff id other hne := by
    constructor
    · intro hid
      have hsame : t'.find? id = t.find? id := by
        by_contra hdiffers
        exact hne (Except.ok.inj (hid.symm.trans (hchanged id hdiffers)))
      obtain ⟨p, hp, rfl, _⟩ := exists_walk_of_rootId hid
      rw [Register.find?_of_mem hp] at hsame
      obtain ⟨before, hbefore⟩ := h.exists_rootId (Register.mem_of_find? hsame.symm)
      rw [hbefore, ← hid]
      exact (hfrozen.rootId_eq hbefore).symm
    · intro hid
      exact hfrozen.rootId_eq hid
  find?_eq id other hid hne := by
    by_contra hdiffers
    have hafter := hfrozen.rootId_eq hid
    exact hne (Except.ok.inj (hafter.symm.trans (hchanged id hdiffers)))

end PeriodTable

end Fortnight
