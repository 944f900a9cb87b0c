import Fortnight.Proofs.Period.Linked
import Fortnight.Proofs.Period.Valid

/-!
# Chains of a linked table

In a linked table all walks end. The walk from a root to its tip is the main
path: each of its periods is a correction of the one before it, and all but the
last are submitted. The other periods with that root are drafts that have been
replaced, and each of them is a correction of a period on the main path. So the
tip is the same from wherever the walk starts, and the table is valid.
-/

namespace Fortnight

/-- `q` is a correction of the submitted period `p`, which leads to it. -/
structure Period.IsFollowedBy (p q : Period) : Prop where
  submitted : p.state = .submitted
  forward : p.correctedBy = some q.id
  back : q.corrects = some p.id

namespace PeriodTable

/-- The root and the tip of `p`, and the main path between them. -/
structure MainPath (t : PeriodTable) (p root tip : Period) (path : List Period) : Prop where
  root_eq : t.root p.id = .ok root
  tip_eq : t.tip p.id = .ok tip
  tip_of_root : t.tip root.id = .ok tip
  root_of_tip : t.root tip.id = .ok root
  /-- Of the periods with this root, only the tip leads nowhere. -/
  eq_tip_iff : ∀ q ∈ t, t.root q.id = .ok root → (q.correctedBy = none ↔ q = tip)
  chain_eq : t.chain root.id = .ok path
  head_eq : path.head? = some root
  last_eq : path.getLast? = some tip
  isChain : path.IsChain Period.IsFollowedBy
  off_path : p ∉ path → p.state = .toBeFilled ∧ ∃ q ∈ path, p.corrects = some q.id

namespace Linked

variable {t : PeriodTable} {p q r e e' : Period} {l l' m : List Period}

theorem exists_walk_back (h : Linked t) (hp : p ∈ t) :
    ∃ l r, t.Walk Period.corrects p l r := by
  obtain ⟨age, hage⟩ := h.aged
  refine Walk.exists_of_lt (fun p => age p.id) (fun p hp o ho => ?_) hp
  obtain ⟨q, hq, rfl, _⟩ := h.back p hp o ho
  exact ⟨q, hq, rfl, (hage p hp).1 _ ho⟩

theorem exists_walk_forward (h : Linked t) (hp : p ∈ t) :
    ∃ l e, t.Walk Period.correctedBy p l e := by
  obtain ⟨age, hage⟩ := h.aged
  obtain ⟨now, hnow⟩ := exists_lt_age t age
  refine Walk.exists_of_lt (fun p => now - age p.id) (fun p hp n hn => ?_) hp
  obtain ⟨q, hq, rfl, _⟩ := h.forward p hp n hn
  refine ⟨q, hq, rfl, ?_⟩
  have hlt := (hage p hp).2 _ hn
  have hle := hnow q hq
  omega

theorem isFollowedBy_of_corrects (h : Linked t) (hp : p ∈ t) (hq : q ∈ t)
    (hc : q.corrects = some p.id) (hr : ¬ q.IsReplaced) : p.IsFollowedBy q := by
  obtain ⟨p', hp', hid, hs, hlink⟩ := h.back q hq _ hc
  obtain rfl := Register.eq_of_key_eq hp' hp hid
  exact ⟨hs, hlink.mpr hr, hc⟩

theorem submitted_of_corrects (h : Linked t) (hp : p ∈ t) (hq : q ∈ t)
    (hc : q.corrects = some p.id) : p.state = .submitted := by
  obtain ⟨p', hp', hid, hs, _⟩ := h.back q hq _ hc
  obtain rfl := Register.eq_of_key_eq hp' hp hid
  exact hs

theorem isFollowedBy_of_correctedBy (h : Linked t) (hp : p ∈ t) (hq : q ∈ t)
    (hc : p.correctedBy = some q.id) (hr : ¬ p.IsReplaced) :
    p.IsFollowedBy q ∧ ¬ q.IsReplaced := by
  obtain ⟨q', hq', hid, ⟨hs, hback⟩ | ⟨hs, _⟩⟩ := h.forward p hp _ hc
  · obtain rfl := Register.eq_of_key_eq hq' hq hid
    obtain ⟨p', hp', hid, _, hlink⟩ := h.back q' hq' _ hback
    obtain rfl := Register.eq_of_key_eq hp' hp hid
    exact ⟨⟨hs, hc, hback⟩, hlink.mp hc⟩
  · exact absurd ⟨hs, by simp [hc]⟩ hr

/-- A period and its corrections have one tip. -/
theorem end_eq_of_corrects (h : Linked t) (hp : t.Walk Period.correctedBy p l e)
    (hq : t.Walk Period.correctedBy q l' e') (hc : q.corrects = some p.id) : e = e' := by
  have follows : ∀ {q l' e'}, t.Walk Period.correctedBy q l' e' → q.corrects = some p.id →
      ¬ q.IsReplaced → e = e' := fun hq hc hr =>
    (hp.unique (.next hp.start_mem
      (h.isFollowedBy_of_corrects hp.start_mem hq.start_mem hc hr).forward hq)).2
  induction hq with
  | last hmem hn => exact follows (.last hmem hn) hc (not_isReplaced_of_none hn)
  | @next q q' _ _ hmem hl hw ih =>
    by_cases hr : q.IsReplaced
    · -- A replaced draft leads on to another correction of the same period.
      obtain ⟨s, hs, hid, ⟨hsub, _⟩ | ⟨_, _, hback⟩⟩ := h.forward q hmem _ hl
      · exact absurd hr (not_isReplaced_of_submitted hsub)
      · obtain rfl := Register.eq_of_key_eq hs hw.start_mem hid
        exact ih (hback.trans hc)
    · exact follows (.next hmem hl hw) hc hr

theorem end_eq_of_root (h : Linked t) (hback : t.Walk Period.corrects p m r)
    (hp : t.Walk Period.correctedBy p l e) (hr : t.Walk Period.correctedBy r l' e') :
    e = e' := by
  induction hback generalizing l e with
  | last => exact (hp.unique hr).2
  | next _ hc hw ih =>
    obtain ⟨l'', e'', hq⟩ := h.exists_walk_forward hw.start_mem
    exact (h.end_eq_of_corrects hq hp hc).symm.trans (ih hq hr)

theorem isChain_of_walk (h : Linked t) (hp : t.Walk Period.correctedBy p l e)
    (hr : ¬ p.IsReplaced) : l.IsChain Period.IsFollowedBy := by
  induction hp with
  | last => exact .singleton _
  | next hmem hl hw ih =>
    obtain ⟨hfollow, hr⟩ := h.isFollowedBy_of_correctedBy hmem hw.start_mem hl hr
    cases hw with
    | last => exact .cons_cons hfollow (.singleton _)
    | next => exact .cons_cons hfollow (ih hr)

theorem valid (h : Linked t) : t.Valid where
  forward _ hp := h.exists_walk_forward hp
  back _ hp := h.exists_walk_back hp
  isChain _ _ _ hroot hw :=
    (h.isChain_of_walk hw (h.root_not_isReplaced hw.start_mem hroot)).imp fun _ _ hpq => hpq.back

theorem validate_eq_ok (h : Linked t) : t.validate = .ok () :=
  validate_eq_ok_iff.mpr h.valid

/-- A period that is not on the main path of its root is a draft that has been
replaced, and what it corrects is on that path: only submitted periods have
corrections, and of the corrections of one period just one has not been replaced. -/
theorem off_path (h : Linked t) (hback : t.Walk Period.corrects p m r)
    (hpath : t.Walk Period.correctedBy r l e) (hoff : p ∉ l) :
    p.state = .toBeFilled ∧ ∃ q ∈ l, p.corrects = some q.id := by
  induction hback with
  | last => exact absurd hpath.start_mem_list hoff
  | @next p q _ _ hmem hc hw ih =>
    have hq : q ∈ l := by
      by_contra hq
      have hs := h.submitted_of_corrects hw.start_mem hmem hc
      rw [(ih hpath hq).1] at hs
      cases hs
    have hr : p.IsReplaced := by
      by_contra hr
      have hfollow := h.isFollowedBy_of_corrects hw.start_mem hmem hc hr
      exact hoff (hpath.mem_of_link hq hmem hfollow.forward)
    exact ⟨hr.1, q, hq, hc⟩

theorem exists_mainPath (h : Linked t) (hp : p ∈ t) :
    ∃ root tip path, t.MainPath p root tip path := by
  obtain ⟨m, root, hback⟩ := h.exists_walk_back hp
  obtain ⟨l, tip, hforward⟩ := h.exists_walk_forward hp
  obtain ⟨path, tip', hpath⟩ := h.exists_walk_forward hback.end_mem
  obtain rfl := h.end_eq_of_root hback hforward hpath
  have hroot := h.root_not_isReplaced hback.end_mem hback.end_link
  obtain ⟨m', hback'⟩ := hpath.exists_back (h.valid.isChain _ _ _ hback.end_link hpath)
    (.last hback.end_mem hback.end_link)
  refine ⟨root, tip, path, root_of_walk hback, tip_of_walk hforward, tip_of_walk hpath,
    root_of_walk hback', fun q hq hqroot => ?_, chain_of_walk hpath, hpath.head?_eq,
    hpath.getLast?_eq, h.isChain_of_walk hpath hroot, h.off_path hback hpath⟩
  constructor
  · intro hnone
    obtain ⟨n, root', hback''⟩ := h.exists_walk_back hq
    rw [root_of_walk hback''] at hqroot
    cases hqroot
    exact h.end_eq_of_root hback'' (.last hq hnone) hpath
  · rintro rfl
    exact hpath.end_link

end Linked

end PeriodTable

end Fortnight
