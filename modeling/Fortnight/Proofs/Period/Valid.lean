import Mathlib.Data.List.Chain
import Fortnight.Proofs.Period.Walk

/-!
# Valid tables

What `validate` accepts, said in terms of walks: the links of every period come
to an end both ways, and from a root on each period is corrected by the one that
it leads to. Nothing is said of how a period that is not on such a main path
leads on. It leads to the tip of its root exactly if it leads on to a period of
the same root, wherever it is off the path.
-/

namespace Fortnight

namespace PeriodTable

variable {t : PeriodTable} {p q r e e' : Period} {l l' m m' : List Period}

theorem mem_roots : p ∈ t.roots ↔ p ∈ t ∧ p.corrects = none := by
  simp [roots, Register.mem_def]

theorem checkChain_eq_ok_iff :
    checkChain l = .ok () ↔ l.IsChain fun p q => q.corrects = some p.id := by
  induction l with
  | nil => simp [checkChain]
  | cons p l ih =>
    cases l with
    | nil => simp [checkChain]
    | cons q l =>
      rw [checkChain, List.isChain_cons_cons]
      split
      · rename_i hback
        rw [ih, and_iff_right hback]
      · rename_i hback
        simp [hback]

namespace Walk

variable {link : Period → Option Id}

theorem link_ne_self (h : t.Walk link p l e) : link p ≠ some p.id := by
  intro hself
  have hnodup := h.nodup
  cases h with
  | last _ hn => rw [hn] at hself; cases hself
  | next hp hl hw =>
    rw [hl] at hself
    obtain rfl := Register.eq_of_key_eq hw.start_mem hp (Option.some.inj hself)
    exact (List.nodup_cons.mp hnodup).1 hw.start_mem_list

theorem checkLink_eq_ok (h : t.Walk link p l e) (q : Period) :
    t.checkLink q (link p) = .ok () := by
  cases h with
  | last _ hn =>
    rw [hn]
    rfl
  | next _ hl hw =>
    rw [hl]
    exact if_pos (Register.contains_iff.mpr ⟨_, hw.start_mem, rfl⟩)

theorem exists_back (h : t.Walk Period.correctedBy p l e)
    (hchain : l.IsChain fun p q => q.corrects = some p.id)
    (hback : t.Walk Period.corrects p m r) : ∃ m', t.Walk Period.corrects e m' r := by
  induction h generalizing m with
  | last => exact ⟨m, hback⟩
  | next _ _ hw ih =>
    cases hw with
    | last hq hn =>
      have hcorrects := (List.isChain_cons_cons.mp hchain).1
      exact ih (.singleton _) (.next hq hcorrects hback)
    | next hq hl hw =>
      obtain ⟨hcorrects, hrest⟩ := List.isChain_cons_cons.mp hchain
      exact ih hrest (.next hq hcorrects hback)

end Walk

/-- Links end both ways, and a root is the beginning of a path that leads back to it. -/
structure Valid (t : PeriodTable) : Prop where
  forward : ∀ p ∈ t, ∃ l e, t.Walk Period.correctedBy p l e
  back : ∀ p ∈ t, ∃ l r, t.Walk Period.corrects p l r
  isChain : ∀ r l e, r.corrects = none → t.Walk Period.correctedBy r l e →
    l.IsChain fun p q => q.corrects = some p.id

theorem checkPeriod_eq_ok_iff (hp : p ∈ t) :
    t.checkPeriod p = .ok () ↔
      (∃ l e, t.Walk Period.correctedBy p l e) ∧ ∃ l r, t.Walk Period.corrects p l r := by
  constructor
  · intro h
    obtain ⟨_, _, h⟩ := Error.bind_eq_ok_iff.mp h
    obtain ⟨_, _, h⟩ := Error.bind_eq_ok_iff.mp h
    dsimp only at h
    split at h
    · cases h
    obtain ⟨e, he, h⟩ := Error.bind_eq_ok_iff.mp h
    obtain ⟨r, hr, h⟩ := Error.bind_eq_ok_iff.mp h
    obtain ⟨l, hforward⟩ := exists_walk_of_tip hp he
    obtain ⟨m, hback⟩ := exists_walk_of_root hp hr
    exact ⟨⟨l, e, hforward⟩, m, r, hback⟩
  · rintro ⟨⟨l, e, hforward⟩, m, r, hback⟩
    simp [checkPeriod, hforward.checkLink_eq_ok, hback.checkLink_eq_ok, hforward.link_ne_self,
      hback.link_ne_self, tip_of_walk hforward, root_of_walk hback, pure, Except.pure]

theorem validate_eq_ok_iff : t.validate = .ok () ↔ t.Valid := by
  have hperiods : t.toList.forM t.checkPeriod = .ok () ↔ ∀ p ∈ t,
      (∃ l e, t.Walk Period.correctedBy p l e) ∧ ∃ l r, t.Walk Period.corrects p l r :=
    Error.forM_eq_ok_iff.trans (forall₂_congr fun p hp => checkPeriod_eq_ok_iff hp)
  constructor
  · intro h
    obtain ⟨_, hall, hroots⟩ := Error.bind_eq_ok_iff.mp h
    have hwalks := hperiods.mp hall
    refine ⟨fun p hp => (hwalks p hp).1, fun p hp => (hwalks p hp).2, ?_⟩
    intro r l e hr hw
    have hroot := Error.forM_eq_ok_iff.mp hroots r (mem_roots.mpr ⟨hw.start_mem, hr⟩)
    rw [chain_of_walk hw] at hroot
    exact checkChain_eq_ok_iff.mp hroot
  · intro h
    have hall := hperiods.mpr fun p hp => ⟨h.forward p hp, h.back p hp⟩
    refine Error.bind_eq_ok_iff.mpr ⟨(), hall, ?_⟩
    apply Error.forM_eq_ok_iff.mpr
    intro r hr
    obtain ⟨hmem, hroot⟩ := mem_roots.mp hr
    obtain ⟨l, e, hw⟩ := h.forward r hmem
    rw [chain_of_walk hw]
    exact checkChain_eq_ok_iff.mpr (h.isChain r l e hroot hw)

/-- Each period leads to the tip of its root. -/
def Unsplit (t : PeriodTable) : Prop :=
  ∀ p ∈ t, ∃ root tip, t.root p.id = .ok root ∧ t.tip p.id = .ok tip ∧ t.tip root.id = .ok tip

/-- Each period that is not on the main path of its root leads on to another
period of that root. -/
def LeadsOn (t : PeriodTable) : Prop :=
  ∀ p ∈ t, ∀ root path, t.root p.id = .ok root → t.chain root.id = .ok path → p ∉ path →
    ∃ q ∈ t, p.correctedBy = some q.id ∧ t.root q.id = .ok root

namespace Valid

/-- The way from a period joins the main path sooner or later, and then stays on it. -/
theorem end_eq_of_leadsOn (h : t.Valid) (hleads : t.LeadsOn)
    (hp : t.Walk Period.correctedBy p l e) (hback : t.Walk Period.corrects p m r)
    (hpath : t.Walk Period.correctedBy r l' e') : e = e' := by
  -- On the path the rest of the way is the rest of the path; off it, what comes
  -- next has the same root, so that the path stays the same in the induction.
  induction hp generalizing m with
  | @last p hmem hn =>
    by_cases hon : p ∈ l'
    · obtain ⟨_, hrest, _⟩ := hpath.from_mem hon
      exact ((Walk.last hmem hn).unique hrest).2
    · obtain ⟨q, _, hlink, _⟩ := hleads p hmem r l' (root_of_walk hback) (chain_of_walk hpath) hon
      rw [hn] at hlink
      cases hlink
  | @next p q l e hmem hl hw ih =>
    by_cases hon : p ∈ l'
    · obtain ⟨_, hrest, _⟩ := hpath.from_mem hon
      exact ((Walk.next hmem hl hw).unique hrest).2
    · obtain ⟨q', hq', hlink, hroot⟩ :=
        hleads p hmem r l' (root_of_walk hback) (chain_of_walk hpath) hon
      rw [hl] at hlink
      obtain rfl := Register.eq_of_key_eq hw.start_mem hq' (Option.some.inj hlink)
      obtain ⟨m', r', hback'⟩ := h.back q hq'
      rw [root_of_walk hback'] at hroot
      cases hroot
      exact ih hback'

theorem unsplit_of_leadsOn (h : t.Valid) (hleads : t.LeadsOn) : t.Unsplit := by
  intro p hp
  obtain ⟨l, e, hforward⟩ := h.forward p hp
  obtain ⟨m, r, hback⟩ := h.back p hp
  obtain ⟨path, e', hpath⟩ := h.forward r hback.end_mem
  obtain rfl := h.end_eq_of_leadsOn hleads hforward hback hpath
  exact ⟨r, e, root_of_walk hback, tip_of_walk hforward, tip_of_walk hpath⟩

/-- The way back from the tip of a root ends at that root, and so at no other one. -/
theorem root_of_tip_of_root (h : t.Valid) {root tip : Period} (hmem : root ∈ t)
    (hroot : root.corrects = none) (htip : t.tip root.id = .ok tip) :
    t.root tip.id = .ok root := by
  obtain ⟨l, hw⟩ := exists_walk_of_tip hmem htip
  obtain ⟨_, hback⟩ := hw.exists_back (h.isChain root l tip hroot hw) (.last hmem hroot)
  exact root_of_walk hback

theorem leadsOn_of_unsplit (h : t.Valid) (hunsplit : t.Unsplit) : t.LeadsOn := by
  intro p hp root path hroot hchain hoff
  obtain ⟨r, tip, hr, htip, htip'⟩ := hunsplit p hp
  obtain rfl : root = r := Except.ok.inj (hroot.symm.trans hr)
  obtain ⟨_, hback⟩ := exists_walk_of_root hp hroot
  obtain ⟨path', hpath⟩ := exists_walk_of_tip hback.end_mem htip'
  obtain rfl : path = path' := Except.ok.inj (hchain.symm.trans (chain_of_walk hpath))
  obtain ⟨_, hforward⟩ := exists_walk_of_tip hp htip
  cases hforward with
  | last => exact absurd hpath.end_mem_list hoff
  | @next _ q _ _ _ hl hw =>
    -- The successor has the same tip, which its root has as well.
    obtain ⟨r, tip', hr, htip, htip'⟩ := hunsplit q hw.start_mem
    obtain rfl : tip = tip' := Except.ok.inj ((tip_of_walk hw).symm.trans htip)
    obtain ⟨_, hback'⟩ := exists_walk_of_root hw.start_mem hr
    have hsame := h.root_of_tip_of_root hback'.end_mem hback'.end_link htip'
    rw [h.root_of_tip_of_root hback.end_mem hback.end_link (tip_of_walk hpath)] at hsame
    exact ⟨q, hw.start_mem, hl, hr.trans hsame.symm⟩

end Valid

end PeriodTable

end Fortnight
