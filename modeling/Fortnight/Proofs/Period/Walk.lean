import Mathlib.Data.List.Basic
import Mathlib.Data.List.Nodup
import Fortnight.Period.Table

/-!
# Walks along links

A walk lists the periods that are seen on the way from a period to the end of
its links. The table leads from one period to the next in one way only, so a
walk that ends sees no period twice and is at most as long as the table is
large. The limits on steps therefore never cut a walk short: `follow` finds its
end and `chainFrom` lists it.
-/

namespace Fortnight

namespace PeriodTable

variable {t : PeriodTable} {link : Period → Option Id}

/-- `t.Walk link p l e` holds when the links that lead on from `p` end at `e`,
and `l` is what they pass, both ends included. -/
inductive Walk (t : PeriodTable) (link : Period → Option Id) :
    Period → List Period → Period → Prop
  | last {p} : p ∈ t → link p = none → Walk t link p [p] p
  | next {p q l e} : p ∈ t → link p = some q.id → Walk t link q l e → Walk t link p (p :: l) e

namespace Walk

variable {p q e e' : Period} {l l' : List Period}

theorem start_mem (h : t.Walk link p l e) : p ∈ t := by
  cases h <;> assumption

theorem start_mem_list (h : t.Walk link p l e) : p ∈ l := by
  cases h <;> simp

theorem end_mem_list (h : t.Walk link p l e) : e ∈ l := by
  induction h with
  | last => simp
  | next _ _ _ ih => simp [ih]

theorem mem_table (h : t.Walk link p l e) : ∀ q ∈ l, q ∈ t := by
  induction h with
  | last hp _ => simpa using hp
  | next hp _ _ ih => simpa using ⟨hp, ih⟩

theorem end_mem (h : t.Walk link p l e) : e ∈ t :=
  h.mem_table e h.end_mem_list

theorem end_link (h : t.Walk link p l e) : link e = none := by
  induction h with
  | last _ hn => exact hn
  | next _ _ _ ih => exact ih

theorem head?_eq (h : t.Walk link p l e) : l.head? = some p := by
  cases h <;> rfl

theorem getLast?_eq (h : t.Walk link p l e) : l.getLast? = some e := by
  induction h with
  | last => rfl
  | next _ _ hw ih =>
    rw [List.getLast?_cons, ih]
    rfl

/-- A period has one walk only. -/
theorem unique (h : t.Walk link p l e) (h' : t.Walk link p l' e') : l = l' ∧ e = e' := by
  induction h generalizing l' e' with
  | last _ hn =>
    cases h' with
    | last => exact ⟨rfl, rfl⟩
    | next _ hl _ => rw [hn] at hl; cases hl
  | next _ hl hw ih =>
    cases h' with
    | last _ hn => rw [hn] at hl; cases hl
    | next _ hl' hw' =>
      rw [hl] at hl'
      have hq := Register.eq_of_key_eq hw.start_mem hw'.start_mem (Option.some.inj hl')
      subst hq
      obtain ⟨rfl, rfl⟩ := ih hw'
      exact ⟨rfl, rfl⟩

theorem from_mem (h : t.Walk link p l e) (hq : q ∈ l) :
    ∃ m, t.Walk link q m e ∧ m <:+ l := by
  induction h with
  | last hp hn =>
    obtain rfl := List.mem_singleton.mp hq
    exact ⟨_, .last hp hn, List.suffix_rfl⟩
  | next hp hl hw ih =>
    rcases List.mem_cons.mp hq with rfl | hq
    · exact ⟨_, .next hp hl hw, List.suffix_rfl⟩
    · obtain ⟨m, hm, hs⟩ := ih hq
      exact ⟨m, hm, hs.trans (List.suffix_cons _ _)⟩

theorem nodup (h : t.Walk link p l e) : l.Nodup := by
  induction h with
  | last => simp
  | @next p q l e hp hl hw ih =>
    refine List.nodup_cons.mpr ⟨fun hmem => ?_, ih⟩
    -- A period that came up again would have a shorter walk beside its own.
    obtain ⟨m, hm, hs⟩ := hw.from_mem hmem
    have hlen := hs.length_le
    rw [(hm.unique (.next hp hl hw)).1, List.length_cons] at hlen
    omega

theorem length_le (h : t.Walk link p l e) : l.length ≤ t.size :=
  h.nodup.length_le_of_subset h.mem_table

theorem mem_of_link (h : t.Walk link p l e) (hp : q ∈ l) {r : Period} (hr : r ∈ t)
    (hl : link q = some r.id) : r ∈ l := by
  obtain ⟨m, hm, hs⟩ := h.from_mem hp
  cases hm with
  | last _ hn => rw [hn] at hl; cases hl
  | next _ hl' hw =>
    rw [hl] at hl'
    have := Register.eq_of_key_eq hr hw.start_mem (Option.some.inj hl')
    subst this
    exact hs.subset (List.mem_cons_of_mem _ hw.start_mem_list)

/-- Links that stay in the table come to an end if a measure goes down along them. -/
theorem exists_of_lt (measure : Period → ℕ)
    (hlt : ∀ p ∈ t, ∀ n, link p = some n → ∃ q ∈ t, q.id = n ∧ measure q < measure p)
    (hp : p ∈ t) : ∃ l e, t.Walk link p l e := by
  induction hm : measure p using Nat.strongRecOn generalizing p with
  | ind m ih =>
    cases hl : link p with
    | none => exact ⟨[p], p, .last hp hl⟩
    | some n =>
      obtain ⟨q, hq, rfl, hqp⟩ := hlt p hp n hl
      obtain ⟨l, e, hw⟩ := ih (measure q) (hm ▸ hqp) hq rfl
      exact ⟨p :: l, e, .next hp hl hw⟩

end Walk

theorem get_of_mem {p : Period} (h : p ∈ t) : t.get p.id = .ok p := by
  simp [get, Register.find?_of_mem h]

theorem get_eq_ok_iff {id : Id} {p : Period} : t.get id = .ok p ↔ p ∈ t ∧ p.id = id := by
  rw [← Register.find?_eq_some_iff, get]
  cases t.find? id <;> simp

theorem follow_of_walk {p e : Period} {l : List Period} (h : t.Walk link p l e) (start : Id)
    {steps : ℕ} (hs : l.length ≤ steps) : t.follow link start steps p = .ok e := by
  induction h generalizing steps with
  | last _ hn =>
    cases steps with
    | zero => simp at hs
    | succ steps => simp [follow, hn]
  | next _ hl hw ih =>
    cases steps with
    | zero => simp at hs
    | succ steps =>
      simp only [follow, hl, get_of_mem hw.start_mem]
      exact ih (by simpa using hs)

theorem walk_of_follow {p e : Period} {start : Id} {steps : ℕ} (hp : p ∈ t)
    (h : t.follow link start steps p = .ok e) : ∃ l, t.Walk link p l e := by
  induction steps generalizing p with
  | zero => simp [follow] at h
  | succ steps ih =>
    simp only [follow] at h
    split at h
    · rename_i hn
      cases h
      exact ⟨_, .last hp hn⟩
    · rename_i next hl
      cases hg : t.get next with
      | error => simp [hg, bind, Except.bind] at h
      | ok q =>
        obtain ⟨hq, rfl⟩ := get_eq_ok_iff.mp hg
        rw [hg] at h
        obtain ⟨l, hw⟩ := ih hq h
        exact ⟨_, .next hp hl hw⟩

theorem chainFrom_of_walk {p e : Period} {l : List Period}
    (h : t.Walk Period.correctedBy p l e) (start : Id) {steps : ℕ} (hs : l.length ≤ steps) :
    t.chainFrom start steps p = .ok l := by
  induction h generalizing steps with
  | last _ hn =>
    cases steps with
    | zero => simp at hs
    | succ steps => simp [chainFrom, hn]
  | next _ hl hw ih =>
    cases steps with
    | zero => simp at hs
    | succ steps =>
      simp only [chainFrom, hl, get_of_mem hw.start_mem]
      change (do let rest ← t.chainFrom start steps _; pure (_ :: rest)) = _
      rw [ih (by simpa using hs)]
      rfl

section Ends

variable {p e : Period} {l : List Period}

theorem tip_of_walk (h : t.Walk Period.correctedBy p l e) : t.tip p.id = .ok e := by
  simp only [tip, get_of_mem h.start_mem]
  exact follow_of_walk h p.id (Nat.le_succ_of_le h.length_le)

theorem root_of_walk (h : t.Walk Period.corrects p l e) : t.root p.id = .ok e := by
  simp only [root, get_of_mem h.start_mem]
  exact follow_of_walk h p.id (Nat.le_succ_of_le h.length_le)

theorem chain_of_walk (h : t.Walk Period.correctedBy p l e) : t.chain p.id = .ok l := by
  simp only [chain, get_of_mem h.start_mem]
  exact chainFrom_of_walk h p.id h.length_le

theorem walk_of_get_follow {id : Id} {steps : ℕ}
    (h : (do t.follow link id steps (← t.get id)) = .ok e) :
    ∃ p ∈ t, p.id = id ∧ ∃ l, t.Walk link p l e := by
  obtain ⟨p, hget, hfollow⟩ := Error.bind_eq_ok_iff.mp h
  obtain ⟨hp, hid⟩ := get_eq_ok_iff.mp hget
  exact ⟨p, hp, hid, walk_of_follow hp hfollow⟩

theorem exists_walk_of_tip (hp : p ∈ t) (h : t.tip p.id = .ok e) :
    ∃ l, t.Walk Period.correctedBy p l e := by
  obtain ⟨q, hq, hid, hw⟩ := walk_of_get_follow h
  obtain rfl := Register.eq_of_key_eq hq hp hid
  exact hw

theorem exists_walk_of_root (hp : p ∈ t) (h : t.root p.id = .ok e) :
    ∃ l, t.Walk Period.corrects p l e := by
  obtain ⟨q, hq, hid, hw⟩ := walk_of_get_follow h
  obtain rfl := Register.eq_of_key_eq hq hp hid
  exact hw

theorem tip_mem {id : Id} (h : t.tip id = .ok e) : e ∈ t := by
  obtain ⟨_, _, _, _, hw⟩ := walk_of_get_follow h
  exact hw.end_mem

theorem tip_correctedBy {id : Id} (h : t.tip id = .ok e) : e.correctedBy = none := by
  obtain ⟨_, _, _, _, hw⟩ := walk_of_get_follow h
  exact hw.end_link

end Ends

end PeriodTable

end Fortnight
