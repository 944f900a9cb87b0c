import Mathlib.Data.List.Induction
import Mathlib.Data.Int.Notation
import Fortnight.History

/-!
# Histories

A history is in order of time, so that what it holds up to an instant is a first
part of it. Of this part a new snapshot replaces the last one if they are of the
same instant, and else it is put behind it.

In effect at an instant is the last snapshot up to it. In whatever order snapshots
were put in, this is the latest one of the greatest instant that is not after the
one asked for. One snapshot more counts from its instant on, until the next one
that is there.
-/

namespace Fortnight

namespace History

variable {α : Type} {h : History α} {moment since : Instant} {a : α}
  {puts : List (Instant × α)}

/-- The snapshots of a history before an instant. -/
def before (h : History α) (moment : Instant) : List (Instant × α) :=
  h.toList.takeWhile fun snapshot => snapshot.1 < moment

/-- The snapshots of a history that count at an instant or did so before. -/
def upTo (h : History α) (moment : Instant) : List (Instant × α) :=
  h.toList.takeWhile fun snapshot => snapshot.1 ≤ moment

theorem takeWhile_eq_filter {β : Type} {P : β → Bool} {l : List β}
    (hl : l.Pairwise fun b c => P c → P b) : l.takeWhile P = l.filter P := by
  induction l with
  | nil => rfl
  | cons b rest ih =>
    rw [List.pairwise_cons] at hl
    by_cases hb : P b
    · rw [List.takeWhile_cons_of_pos hb, List.filter_cons_of_pos hb, ih hl.2]
    · rw [List.takeWhile_cons_of_neg hb, List.filter_cons_of_neg hb]
      exact (List.filter_eq_nil_iff.mpr fun c hc hPc => hb (hl.1 c hc hPc)).symm

theorem before_eq_filter (h : History α) (moment : Instant) :
    h.before moment = h.toList.filter fun snapshot => snapshot.1 < moment := by
  apply takeWhile_eq_filter
  apply h.ascending.imp
  intro b c hbc hc
  simp only [decide_eq_true_eq] at hc ⊢
  exact Int.lt_trans hbc hc

theorem upTo_eq_filter (h : History α) (moment : Instant) :
    h.upTo moment = h.toList.filter fun snapshot => snapshot.1 ≤ moment := by
  apply takeWhile_eq_filter
  apply h.ascending.imp
  intro b c hbc hc
  simp only [decide_eq_true_eq] at hc ⊢
  exact Int.le_of_lt (Int.lt_of_lt_of_le hbc hc)

theorem mem_before {snapshot : Instant × α} :
    snapshot ∈ h.before moment ↔ snapshot ∈ h ∧ snapshot.1 < moment := by
  simp [before_eq_filter, Register.mem_def]

theorem mem_upTo {snapshot : Instant × α} :
    snapshot ∈ h.upTo moment ↔ snapshot ∈ h ∧ snapshot.1 ≤ moment := by
  simp [upTo_eq_filter, Register.mem_def]

/-- A snapshot is the last one at its own instant, whatever was there before. -/
theorem upTo_put (h : History α) (moment : Instant) (a : α) :
    (h.put moment a).upTo moment = h.before moment ++ [(moment, a)] := by
  have hupTo : ((h.put moment a).upTo moment).Pairwise fun b c => rank b.1 < rank c.1 := by
    rw [upTo_eq_filter]
    exact (h.put moment a).ascending.filter _
  have hbefore : (h.before moment ++ [(moment, a)]).Pairwise fun b c => rank b.1 < rank c.1 := by
    refine List.pairwise_append.mpr ⟨?_, List.pairwise_singleton _ _, ?_⟩
    · rw [before_eq_filter]
      exact h.ascending.filter _
    · intro b hb c hc
      rw [List.mem_singleton.mp hc]
      exact (mem_before.mp hb).2
  apply Register.toList_eq_of_mem_iff hupTo hbefore
  intro snapshot
  rw [mem_upTo, put, Register.mem_insert, List.mem_append, mem_before, List.mem_singleton]
  constructor
  · rintro ⟨rfl | ⟨hs, hne⟩, hle⟩
    · exact Or.inr rfl
    · exact Or.inl ⟨hs, Int.lt_iff_le_and_ne.mpr ⟨hle, fun e => hne (Instant.ext_rank e)⟩⟩
  · rintro (⟨hs, hlt⟩ | rfl)
    · exact ⟨Or.inr ⟨hs, fun e => Int.lt_irrefl _ (e ▸ hlt)⟩, Int.le_of_lt hlt⟩
    · exact ⟨Or.inl rfl, Int.le_refl _⟩

theorem upTo_of_mem (hmem : (moment, a) ∈ h) :
    h.upTo moment = h.before moment ++ [(moment, a)] := by
  rw [← upTo_put, put, Register.insert_of_mem hmem]

theorem upTo_eq_before (hne : ∀ snapshot ∈ h, snapshot.1 ≠ moment) :
    h.upTo moment = h.before moment := by
  rw [upTo_eq_filter, before_eq_filter]
  apply List.filter_congr
  intro snapshot hs
  have hrank : snapshot.1.rank ≠ moment.rank := fun e => hne snapshot hs (Instant.ext_rank e)
  simp only [Instant.le_iff, Instant.lt_iff, decide_eq_decide]
  omega

theorem asOf_eq_ok_iff :
    h.asOf moment = .ok a ↔ ∃ since, (h.upTo moment).getLast? = some (since, a) := by
  have hlast : (h.upTo moment).getLast? = h.upTo? moment := by
    rw [upTo_eq_filter]
    rfl
  rw [hlast, asOf]
  cases h.upTo? moment with
  | none => simp
  | some snapshot => simp [Prod.ext_iff]

theorem getLast?_upTo_eq_some_iff {snapshot : Instant × α} :
    (h.upTo moment).getLast? = some snapshot ↔
      snapshot ∈ h ∧ snapshot.1 ≤ moment ∧
        ∀ other ∈ h, other.1 ≤ moment → other.1 ≤ snapshot.1 := by
  have hascending : (h.upTo moment).Pairwise fun b c => rank b.1 < rank c.1 := by
    rw [upTo_eq_filter]
    exact h.ascending.filter _
  constructor
  · intro hlast
    obtain ⟨earlier, hsplit⟩ := List.getLast?_eq_some_iff.mp hlast
    obtain ⟨hmem, hle⟩ := mem_upTo.mp (List.mem_of_getLast? hlast)
    refine ⟨hmem, hle, fun other hother hotherLe => ?_⟩
    have hupTo := mem_upTo.mpr ⟨hother, hotherLe⟩
    rw [hsplit] at hupTo hascending
    rcases List.mem_append.mp hupTo with hearlier | hsame
    · have hlt := (List.pairwise_append.mp hascending).2.2 other hearlier snapshot
        List.mem_cons_self
      exact Int.le_of_lt hlt
    · rw [List.mem_singleton.mp hsame]
      exact Int.le_refl _
  · rintro ⟨hmem, hle, hgreatest⟩
    obtain ⟨earlier, later, hsplit⟩ := List.append_of_mem (mem_upTo.mpr ⟨hmem, hle⟩)
    have hlater : later = [] := by
      rw [List.eq_nil_iff_forall_not_mem]
      intro other hother
      have hupTo : other ∈ h.upTo moment := by
        rw [hsplit]
        exact List.mem_append_right _ (List.mem_cons_of_mem _ hother)
      obtain ⟨hotherMem, hotherLe⟩ := mem_upTo.mp hupTo
      rw [hsplit] at hascending
      have hlt := (List.pairwise_cons.mp (List.pairwise_append.mp hascending).2.1).1 other hother
      exact Int.not_le.mpr hlt (hgreatest other hotherMem hotherLe)
    rw [hsplit, hlater]
    exact List.getLast?_concat

theorem asOf_eq_ok_iff_mem :
    h.asOf moment = .ok a ↔ ∃ since, (since, a) ∈ h ∧ since ≤ moment ∧
      ∀ other ∈ h, other.1 ≤ moment → other.1 ≤ since := by
  rw [asOf_eq_ok_iff]
  simp only [getLast?_upTo_eq_some_iff]

theorem asOf_eq_error_iff {e : Error} :
    h.asOf moment = .error e ↔
      e = .notFound (.snapshot moment) ∧ ∀ snapshot ∈ h, ¬ snapshot.1 ≤ moment := by
  have hnone : h.upTo? moment = none ↔ ∀ snapshot ∈ h, ¬ snapshot.1 ≤ moment := by
    rw [Register.upTo?, List.getLast?_eq_none_iff, List.filter_eq_nil_iff]
    simp [Register.mem_def, Instant.le_iff]
    rfl
  rw [← hnone, asOf]
  cases h.upTo? moment with
  | none => simp [eq_comm]
  | some snapshot => simp

/-- A snapshot more counts from its instant on, up to that of the next one. -/
theorem asOf_put_eq (h : History α) (since moment : Instant) (a : α) :
    (h.put since a).asOf moment =
      if since ≤ moment ∧ ∀ other ∈ h.toList, ¬ (since < other.1 ∧ other.1 ≤ moment) then .ok a
      else h.asOf moment := by
  split
  · rename_i hcounts
    obtain ⟨hle, hnone⟩ := hcounts
    refine asOf_eq_ok_iff_mem.mpr ⟨since, Register.mem_insert.mpr (Or.inl rfl), hle, ?_⟩
    intro other hother hotherLe
    rcases Register.mem_insert.mp hother with rfl | ⟨hother, _⟩
    · exact Int.le_refl _
    · exact Int.not_lt.mp fun hlt => hnone other hother ⟨hlt, hotherLe⟩
  · rename_i hcounts
    -- Either the new snapshot counts too late, or another one is in effect by then.
    have hlater : since ≤ moment → ∃ other ∈ h, since < other.1 ∧ other.1 ≤ moment := by
      intro hle
      by_contra hnone
      exact hcounts ⟨hle, fun other hother hbetween => hnone ⟨other, hother, hbetween⟩⟩
    cases hbefore : h.asOf moment with
    | ok b =>
      obtain ⟨began, hmem, hle, hgreatest⟩ := asOf_eq_ok_iff_mem.mp hbefore
      have hlt : since ≤ moment → since < began := by
        intro hsince
        obtain ⟨other, hother, hotherLt, hotherLe⟩ := hlater hsince
        exact Int.lt_of_lt_of_le hotherLt (hgreatest other hother hotherLe)
      have hne : began ≠ since := by
        rintro rfl
        exact Int.lt_irrefl _ (hlt hle)
      refine asOf_eq_ok_iff_mem.mpr ⟨began, Register.mem_insert.mpr (Or.inr ⟨hmem, hne⟩), hle, ?_⟩
      intro other hother hotherLe
      rcases Register.mem_insert.mp hother with rfl | ⟨hother, _⟩
      · exact Int.le_of_lt (hlt hotherLe)
      · exact hgreatest other hother hotherLe
    | error e =>
      obtain ⟨rfl, hnone⟩ := asOf_eq_error_iff.mp hbefore
      refine asOf_eq_error_iff.mpr ⟨rfl, fun snapshot hsnapshot hle => ?_⟩
      rcases Register.mem_insert.mp hsnapshot with rfl | ⟨hmem, _⟩
      · obtain ⟨other, hother, _, hotherLe⟩ := hlater hle
        exact hnone other hother hotherLe
      · exact hnone snapshot hmem hle

section Puts

/-- The history of all that was put in, one after another and in any order of time. -/
def ofPuts (puts : List (Instant × α)) : History α :=
  puts.foldl (fun h put => h.put put.1 put.2) Register.empty

/-- Holds when `a` was put in at an instant, and nothing else at the same instant later on. -/
def IsLastPut (puts : List (Instant × α)) (since : Instant) (a : α) : Prop :=
  ∃ earlier later, puts = earlier ++ (since, a) :: later ∧ ∀ put ∈ later, put.1 ≠ since

theorem isLastPut_concat {put : Instant × α} :
    IsLastPut (puts ++ [put]) since a ↔
      (since, a) = put ∨ IsLastPut puts since a ∧ since ≠ put.1 := by
  constructor
  · rintro ⟨earlier, later, hputs, hlater⟩
    rcases List.eq_nil_or_concat later with rfl | ⟨later, last, rfl⟩
    · obtain ⟨_, hlast⟩ := List.append_inj' hputs rfl
      exact Or.inl (List.singleton_inj.mp hlast).symm
    · rw [List.concat_eq_append] at hputs hlater
      rw [← List.cons_append, ← List.append_assoc] at hputs
      obtain ⟨rfl, hlast⟩ := List.append_inj' hputs rfl
      obtain rfl := List.singleton_inj.mp hlast
      obtain ⟨hlater, hne⟩ := List.forall_mem_append.mp hlater
      exact Or.inr ⟨⟨earlier, later, rfl, hlater⟩, (hne put List.mem_cons_self).symm⟩
  · rintro (rfl | ⟨⟨earlier, later, rfl, hlater⟩, hne⟩)
    · exact ⟨puts, [], rfl, by simp⟩
    · refine ⟨earlier, later ++ [put], by simp, fun other hother => ?_⟩
      rcases List.mem_append.mp hother with hother | hother
      · exact hlater other hother
      · rw [List.mem_singleton.mp hother]
        exact hne.symm

/-- Of several that are put in at one instant the last one is kept. -/
theorem mem_ofPuts : (since, a) ∈ ofPuts puts ↔ IsLastPut puts since a := by
  induction puts using List.reverseRecOn with
  | nil => simp [ofPuts, IsLastPut]
  | append_singleton puts put ih =>
    have hput : ofPuts (puts ++ [put]) = (ofPuts puts).insert put := by
      rw [ofPuts, List.foldl_append]
      rfl
    rw [hput, Register.mem_insert, ih, isLastPut_concat]

theorem exists_mem_ofPuts {put : Instant × α} (h : put ∈ puts) :
    ∃ snapshot ∈ ofPuts puts, snapshot.1 = put.1 := by
  induction puts using List.reverseRecOn with
  | nil => cases h
  | append_singleton puts last ih =>
    by_cases hsame : put.1 = last.1
    · exact ⟨last, mem_ofPuts.mpr (isLastPut_concat.mpr (Or.inl rfl)), hsame.symm⟩
    · have hmem : put ∈ puts := by
        rcases List.mem_append.mp h with hmem | hlast
        · exact hmem
        · exact absurd (congrArg Prod.fst (List.mem_singleton.mp hlast)) hsame
      obtain ⟨snapshot, hsnapshot, heq⟩ := ih hmem
      refine ⟨snapshot, ?_, heq⟩
      rw [mem_ofPuts, isLastPut_concat]
      exact Or.inr ⟨mem_ofPuts.mp hsnapshot, by rwa [heq]⟩

theorem mem_of_mem_ofPuts {snapshot : Instant × α} (h : snapshot ∈ ofPuts puts) :
    snapshot ∈ puts := by
  obtain ⟨earlier, later, rfl, _⟩ := mem_ofPuts.mp h
  simp

theorem forall_mem_ofPuts_iff (P : Instant → Prop) :
    (∀ snapshot ∈ ofPuts puts, P snapshot.1) ↔ ∀ put ∈ puts, P put.1 := by
  constructor
  · intro h put hput
    obtain ⟨snapshot, hsnapshot, heq⟩ := exists_mem_ofPuts hput
    rw [← heq]
    exact h snapshot hsnapshot
  · intro h snapshot hsnapshot
    exact h snapshot (mem_of_mem_ofPuts hsnapshot)

/-- In effect at an instant is the latest of what was put in at the greatest instant that
is not after it, and nothing if all of it counts later. What is put in next is in effect
where it counts and no other snapshot counts after it; elsewhere it changes nothing. -/
theorem asOf_ofPuts (puts : List (Instant × α)) (moment : Instant) :
    (∀ a, (ofPuts puts).asOf moment = .ok a ↔ ∃ since, IsLastPut puts since a ∧ since ≤ moment ∧
        ∀ put ∈ puts, put.1 ≤ moment → put.1 ≤ since) ∧
      (∀ e, (ofPuts puts).asOf moment = .error e ↔
        e = .notFound (.snapshot moment) ∧ ∀ put ∈ puts, ¬ put.1 ≤ moment) ∧
      ∀ since a, ((ofPuts puts).put since a).asOf moment =
        if since ≤ moment ∧
          ∀ other ∈ (ofPuts puts).toList, ¬ (since < other.1 ∧ other.1 ≤ moment) then .ok a
        else (ofPuts puts).asOf moment := by
  refine ⟨fun a => ?_, fun e => ?_, fun since a => asOf_put_eq _ since moment a⟩
  · rw [asOf_eq_ok_iff_mem]
    refine exists_congr fun since => ?_
    rw [mem_ofPuts, forall_mem_ofPuts_iff fun instant => instant ≤ moment → instant ≤ since]
  · rw [asOf_eq_error_iff, forall_mem_ofPuts_iff fun instant => ¬ instant ≤ moment]

end Puts

end History

end Fortnight
