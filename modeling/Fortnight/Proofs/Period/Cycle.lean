import Mathlib.Data.List.Sort
import Fortnight.Proofs.Period.Obstacle

/-!
# One original period after another

Behind the last original period the next one starts on the day after. It is
opened once it has started, and is then the last one, with an end that lies a
fortnight later. The number of periods that are still to be opened by a date is
one less then.
-/

namespace Fortnight

namespace PeriodTable

variable {t t' : PeriodTable} {last q : Period} {start since date : Date} {id : Id}
  {rule : FinalizeRule}

/-- No original period ends later than this one. -/
structure LastRoot (t : PeriodTable) (last : Period) : Prop where
  mem : last ∈ t
  root : last.corrects = none
  finish_le : ∀ q ∈ t, q.corrects = none → q.finish ≤ last.finish

theorem LastRoot.getLast?_eq (h : t.LastRoot last) (hregular : t.Regular) :
    t.roots.getLast? = some last := by
  have hmem : last ∈ t.roots := mem_roots.mpr ⟨h.mem, h.root⟩
  cases hlast : t.roots.getLast? with
  | none =>
    rw [List.getLast?_eq_none_iff.mp hlast] at hmem
    cases hmem
  | some r =>
    obtain ⟨hr, hroot⟩ := mem_roots.mp (List.mem_of_getLast? hlast)
    have hid : last.id = r.id := by
      by_contra hne
      have hlt := hregular.finish_lt_of_start_le hmem (List.mem_of_getLast? hlast) hne
        (start_le_of_getLast? hlast hmem)
      have hle := h.finish_le r hr hroot
      have hlasts := (hregular.scheduled r hr).toAligned.start_le_finish
      rw [Date.lt_iff] at hlt
      rw [Date.le_iff] at hle hlasts
      omega
    rw [Register.eq_of_key_eq h.mem hr hid]

theorem Regular.pairwise_start_lt (h : t.Regular) :
    t.roots.Pairwise fun p q => p.start < q.start := by
  refine h.pairwise_finish_lt_start.imp_of_mem fun {p q} hp _ hlt => ?_
  have hlasts := (h.scheduled p (mem_roots.mp hp).1).toAligned.start_le_finish
  exact Int.lt_of_le_of_lt hlasts hlt

theorem exists_nextStart (hlast : t.roots.getLast? = some last) (haligned : last.Aligned)
    (since : Date) :
    ∃ start, t.nextStart since = .ok start ∧ last.finish.next? = some start := by
  -- The last date that is supported is a Monday, and a period ends on a Sunday.
  have hmonday : Date.lastNumber % 7 = 0 := by decide
  have hle := last.finish.le_last
  have hlastMonday := haligned.monday
  have hfinish := haligned.finish_eq
  have hfirst := last.finish.first_le
  refine ⟨⟨last.finish.number + 1, by omega, by omega⟩, ?_, Date.ofNumber?_eq_some_iff.mpr rfl⟩
  rw [nextStart, hlast]
  exact Date.shift_eq_ok_iff.mpr ⟨by decide, rfl⟩

theorem run_openNext_of_le (hlast : t.roots.getLast? = some last) (haligned : last.Aligned)
    (hle : date ≤ last.finish) (id : Id) (since : Date) (rule : FinalizeRule) :
    (openNext id since date rule).run t = (.ok [], t) := by
  obtain ⟨start, hstart, hnext⟩ := exists_nextStart hlast haligned since
  have hnumber := Date.number_of_next? hnext
  have hlt : date < start := by
    rw [Date.le_iff] at hle
    rw [Date.lt_iff]
    omega
  refine Step.run_look_bind_eq_ok_iff.mpr ⟨start, hstart, ?_⟩
  rw [if_pos hlt]
  rfl

/-- What is opened behind the last original period. -/
structure OpenedBehind (t : PeriodTable) (last : Period) (since date : Date) (q : Period) :
    Prop where
  exists_newRoot : ∃ start, t.NewRoot start since q
  next : last.finish.next? = some q.start
  started : q.start ≤ date

theorem run_openNext_of_lt (hlast : t.roots.getLast? = some last) (haligned : last.Aligned)
    (hlt : last.finish < date) (hrange : last.finish.number + periodLength ≤ Date.lastNumber)
    (hnew : t.find? id = none) (since : Date) (rule : FinalizeRule) :
    ∃ q, (openNext id since date rule).run t = (.ok [q.stateChanged none], t.insert q) ∧
      q.id = id ∧ t.OpenedBehind last since date q := by
  obtain ⟨start, hstart, hnext⟩ := exists_nextStart hlast haligned since
  have hnumber := Date.number_of_next? hnext
  have hle : ¬ date < start := by
    rw [Date.lt_iff] at hlt ⊢
    omega
  have hfits : start.number + (periodLength - 1) ≤ Date.lastNumber := by
    omega
  obtain ⟨q, hopen, hid, hroot⟩ := exists_run_openPeriod hfits hnew since rule
  refine ⟨q, Step.run_look_bind_eq_ok_iff.mpr ⟨start, hstart, ?_⟩, hid, ⟨start, hroot⟩, ?_, ?_⟩
  · rw [if_neg hle]
    exact hopen
  · rw [hroot.start_eq, hnext]
  · rw [hroot.start_eq]
    exact Int.not_lt.mp hle

namespace OpenedBehind

theorem aligned (h : t.OpenedBehind last since date q) (haligned : last.Aligned) : q.Aligned := by
  obtain ⟨start, hroot⟩ := h.exists_newRoot
  refine hroot.aligned ?_
  have hnumber := Date.number_of_next? h.next
  have hmonday := haligned.monday
  have hfinish := haligned.finish_eq
  rw [hroot.start_eq] at hnumber
  omega

theorem finish_number (h : t.OpenedBehind last since date q) (haligned : last.Aligned) :
    q.finish.number = last.finish.number + periodLength := by
  have hnumber := Date.number_of_next? h.next
  have hfinish := (h.aligned haligned).finish_eq
  rw [periodLength]
  omega

theorem start_lt (h : t.OpenedBehind last since date q) (hregular : t.Regular)
    (hlast : t.roots.getLast? = some last) : ∀ r ∈ t.roots, r.start < q.start := by
  intro r hr
  have hmem := (mem_roots.mp (List.mem_of_getLast? hlast)).1
  have hle := start_le_of_getLast? hlast hr
  have hlasts := (hregular.scheduled last hmem).toAligned.start_le_finish
  have hnumber := Date.number_of_next? h.next
  rw [Date.le_iff] at hle hlasts
  rw [Date.lt_iff]
  omega

theorem roots_eq (h : t.OpenedBehind last since date q) (hregular : t.Regular)
    (hregular' : Regular (t.insert q)) (hlast : t.roots.getLast? = some last) :
    roots (t.insert q) = t.roots ++ [q] := by
  obtain ⟨start, hroot⟩ := h.exists_newRoot
  have hsorted : (t.roots ++ [q]).Pairwise fun p r => p.start < r.start := by
    refine List.pairwise_append.mpr
      ⟨hregular.pairwise_start_lt, List.pairwise_singleton _ _, fun p hp r hr => ?_⟩
    rw [List.mem_singleton.mp hr]
    exact h.start_lt hregular hlast p hp
  have hirrefl : Std.Irrefl fun p r : Period => p.start < r.start :=
    ⟨fun _ => Int.lt_irrefl _⟩
  have hantisymm : Std.Antisymm fun p r : Period => p.start < r.start :=
    ⟨fun _ _ hlt hgt => absurd hgt (Int.lt_asymm hlt)⟩
  refine hregular'.pairwise_start_lt.eq_of_mem_iff hsorted fun r => ?_
  rw [mem_roots, Register.mem_insert, List.mem_append, mem_roots, List.mem_singleton]
  constructor
  · rintro ⟨rfl | ⟨hr, _⟩, hroot⟩
    · exact Or.inr rfl
    · exact Or.inl ⟨hr, hroot⟩
  · rintro (⟨hr, hroot'⟩ | rfl)
    · exact ⟨Or.inr ⟨hr, Register.find?_eq_none_iff.mp hroot.find?_eq_none r hr⟩, hroot'⟩
    · exact ⟨Or.inl rfl, hroot.corrects_eq⟩

end OpenedBehind

end PeriodTable

end Fortnight
