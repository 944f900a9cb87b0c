import Fortnight.Proofs.Period.Cycle
import Fortnight.Proofs.Person.Obligated
import Fortnight.Proofs.Person.Shape

/-!
# Catching up with the fortnights that have turned

Where a fortnight turns under an obligation, at most one period is opened. So an
event that comes late has to be repeated: each time the next original period is
opened, until the last one reaches the date of the event. From then on the event
does nothing any more.
-/

namespace Fortnight

namespace Person

variable {p p' p'' : Person} {c : Call} {calls : List Call} {last q : Period} {o : Obligation}
  {since date : Date} {opened : List Period} {ns : List Notification} {t : PeriodTable} {k : ℕ}

theorem answer_of_openNext (hc : c.event = .newCycleStarted date)
    (ho : p.obligationAt date.startOfDay = .ok o) (hpresent : o.kind ≠ .absent)
    (hsince : p.obligatedSince date.startOfDay = .ok since)
    (hopen : (PeriodTable.openNext (c.fresh 1) since date c.rule).run p.periods = (.ok ns, t)) :
    p.answer c = .ok ns ∧ p.after c = { p with periods := t } := by
  have hmoment : c.event.decidedAt? = some date.startOfDay := by
    rw [hc]
    rfl
  have heffects : o.decide (c.fresh 0) c.event = [.openNextPeriod date] := by
    rw [hc, Obligation.decide_of_present hpresent]
    rfl
  exact answer_of_applied (.decided hmoment ho (heffects ▸ .continued hsince hopen))

/-- Some original periods were opened by a date, and nothing else was done. The first one
starts on the day after `last` ends, and each of the others on the day after the one
before it ends. Exempt are their holidays and their days before `since`. -/
structure CatchesUp (p : Person) (last : Period) (since date : Date) (opened : List Period)
    (p' : Person) : Prop where
  person_eq : p' = { p with periods := opened.foldl Register.insert p.periods }
  roots_eq : p'.periods.roots = p.periods.roots ++ opened
  next : (last :: opened).IsChain fun q r => q.finish.next? = some r.start
  started : ∀ q ∈ opened, q.start ≤ date
  exemptBefore : ∀ q ∈ opened, q.ExemptBefore since

namespace CatchesUp

theorem nil (p : Person) (last : Period) (since date : Date) : CatchesUp p last since date [] p where
  person_eq := rfl
  roots_eq := (List.append_nil _).symm
  next := .singleton _
  started _ hq := absurd hq List.not_mem_nil
  exemptBefore _ hq := absurd hq List.not_mem_nil

theorem cons (hq : p.periods.OpenedBehind last since date q)
    (hp' : p' = { p with periods := p.periods.insert q })
    (hroots : p'.periods.roots = p.periods.roots ++ [q])
    (h : CatchesUp p' q since date opened p'') : CatchesUp p last since date (q :: opened) p'' where
  person_eq := by
    rw [h.person_eq, hp']
    rfl
  roots_eq := by
    rw [h.roots_eq, hroots, List.append_assoc, List.singleton_append]
  next := .cons_cons hq.next h.next
  started := List.forall_mem_cons.mpr ⟨hq.started, h.started⟩
  exemptBefore := by
    obtain ⟨start, hroot⟩ := hq.exists_newRoot
    exact List.forall_mem_cons.mpr ⟨hroot.exemptBefore, h.exemptBefore⟩

theorem obligations_eq (h : CatchesUp p last since date opened p') :
    p'.obligations = p.obligations := by
  rw [h.person_eq]

end CatchesUp

/-- From one date another one is reached in so many fortnights, and not in fewer. -/
structure IsReachedIn (finish date : Date) (k : ℕ) : Prop where
  reaches : date.number ≤ finish.number + periodLength * k
  least : ∀ n : ℕ, date.number ≤ finish.number + periodLength * n → k ≤ n

namespace IsReachedIn

variable {finish finish' : Date}

theorem le_of_zero (hk : IsReachedIn finish date 0) : date ≤ finish := by
  have hreaches := hk.reaches
  rw [Date.le_iff]
  omega

theorem lt_of_succ (hk : IsReachedIn finish date (k + 1)) : finish < date := by
  by_contra hle
  rw [Date.lt_iff] at hle
  have hleast := hk.least 0 (by omega)
  omega

theorem of_succ (hk : IsReachedIn finish date (k + 1))
    (hfinish : finish'.number = finish.number + periodLength) : IsReachedIn finish' date k where
  reaches := by
    have hreaches := hk.reaches
    rw [periodLength] at *
    omega
  least n hn := by
    have hleast := hk.least (n + 1)
    rw [periodLength] at *
    omega

end IsReachedIn

/-- Every time that the fortnight is said to have turned the next period is opened, as
long as there is one to open. -/
theorem exists_catchesUp (h : Reachable p) (hlast : p.periods.roots.getLast? = some last)
    (ho : p.obligationAt date.startOfDay = .ok o) (hpresent : o.kind ≠ .absent)
    (hsince : p.obligatedSince date.startOfDay = .ok since)
    (hcalls : ∀ c ∈ calls, c.event = .newCycleStarted date)
    (hnodup : (calls.map fun c => c.fresh 1).Nodup)
    (hunused : ∀ c ∈ calls, p.periods.find? (c.fresh 1) = none)
    (hk : IsReachedIn last.finish date k)
    (hrange : last.finish.number + periodLength * (min calls.length k : ℕ) ≤ Date.lastNumber) :
    ∃ opened, opened.length = min calls.length k ∧
      CatchesUp p last since date opened (p.run calls) := by
  induction calls generalizing p last k with
  | nil => exact ⟨[], by simp, .nil p last since date⟩
  | cons c rest ih =>
    obtain ⟨hc, hrest⟩ := List.forall_mem_cons.mp hcalls
    obtain ⟨hnew, hunused⟩ := List.forall_mem_cons.mp hunused
    obtain ⟨hother, hnodup⟩ := List.nodup_cons.mp hnodup
    have haligned := h.aligned last (PeriodTable.mem_roots.mp (List.mem_of_getLast? hlast)).1
    cases k with
    | zero =>
      -- The last period reaches the date, and the call does nothing.
      have hopen := PeriodTable.run_openNext_of_le hlast haligned hk.le_of_zero (c.fresh 1)
        since c.rule
      have hsame : p.after c = p := (answer_of_openNext hc ho hpresent hsince hopen).2
      obtain ⟨opened, hlength, hcatches⟩ :=
        ih h hlast ho hsince hrest hnodup hunused hk (by simpa using last.finish.le_last)
      refine ⟨opened, by simpa using hlength, ?_⟩
      change CatchesUp p last since date opened ((p.after c).run rest)
      rwa [hsame]
    | succ k =>
      -- The next period is opened, and the other calls go on from there.
      rw [List.length_cons, Nat.succ_min_succ, Nat.cast_succ, Int.mul_add, Int.mul_one] at hrange
      have hfits : last.finish.number + periodLength ≤ Date.lastNumber := by
        have hothers : 0 ≤ (periodLength : ℤ) * (min rest.length k : ℕ) := by
          positivity
        omega
      obtain ⟨q, hopen, hid, hq⟩ :=
        PeriodTable.run_openNext_of_lt hlast haligned hk.lt_of_succ hfits hnew since c.rule
      have hafter := (answer_of_openNext hc ho hpresent hsince hopen).2
      have hfinish := hq.finish_number haligned
      have hregular' : PeriodTable.Regular (p.periods.insert q) := by
        have hregular' := (h.after c).regular
        rwa [hafter] at hregular'
      have hroots : (p.after c).periods.roots = p.periods.roots ++ [q] := by
        rw [hafter]
        exact hq.roots_eq h.regular hregular' hlast
      have hunused' : ∀ d ∈ rest, (p.after c).periods.find? (d.fresh 1) = none := by
        intro d hd
        rw [hafter]
        refine Register.find?_insert_eq_none_iff.mpr ⟨?_, hunused d hd⟩
        rw [hid]
        intro hsame
        exact hother (List.mem_map.mpr ⟨d, hd, hsame.symm⟩)
      have ho' : (p.after c).obligationAt date.startOfDay = .ok o := by
        rw [hafter]
        exact ho
      have hsince' : (p.after c).obligatedSince date.startOfDay = .ok since := by
        rw [hafter]
        exact hsince
      have hlast' : (p.after c).periods.roots.getLast? = some q := by
        rw [hroots, List.getLast?_concat]
      obtain ⟨opened, hlength, hcatches⟩ := ih (h.after c) hlast' ho' hsince' hrest hnodup hunused'
        (hk.of_succ hfinish) (by omega)
      refine ⟨q :: opened, ?_, hcatches.cons hq hafter hroots⟩
      rw [List.length_cons, hlength, List.length_cons, Nat.succ_min_succ]

theorem finish_number_of_isChain
    (hnext : (last :: opened).IsChain fun q r => q.finish.next? = some r.start)
    (haligned : ∀ q ∈ opened, q.Aligned) :
    (opened.getLastD last).finish.number = last.finish.number + periodLength * opened.length := by
  induction opened generalizing last with
  | nil => simp
  | cons q opened ih =>
    obtain ⟨hq, hopened⟩ := List.forall_mem_cons.mp haligned
    obtain ⟨hstart, hnext⟩ := List.isChain_cons_cons.mp hnext
    have hnumber := Date.number_of_next? hstart
    have hfinish := hq.finish_eq
    rw [List.getLastD_cons, ih hnext hopened, List.length_cons, Nat.cast_succ, Int.mul_add,
      hfinish, hnumber]
    rw [periodLength]
    omega

theorem CatchesUp.exists_last (h : CatchesUp p last since date opened p')
    (hlast : p.periods.roots.getLast? = some last) (haligned : ∀ q ∈ p'.periods, q.Aligned) :
    ∃ last', p'.periods.roots.getLast? = some last' ∧
      last'.finish.number = last.finish.number + periodLength * opened.length := by
  refine ⟨opened.getLastD last, ?_, finish_number_of_isChain h.next fun q hq => ?_⟩
  · rw [h.roots_eq, List.getLast?_append, hlast, List.getLastD_eq_getLast?, Option.or_some]
  · have hmem : q ∈ p'.periods.roots := by
      rw [h.roots_eq]
      exact List.mem_append_right _ hq
    exact haligned q (PeriodTable.mem_roots.mp hmem).1

/-- The original periods that are due by a date are opened one after another, as often as
the event of that date is handled. When they are all there, it changes nothing any more. -/
theorem catchesUp_of_reachable (h : Reachable p) (hlast : p.periods.LastRoot last)
    (ho : p.obligationAt date.startOfDay = .ok o) (hpresent : o.kind ≠ .absent)
    (hcalls : ∀ c ∈ calls, c.event = .newCycleStarted date)
    (hnodup : (calls.map fun c => c.fresh 1).Nodup)
    (hunused : ∀ c ∈ calls, p.periods.find? (c.fresh 1) = none)
    (hk : IsReachedIn last.finish date k)
    (hrange : last.finish.number + periodLength * (min calls.length k : ℕ) ≤ Date.lastNumber) :
    ∃ since opened, p.obligatedSince date.startOfDay = .ok since ∧
      opened.length = min calls.length k ∧ CatchesUp p last since date opened (p.run calls) ∧
      (k ≤ calls.length → ∀ c, c.event = .newCycleStarted date →
        (p.run calls).answer c = .ok [] ∧ (p.run calls).after c = p.run calls) := by
  have hroots := hlast.getLast?_eq h.regular
  obtain ⟨since, hsince⟩ := (exists_obligatedSince_iff ho).mpr hpresent
  obtain ⟨opened, hlength, hcatches⟩ :=
    exists_catchesUp h hroots ho hpresent hsince hcalls hnodup hunused hk hrange
  refine ⟨since, opened, hsince, hlength, hcatches, fun hall c hc => ?_⟩
  have hreachable := h.run calls
  obtain ⟨last', hlast', hfinish⟩ := hcatches.exists_last hroots hreachable.aligned
  have hreached : date ≤ last'.finish := by
    have hreaches := hk.reaches
    rw [Date.le_iff, hfinish, hlength, Nat.min_eq_right hall]
    exact hreaches
  have haligned := hreachable.aligned last'
    (PeriodTable.mem_roots.mp (List.mem_of_getLast? hlast')).1
  have ho' : (p.run calls).obligationAt date.startOfDay = .ok o := by
    rw [obligationAt, hcatches.obligations_eq]
    exact ho
  have hsince' : (p.run calls).obligatedSince date.startOfDay = .ok since := by
    unfold obligatedSince
    rw [hcatches.obligations_eq]
    exact hsince
  exact answer_of_openNext hc ho' hpresent hsince'
    (PeriodTable.run_openNext_of_le hlast' haligned hreached _ since _)

section Late

/-- Three times it is said that the fortnight of 5 February has turned. -/
def lateCalls : List Call :=
  [⟨supplyFrom 80, .standard, .newCycleStarted (february 5)⟩,
    ⟨supplyFrom 100, .fromPeriodStart, .newCycleStarted (february 5)⟩,
    ⟨supplyFrom 120, .standard, .newCycleStarted (february 5)⟩]

set_option maxRecDepth 8000 in
theorem exists_lastRoot_restarted :
    ∃ last, restarted.periods.LastRoot last ∧ last.finish = january 14 := by
  have hroots : restarted.periods.roots.map Period.finish = [january 14] := by
    cbv
  obtain ⟨last, hlast, hfinish⟩ := List.map_eq_singleton_iff.mp hroots
  obtain ⟨hmem, hroot⟩ := PeriodTable.mem_roots.mp (hlast ▸ List.mem_singleton_self last)
  refine ⟨last, ⟨hmem, hroot, fun q hq hroot' => ?_⟩, hfinish⟩
  have hq : q ∈ restarted.periods.roots := PeriodTable.mem_roots.mpr ⟨hq, hroot'⟩
  rw [hlast] at hq
  rw [List.mem_singleton.mp hq]
  exact Int.le_refl _

theorem isReachedIn_february : IsReachedIn (january 14) (february 5) 2 where
  reaches := by
    decide
  least n hn := by
    have hnumbers : (february 5).number = (january 14).number + 22 := by
      decide
    rw [hnumbers, periodLength] at hn
    omega

set_option maxRecDepth 8000 in
/-- Two of the calls open a period each, and the third one finds nothing to open. -/
theorem catchesUp_restarted :
    ((restarted.run lateCalls).periods.roots.map fun q => (q.id.value, q.start, q.finish)) =
      [(11, january 1, january 14), (81, january 15, january 28),
        (101, january 29, february 11)] ∧
    ∃ last since opened, restarted.periods.LastRoot last ∧
      IsReachedIn last.finish (february 5) 2 ∧
      restarted.obligatedSince (february 5).startOfDay = .ok since ∧
      opened.length = min lateCalls.length 2 ∧
      CatchesUp restarted last since (february 5) opened (restarted.run lateCalls) ∧
      (2 ≤ lateCalls.length → ∀ c, c.event = .newCycleStarted (february 5) →
        (restarted.run lateCalls).answer c = .ok [] ∧
          (restarted.run lateCalls).after c = restarted.run lateCalls) := by
  refine ⟨by cbv, ?_⟩
  obtain ⟨last, hlast, hfinish⟩ := exists_lastRoot_restarted
  have ho : restarted.obligationAt (february 5).startOfDay =
      .ok ⟨supplyFrom 10 0, .applicationBased, (january 2).startOfDay⟩ := by
    cbv
  have hcalls : ∀ c ∈ lateCalls, c.event = .newCycleStarted (february 5) := by
    simp [lateCalls]
  have hunused : ∀ c ∈ lateCalls, restarted.periods.find? (c.fresh 1) = none := by
    have hnone : (lateCalls.all fun c => (restarted.periods.find? (c.fresh 1)).isNone) = true := by
      cbv
    simpa using hnone
  have hk : IsReachedIn last.finish (february 5) 2 := by
    rw [hfinish]
    exact isReachedIn_february
  have hrange : last.finish.number + periodLength * (min lateCalls.length 2 : ℕ) ≤
      Date.lastNumber := by
    rw [hfinish]
    decide
  obtain ⟨since, opened, hcatches⟩ := catchesUp_of_reachable reachable_restarted hlast ho (by simp)
    hcalls (by decide) hunused hk hrange
  exact ⟨last, since, opened, hlast, hk, hcatches⟩

end Late

end Person

end Fortnight
