import Fortnight.Proofs.Period.Linked
import Fortnight.Proofs.Period.Opening

/-!
# The shape of the periods of a table

Every period has the dates that its start and the rule of its finalization give
it, and a correction has those of what it corrects. The original periods lie
apart from each other: a new one is opened behind all that are there, be it
because they end before its week or because it follows the last of them.
-/

namespace Fortnight

theorem FinalizeRule.finalizeAfter_within (rule : FinalizeRule) {start finish : Date}
    (h : start ≤ finish) :
    start ≤ rule.finalizeAfter start finish ∧ rule.finalizeAfter start finish ≤ finish := by
  cases rule with
  | fromPeriodStart => exact ⟨Int.le_refl _, h⟩
  | daysBeforePeriodEnd days =>
    simp only [finalizeAfter]
    split
    · rename_i date hdate
      have hnumber := Date.ofNumber?_eq_some_iff.mp hdate
      split
      · exact ⟨Int.le_refl _, h⟩
      · rename_i hstart
        rw [Date.lt_iff] at hstart
        simp only [Date.le_iff]
        omega
    · exact ⟨Int.le_refl _, h⟩

namespace Period

/-- The dates of a period fit its start: it takes two weeks from a Monday on, can
be approved from the Saturday before its last day, and is finalized within its days. -/
structure Scheduled (p : Period) : Prop extends p.Aligned where
  saturday : p.approvableFrom.weekday = 5
  approvableFrom_eq : p.approvableFrom.number = p.finish.number - 1
  start_le : p.start ≤ p.finalizeAfter
  le_finish : p.finalizeAfter ≤ p.finish

/-- The period is scheduled, and has one day for each of its dates, in their order. -/
structure Regular (p : Period) : Prop extends p.Scheduled where
  ascending : p.timeline.dates.Pairwise (· < ·)
  mem_dates : ∀ date, date ∈ p.timeline.dates ↔ p.start ≤ date ∧ date ≤ p.finish

variable {p q : Period}

theorem schedule_eq_iff :
    p.schedule = q.schedule ↔ p.start = q.start ∧ p.finish = q.finish ∧
      p.approvableFrom = q.approvableFrom ∧ p.finalizeAfter = q.finalizeAfter := by
  simp [schedule]

theorem Aligned.start_le_finish (h : p.Aligned) : p.start ≤ p.finish := by
  have hfinish := h.finish_eq
  rw [Date.le_iff]
  omega

theorem Scheduled.of_schedule_eq (h : p.Scheduled) (hsame : q.schedule = p.schedule) :
    q.Scheduled := by
  obtain ⟨hstart, hfinish, happrovable, hfinalize⟩ := schedule_eq_iff.mp hsame
  refine ⟨h.toAligned.of_eq hstart hfinish, ?_, ?_, ?_, ?_⟩
  · rw [happrovable]
    exact h.saturday
  · rw [happrovable, hfinish]
    exact h.approvableFrom_eq
  · rw [hstart, hfinalize]
    exact h.start_le
  · rw [hfinish, hfinalize]
    exact h.le_finish

/-- The days of a well-formed period are those that its schedule asks for. -/
theorem Scheduled.regular (h : p.Scheduled) (hwf : p.WellFormed) : p.Regular where
  toScheduled := h
  ascending := hwf.dates.pairwise
  mem_dates date := by
    have hfinish := h.finish_eq
    rw [hwf.dates.mem_iff, Date.le_iff, Date.le_iff, periodLength]
    omega

theorem Regular.containsDate_of_day? (h : p.Regular) {date : Date} {d : Day}
    (hd : p.timeline.day? date = some d) : p.containsDate date := by
  have hdate : d.date = date := by
    simpa using List.find?_some hd
  have hmem : date ∈ p.timeline.dates := by
    rw [← hdate]
    exact List.mem_map_of_mem (List.mem_of_find?_eq_some hd)
  simpa [containsDate] using (h.mem_dates date).mp hmem

/-- One of two periods ends before the other one starts. -/
def Apart (p q : Period) : Prop :=
  p.finish < q.start ∨ q.finish < p.start

theorem Apart.symm (h : p.Apart q) : q.Apart p :=
  Or.symm h

end Period

namespace PeriodTable

variable {t t' : PeriodTable} {p q : Period} {start since : Date}

theorem NewRoot.scheduled (h : t.NewRoot start since p) (hmonday : start.number % 7 = 0) :
    p.Scheduled := by
  have haligned := h.aligned hmonday
  obtain ⟨_, _, rule, q, hq, rfl⟩ := h
  obtain ⟨finish, approvableFrom, timeline, hfinish, hsaturday, _, rfl⟩ :=
    Period.starting_eq_ok_iff.mp hq
  have hnumber := (Date.shift_eq_ok_iff.mp hsaturday).2
  have hend := haligned.finish_eq
  obtain ⟨hge, hle⟩ := rule.finalizeAfter_within haligned.start_le_finish
  simp only [Date.weekday] at hnumber hend
  have hlast : approvableFrom.number = finish.number - 1 := by
    omega
  refine ⟨haligned, ?_, hlast, hge, hle⟩
  simp only [Date.weekday]
  omega

/-- The periods of the table are scheduled, corrections as what they correct, and
the original periods lie apart from each other. -/
structure Regular (t : PeriodTable) : Prop where
  scheduled : ∀ p ∈ t, p.Scheduled
  apart : ∀ p ∈ t, ∀ q ∈ t, p.corrects = none → q.corrects = none → p.id ≠ q.id → p.Apart q
  schedule_eq : ∀ p ∈ t, ∀ q ∈ t, p.corrects = some q.id → p.schedule = q.schedule

namespace Regular

theorem empty : Regular (.empty : PeriodTable) where
  scheduled p hp := absurd hp (Register.not_mem_empty p)
  apart p hp := absurd hp (Register.not_mem_empty p)
  schedule_eq p hp := absurd hp (Register.not_mem_empty p)

/-- Nothing is said of the table but what its periods have from the beginning. -/
theorem of_sources (h : Regular t)
    (hsource : ∀ q ∈ t', ∃ p ∈ t, p.id = q.id ∧ p.corrects = q.corrects ∧
      p.schedule = q.schedule) : Regular t' where
  scheduled q hq := by
    obtain ⟨p, hp, _, _, hschedule⟩ := hsource q hq
    exact (h.scheduled p hp).of_schedule_eq hschedule.symm
  apart q hq q' hq' hroot hroot' hne := by
    obtain ⟨p, hp, hid, hcorrects, hschedule⟩ := hsource q hq
    obtain ⟨p', hp', hid', hcorrects', hschedule'⟩ := hsource q' hq'
    obtain ⟨hstart, hfinish, _⟩ := Period.schedule_eq_iff.mp hschedule
    obtain ⟨hstart', hfinish', _⟩ := Period.schedule_eq_iff.mp hschedule'
    have hapart : p.Apart p' := by
      apply h.apart p hp p' hp'
      · rw [hcorrects, hroot]
      · rw [hcorrects', hroot']
      · rw [hid, hid']
        exact hne
    unfold Period.Apart at hapart ⊢
    rwa [← hstart, ← hfinish, ← hstart', ← hfinish']
  schedule_eq q hq q' hq' hlink := by
    obtain ⟨p, hp, _, hcorrects, hschedule⟩ := hsource q hq
    obtain ⟨p', hp', hid', _, hschedule'⟩ := hsource q' hq'
    rw [← hcorrects, ← hid'] at hlink
    rw [← hschedule, ← hschedule']
    exact h.schedule_eq p hp p' hp' hlink

/-- A new period that fits the table. No period that was there corrects it. -/
theorem insert_new (h : Regular t) (hlinked : Linked t) {c : Period}
    (hnew : t.find? c.id = none) (hscheduled : c.Scheduled)
    (hapart : c.corrects = none → ∀ r ∈ t, r.corrects = none → r.Apart c)
    (hschedule : ∀ q ∈ t, c.corrects = some q.id → c.schedule = q.schedule) :
    Regular (Register.insert t c) where
  scheduled := Register.forall_mem_insert h.scheduled hscheduled
  apart p hp q hq hroot hroot' hne := by
    obtain rfl | ⟨hp', _⟩ := Register.mem_insert.mp hp
    · obtain rfl | ⟨hq, _⟩ := Register.mem_insert.mp hq
      · exact absurd rfl hne
      · exact (hapart hroot q hq hroot').symm
    · obtain rfl | ⟨hq, _⟩ := Register.mem_insert.mp hq
      · exact hapart hroot' p hp' hroot
      · exact h.apart p hp' q hq hroot hroot' hne
  schedule_eq p hp q hq hlink := by
    obtain rfl | ⟨hp', _⟩ := Register.mem_insert.mp hp
    · obtain rfl | ⟨hq, _⟩ := Register.mem_insert.mp hq
      · rfl
      · exact hschedule q hq hlink
    · obtain rfl | ⟨hq, _⟩ := Register.mem_insert.mp hq
      · obtain ⟨r, hr, hid, _⟩ := hlinked.back p hp' _ hlink
        exact absurd hid (Register.find?_eq_none_iff.mp hnew r hr)
      · exact h.schedule_eq p hp' q hq hlink

theorem edit (h : Regular t) {tip tip' : Period} (htip : tip ∈ t) (hedit : Edit t tip tip') :
    Regular (Register.insert t tip') := by
  refine h.of_sources fun q hq => ?_
  obtain rfl | ⟨hq, _⟩ := Register.mem_insert.mp hq
  · exact ⟨tip, htip, hedit.id_eq.symm, hedit.corrects_eq.symm, hedit.schedule_eq.symm⟩
  · exact ⟨q, hq, rfl, rfl, rfl⟩

theorem insert_root (h : Regular t) (hlinked : Linked t) (hroot : t.NewRoot start since p)
    (hmonday : start.number % 7 = 0) (hbehind : ∀ r ∈ t.roots, r.finish < start) :
    Regular (Register.insert t p) := by
  refine h.insert_new hlinked hroot.find?_eq_none (hroot.scheduled hmonday) ?_ ?_
  · intro _ r hr hrroot
    left
    rw [hroot.start_eq]
    exact hbehind r (mem_roots.mpr ⟨hr, hrroot⟩)
  · intro q _ hlink
    rw [hroot.corrects_eq] at hlink
    cases hlink

/-- A correction has the schedule of what it corrects, and links change no schedule. -/
theorem withCorrection (h : Regular t) (hlinked : Linked t) {corrected tip : Period}
    (fresh : ℕ → Id) (hnew : t.find? (fresh 0) = none) (hcorrected : corrected ∈ t)
    (htip : tip ∈ t) : Regular (t.withCorrection (corrected.correctionOf fresh) corrected tip) := by
  have hinsert : Regular (Register.insert t (corrected.correctionOf fresh)) := by
    refine h.insert_new hlinked hnew ((h.scheduled corrected hcorrected).of_schedule_eq rfl) ?_ ?_
    · intro hroot
      cases hroot
    · intro q hq hlink
      obtain rfl := Register.eq_of_key_eq hq hcorrected (Option.some.inj hlink).symm
      rfl
  refine hinsert.of_sources fun q hq => ?_
  obtain rfl | ⟨p, hp, rfl⟩ := (mem_withCorrection hnew hcorrected htip).mp hq
  · exact ⟨_, Register.mem_insert.mpr (Or.inl rfl), rfl, rfl, rfl⟩
  · have hne := Register.find?_eq_none_iff.mp hnew p hp
    exact ⟨p, Register.mem_insert.mpr (Or.inr ⟨hp, hne⟩), by simp, by simp, by simp⟩

end Regular

theorem pairwise_roots (t : PeriodTable) : t.roots.Pairwise fun p q => p.start ≤ q.start := by
  have hsorted : t.roots.Pairwise fun p q => decide (p.start ≤ q.start) := by
    apply List.pairwise_mergeSort
    · intro p q r hpq hqr
      simp only [decide_eq_true_eq, Date.le_iff] at hpq hqr ⊢
      omega
    · intro p q
      simp only [Bool.or_eq_true, decide_eq_true_eq, Date.le_iff]
      omega
  simpa using hsorted

theorem nodup_roots (t : PeriodTable) : (t.roots.map Period.id).Nodup := by
  have hperm : (t.roots.map Period.id).Perm
      ((t.toList.filter fun p => p.corrects.isNone).map Period.id) :=
    (List.mergeSort_perm _ _).map _
  rw [hperm.nodup_iff]
  exact t.nodup_keys.sublist (List.filter_sublist.map _)

theorem start_le_of_getLast? {last r : Period} (hlast : t.roots.getLast? = some last)
    (hr : r ∈ t.roots) : r.start ≤ last.start := by
  obtain ⟨before, hroots⟩ := List.getLast?_eq_some_iff.mp hlast
  have hsorted := t.pairwise_roots
  rw [hroots] at hsorted hr
  obtain hr | hr := List.mem_append.mp hr
  · exact (List.pairwise_append.mp hsorted).2.2 r hr last List.mem_cons_self
  · rw [List.mem_singleton.mp hr]
    exact Int.le_refl _

namespace Regular

theorem finish_lt_of_start_le (h : Regular t) (hp : p ∈ t.roots) (hq : q ∈ t.roots)
    (hne : p.id ≠ q.id) (hle : p.start ≤ q.start) : p.finish < q.start := by
  obtain ⟨hp, hroot⟩ := mem_roots.mp hp
  obtain ⟨hq, hroot'⟩ := mem_roots.mp hq
  have hlasts := (h.scheduled q hq).toAligned.start_le_finish
  obtain hlt | hlt := h.apart p hp q hq hroot hroot' hne
  · exact hlt
  · rw [Date.lt_iff] at hlt
    rw [Date.le_iff] at hle hlasts
    omega

theorem pairwise_finish_lt_start (h : Regular t) :
    t.roots.Pairwise fun p q => p.finish < q.start := by
  have hne : t.roots.Pairwise fun p q => p.id ≠ q.id := List.pairwise_map.mp t.nodup_roots
  have hboth := t.pairwise_roots.and hne
  refine hboth.imp_of_mem ?_
  rintro p q hp hq ⟨hle, hne⟩
  exact h.finish_lt_of_start_le hp hq hne hle

theorem nodup_starts (h : Regular t) : (t.roots.map Period.start).Nodup := by
  apply List.pairwise_map.mpr
  refine h.pairwise_finish_lt_start.imp_of_mem ?_
  intro p q hp _ hlt heq
  have hlasts := (h.scheduled p (mem_roots.mp hp).1).toAligned.start_le_finish
  rw [heq] at hlasts
  rw [Date.lt_iff] at hlt
  rw [Date.le_iff] at hlasts
  omega

theorem finish_lt_of_nextStart (h : Regular t) (hstart : t.nextStart since = .ok start) :
    ∀ r ∈ t.roots, r.finish < start := by
  intro r hr
  unfold nextStart at hstart
  split at hstart
  · rename_i last hlast
    have hnumber := (Date.shift_eq_ok_iff.mp hstart).2
    have hmem : last ∈ t.roots := List.mem_of_getLast? hlast
    have hends : r.finish ≤ last.finish := by
      by_cases hid : r.id = last.id
      · obtain rfl := Register.eq_of_key_eq (mem_roots.mp hr).1 (mem_roots.mp hmem).1 hid
        exact Int.le_refl _
      · have hlt := h.finish_lt_of_start_le hr hmem hid (start_le_of_getLast? hlast hr)
        have hlasts := (h.scheduled last (mem_roots.mp hmem).1).toAligned.start_le_finish
        exact Int.le_trans (Int.le_of_lt hlt) hlasts
    rw [Date.le_iff] at hends
    rw [Date.lt_iff]
    omega
  · rename_i hnone
    rw [List.getLast?_eq_none_iff.mp hnone] at hr
    cases hr

theorem move (h : Regular t) (hlinked : Linked t) (hmove : Move t t') : Regular t' := by
  cases hmove with
  | edit htip hedit => exact h.edit (tip_mem htip) hedit
  | openFirst hweek hbehind hroot =>
    exact h.insert_root hlinked hroot (Date.mondayOnOrBefore_eq_ok hweek).1 hbehind
  | openNext hstart _ hroot =>
    have hmonday := monday_of_nextStart (fun p hp => (h.scheduled p hp).toAligned) hstart
    exact h.insert_root hlinked hroot hmonday (h.finish_lt_of_nextStart hstart)
  | correct htip hcorrectable hnew =>
    have hcorrected := mem_of_correctable (tip_mem htip) hcorrectable
    exact h.withCorrection hlinked _ hnew hcorrected (tip_mem htip)

/-- Corrections have the schedule of their root. -/
theorem schedule_eq_of_walk (h : Regular t) {l : List Period}
    (hw : t.Walk Period.corrects p l q) : p.schedule = q.schedule := by
  induction hw with
  | last => rfl
  | next hp hlink hw ih =>
    rw [← ih]
    exact h.schedule_eq _ hp _ hw.start_mem hlink

end Regular

/-- Of the original periods of `t'` at most one was not there in `t`. -/
def AddsOne (t t' : PeriodTable) : Prop :=
  ∀ p ∈ t', ∀ q ∈ t', p.corrects = none → q.corrects = none →
    t.find? p.id = none → t.find? q.id = none → p = q

namespace AddsOne

theorem of_exists_before (h : ∀ q ∈ t', q.corrects = none → ∃ p ∈ t, p.id = q.id) :
    AddsOne t t' := by
  intro p hp _ _ hroot _ hnew _
  obtain ⟨r, hr, hid⟩ := h p hp hroot
  exact absurd hid (Register.find?_eq_none_iff.mp hnew r hr)

theorem refl (t : PeriodTable) : AddsOne t t :=
  of_exists_before fun p hp _ => ⟨p, hp, rfl⟩

theorem insert (t : PeriodTable) (p : Period) : AddsOne t (Register.insert t p) := by
  have heq : ∀ q ∈ Register.insert t p, t.find? q.id = none → q = p := by
    intro q hq hnew
    obtain hqp | ⟨hq, _⟩ := Register.mem_insert.mp hq
    · exact hqp
    · exact absurd rfl (Register.find?_eq_none_iff.mp hnew q hq)
  intro q hq r hr _ _ hnew hnew'
  rw [heq q hq hnew, heq r hr hnew']

theorem of_edits (h : Edits t t') : AddsOne t t' :=
  of_exists_before fun q hq _ => h.exists_before q hq

theorem of_correct {fresh : ℕ → Id} {id : Id} {ns : List Notification}
    (h : (correct fresh id).run t = (.ok ns, t')) : AddsOne t t' := by
  obtain ⟨tip, corrected, htip, hcorrectable, hnew, rfl⟩ := withCorrection_of_correct h
  have hcorrected := mem_of_correctable (tip_mem htip) hcorrectable
  apply of_exists_before
  intro q hq hroot
  obtain rfl | ⟨p, hp, rfl⟩ := (mem_withCorrection hnew hcorrected (tip_mem htip)).mp hq
  · cases hroot
  · exact ⟨p, hp, by simp⟩

theorem of_openFirst {id : Id} {date : Date} {rule : FinalizeRule} {ns : List Notification}
    (h : (openFirst id date rule).run t = (.ok ns, t')) : AddsOne t t' := by
  obtain ⟨_, _, ⟨_, rfl, _⟩ | ⟨_, p, _, rfl, _⟩⟩ := openFirst_cases h
  · exact .refl t
  · exact .insert t p

theorem of_openNext {id : Id} {date : Date} {rule : FinalizeRule} {ns : List Notification}
    (h : (openNext id since date rule).run t = (.ok ns, t')) : AddsOne t t' := by
  obtain ⟨_, _, ⟨_, rfl, _⟩ | ⟨_, p, _, rfl, _⟩⟩ := openNext_cases h
  · exact .refl t
  · exact .insert t p

end AddsOne

end PeriodTable

end Fortnight
