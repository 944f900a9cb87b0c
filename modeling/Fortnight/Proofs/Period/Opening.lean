import Fortnight.Proofs.Period.Valid
import Fortnight.Proofs.Period.WellFormed

/-!
# The place of a period in the calendar

Every period starts on a Monday and takes two whole weeks. Whether a date is
covered can therefore be told from the week that it is in: a period that has
started by then and does not end before that week contains the date. When a
period is opened, the days that are exempt in it are the holidays and those
before the date from which there was an obligation.
-/

namespace Fortnight

theorem Date.mondayOnOrBefore_eq_ok {date start : Date}
    (h : date.mondayOnOrBefore = .ok start) :
    start.number % 7 = 0 ∧ start.number ≤ date.number ∧ date.number < start.number + 7 := by
  have hnumber := (shift_eq_ok_iff.mp h).2
  simp only [weekday] at hnumber
  omega

namespace Period

/-- The period takes two weeks from a Monday on. -/
structure Aligned (p : Period) : Prop where
  monday : p.start.number % 7 = 0
  finish_eq : p.finish.number = p.start.number + 13

theorem Aligned.of_eq {p p' : Period} (h : p.Aligned) (hstart : p'.start = p.start)
    (hfinish : p'.finish = p.finish) : p'.Aligned where
  monday := by
    rw [hstart]
    exact h.monday
  finish_eq := by
    rw [hstart, hfinish]
    exact h.finish_eq

theorem containsDate_iff {p : Period} {date : Date} :
    p.containsDate date ↔ p.start.number ≤ date.number ∧ date.number ≤ p.finish.number := by
  simp [containsDate, Date.le_iff]

/-- A period that reaches the week of a date contains it, if it has started by then. -/
theorem Aligned.containsDate {p : Period} (h : p.Aligned) {date start : Date}
    (hweek : date.mondayOnOrBefore = .ok start) (hstarted : p.start ≤ date)
    (hreaches : start ≤ p.finish) : p.containsDate date := by
  obtain ⟨hmonday, hle, hlt⟩ := Date.mondayOnOrBefore_eq_ok hweek
  have hstart := h.monday
  have hfinish := h.finish_eq
  rw [Date.le_iff] at hstarted hreaches
  refine containsDate_iff.mpr ⟨hstarted, ?_⟩
  omega

/-- Exempt are the holidays and the days before a date, and no others. -/
def ExemptBefore (p : Period) (date : Date) : Prop :=
  ∀ d ∈ p.timeline.days, d.exempt ↔ d.date.isHoliday ∨ d.date < date

end Period

namespace Timeline

theorem openingDay_exempt (date : Date) : (openingDay date).exempt = date.isHoliday := by
  unfold openingDay
  split
  · rename_i hholiday
    exact hholiday.symm
  · rename_i hholiday
    simp [Day.blank, hholiday]

end Timeline

namespace PeriodTable

variable {t t' : PeriodTable} {p : Period} {start since : Date}

theorem NewRoot.corrects_eq (h : t.NewRoot start since p) : p.corrects = none := by
  obtain ⟨_, _, _, _, _, _, _, rfl⟩ := h.exists_eq
  rfl

theorem NewRoot.start_eq (h : t.NewRoot start since p) : p.start = start := by
  obtain ⟨_, _, _, _, _, _, _, rfl⟩ := h.exists_eq
  rfl

theorem NewRoot.aligned (h : t.NewRoot start since p) (hmonday : start.number % 7 = 0) :
    p.Aligned := by
  obtain ⟨_, finish, _, _, _, hfinish, _, rfl⟩ := h.exists_eq
  have hnumber := (Date.shift_eq_ok_iff.mp hfinish).2
  rw [periodLength] at hnumber
  refine ⟨hmonday, ?_⟩
  change finish.number = start.number + 13
  omega

theorem NewRoot.exemptBefore (h : t.NewRoot start since p) : p.ExemptBefore since := by
  obtain ⟨_, _, _, _, timeline, _, htimeline, rfl⟩ := h.exists_eq
  intro d' hd'
  obtain ⟨d, hd, rfl⟩ := List.mem_map.mp hd'
  have hexempt : d.exempt = d.date.isHoliday := by
    rw [Timeline.openingDay_of_starting htimeline d hd, Timeline.openingDay_exempt,
      Timeline.openingDay_date]
  split
  · rename_i hbefore
    simp [Day.markExempt, hbefore]
  · rename_i hbefore
    simp [hexempt, hbefore]

theorem newRoot_of_mem_insert {q : Period} (hp : t.NewRoot start since p)
    (hq : q ∈ Register.insert t p) (hnew : t.find? q.id = none) : t.NewRoot start since q := by
  rcases Register.mem_insert.mp hq with rfl | ⟨hq, _⟩
  · exact hp
  · exact absurd rfl (Register.find?_eq_none_iff.mp hnew q hq)

theorem newRoot_of_openFirst {id : Id} {rule : FinalizeRule} {ns : List Notification}
    (hopen : (openFirst id since rule).run t = (.ok ns, t')) (hp : p ∈ t')
    (hnew : t.find? p.id = none) : ∃ start, t.NewRoot start since p := by
  obtain ⟨start, _, ⟨_, rfl, _⟩ | ⟨_, r, hr, rfl, _⟩⟩ := openFirst_cases hopen
  · exact absurd rfl (Register.find?_eq_none_iff.mp hnew p hp)
  · exact ⟨start, newRoot_of_mem_insert hr hp hnew⟩

theorem newRoot_of_openNext {id : Id} {date : Date} {rule : FinalizeRule}
    {ns : List Notification} (hopen : (openNext id since date rule).run t = (.ok ns, t'))
    (hp : p ∈ t') (hnew : t.find? p.id = none) : ∃ start, t.NewRoot start since p := by
  obtain ⟨start, _, ⟨_, rfl, _⟩ | ⟨_, r, hr, rfl, _⟩⟩ := openNext_cases hopen
  · exact absurd rfl (Register.find?_eq_none_iff.mp hnew p hp)
  · exact ⟨start, newRoot_of_mem_insert hr hp hnew⟩

/-- The next root starts on a Monday, be it behind another one or in a week of its own. -/
theorem monday_of_nextStart (h : ∀ p ∈ t, p.Aligned) (hstart : t.nextStart since = .ok start) :
    start.number % 7 = 0 := by
  unfold nextStart at hstart
  split at hstart
  · rename_i last hlast
    have haligned := h last (mem_roots.mp (List.mem_of_getLast? hlast)).1
    have hnumber := (Date.shift_eq_ok_iff.mp hstart).2
    have hmonday := haligned.monday
    have hfinish := haligned.finish_eq
    omega
  · exact (Date.mondayOnOrBefore_eq_ok hstart).1

theorem aligned_of_move (h : ∀ p ∈ t, p.Aligned) (hmove : Move t t') : ∀ p ∈ t', p.Aligned := by
  cases hmove with
  | edit htip hedit =>
    have htip := h _ (tip_mem htip)
    exact Register.forall_mem_insert h (htip.of_eq hedit.start_eq hedit.finish_eq)
  | openFirst hweek _ hnew =>
    have hmonday := (Date.mondayOnOrBefore_eq_ok hweek).1
    exact Register.forall_mem_insert h (hnew.aligned hmonday)
  | openNext hstart _ hnew =>
    exact Register.forall_mem_insert h (hnew.aligned (monday_of_nextStart h hstart))
  | correct htip hcorrectable _ =>
    have hcorrected := h _ (mem_of_correctable (tip_mem htip) hcorrectable)
    refine Register.forall_mem_insert
      (Register.forall_mem_insert (Register.forall_mem_insert h ?_) ?_) ?_
    · exact hcorrected.of_eq rfl rfl
    · exact hcorrected.of_eq rfl rfl
    · exact (h _ (tip_mem htip)).of_eq rfl rfl

/-- An original period contains the date. -/
def Covers (t : PeriodTable) (date : Date) : Prop :=
  ∃ p ∈ t, p.corrects = none ∧ p.containsDate date

/-- When a first period is asked for, the date is covered afterwards unless it
lies in a gap before a root that starts later. -/
theorem covers_iff_of_openFirst (h : ∀ p ∈ t, p.Aligned) {id : Id} {date : Date}
    {rule : FinalizeRule} {ns : List Notification}
    (hopen : (openFirst id date rule).run t = (.ok ns, t')) :
    t'.Covers date ↔ t.Covers date ∨ ∀ p ∈ t, p.corrects = none → p.start ≤ date := by
  obtain ⟨start, hweek, ⟨⟨r, hr, hreaches⟩, rfl, _⟩ | ⟨hends, p, hnew, rfl, _⟩⟩ :=
    openFirst_cases hopen
  · -- A root reaches the week of the date, and nothing is opened.
    obtain ⟨hmem, hroot⟩ := mem_roots.mp hr
    constructor
    · exact Or.inl
    · rintro (hcovers | hstarted)
      · exact hcovers
      · exact ⟨r, hmem, hroot, (h r hmem).containsDate hweek (hstarted r hmem hroot) hreaches⟩
  · -- All roots end before that week, and the one that is opened starts with it.
    obtain ⟨hmonday, hle, _⟩ := Date.mondayOnOrBefore_eq_ok hweek
    have haligned := hnew.aligned hmonday
    have hstarts := hnew.start_eq
    have hcovers : Covers (t.insert p) date := by
      refine ⟨p, Register.mem_insert.mpr (Or.inl rfl), hnew.corrects_eq, ?_⟩
      apply haligned.containsDate hweek
      · rw [hstarts]
        exact hle
      · have hfinish := haligned.finish_eq
        rw [Date.le_iff, hfinish, hstarts]
        omega
    have hbefore : ∀ r ∈ t, r.corrects = none → r.start ≤ date := by
      intro r hr hroot
      have hfinish := (h r hr).finish_eq
      have hends := hends r (mem_roots.mpr ⟨hr, hroot⟩)
      rw [Date.lt_iff] at hends
      rw [Date.le_iff]
      omega
    exact iff_of_true hcovers (Or.inr hbefore)

end PeriodTable

end Fortnight
