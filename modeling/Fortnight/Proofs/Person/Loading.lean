import Fortnight.Proofs.Person.RoundTrip
import Fortnight.Proofs.Register

/-!
# Which records are read

A record is read exactly if its rows fit each other (`Record.Loads`). The rows of
obligations are of known kinds, no day of a period has a second row, activities
are of days that have one, and days and approvals are of periods that have one.
The rows of periods differ in their identifiers, and each of them makes a period
together with the days and approvals that name it. The periods are linked as they
should be. What is read then is the person of these obligations and periods.
-/

namespace Fortnight

theorem ApprovalLog.ofEntries_eq_ok_iff {entries : List Approval} {log : ApprovalLog} :
    ofEntries entries = .ok log ↔ log.entries = entries ∧ log.Settled := by
  constructor
  · intro h
    unfold ofEntries at h
    split at h
    · cases h
    · rename_i hsettled
      cases h
      exact ⟨rfl, by simpa [Settled] using hsettled⟩
  · intro h
    rw [← h.1]
    exact ofEntries_of_settled h.2

namespace Record

variable {r : Record} {row : PeriodRow} {rows : List PeriodRow} {t t' : PeriodTable} {q : Period}
  {id : Id} {p : Person}

/-- The period and the date of the row, which no other row of a day has. -/
abbrev dayKey (row : DayRow) : Id × Date :=
  (row.period, row.date)

theorem checkDays_eq_ok_iff {days : List DayRow} {seen : List (Id × Date)} :
    checkDays seen days = .ok () ↔
      (days.map dayKey).Nodup ∧ ∀ row ∈ days, dayKey row ∉ seen := by
  constructor
  · intro h
    induction days generalizing seen with
    | nil => simp
    | cons row rest ih =>
      rw [checkDays] at h
      split at h
      · cases h
      rename_i hrow
      obtain ⟨hnodup, hseen⟩ := ih h
      rw [List.map_cons, List.nodup_cons, List.forall_mem_cons]
      refine ⟨⟨?_, hnodup⟩, hrow, ?_⟩
      · intro hmem
        obtain ⟨other, hother, hkey⟩ := List.mem_map.mp hmem
        exact hseen other hother (hkey ▸ List.mem_cons_self)
      · intro other hother hmem
        exact hseen other hother (List.mem_cons_of_mem _ hmem)
  · intro h
    exact checkDays_eq_ok h.1 h.2

theorem checkActivity_eq_ok_iff {row : ActivityRow} :
    r.checkActivity row = .ok () ↔
      ∃ day ∈ r.days, day.period = row.period ∧ day.date = row.date := by
  unfold checkActivity
  simp

/-- Holds when a period is what a row makes together with the rows that name it. -/
structure Assembles (r : Record) (row : PeriodRow) (q : Period) : Prop where
  row_eq : PeriodRow.ofPeriod q = row
  timeline : Timeline.ofDays (r.daysOf row.id) = .ok q.timeline
  start : q.timeline.days.head?.map Day.date = some row.start
  approvals : ApprovalLog.ofEntries (r.approvalsOf row.id) = .ok q.approvals

theorem Assembles.id_eq (h : r.Assembles row q) : q.id = row.id := by
  rw [← h.row_eq]
  rfl

theorem addPeriod_eq_ok_iff :
    r.addPeriod t row = .ok t' ↔
      t.find? row.id = none ∧ ∃ q, r.Assembles row q ∧ t.insert q = t' := by
  constructor
  · intro h
    obtain ⟨timeline, htimeline, h⟩ := Error.bind_eq_ok_iff.mp h
    dsimp only at h
    split at h
    · cases h
    rename_i hstart
    obtain ⟨approvals, happrovals, h⟩ := Error.bind_eq_ok_iff.mp h
    unfold PeriodTable.extend at h
    split at h
    · cases h
    rename_i hnew
    have hcontains : t.contains row.id = false := by
      simpa [PeriodRow.period] using hnew
    simp only [hcontains, Bool.false_eq_true, if_false] at htimeline
    cases h
    exact ⟨by simpa [Register.contains] using hcontains, _,
      ⟨rfl, htimeline, not_not.mp hstart, happrovals⟩, rfl⟩
  · intro h
    obtain ⟨hnew, q, hq, rfl⟩ := h
    have hcontains : t.contains row.id = false := by
      simp [Register.contains, hnew]
    have hperiod : row.period q.timeline q.approvals = q := by
      rw [← hq.row_eq]
      rfl
    have hextend : t.extend q = .ok (t.insert q) := by
      rw [PeriodTable.extend, hq.id_eq, hcontains]
      rfl
    simp only [addPeriod, hcontains, Bool.false_eq_true, if_false, hq.timeline, Error.ok_bind,
      hq.start, ne_eq, not_true, hq.approvals, hperiod]
    exact hextend

theorem foldlM_addPeriod_eq_ok_iff :
    rows.foldlM r.addPeriod t = .ok t' ↔
      (rows.map PeriodRow.id).Nodup ∧ (∀ row ∈ rows, t.find? row.id = none) ∧
        ∃ qs, List.Forall₂ r.Assembles rows qs ∧ qs.foldl Register.insert t = t' := by
  induction rows generalizing t with
  | nil => simp [pure, Except.pure]
  | cons row rows ih =>
    rw [List.foldlM_cons, Error.bind_eq_ok_iff, List.map_cons, List.nodup_cons,
      List.forall_mem_cons]
    constructor
    · intro h
      obtain ⟨_, hadd, h⟩ := h
      obtain ⟨hnew, q, hq, rfl⟩ := addPeriod_eq_ok_iff.mp hadd
      obtain ⟨hnodup, hrest, qs, hqs, rfl⟩ := ih.mp h
      have hothers : ∀ other ∈ rows, row.id ≠ other.id ∧ t.find? other.id = none := by
        intro other hother
        rw [← hq.id_eq]
        exact Register.find?_insert_eq_none_iff.mp (hrest other hother)
      refine ⟨⟨?_, hnodup⟩, ⟨hnew, fun other hother => (hothers other hother).2⟩, q :: qs,
        .cons hq hqs, rfl⟩
      intro hmem
      obtain ⟨other, hother, hid⟩ := List.mem_map.mp hmem
      exact (hothers other hother).1 hid.symm
    · intro h
      obtain ⟨⟨hid, hnodup⟩, ⟨hnew, hrest⟩, _, hqs, rfl⟩ := h
      cases hqs with
      | @cons _ q _ qs hq hqs =>
        refine ⟨_, addPeriod_eq_ok_iff.mpr ⟨hnew, q, hq, rfl⟩, ih.mpr ⟨hnodup, ?_, qs, hqs, rfl⟩⟩
        intro other hother
        have hne : q.id ≠ other.id := by
          intro heq
          rw [← hq.id_eq, heq] at hid
          exact hid (List.mem_map_of_mem hother)
        exact Register.find?_insert_eq_none_iff.mpr ⟨hne, hrest other hother⟩

theorem orphan?_eq_none_iff :
    r.orphan? = none ↔
      (∀ day ∈ r.days, ∃ row ∈ r.periods, row.id = day.period) ∧
        ∀ approval ∈ r.approvals, ∃ row ∈ r.periods, row.id = approval.period := by
  unfold orphan?
  simp only [List.find?_eq_none, List.mem_append, List.mem_map, List.all_eq_true,
    decide_eq_true_eq, not_forall, ne_eq, not_not, exists_prop]
  constructor
  · intro h
    exact ⟨fun day hday => h _ (Or.inl ⟨day, hday, rfl⟩),
      fun approval happroval => h _ (Or.inr ⟨approval, happroval, rfl⟩)⟩
  · intro h id hid
    rcases hid with ⟨day, hday, rfl⟩ | ⟨approval, happroval, rfl⟩
    · exact h.1 day hday
    · exact h.2 approval happroval

/-- Holds when the rows of a record fit each other, and make these obligations and periods. -/
structure Loads (r : Record) (obligations : List Obligation) (periods : List Period) : Prop where
  obligations : List.Forall₂ (fun row o => row.obligation = .ok o) r.obligations obligations
  days_nodup : (r.days.map dayKey).Nodup
  day_of_activity : ∀ row ∈ r.activities, ∃ day ∈ r.days,
    day.period = row.period ∧ day.date = row.date
  ids_nodup : (r.periods.map PeriodRow.id).Nodup
  assembles : List.Forall₂ r.Assembles r.periods periods
  period_of_day : ∀ day ∈ r.days, ∃ row ∈ r.periods, row.id = day.period
  period_of_approval : ∀ approval ∈ r.approvals, ∃ row ∈ r.periods, row.id = approval.period
  valid : PeriodTable.Valid (.ofList periods)

/-- The person of a record whose rows fit each other. -/
def loaded (id : Id) (ident : String) (obligations : List Obligation) (periods : List Period) :
    Person where
  ident := ident
  obligations := obligations.foldl (fun h o => h.put o.effectiveFrom o)
    (Person.new id ident).obligations
  periods := .ofList periods

theorem ofParts_eq_ok_iff {ident : String} {obligations : List Obligation} {periods : List Period} :
    Person.ofParts id ident obligations (.ofList periods) = .ok p ↔
      PeriodTable.Valid (.ofList periods) ∧ loaded id ident obligations periods = p := by
  unfold Person.ofParts
  rw [Error.bind_eq_ok_iff, ← PeriodTable.validate_eq_ok_iff, Person.foldl_appendObligation]
  constructor
  · intro h
    obtain ⟨_, hvalid, h⟩ := h
    cases h
    exact ⟨hvalid, rfl⟩
  · intro h
    obtain ⟨hvalid, rfl⟩ := h
    exact ⟨(), hvalid, rfl⟩

/-- A record is read exactly if its rows fit each other. -/
theorem person_eq_ok_iff :
    r.person id = .ok p ↔
      ∃ obligations periods, r.Loads obligations periods ∧
        loaded id r.ident obligations periods = p := by
  constructor
  · intro h
    obtain ⟨obligations, hobligations, h⟩ := Error.bind_eq_ok_iff.mp h
    obtain ⟨_, hdays, h⟩ := Error.bind_eq_ok_iff.mp h
    obtain ⟨_, hactivities, h⟩ := Error.bind_eq_ok_iff.mp h
    obtain ⟨table, hperiods, h⟩ := Error.bind_eq_ok_iff.mp h
    split at h
    · cases h
    rename_i horphan
    obtain ⟨hnodup, _, periods, hassembles, rfl⟩ := foldlM_addPeriod_eq_ok_iff.mp hperiods
    obtain ⟨hvalid, rfl⟩ := ofParts_eq_ok_iff.mp h
    obtain ⟨hday, happroval⟩ := orphan?_eq_none_iff.mp horphan
    refine ⟨obligations, periods, ?_, rfl⟩
    exact {
      obligations := Error.mapM_eq_ok_iff.mp hobligations
      days_nodup := (checkDays_eq_ok_iff.mp hdays).1
      day_of_activity := fun row hrow =>
        checkActivity_eq_ok_iff.mp (Error.forM_eq_ok_iff.mp hactivities row hrow)
      ids_nodup := hnodup
      assembles := hassembles
      period_of_day := hday
      period_of_approval := happroval
      valid := hvalid }
  · intro h
    obtain ⟨obligations, periods, h, rfl⟩ := h
    have hobligations := Error.mapM_eq_ok_iff.mpr h.obligations
    have hdays : checkDays [] r.days = .ok () :=
      checkDays_eq_ok_iff.mpr ⟨h.days_nodup, by simp⟩
    have hactivities : r.activities.forM r.checkActivity = .ok () :=
      Error.forM_eq_ok_iff.mpr fun row hrow =>
        checkActivity_eq_ok_iff.mpr (h.day_of_activity row hrow)
    have hperiods : r.periods.foldlM r.addPeriod .empty = .ok (.ofList periods) :=
      foldlM_addPeriod_eq_ok_iff.mpr ⟨h.ids_nodup, by simp, periods, h.assembles, rfl⟩
    have horphan := orphan?_eq_none_iff.mpr ⟨h.period_of_day, h.period_of_approval⟩
    rw [person, hobligations, Error.ok_bind, hdays, Error.ok_bind, hactivities, Error.ok_bind,
      hperiods, Error.ok_bind, horphan]
    exact ofParts_eq_ok_iff.mpr ⟨h.valid, rfl⟩

end Record

end Fortnight
