import Fortnight.Person.Record
import Fortnight.Proofs.Person.History
import Fortnight.Proofs.Person.Periods
import Fortnight.Proofs.Period.WellFormed

/-!
# Records give persons back

The rows of a record name their origin, a period or a day of a period. Where
origins differ, the rows of one origin are just what was written for it, in the
order in which it was written. Reachable persons fulfil all that a reader of
records requires, so that reading their records gives them back.
-/

namespace Fortnight

section Regroup

variable {α β κ : Type} [DecidableEq κ] {key : α → κ} {origin : β → κ} {f : α → List β}
  {l : List α}

theorem filter_flatMap_eq_nil {k : κ} (horigin : ∀ a ∈ l, ∀ b ∈ f a, origin b = key a)
    (hk : ∀ a ∈ l, key a ≠ k) : (l.flatMap f).filter (fun b => origin b = k) = [] := by
  refine List.filter_eq_nil_iff.mpr fun b hb => ?_
  obtain ⟨a, ha, hba⟩ := List.mem_flatMap.mp hb
  simpa [horigin a ha b hba] using hk a ha

theorem filter_flatMap_eq (hnodup : (l.map key).Nodup)
    (horigin : ∀ a ∈ l, ∀ b ∈ f a, origin b = key a) {a : α} (ha : a ∈ l) :
    (l.flatMap f).filter (fun b => origin b = key a) = f a := by
  induction l with
  | nil => cases ha
  | cons c l ih =>
    rw [List.map_cons, List.nodup_cons] at hnodup
    rw [List.forall_mem_cons] at horigin
    rw [List.flatMap_cons, List.filter_append]
    rcases List.mem_cons.mp ha with rfl | ha
    · have hall : (f a).filter (fun b => origin b = key a) = f a :=
        List.filter_eq_self.mpr fun b hb => by simpa using horigin.1 b hb
      have hrest : (l.flatMap f).filter (fun b => origin b = key a) = [] :=
        filter_flatMap_eq_nil horigin.2 fun c hc e => hnodup.1 (e ▸ List.mem_map_of_mem hc)
      rw [hall, hrest, List.append_nil]
    · have hnone : (f c).filter (fun b => origin b = key a) = [] := by
        refine List.filter_eq_nil_iff.mpr fun b hb => ?_
        have hca : key c ≠ key a := fun e => hnodup.1 (e ▸ List.mem_map_of_mem ha)
        simpa [horigin.1 b hb] using hca
      rw [hnone, List.nil_append]
      exact ih hnodup.2 horigin.2 ha

end Regroup

theorem ObligationRow.obligation_ofObligation (o : Obligation) :
    (ofObligation o).obligation = .ok o := by
  obtain ⟨id, kind, effectiveFrom⟩ := o
  cases kind <;> simp [ofObligation, obligation, kind?]

namespace Record

theorem checkDays_eq_ok {rows : List DayRow} {seen : List (Id × Date)}
    (hnodup : (rows.map fun row => (row.period, row.date)).Nodup)
    (hseen : ∀ row ∈ rows, (row.period, row.date) ∉ seen) : checkDays seen rows = .ok () := by
  induction rows generalizing seen with
  | nil => rfl
  | cons row rest ih =>
    rw [List.map_cons, List.nodup_cons] at hnodup
    rw [List.forall_mem_cons] at hseen
    rw [checkDays, if_neg hseen.1]
    refine ih hnodup.2 fun other hother hmem => ?_
    rcases List.mem_cons.mp hmem with e | hmem
    · exact hnodup.1 (e ▸ List.mem_map_of_mem hother)
    · exact hseen.2 other hother hmem

end Record

namespace Period

variable {p : Period}

theorem days_of_rows (h : p.WellFormed) {d : Day} (hd : d ∈ p.timeline.days) :
    (p.activityRows.filter fun row => row.date = d.date).map ActivityRow.activity =
      d.activities := by
  have hfilter : (p.timeline.days.flatMap Day.activities).filter (fun a => a.date = d.date) =
      d.activities :=
    filter_flatMap_eq h.dates.nodup h.tidy hd
  rw [activityRows, List.filter_map, List.map_map]
  have hdates : ((fun row : ActivityRow => decide (row.date = d.date)) ∘
      ActivityRow.ofActivity p.id) = fun a => decide (a.date = d.date) := rfl
  have hid : ActivityRow.activity ∘ ActivityRow.ofActivity p.id = fun a => a := rfl
  rw [hdates, hfilter, hid, List.map_id']

/-- The places of the approvals put them in order. -/
theorem approvals_of_rows (p : Period) :
    (p.approvalRows.mergeSort fun a b => a.position ≤ b.position).map ApprovalRow.approval =
      p.approvals.entries := by
  have hsorted : (p.approvalRows.mergeSort fun a b => a.position ≤ b.position) =
      p.approvalRows := by
    refine List.mergeSort_of_pairwise (List.pairwise_iff_getElem.mpr fun i j hi hj hij => ?_)
    simpa [approvalRows, ApprovalRow.ofApproval] using Nat.le_of_lt hij
  rw [hsorted]
  refine List.ext_getElem (by simp [approvalRows]) fun i hi hi' => ?_
  simp [approvalRows, ApprovalRow.ofApproval, ApprovalRow.approval]

end Period

namespace Person

variable {p : Person} {q : Period}

theorem activitiesOf_toRecord (hwf : q.WellFormed) (hq : q ∈ p.periods) {d : Day}
    (hd : d ∈ q.timeline.days) :
    p.toRecord.activitiesOf q.id d.date = d.activities := by
  have hfilter : p.toRecord.activities.filter (fun row => row.period = q.id) = q.activityRows := by
    refine filter_flatMap_eq p.periods.nodup_keys (fun q _ row hrow => ?_) hq
    obtain ⟨a, _, rfl⟩ := List.mem_map.mp hrow
    rfl
  have hsplit : (p.toRecord.activities.filter fun row => row.period = q.id ∧ row.date = d.date) =
      (p.toRecord.activities.filter fun row => row.period = q.id).filter
        fun row => row.date = d.date := by
    rw [List.filter_filter]
    refine List.filter_congr fun row _ => ?_
    simp [and_comm]
  rw [Record.activitiesOf, hsplit, hfilter]
  exact Period.days_of_rows hwf hd

theorem daysOf_toRecord (hwf : q.WellFormed) (hq : q ∈ p.periods) :
    p.toRecord.daysOf q.id = q.timeline.days := by
  have hfilter : p.toRecord.days.filter (fun row => row.period = q.id) = q.dayRows := by
    refine filter_flatMap_eq p.periods.nodup_keys (fun q _ row hrow => ?_) hq
    obtain ⟨d, _, rfl⟩ := List.mem_map.mp hrow
    rfl
  rw [Record.daysOf, hfilter, Period.dayRows, List.map_map]
  have hday : ∀ d ∈ q.timeline.days, Day.mk d.date (p.toRecord.activitiesOf q.id d.date) d.policy
      d.exempt = d := by
    intro d hd
    rw [activitiesOf_toRecord hwf hq hd]
  exact (List.map_congr_left hday).trans (List.map_id' _)

theorem approvalsOf_toRecord (hq : q ∈ p.periods) :
    p.toRecord.approvalsOf q.id = q.approvals.entries := by
  have hfilter : p.toRecord.approvals.filter (fun row => row.period = q.id) = q.approvalRows := by
    refine filter_flatMap_eq p.periods.nodup_keys (fun q _ row hrow => ?_) hq
    obtain ⟨i, hi, rfl⟩ := List.mem_mapIdx.mp hrow
    rfl
  rw [Record.approvalsOf, hfilter]
  exact Period.approvals_of_rows q

/-- The row of a well-formed period gives the period back. -/
theorem addPeriod_toRecord (hwf : q.WellFormed) (hq : q ∈ p.periods) {t : PeriodTable}
    (hnew : t.find? q.id = none) :
    p.toRecord.addPeriod t (.ofPeriod q) = .ok (t.insert q) := by
  have hcontains : t.contains q.id = false := by
    rw [Register.contains, hnew]
    rfl
  have hdays : Timeline.ofDays (p.toRecord.daysOf q.id) = .ok q.timeline := by
    rw [daysOf_toRecord hwf hq]
    exact Timeline.ofDays_of_isFortnight hwf.dates
  have happrovals : ApprovalLog.ofEntries (p.toRecord.approvalsOf q.id) = .ok q.approvals := by
    rw [approvalsOf_toRecord hq]
    exact ApprovalLog.ofEntries_of_settled hwf.settled
  have hstart : q.timeline.days.head?.map Day.date = some q.start := by
    rw [← List.head?_map]
    exact hwf.dates.head_eq
  have hextend : t.extend q = .ok (t.insert q) := by
    rw [PeriodTable.extend, hcontains]
    rfl
  simp only [Record.addPeriod, PeriodRow.ofPeriod, hcontains, Bool.false_eq_true, if_false, hdays,
    Error.ok_bind, hstart, ne_eq, not_true, happrovals]
  exact hextend

theorem foldlM_addPeriod {l : List Period} (hwf : ∀ q ∈ l, q.WellFormed)
    (hl : ∀ q ∈ l, q ∈ p.periods) (hnodup : (l.map Period.id).Nodup) {t : PeriodTable}
    (hnew : ∀ q ∈ l, t.find? q.id = none) :
    (l.map .ofPeriod).foldlM p.toRecord.addPeriod t = .ok (l.foldl Register.insert t) := by
  induction l generalizing t with
  | nil => rfl
  | cons q l ih =>
    rw [List.map_cons, List.nodup_cons] at hnodup
    rw [List.forall_mem_cons] at hwf hl hnew
    rw [List.map_cons, List.foldlM_cons, addPeriod_toRecord hwf.1 hl.1 hnew.1]
    refine ih hwf.2 hl.2 hnodup.2 fun q' hq' => ?_
    have hne : q.id ≠ q'.id := fun e => hnodup.1 (e ▸ List.mem_map_of_mem hq')
    rw [Register.find?_insert, if_neg fun e => hne (Ranked.eq_of_rank e)]
    exact hnew.2 q' hq'

theorem mapM_obligation_toRecord (p : Person) :
    p.toRecord.obligations.mapM ObligationRow.obligation =
      .ok (p.obligations.toList.map Prod.snd) := by
  refine Error.mapM_eq_ok_iff.mpr (List.forall₂_map_left_iff.mpr ?_)
  refine List.forall₂_map_right_iff.mpr (List.forall₂_same.mpr fun snapshot _ => ?_)
  exact ObligationRow.obligation_ofObligation snapshot.2

theorem checkDays_toRecord (hwf : ∀ q ∈ p.periods, q.WellFormed) :
    Record.checkDays [] p.toRecord.days = .ok () := by
  refine Record.checkDays_eq_ok ?_ (by simp)
  have hdays : p.toRecord.days.map (fun row => (row.period, row.date)) =
      p.periods.toList.flatMap fun q => q.timeline.dates.map fun date => (q.id, date) := by
    simp [toRecord, Period.dayRows, DayRow.ofDay, Timeline.dates, List.map_flatMap,
      Function.comp_def]
  rw [hdays]
  refine List.nodup_flatMap.mpr ⟨fun q hq => ?_, ?_⟩
  · exact (hwf q hq).dates.nodup.map fun a b hab => (Prod.mk.inj hab).2
  · refine (List.pairwise_map.mp p.periods.nodup_keys).imp fun hne x hx hx' => ?_
    obtain ⟨_, _, rfl⟩ := List.mem_map.mp hx
    obtain ⟨_, _, e⟩ := List.mem_map.mp hx'
    exact hne (Prod.mk.inj e).1.symm

theorem checkActivity_toRecord (hwf : ∀ q ∈ p.periods, q.WellFormed) :
    p.toRecord.activities.forM p.toRecord.checkActivity = .ok () := by
  refine Error.forM_eq_ok_iff.mpr fun row hrow => if_pos (List.any_eq_true.mpr ?_)
  obtain ⟨q, hq, hrow⟩ := List.mem_flatMap.mp hrow
  obtain ⟨a, ha, rfl⟩ := List.mem_map.mp hrow
  obtain ⟨d, hd, had⟩ := List.mem_flatMap.mp ha
  refine ⟨.ofDay q.id d, List.mem_flatMap.mpr ⟨q, hq, List.mem_map_of_mem hd⟩, ?_⟩
  simpa [DayRow.ofDay, ActivityRow.ofActivity] using ((hwf q hq).tidy d hd a had).symm

theorem foldlM_addPeriod_toRecord (hwf : ∀ q ∈ p.periods, q.WellFormed) :
    p.toRecord.periods.foldlM p.toRecord.addPeriod .empty = .ok p.periods := by
  have hfold : p.periods.toList.foldl Register.insert .empty = p.periods :=
    p.periods.foldl_insert_toList fun b hb => absurd hb (Register.not_mem_empty b)
  have hrows := foldlM_addPeriod (t := .empty) hwf (fun _ hq => hq) p.periods.nodup_keys
    fun _ _ => rfl
  rw [hfold] at hrows
  exact hrows

theorem orphan?_toRecord (p : Person) : p.toRecord.orphan? = none := by
  refine List.find?_eq_none.mpr fun id hid => ?_
  have hperiod : ∃ q ∈ p.periods, q.id = id := by
    rcases List.mem_append.mp hid with hid | hid
    · obtain ⟨row, hrow, rfl⟩ := List.mem_map.mp hid
      obtain ⟨q, hq, hrow⟩ := List.mem_flatMap.mp hrow
      obtain ⟨d, _, rfl⟩ := List.mem_map.mp hrow
      exact ⟨q, hq, rfl⟩
    · obtain ⟨row, hrow, rfl⟩ := List.mem_map.mp hid
      obtain ⟨q, hq, hrow⟩ := List.mem_flatMap.mp hrow
      obtain ⟨i, hi, rfl⟩ := List.mem_mapIdx.mp hrow
      exact ⟨q, hq, rfl⟩
  obtain ⟨q, hq, rfl⟩ := hperiod
  simp only [List.all_eq_true, not_forall, toRecord]
  exact ⟨.ofPeriod q, List.mem_map_of_mem hq, by simp [PeriodRow.ofPeriod]⟩

theorem foldl_appendObligation (l : List Obligation) (p : Person) :
    l.foldl (fun p o => p.appendObligation o) p =
      { p with obligations := l.foldl (fun h o => h.put o.effectiveFrom o) p.obligations } := by
  induction l generalizing p with
  | nil => rfl
  | cons o l ih =>
    rw [List.foldl_cons, ih]
    rfl

/-- The parts of a person give them back, whatever identifier the obligation has
that a new person does not have. -/
theorem ofParts_eq_ok (hanchored : History.Anchored p.obligations)
    (hvalid : p.periods.validate = .ok ()) (id : Id) :
    ofParts id p.ident (p.obligations.toList.map Prod.snd) p.periods = .ok p := by
  rw [ofParts, hvalid, foldl_appendObligation, hanchored.foldl_put]
  rfl

/-- What a reader of records requires of a person. -/
structure Storable (p : Person) : Prop where
  wellFormed : ∀ q ∈ p.periods, q.WellFormed
  anchored : History.Anchored p.obligations
  valid : p.periods.validate = .ok ()

theorem Storable.person_toRecord (h : Storable p) (id : Id) : p.toRecord.person id = .ok p := by
  rw [Record.person, mapM_obligation_toRecord, Error.ok_bind, checkDays_toRecord h.wellFormed,
    Error.ok_bind, checkActivity_toRecord h.wellFormed, Error.ok_bind,
    foldlM_addPeriod_toRecord h.wellFormed, Error.ok_bind, orphan?_toRecord]
  exact ofParts_eq_ok h.anchored h.valid id

theorem Reachable.storable (h : Reachable p) : Storable p where
  wellFormed := h.periods_induction (fun _ hq => absurd hq (Register.not_mem_empty _))
    fun _ _ hwf hmove => PeriodTable.wellFormed_of_move hwf hmove
  anchored := h.anchored
  valid := h.linked.validate_eq_ok

/-- Nothing that a person has come to in the course of any calls is lost or
changed on the way through their record. -/
theorem person_toRecord_of_reachable (h : Reachable p) (id : Id) :
    p.toRecord.person id = .ok p :=
  h.storable.person_toRecord id

set_option maxRecDepth 4000 in
theorem person_toRecord_restarted :
    (restarted.toRecord.activities.map fun row => (row.period.value, row.state)) =
      [(11, .locked), (50, .deleted), (70, .unlocked)] ∧
    restarted.toRecord.person (supplyFrom 2 0) = .ok restarted :=
  ⟨by cbv, person_toRecord_of_reachable reachable_restarted (supplyFrom 2 0)⟩

end Person

end Fortnight
