import Fortnight.Proofs.Person.Loading

/-!
# No row is lost

Reading a record and writing it again gives the rows of the record back, in
another order at most. Every row has one owner. A day and an approval belong to
the period that they name, of which there is one row, and an activity belongs to
the day that it names, of which there is one row as well. So the groups into which
the rows are put are together all rows. Obligations are in order of time, with one
that is generated where the record does not say how things began.
-/

namespace Fortnight

section Grouping

variable {α κ : Type} [DecidableEq κ] {keys : List κ} {l : List α}

/-- Groups under different keys are together all elements, if no key is missing. -/
theorem perm_flatMap_filter (key : α → κ) (hnodup : keys.Nodup) (hkeys : ∀ a ∈ l, key a ∈ keys) :
    (keys.flatMap fun k => l.filter fun a => key a = k).Perm l := by
  induction keys generalizing l with
  | nil =>
    rw [List.eq_nil_iff_forall_not_mem.mpr fun a ha => List.not_mem_nil (hkeys a ha)]
    exact .refl _
  | cons k keys ih =>
    obtain ⟨hk, hnodup⟩ := List.nodup_cons.mp hnodup
    have hothers : (keys.flatMap fun j => l.filter fun a => key a = j) =
        keys.flatMap fun j => (l.filter fun a => !(key a = k : Bool)).filter fun a => key a = j := by
      apply List.flatMap_congr
      intro j hj
      rw [List.filter_filter]
      apply List.filter_congr
      intro a _
      have hne : k ≠ j := fun h => hk (h ▸ hj)
      by_cases ha : key a = j
      · simp [ha, hne.symm]
      · simp [ha]
    have hrest : ∀ a ∈ l.filter fun a => !(key a = k : Bool), key a ∈ keys := by
      intro a ha
      obtain ⟨hmem, hak⟩ := List.mem_filter.mp ha
      simp only [Bool.not_eq_true', decide_eq_false_iff_not] at hak
      exact (List.mem_cons.mp (hkeys a hmem)).resolve_left hak
    rw [List.flatMap_cons, hothers]
    exact ((ih hnodup hrest).append_left _).trans (List.filter_append_perm _ l)

theorem flatMap_perm_of_forall₂ {β γ : Type} {f : α → List γ} {g : β → List γ} {m : List β}
    (h : List.Forall₂ (fun a b => (f a).Perm (g b)) l m) : (l.flatMap f).Perm (m.flatMap g) := by
  induction h with
  | nil => exact .refl _
  | cons hab _ ih =>
    rw [List.flatMap_cons, List.flatMap_cons]
    exact hab.append ih

theorem map_eq_map_of_forall₂ {β γ : Type} {f : α → γ} {g : β → γ} {m : List β}
    (h : List.Forall₂ (fun a b => f a = g b) l m) : l.map f = m.map g := by
  induction h with
  | nil => rfl
  | cons hab _ ih => rw [List.map_cons, List.map_cons, hab, ih]

end Grouping

namespace Register

variable {α κ : Type} [Ranked κ] {key : α → κ} {l : List α}

theorem mem_ofList (hnodup : (l.map key).Nodup) {a : α} :
    a ∈ (ofList l : Register key) ↔ a ∈ l :=
  (mem_foldl_insert hnodup).trans (by simp)

theorem toList_perm {r : Register key} (hnodup : (l.map key).Nodup) (h : ∀ a, a ∈ r ↔ a ∈ l) :
    r.toList.Perm l :=
  (List.perm_ext_iff_of_nodup (.of_map key r.nodup_keys) (.of_map key hnodup)).mpr h

end Register

theorem ObligationRow.effectiveFrom_of_obligation {row : ObligationRow} {o : Obligation}
    (h : row.obligation = .ok o) : row.effectiveFrom = o.effectiveFrom := by
  unfold obligation at h
  split at h
  · cases h
    rfl
  · cases h

/-- An obligation is written as it was read, if it has a case only where its kind has one. -/
theorem ObligationRow.ofObligation_of_obligation {row : ObligationRow} {o : Obligation}
    (h : row.obligation = .ok o) (hcase : row.caseId ≠ none → row.kind = "decision_based") :
    ofObligation o = row := by
  obtain ⟨id, kind, caseId, effectiveFrom⟩ := row
  unfold obligation kind? at h
  dsimp only at h hcase
  have hcaseless : kind ≠ "decision_based" → caseId = none := by
    intro hkind
    by_contra hne
    exact hkind (hcase hne)
  split_ifs at h with hnone happlication hdecision
  · cases h
    rw [hcaseless (by simp [hnone]), hnone]
    rfl
  · cases h
    rw [hcaseless (by simp [happlication]), happlication]
    rfl
  · cases caseId with
    | none => cases h
    | some caseId =>
      cases h
      rw [hdecision]
      rfl

/-- Rows that carry all places from the first one on are in order once they are sorted by place. -/
theorem ApprovalRow.position_mergeSort {rows : List ApprovalRow} {n : ℕ}
    (h : (rows.map position).Perm (List.range n)) :
    (rows.mergeSort fun a b => a.position ≤ b.position).map position = List.range n := by
  have hsorted : (rows.mergeSort fun a b => a.position ≤ b.position).map position =
      (rows.map position).mergeSort fun a b => a ≤ b :=
    List.map_mergeSort fun a _ b _ => rfl
  have hperm := (List.mergeSort_perm (rows.map position) fun a b => a ≤ b).trans h
  rw [hsorted]
  exact hperm.eq_of_pairwise' (List.pairwise_mergeSort' (· ≤ ·) _) List.pairwise_le_range

theorem ApprovalRow.mapIdx_ofApproval {rows : List ApprovalRow} {period : Id} {n : ℕ}
    (hperiod : ∀ row ∈ rows, row.period = period) (hposition : rows.map position = List.range n) :
    (rows.map approval).mapIdx (ofApproval period) = rows := by
  apply List.ext_getElem
  · simp
  · intro i hi hi'
    have hget := List.getElem_of_eq hposition (by simpa using hi')
    have hmem := hperiod rows[i] (List.getElem_mem hi')
    simp only [List.getElem_map, List.getElem_range] at hget
    simp only [List.getElem_mapIdx, List.getElem_map]
    generalize rows[i] = row at hget hmem
    subst hget hmem
    rfl

theorem Person.obligations_perm {p : Person} {snapshots : List (Instant × Obligation)}
    (hnodup : (snapshots.map Prod.fst).Nodup) (hmem : ∀ s, s ∈ p.obligations ↔ s ∈ snapshots) :
    p.toRecord.obligations.Perm (snapshots.map fun s => .ofObligation s.2) :=
  (Register.toList_perm hnodup hmem).map _

namespace Record

variable {r : Record} {row : PeriodRow} {q : Period} {obligations : List Obligation}
  {periods : List Period} {id : Id} {p : Person}

/-- The period and the date of the day that the row names. -/
abbrev activityKey (row : ActivityRow) : Id × Date :=
  (row.period, row.date)

/-- The activities of the day of a row. -/
def activitiesOn (r : Record) (day : DayRow) : List ActivityRow :=
  r.activities.filter fun row => activityKey row = dayKey day

/-- The rows that name one period. -/
def approvalRowsOf (r : Record) (period : Id) : List ApprovalRow :=
  r.approvals.filter fun row => row.period = period

def dayRowsOf (r : Record) (period : Id) : List DayRow :=
  r.days.filter fun row => row.period = period

/-- Holds when a record says nothing twice and nothing that a reader would pass over. -/
structure Plain (r : Record) : Prop where
  instants_nodup : (r.obligations.map ObligationRow.effectiveFrom).Nodup
  kind_of_case : ∀ row ∈ r.obligations, row.caseId ≠ none → row.kind = "decision_based"
  /-- The approvals of a period have the places from the first one on. -/
  positions : ∀ row ∈ r.periods, ((r.approvalRowsOf row.id).map ApprovalRow.position).Perm
    (List.range (r.approvalRowsOf row.id).length)

namespace Assembles

theorem dayRows_perm (h : r.Assembles row q) : q.dayRows.Perm (r.dayRowsOf row.id) := by
  obtain ⟨hdays, _⟩ := Timeline.ofDays_eq_ok_iff.mp h.timeline
  have hrows : (r.daysOf row.id).map (DayRow.ofDay row.id) = r.dayRowsOf row.id := by
    rw [daysOf, dayRowsOf, List.map_map]
    refine (List.map_congr_left fun day hday => ?_).trans (List.map_id _)
    have hperiod : day.period = row.id := by
      simpa using (List.mem_filter.mp hday).2
    rw [Function.comp_apply, ← hperiod]
    rfl
  rw [Period.dayRows, h.id_eq, hdays, ← hrows]
  exact (List.mergeSort_perm _ _).map _

theorem activityRows_eq (h : r.Assembles row q) :
    q.activityRows = q.dayRows.flatMap r.activitiesOn := by
  obtain ⟨hdays, _⟩ := Timeline.ofDays_eq_ok_iff.mp h.timeline
  have hday : ∀ d ∈ q.timeline.days, d.activities.map (ActivityRow.ofActivity q.id) =
      r.activitiesOn (.ofDay q.id d) := by
    intro d hd
    rw [hdays, List.mem_mergeSort] at hd
    obtain ⟨day, _, rfl⟩ := List.mem_map.mp hd
    rw [h.id_eq, activitiesOn, activitiesOf, List.map_map]
    have hfilter : (r.activities.filter fun a => a.period = row.id ∧ a.date = day.date) =
        r.activities.filter fun a =>
          activityKey a = dayKey (.ofDay row.id ⟨day.date, [], day.policy, day.exempt⟩) := by
      apply List.filter_congr
      intro a _
      simp [DayRow.ofDay]
    refine (List.map_congr_left fun a ha => ?_).trans ((List.map_id _).trans hfilter)
    obtain ⟨_, hperiod, _⟩ : a ∈ r.activities ∧ a.period = row.id ∧ a.date = day.date := by
      simpa using ha
    rw [Function.comp_apply, ← hperiod]
    rfl
  rw [Period.activityRows, Period.dayRows, List.map_flatMap, List.flatMap_map]
  exact List.flatMap_congr hday

theorem approvalRows_perm (h : r.Assembles row q)
    (hpositions : ((r.approvalRowsOf row.id).map ApprovalRow.position).Perm
      (List.range (r.approvalRowsOf row.id).length)) :
    q.approvalRows.Perm (r.approvalRowsOf row.id) := by
  obtain ⟨hentries, _⟩ := ApprovalLog.ofEntries_eq_ok_iff.mp h.approvals
  have hperiod : ∀ approval ∈ (r.approvalRowsOf row.id).mergeSort
      fun a b => a.position ≤ b.position, approval.period = row.id := by
    intro approval happroval
    have hmem := List.mem_mergeSort.mp happroval
    simpa using (List.mem_filter.mp hmem).2
  have hrows := ApprovalRow.mapIdx_ofApproval hperiod
    (ApprovalRow.position_mergeSort hpositions)
  rw [Period.approvalRows, hentries, h.id_eq]
  exact (List.Perm.of_eq hrows).trans (List.mergeSort_perm _ _)

end Assembles

theorem map_ofPeriod_of_assembles {rows : List PeriodRow}
    (h : List.Forall₂ r.Assembles rows periods) : periods.map PeriodRow.ofPeriod = rows := by
  have hmap := map_eq_map_of_forall₂ (f := fun row => row) (g := PeriodRow.ofPeriod)
    (h.imp fun _ _ hq => hq.row_eq.symm)
  rw [← hmap, List.map_id']

theorem map_id_of_assembles {rows : List PeriodRow} (h : List.Forall₂ r.Assembles rows periods) :
    periods.map Period.id = rows.map PeriodRow.id := by
  rw [← map_ofPeriod_of_assembles h, List.map_map]
  rfl

/-- Holds when the rows of a record are those of another one, in an order that may
differ except among the activities of a day. The obligation at the first instant
of all is the only row that there may be one of more. -/
structure Restates (id : Id) (s r : Record) : Prop where
  ident_eq : s.ident = r.ident
  periods : s.periods.Perm r.periods
  approvals : s.approvals.Perm r.approvals
  days : s.days.Perm r.days
  activities : s.activities.Perm r.activities
  activities_of_day : ∀ key, (s.activities.filter fun row => activityKey row = key) =
    r.activities.filter fun row => activityKey row = key
  obligations : Instant.first ∈ r.obligations.map ObligationRow.effectiveFrom →
    s.obligations.Perm r.obligations
  generated : Instant.first ∉ r.obligations.map ObligationRow.effectiveFrom →
    s.obligations.Perm (⟨id, "none", none, Instant.first⟩ :: r.obligations)

namespace Loads

theorem exists_row (h : r.Loads obligations periods) (hq : q ∈ periods) :
    ∃ row ∈ r.periods, r.Assembles row q :=
  Step.forall_mem_of_forall₂ (P := fun row => row ∈ r.periods)
    (Q := fun q => ∃ row ∈ r.periods, r.Assembles row q) h.assembles
    (fun row _ hq hrow => ⟨row, hrow, hq⟩) (fun _ hrow => hrow) q hq

variable (h : r.Loads obligations periods) (id : Id)

include h

theorem toList_perm :
    (loaded id r.ident obligations periods).periods.toList.Perm periods := by
  have hnodup : (periods.map Period.id).Nodup := by
    rw [map_id_of_assembles h.assembles]
    exact h.ids_nodup
  exact Register.toList_perm hnodup fun q => Register.mem_ofList hnodup

theorem periods_perm :
    (loaded id r.ident obligations periods).toRecord.periods.Perm r.periods := by
  have hperm := (h.toList_perm id).map PeriodRow.ofPeriod
  rw [map_ofPeriod_of_assembles h.assembles] at hperm
  exact hperm

theorem flatMap_perm {α : Type} {f : Period → List α} {key : α → Id} {l : List α}
    (hrows : ∀ row ∈ r.periods, ∀ q, r.Assembles row q →
      (f q).Perm (l.filter fun a => key a = row.id))
    (hkeys : ∀ a ∈ l, ∃ row ∈ r.periods, row.id = key a) :
    ((loaded id r.ident obligations periods).periods.toList.flatMap f).Perm l := by
  have hgroups : (r.periods.flatMap fun row => l.filter fun a => key a = row.id).Perm l := by
    have hflat := perm_flatMap_filter key (l := l) h.ids_nodup fun a ha => by
      obtain ⟨row, hrow, hid⟩ := hkeys a ha
      exact List.mem_map.mpr ⟨row, hrow, hid⟩
    rwa [List.flatMap_map] at hflat
  have hassembles := (List.forall₂_and_left _ _).mpr ⟨fun row hrow => hrow, h.assembles⟩
  have hperiods : (r.periods.flatMap fun row => l.filter fun a => key a = row.id).Perm
      (periods.flatMap f) :=
    flatMap_perm_of_forall₂ (hassembles.imp fun row q hq => (hrows row hq.1 q hq.2).symm)
  exact ((h.toList_perm id).flatMap_right f).trans (hperiods.symm.trans hgroups)

theorem days_perm : (loaded id r.ident obligations periods).toRecord.days.Perm r.days :=
  h.flatMap_perm id (fun _ _ _ hq => hq.dayRows_perm) h.period_of_day

theorem approvals_perm (hplain : r.Plain) :
    (loaded id r.ident obligations periods).toRecord.approvals.Perm r.approvals :=
  h.flatMap_perm id (fun row hrow _ hq => hq.approvalRows_perm (hplain.positions row hrow))
    h.period_of_approval

theorem activities_eq :
    (loaded id r.ident obligations periods).toRecord.activities =
      (loaded id r.ident obligations periods).toRecord.days.flatMap r.activitiesOn := by
  unfold Person.toRecord
  dsimp only
  rw [List.flatMap_assoc]
  apply List.flatMap_congr
  intro q hq
  obtain ⟨row, _, hassembles⟩ := h.exists_row ((h.toList_perm id).mem_iff.mp hq)
  exact hassembles.activityRows_eq

theorem activities_perm :
    (loaded id r.ident obligations periods).toRecord.activities.Perm r.activities := by
  rw [h.activities_eq id]
  have hgroups := perm_flatMap_filter activityKey (l := r.activities) h.days_nodup
    fun a ha => by
      obtain ⟨day, hday, hperiod, hdate⟩ := h.day_of_activity a ha
      exact List.mem_map.mpr ⟨day, hday, Prod.ext hperiod hdate⟩
  rw [List.flatMap_map] at hgroups
  exact ((h.days_perm id).flatMap_right _).trans hgroups

theorem filter_activities (key : Id × Date) :
    ((loaded id r.ident obligations periods).toRecord.activities.filter
      fun row => activityKey row = key) = r.activities.filter fun row => activityKey row = key := by
  have hperm := (h.activities_perm id).filter fun row => activityKey row = key
  have hnodup := ((h.days_perm id).map dayKey).nodup_iff.mpr h.days_nodup
  have horigin : ∀ day ∈ (loaded id r.ident obligations periods).toRecord.days,
      ∀ row ∈ r.activitiesOn day, activityKey row = dayKey day := by
    intro day _ row hrow
    simpa using (List.mem_filter.mp hrow).2
  by_cases hkey : ∃ day ∈ (loaded id r.ident obligations periods).toRecord.days, dayKey day = key
  · obtain ⟨day, hday, rfl⟩ := hkey
    rw [h.activities_eq id, filter_flatMap_eq hnodup horigin hday]
    rfl
  · push Not at hkey
    rw [h.activities_eq id, filter_flatMap_eq_nil horigin hkey] at hperm ⊢
    exact hperm.nil_eq

theorem instants_eq :
    obligations.map Obligation.effectiveFrom = r.obligations.map ObligationRow.effectiveFrom :=
  (map_eq_map_of_forall₂ (h.obligations.imp fun _ _ ho =>
    ObligationRow.effectiveFrom_of_obligation ho)).symm

theorem obligations_eq (hplain : r.Plain) :
    obligations.map ObligationRow.ofObligation = r.obligations := by
  have hrows := (List.forall₂_and_left _ _).mpr ⟨fun row hrow => hrow, h.obligations⟩
  have hmap := map_eq_map_of_forall₂ (f := fun row => row) (g := ObligationRow.ofObligation)
    (hrows.imp fun row _ ho =>
      (ObligationRow.ofObligation_of_obligation ho.2 (hplain.kind_of_case row ho.1)).symm)
  rw [← hmap, List.map_id']

theorem nodup_instants (hplain : r.Plain) :
    ((obligations.map fun o => (o.effectiveFrom, o)).map Prod.fst).Nodup := by
  rw [List.map_map]
  exact h.instants_eq ▸ hplain.instants_nodup

/-- A history has the obligations of the record, and starts with none if no row
is of the first instant of all. -/
theorem mem_obligations (hplain : r.Plain) {snapshot : Instant × Obligation} :
    snapshot ∈ (loaded id r.ident obligations periods).obligations ↔
      snapshot ∈ obligations.map (fun o => (o.effectiveFrom, o)) ∨
        snapshot = (Instant.first, .absentSinceEver id) ∧
          Instant.first ∉ r.obligations.map ObligationRow.effectiveFrom := by
  have hloaded : (loaded id r.ident obligations periods).obligations =
      (obligations.map fun o => (o.effectiveFrom, o)).foldl Register.insert
        (Register.insert .empty (Instant.first, .absentSinceEver id)) := by
    rw [List.foldl_map]
    rfl
  rw [hloaded, Register.mem_foldl_insert (h.nodup_instants hplain), Register.mem_insert,
    ← h.instants_eq]
  refine or_congr_right ?_
  constructor
  · intro hs
    obtain ⟨hfirst | ⟨hempty, _⟩, hnone⟩ := hs
    · subst hfirst
      refine ⟨rfl, fun hmem => ?_⟩
      obtain ⟨o, ho, heq⟩ := List.mem_map.mp hmem
      exact hnone _ (List.mem_map_of_mem ho) heq.symm
    · exact absurd hempty (Register.not_mem_empty snapshot)
  · intro hs
    obtain ⟨rfl, hnone⟩ := hs
    refine ⟨Or.inl rfl, fun snapshot hmem heq => hnone ?_⟩
    obtain ⟨o, ho, rfl⟩ := List.mem_map.mp hmem
    exact List.mem_map.mpr ⟨o, ho, heq.symm⟩

theorem obligations_of_first (hplain : r.Plain)
    (hfirst : Instant.first ∈ r.obligations.map ObligationRow.effectiveFrom) :
    (loaded id r.ident obligations periods).toRecord.obligations.Perm r.obligations := by
  have hperm := Person.obligations_perm (h.nodup_instants hplain) fun snapshot => by
    rw [h.mem_obligations id hplain]
    simp [hfirst]
  rw [List.map_map] at hperm
  exact hperm.trans (.of_eq (h.obligations_eq hplain))

theorem obligations_of_not_first (hplain : r.Plain)
    (hfirst : Instant.first ∉ r.obligations.map ObligationRow.effectiveFrom) :
    (loaded id r.ident obligations periods).toRecord.obligations.Perm
      (⟨id, "none", none, Instant.first⟩ :: r.obligations) := by
  have hnodup : (((Instant.first, Obligation.absentSinceEver id) ::
      obligations.map fun o => (o.effectiveFrom, o)).map Prod.fst).Nodup := by
    rw [List.map_cons, List.nodup_cons]
    refine ⟨?_, h.nodup_instants hplain⟩
    rw [List.map_map]
    exact h.instants_eq ▸ hfirst
  have hperm := Person.obligations_perm hnodup fun snapshot => by
    rw [h.mem_obligations id hplain, List.mem_cons]
    simp [hfirst, or_comm]
  rw [List.map_cons, List.map_map] at hperm
  exact hperm.trans (.of_eq (congrArg _ (h.obligations_eq hplain)))

end Loads

/-- What is written of a person who was read from a record is what the record
says. No row is lost or merged with another one, none is altered, and none is
made up but the obligation from which a history starts. -/
theorem restates_of_person (hplain : r.Plain) (h : r.person id = .ok p) :
    Restates id p.toRecord r := by
  obtain ⟨obligations, periods, hloads, rfl⟩ := person_eq_ok_iff.mp h
  exact {
    ident_eq := rfl
    periods := hloads.periods_perm id
    approvals := hloads.approvals_perm id hplain
    days := hloads.days_perm id
    activities := hloads.activities_perm id
    activities_of_day := hloads.filter_activities id
    obligations := hloads.obligations_of_first id hplain
    generated := hloads.obligations_of_not_first id hplain }

section Unsorted

open Person (workday)

/-- A record of one approved period, with the last rows of each kind first. It does
not say how things began. -/
def unsorted : Record where
  ident := "01018012345"
  obligations := [⟨supplyFrom 9 0, "decision_based", some "case-1", (january 5).startOfDay⟩,
    ⟨supplyFrom 1 0, "application_based", none, (january 2).startOfDay⟩]
  periods := [⟨supplyFrom 2 0, january 1, january 14, january 13, january 13, .approved, none,
    none, none⟩]
  approvals := [
    ⟨supplyFrom 4 0, supplyFrom 2 0, 1, .caseWorker "cw-1", (january 15).startOfDay, none, none⟩,
    ⟨supplyFrom 3 0, supplyFrom 2 0, 0, .endUser "01018012345", (january 13).startOfDay, none,
      some ⟨supplyFrom 5 0, .endUser "01018012345", (january 14).startOfDay, none⟩⟩]
  days := (List.range periodLength).reverse.map fun k =>
    ⟨supplyFrom 2 0, january (k + 1), .nothingAllowed, k = 0⟩
  activities := [⟨supplyFrom 7 0, supplyFrom 2 0, january 4, workday, .sick, .locked⟩,
    ⟨supplyFrom 6 0, supplyFrom 2 0, january 3, workday, .work, .locked⟩]

set_option maxRecDepth 8000 in
theorem exists_person_unsorted : ∃ p, unsorted.person (supplyFrom 8 0) = .ok p := by
  apply Error.exists_of_isOk
  cbv

theorem plain_unsorted : Plain unsorted where
  instants_nodup := by decide
  kind_of_case := by simp [unsorted]
  positions := by
    intro row hrow
    rw [List.mem_singleton.mp hrow]
    exact .swap 0 1 []

theorem restates_unsorted :
    Plain unsorted ∧ ∃ p, unsorted.person (supplyFrom 8 0) = .ok p ∧
      Restates (supplyFrom 8 0) p.toRecord unsorted := by
  obtain ⟨p, hp⟩ := exists_person_unsorted
  exact ⟨plain_unsorted, p, hp, restates_of_person plain_unsorted hp⟩

end Unsorted

end Record

end Fortnight
