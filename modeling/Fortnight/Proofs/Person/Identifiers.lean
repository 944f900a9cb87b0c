import Fortnight.Proofs.Person.Rows

/-!
# Which identifiers are compared

Of the identifiers in a record only those of the periods are compared. A record
with two rows for one period is turned down. The identifiers of obligations,
approvals and activities play no part: a record is read exactly if it is read
with one identifier in all of these rows. What decides about the rows is the
rest of them, and what decides about the links is the rows of the periods.
-/

namespace Fortnight

section Fitting

variable {α β : Type} {R : α → β → Prop} {l : List α}

theorem exists_forall₂_iff : (∃ m, List.Forall₂ R l m) ↔ ∀ a ∈ l, ∃ b, R a b := by
  induction l with
  | nil => simp
  | cons a l ih =>
    rw [List.forall_mem_cons, ← ih]
    constructor
    · intro h
      obtain ⟨_, h⟩ := h
      cases h with
      | @cons _ b _ m hab hrest => exact ⟨⟨b, hab⟩, m, hrest⟩
    · intro h
      obtain ⟨⟨b, hab⟩, m, hrest⟩ := h
      exact ⟨b :: m, .cons hab hrest⟩

theorem forall_mem_of_map_eq {f : α → α} {P : α → Prop} {m : List α} (hP : ∀ a, P (f a) ↔ P a)
    (h : l.map f = m.map f) (hl : ∀ a ∈ l, P a) : ∀ a ∈ m, P a := by
  intro a ha
  have hmem := List.mem_map_of_mem (f := f) ha
  rw [← h] at hmem
  obtain ⟨b, hb, heq⟩ := List.mem_map.mp hmem
  rw [← hP, ← heq, hP]
  exact hl b hb

end Fitting

namespace Error

/-- Holds when a computation fails for no other reason than an illegal state. -/
def OnlyIllegal {α : Type} (x : Except Error α) : Prop :=
  ∀ e, x = .error e → ∃ cause, e = .illegalState cause

namespace OnlyIllegal

variable {α β : Type}

theorem ok (a : α) : OnlyIllegal (.ok a) := by
  intro e he
  cases he

theorem illegalState (cause : Conflict) : OnlyIllegal (.error (.illegalState cause) : Except Error α) := by
  intro e he
  cases he
  exact ⟨cause, rfl⟩

theorem bind {x : Except Error α} {f : α → Except Error β} (hx : OnlyIllegal x)
    (hf : ∀ a, x = .ok a → OnlyIllegal (f a)) : OnlyIllegal (x >>= f) := by
  intro e he
  cases hvalue : x with
  | ok a =>
    rw [hvalue] at he
    exact hf a hvalue e he
  | error first =>
    rw [hvalue] at he
    cases he
    exact hx e hvalue

theorem mapM {f : α → Except Error β} (hf : ∀ a, OnlyIllegal (f a)) (l : List α) :
    OnlyIllegal (l.mapM f) := by
  induction l with
  | nil => exact .ok []
  | cons a l ih =>
    rw [List.mapM_cons]
    exact (hf a).bind fun b _ => ih.bind fun m _ => .ok (b :: m)

theorem forM {f : α → Except Error Unit} (hf : ∀ a, OnlyIllegal (f a)) (l : List α) :
    OnlyIllegal (l.forM f) := by
  induction l with
  | nil => exact .ok ()
  | cons a l ih => exact (hf a).bind fun _ _ => ih

theorem foldlM {f : β → α → Except Error β} (hf : ∀ b a, OnlyIllegal (f b a)) (l : List α) (b : β) :
    OnlyIllegal (l.foldlM f b) := by
  induction l generalizing b with
  | nil => exact .ok b
  | cons a l ih =>
    rw [List.foldlM_cons]
    exact (hf b a).bind fun c _ => ih c

end OnlyIllegal

end Error

open Error (OnlyIllegal)

namespace Record

variable {r s : Record} {id : Id}

theorem onlyIllegal_obligation (row : ObligationRow) : OnlyIllegal row.obligation := by
  unfold ObligationRow.obligation
  split
  · exact .ok _
  · exact .illegalState _

theorem onlyIllegal_checkDays (seen : List (Id × Date)) (days : List DayRow) :
    OnlyIllegal (checkDays seen days) := by
  induction days generalizing seen with
  | nil => exact .ok ()
  | cons row days ih =>
    unfold checkDays
    split
    · exact .illegalState _
    · exact ih _

theorem onlyIllegal_checkActivity (r : Record) (row : ActivityRow) :
    OnlyIllegal (r.checkActivity row) := by
  unfold checkActivity
  split
  · exact .ok ()
  · exact .illegalState _

theorem onlyIllegal_ofDays (days : List Day) : OnlyIllegal (Timeline.ofDays days) := by
  unfold Timeline.ofDays
  dsimp only
  split
  · exact .ok _
  · exact .illegalState _

theorem onlyIllegal_ofEntries (entries : List Approval) :
    OnlyIllegal (ApprovalLog.ofEntries entries) := by
  unfold ApprovalLog.ofEntries
  split
  · exact .illegalState _
  · exact .ok _

theorem onlyIllegal_addPeriod (r : Record) (t : PeriodTable) (row : PeriodRow) :
    OnlyIllegal (r.addPeriod t row) := by
  unfold addPeriod
  refine .bind (onlyIllegal_ofDays _) fun timeline _ => ?_
  dsimp only
  split
  · exact .illegalState _
  refine .bind (onlyIllegal_ofEntries _) fun approvals _ => ?_
  unfold PeriodTable.extend
  split
  · exact .illegalState _
  · exact .ok _

/-- Two rows for one period are an illegal state, whatever else there is in the record. -/
theorem illegalState_of_not_nodup (h : ¬ (r.periods.map PeriodRow.id).Nodup) :
    ∃ cause, r.person id = .error (.illegalState cause) := by
  have honly : OnlyIllegal (r.person id) := by
    unfold person
    refine .bind (.mapM onlyIllegal_obligation _) fun _ _ => ?_
    refine .bind (onlyIllegal_checkDays [] r.days) fun _ _ => ?_
    refine .bind (.forM r.onlyIllegal_checkActivity _) fun _ _ => ?_
    refine .bind (.foldlM r.onlyIllegal_addPeriod _ _) fun _ hperiods => ?_
    exact absurd (foldlM_addPeriod_eq_ok_iff.mp hperiods).1 h
  cases hread : r.person id with
  | ok p =>
    obtain ⟨_, _, hloads, _⟩ := person_eq_ok_iff.mp hread
    exact absurd hloads.ids_nodup h
  | error e =>
    obtain ⟨cause, rfl⟩ := honly e hread
    exact ⟨cause, rfl⟩

end Record

namespace PeriodTable

variable {t t' : PeriodTable} {link : Period → Option Id} {p p' e : Period} {l : List Period}

theorem Walk.of_rows (h : t.Walk link p l e)
    (hrows : ∀ q ∈ t, ∃ q' ∈ t', PeriodRow.ofPeriod q' = PeriodRow.ofPeriod q)
    (hlink : ∀ q q', PeriodRow.ofPeriod q' = PeriodRow.ofPeriod q → link q' = link q)
    (hp' : p' ∈ t') (hrow : PeriodRow.ofPeriod p' = PeriodRow.ofPeriod p) :
    ∃ l' e', t'.Walk link p' l' e' ∧ l'.map PeriodRow.ofPeriod = l.map PeriodRow.ofPeriod := by
  induction h generalizing p' with
  | @last p hp hn =>
    rw [← hlink p p' hrow] at hn
    exact ⟨[p'], p', .last hp' hn, by simp [hrow]⟩
  | @next p q l e hp hl hw ih =>
    obtain ⟨q', hq', hrow'⟩ := hrows q hw.start_mem
    obtain ⟨l', e', hw', hmap⟩ := ih hq' hrow'
    have hid : q'.id = q.id := congrArg PeriodRow.id hrow'
    rw [← hlink p p' hrow, ← hid] at hl
    exact ⟨p' :: l', e', .next hp' hl hw', by simp [hrow, hmap]⟩

theorem Valid.of_rows (h : t.Valid)
    (hrows : ∀ q ∈ t, ∃ q' ∈ t', PeriodRow.ofPeriod q' = PeriodRow.ofPeriod q)
    (hrows' : ∀ q' ∈ t', ∃ q ∈ t, PeriodRow.ofPeriod q = PeriodRow.ofPeriod q') : t'.Valid where
  forward p' hp' := by
    obtain ⟨p, hp, hrow⟩ := hrows' p' hp'
    obtain ⟨l, e, hw⟩ := h.forward p hp
    obtain ⟨l', e', hw', _⟩ := hw.of_rows hrows
      (fun _ _ hq => congrArg PeriodRow.correctedBy hq) hp' hrow.symm
    exact ⟨l', e', hw'⟩
  back p' hp' := by
    obtain ⟨p, hp, hrow⟩ := hrows' p' hp'
    obtain ⟨l, r, hw⟩ := h.back p hp
    obtain ⟨l', r', hw', _⟩ := hw.of_rows hrows
      (fun _ _ hq => congrArg PeriodRow.corrects hq) hp' hrow.symm
    exact ⟨l', r', hw'⟩
  isChain r' l' e' hroot hw' := by
    obtain ⟨r, hr, hrow⟩ := hrows' r' hw'.start_mem
    obtain ⟨l, e, hw, hmap⟩ := hw'.of_rows hrows'
      (fun _ _ hq => congrArg PeriodRow.correctedBy hq) hr hrow
    have hcorrects : r.corrects = r'.corrects := congrArg PeriodRow.corrects hrow
    have hchain := h.isChain r l e (hcorrects.trans hroot) hw
    -- Who corrects whom can be told from the rows.
    have hiff : ∀ l : List Period, (l.IsChain fun p q => q.corrects = some p.id) ↔
        (l.map PeriodRow.ofPeriod).IsChain fun a b => b.corrects = some a.id := by
      intro l
      rw [List.isChain_map]
      rfl
    rw [hiff, ← hmap, ← hiff]
    exact hchain

end PeriodTable

theorem ApprovalLog.settled_iff {log : ApprovalLog} :
    log.Settled ↔ true ∉ (log.entries.map Approval.isLive).dropLast := by
  rw [← List.map_dropLast]
  simp only [Settled, List.mem_map, not_exists, not_and]

theorem Timeline.exists_ofDays {days days' : List Day} {t : Timeline}
    (hdates : days'.map Day.date = days.map Day.date) (h : ofDays days = .ok t) :
    ∃ t', ofDays days' = .ok t' ∧ t'.dates = t.dates := by
  obtain ⟨hdays, hlength, hchain⟩ := ofDays_eq_ok_iff.mp h
  have hsame : (⟨days'.mergeSort fun a b => a.date ≤ b.date⟩ : Timeline).dates = t.dates := by
    rw [dates, dates_mergeSort, hdates, ← dates_mergeSort, ← hdays]
    rfl
  refine ⟨_, ofDays_eq_ok_iff.mpr ⟨rfl, ?_, ?_⟩, hsame⟩
  · rw [hsame]
    exact hlength
  · rw [hsame]
    exact hchain

/-- The row under another identifier. -/
def ObligationRow.withId (id : Id) (row : ObligationRow) : ObligationRow :=
  { row with id }

@[inherit_doc ObligationRow.withId]
def ApprovalRow.withId (id : Id) (row : ApprovalRow) : ApprovalRow :=
  { row with id }

@[inherit_doc ObligationRow.withId]
def ActivityRow.withId (id : Id) (row : ActivityRow) : ActivityRow :=
  { row with id }

theorem ObligationRow.exists_obligation_withId {id : Id} {row : ObligationRow} :
    (∃ o, (row.withId id).obligation = .ok o) ↔ ∃ o, row.obligation = .ok o := by
  have hkind : (row.withId id).kind? = row.kind? := rfl
  unfold obligation
  rw [hkind]
  cases row.kind? <;> simp

namespace Record

variable {r s : Record} {id shared : Id} {row : PeriodRow} {q : Period}

/-- The record with one identifier for all obligations, approvals and activities. -/
def withOneId (shared : Id) (r : Record) : Record where
  ident := r.ident
  obligations := r.obligations.map (.withId shared)
  periods := r.periods
  approvals := r.approvals.map (.withId shared)
  days := r.days
  activities := r.activities.map (.withId shared)

theorem withOneId_withOneId (shared : Id) (r : Record) :
    (r.withOneId shared).withOneId shared = r.withOneId shared := by
  simp only [withOneId, List.map_map]
  rfl

theorem dates_daysOf_withOneId (shared : Id) (r : Record) (period : Id) :
    ((r.withOneId shared).daysOf period).map Day.date = (r.daysOf period).map Day.date := by
  simp only [daysOf, List.map_map]
  rfl

theorem live_approvalsOf_withOneId (shared : Id) (r : Record) (period : Id) :
    ((r.withOneId shared).approvalsOf period).map Approval.isLive =
      (r.approvalsOf period).map Approval.isLive := by
  have hfilter : (r.withOneId shared).approvals.filter (fun row => row.period = period) =
      (r.approvals.filter fun row => row.period = period).map (ApprovalRow.withId shared) :=
    List.filter_map
  have hsorted := List.map_mergeSort (f := ApprovalRow.withId shared)
    (r := fun a b : ApprovalRow => a.position ≤ b.position)
    (s := fun a b : ApprovalRow => a.position ≤ b.position)
    (l := r.approvals.filter fun row => row.period = period) fun _ _ _ _ => rfl
  unfold approvalsOf
  rw [hfilter, ← hsorted]
  simp only [List.map_map]
  rfl

theorem exists_assembles (h : r.withOneId shared = s.withOneId shared) (hq : r.Assembles row q) :
    ∃ q', s.Assembles row q' := by
  have hdates : (s.daysOf row.id).map Day.date = (r.daysOf row.id).map Day.date := by
    rw [← dates_daysOf_withOneId shared s, ← h, dates_daysOf_withOneId]
  have hlive : (s.approvalsOf row.id).map Approval.isLive =
      (r.approvalsOf row.id).map Approval.isLive := by
    rw [← live_approvalsOf_withOneId shared s, ← h, live_approvalsOf_withOneId]
  obtain ⟨timeline, htimeline, hsame⟩ := Timeline.exists_ofDays hdates hq.timeline
  obtain ⟨hentries, hsettled⟩ := ApprovalLog.ofEntries_eq_ok_iff.mp hq.approvals
  refine ⟨row.period timeline ⟨s.approvalsOf row.id⟩, rfl, htimeline, ?_, ?_⟩
  · have hstart := hq.start
    rw [← List.head?_map] at hstart ⊢
    rw [← hstart]
    exact congrArg List.head? hsame
  · refine ApprovalLog.ofEntries_eq_ok_iff.mpr ⟨rfl, ?_⟩
    rw [ApprovalLog.settled_iff, hentries, ← hlive] at hsettled
    exact ApprovalLog.settled_iff.mpr hsettled

/-- Periods are linked as they should be or not whatever else they are made of than rows. -/
theorem valid_of_assembles {rows : List PeriodRow} {periods periods' : List Period}
    (hnodup : (rows.map PeriodRow.id).Nodup) (h : List.Forall₂ r.Assembles rows periods)
    (h' : List.Forall₂ s.Assembles rows periods') (hvalid : PeriodTable.Valid (.ofList periods)) :
    PeriodTable.Valid (.ofList periods') := by
  have hrows : ∀ {r : Record} {periods : List Period}, List.Forall₂ r.Assembles rows periods →
      ∀ row, (∃ q ∈ (.ofList periods : PeriodTable), PeriodRow.ofPeriod q = row) ↔ row ∈ rows := by
    intro r periods h row
    have hids : (periods.map Period.id).Nodup := by
      rw [map_id_of_assembles h]
      exact hnodup
    simp only [Register.mem_ofList hids, ← map_ofPeriod_of_assembles h, List.mem_map]
  refine hvalid.of_rows (fun q hq => ?_) fun q' hq' => ?_
  · exact (hrows h' _).mpr ((hrows h _).mp ⟨q, hq, rfl⟩)
  · exact (hrows h _).mpr ((hrows h' _).mp ⟨q', hq', rfl⟩)

theorem Loads.exists_of_same {obligations : List Obligation} {periods : List Period}
    (hloads : r.Loads obligations periods) (h : r.withOneId shared = s.withOneId shared) :
    ∃ obligations' periods', s.Loads obligations' periods' := by
  obtain ⟨_, hobligations, hperiods, happrovals, hdays, hactivities⟩ := Record.mk.inj h
  have hkinds : ∀ row ∈ s.obligations, ∃ o, row.obligation = .ok o :=
    forall_mem_of_map_eq (fun _ => ObligationRow.exists_obligation_withId) hobligations
      (exists_forall₂_iff.mp ⟨obligations, hloads.obligations⟩)
  have hrows : ∀ row ∈ s.periods, ∃ q, s.Assembles row q := by
    intro row hrow
    rw [← hperiods] at hrow
    obtain ⟨q, hq⟩ := exists_forall₂_iff.mp ⟨periods, hloads.assembles⟩ row hrow
    exact exists_assembles h hq
  obtain ⟨obligations', hobligations'⟩ := exists_forall₂_iff.mpr hkinds
  obtain ⟨periods', hassembles'⟩ := exists_forall₂_iff.mpr hrows
  have happroval := forall_mem_of_map_eq (f := ApprovalRow.withId shared) (fun _ => .rfl)
    happrovals hloads.period_of_approval
  have hactivity := forall_mem_of_map_eq (f := ActivityRow.withId shared) (fun _ => .rfl)
    hactivities hloads.day_of_activity
  obtain ⟨ident, obligations, rows, approvals, days, activities⟩ := s
  -- Days and rows of periods are the same in both records.
  cases hdays
  cases hperiods
  exact ⟨obligations', periods', {
    obligations := hobligations'
    days_nodup := hloads.days_nodup
    day_of_activity := hactivity
    ids_nodup := hloads.ids_nodup
    assembles := hassembles'
    period_of_day := hloads.period_of_day
    period_of_approval := happroval
    valid := valid_of_assembles hloads.ids_nodup hloads.assembles hassembles' hloads.valid }⟩

/-- A record that agrees with one that is read in all but these identifiers is read. -/
theorem exists_person_of_same (h : r.withOneId shared = s.withOneId shared)
    (hread : ∃ p, r.person id = .ok p) : ∃ p, s.person id = .ok p := by
  obtain ⟨_, hread⟩ := hread
  obtain ⟨_, _, hloads, _⟩ := person_eq_ok_iff.mp hread
  obtain ⟨_, _, hloads'⟩ := hloads.exists_of_same h
  exact ⟨_, person_eq_ok_iff.mpr ⟨_, _, hloads', rfl⟩⟩

/-- A second row for a period is an illegal state, and no other identifier that
comes up again is: a record with one identifier in all rows of obligations,
approvals and activities is read if the record itself is. -/
theorem identifiers_of_person (r : Record) (id shared : Id) :
    (¬ (r.periods.map PeriodRow.id).Nodup →
      ∃ cause, r.person id = .error (.illegalState cause)) ∧
      ((∃ p, (r.withOneId shared).person id = .ok p) ↔ ∃ p, r.person id = .ok p) := by
  refine ⟨illegalState_of_not_nodup, ?_, ?_⟩
  · exact exists_person_of_same (withOneId_withOneId shared r)
  · exact exists_person_of_same (withOneId_withOneId shared r).symm

/-- The record of one period with a second row for it. -/
def repeated : Record :=
  { unsorted with periods := unsorted.periods ++ unsorted.periods }

theorem identifiers_repeated :
    ¬ (repeated.periods.map PeriodRow.id).Nodup ∧
      (∃ cause, repeated.person (supplyFrom 8 0) = .error (.illegalState cause)) ∧
      ∃ p, (unsorted.withOneId (supplyFrom 1 0)).person (supplyFrom 8 0) = .ok p := by
  have hrepeated : ¬ (repeated.periods.map PeriodRow.id).Nodup := by
    decide
  refine ⟨hrepeated, ?_, ?_⟩
  · exact (identifiers_of_person repeated (supplyFrom 8 0) (supplyFrom 1 0)).1 hrepeated
  · have hiff := (identifiers_of_person unsorted (supplyFrom 8 0) (supplyFrom 1 0)).2
    exact hiff.mpr exists_person_unsorted

/-- Holds when no two rows of one kind have the same identifier. -/
structure DistinctIds (r : Record) : Prop where
  obligations : (r.obligations.map ObligationRow.id).Nodup
  periods : (r.periods.map PeriodRow.id).Nodup
  approvals : (r.approvals.map ApprovalRow.id).Nodup
  activities : (r.activities.map ActivityRow.id).Nodup

set_option maxRecDepth 8000 in
/-- Two obligations, two approvals and two activities share an identifier, and nobody minds. -/
theorem not_illegalState_of_not_distinctIds :
    ¬ ∀ r : Record, ¬ r.DistinctIds →
      ∃ cause, r.person (supplyFrom 8 0) = .error (.illegalState cause) := by
  intro hall
  have hok : ((unsorted.withOneId (supplyFrom 1 0)).person (supplyFrom 8 0)).isOk = true := by
    cbv
  have hshared : ¬ (unsorted.withOneId (supplyFrom 1 0)).DistinctIds := by
    intro hdistinct
    have hnodup := hdistinct.activities
    revert hnodup
    decide
  obtain ⟨cause, hread⟩ := hall _ hshared
  rw [hread] at hok
  cases hok

end Record

end Fortnight
