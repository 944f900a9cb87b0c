import Fortnight.Proofs.Person.Periods
import Fortnight.Proofs.Timeline.Reporting

/-!
# Fresh identifiers

An event takes the first identifiers of a supply, one for a period that it opens
or starts to correct, and one for each activity that it adds or copies. As long
as they differ from each other and from those that are in use, the activities of
a period have different identifiers.
-/

namespace Fortnight

theorem Period.InStep.nodup_ids_correctionOf {p : Period} (h : p.InStep) {fresh : ℕ → Id}
    (hfresh : ((List.range (periodLength + 1)).map fresh).Nodup) :
    (p.correctionOf fresh).timeline.ids.Nodup := by
  have hcount : p.timeline.liveCount ≤ periodLength := by
    have hlength : p.timeline.days.length = periodLength := by
      simpa [Timeline.dates] using h.dates.length_eq
    have hle := Timeline.liveCount_le fun d hd => (h.sound hd).single
    omega
  have hids : (p.correctionOf fresh).timeline.ids =
      (List.range p.timeline.liveCount).map fun n => fresh (n + 1) :=
    Timeline.ids_copyForCorrection _ _
  have htail : ((List.range p.timeline.liveCount).map fun n => fresh (n + 1)).Sublist
      ((List.range (p.timeline.liveCount + 1)).map fresh) := by
    rw [List.range_succ_eq_map, List.map_cons, List.map_map]
    exact List.sublist_cons_self _ _
  rw [hids]
  apply hfresh.sublist (htail.trans _)
  exact (List.range_sublist.mpr (Nat.succ_le_succ hcount)).map fresh

namespace PeriodTable

variable {t t' : PeriodTable} {p q : Period} {id : Id} {ns : List Notification}

/-- The identifiers of the periods and of their activities. -/
def ids (t : PeriodTable) : List Id :=
  t.toList.flatMap fun q => q.id :: q.timeline.ids

theorem mem_ids_of_mem (hq : q ∈ t) : q.id ∈ t.ids :=
  List.mem_flatMap.mpr ⟨q, hq, List.mem_cons_self⟩

theorem mem_ids_of_mem_timeline (hq : q ∈ t) (hid : id ∈ q.timeline.ids) : id ∈ t.ids :=
  List.mem_flatMap.mpr ⟨q, hq, List.mem_cons_of_mem _ hid⟩

/-- The activities of each period have different identifiers. -/
def Identified (t : PeriodTable) : Prop :=
  ∀ q ∈ t, q.timeline.ids.Nodup

theorem NewRoot.ids_eq_nil {start since : Date} (h : t.NewRoot start since p) :
    p.timeline.ids = [] := by
  obtain ⟨_, _, _, _, timeline, _, htimeline, rfl⟩ := h.exists_eq
  refine List.map_eq_nil_iff.mpr (List.flatMap_eq_nil_iff.mpr ?_)
  intro d' hd'
  obtain ⟨d, hd, rfl⟩ := List.mem_map.mp hd'
  have hnil : d.activities = [] := by
    rw [Timeline.openingDay_of_starting htimeline d hd]
    exact Timeline.openingDay_activities d.date
  split <;> exact hnil

namespace Identified

theorem insert (h : Identified t) (hp : p.timeline.ids.Nodup) : Identified (Register.insert t p) :=
  Register.forall_mem_insert h hp

theorem openFirst {date : Date} {rule : FinalizeRule} (h : Identified t)
    (hrun : (openFirst id date rule).run t = (.ok ns, t')) : Identified t' := by
  obtain ⟨_, _, ⟨_, rfl, _⟩ | ⟨_, p, hroot, rfl, _⟩⟩ := openFirst_cases hrun
  · exact h
  · exact h.insert (by simp [hroot.ids_eq_nil])

theorem openNext {since date : Date} {rule : FinalizeRule} (h : Identified t)
    (hrun : (openNext id since date rule).run t = (.ok ns, t')) : Identified t' := by
  obtain ⟨_, _, ⟨_, rfl, _⟩ | ⟨_, p, hroot, rfl, _⟩⟩ := openNext_cases hrun
  · exact h
  · exact h.insert (by simp [hroot.ids_eq_nil])

theorem submissions {caseId : Option String} (h : Identified t)
    (hsubmissions : Submissions caseId t ns t') : Identified t' := by
  induction hsubmissions with
  | nil => exact h
  | @cons _ _ _ p _ _ _ htip hsubmit _ ih =>
    obtain ⟨_, rfl, _⟩ := Period.run_submitManually_eq_ok_iff.mp hsubmit
    exact ih (h.insert (h p (tip_mem htip)))

theorem withCorrection {c corrected tip : Period} (h : Identified t)
    (hc : c.timeline.ids.Nodup) (hcorrected : corrected ∈ t) (htip : tip ∈ t) :
    Identified (t.withCorrection c corrected tip) :=
  have hlinked : Identified ((t.insert c).insert (corrected.linkedTo c.id)) :=
    (h.insert hc).insert (h corrected hcorrected)
  hlinked.insert (h tip htip)

end Identified

end PeriodTable

/-- As many identifiers as an event may take: one for a period, and one for an
activity on each of its days. -/
def Call.supply (c : Call) : List Id :=
  (List.range (periodLength + 1)).map c.fresh

/-- The identifiers that the call may take differ from each other and from those
of the person. -/
structure Call.IsFresh (c : Call) (p : Person) : Prop where
  nodup : c.supply.Nodup
  unused : ∀ id ∈ c.supply, id ∉ p.periods.ids

instance (c : Call) (p : Person) : Decidable (c.IsFresh p) :=
  decidable_of_iff (c.supply.Nodup ∧ ∀ id ∈ c.supply, id ∉ p.periods.ids)
    ⟨fun h => ⟨h.1, h.2⟩, fun h => ⟨h.nodup, h.unused⟩⟩

namespace Person

variable {p p' : Person} {c : Call}

/-- Reachable by calls with fresh identifiers. -/
inductive FreshlyReachable : Person → Prop
  | new (id : Id) (ident : String) : FreshlyReachable (new id ident)
  | after {p : Person} (c : Call) : FreshlyReachable p → c.IsFresh p →
      FreshlyReachable (p.after c)

/-- Holds when each call has fresh identifiers at the time when it comes. -/
def freshRun (p : Person) : List Call → Bool
  | [] => true
  | c :: rest => decide (c.IsFresh p) && (p.after c).freshRun rest

theorem FreshlyReachable.run (h : FreshlyReachable p) {calls : List Call}
    (hfresh : p.freshRun calls) : FreshlyReachable (p.run calls) := by
  induction calls generalizing p with
  | nil => exact h
  | cons c rest ih =>
    rw [freshRun, Bool.and_eq_true, decide_eq_true_eq] at hfresh
    exact ih (h.after c hfresh.1) hfresh.2

theorem FreshlyReachable.reachable (h : FreshlyReachable p) : Reachable p := by
  induction h with
  | new id ident => exact .new id ident
  | after c _ _ ih => exact ih.after c

theorem Decided.identified {id : Id} {rule : FinalizeRule} {moment : Instant}
    {effects : List Effect} {ns : List Notification}
    (h : Decided id rule moment p effects ns p') (hp : p.periods.Identified) :
    p'.periods.Identified := by
  cases h with
  | ignored | requested | noted => exact hp
  | started hopen => exact hp.openFirst hopen
  | continued _ hopen => exact hp.openNext hopen
  | submitted hsubmit => exact hp.submissions (PeriodTable.submissions_of_submitDue hsubmit)

/-- Of all that is done to a tip, only an activity that is added brings an identifier. -/
theorem Edited.nodup_ids {fresh : ℕ → Id} {tip tip' : Period} {event : Event}
    {ns : List Notification} (h : Edited fresh p tip event ns tip')
    (htip : tip.timeline.ids.Nodup) (hnew : fresh 0 ∉ tip.timeline.ids) :
    tip'.timeline.ids.Nodup := by
  cases h with
  | added hadd =>
    obtain ⟨_, timeline, htimeline, rfl⟩ := Period.run_add_eq_ok_iff.mp hadd
    rw [(Timeline.ids_of_add htimeline).nodup_iff]
    exact List.nodup_cons.mpr ⟨hnew, htip⟩
  | deleted hdelete =>
    obtain ⟨_, timeline, htimeline, rfl⟩ := Period.run_delete_eq_ok_iff.mp hdelete
    rwa [Timeline.ids_of_delete htimeline]
  | approved _ _ happrove =>
    obtain ⟨_, _, _, timeline, _, hlock, rfl, _⟩ := Period.run_approve_eq_ok_iff.mp happrove
    obtain ⟨_, rfl⟩ := Timeline.run_lock_eq_ok_iff.mp hlock
    rwa [Timeline.ids_locked]
  | unapproved _ hunapprove =>
    obtain ⟨_, _, timeline, _, hunlock, rfl, _⟩ := Period.run_unapprove_eq_ok_iff.mp hunapprove
    obtain ⟨_, rfl⟩ := Timeline.run_unlock_eq_ok_iff.mp hunlock
    rwa [Timeline.ids_unlocked]
  | submitted _ hsubmit =>
    obtain ⟨_, rfl, _⟩ := Period.run_submitManually_eq_ok_iff.mp hsubmit
    exact htip

/-- Whatever was called with fresh identifiers, the activities of each period have
different ones. -/
theorem FreshlyReachable.identified (h : FreshlyReachable p) : p.periods.Identified := by
  induction h with
  | new => exact fun q hq => absurd hq (Register.not_mem_empty q)
  | @after p c hp hfresh ih =>
    obtain ⟨ns, hok, _⟩ | ⟨_, _, hsame⟩ := p.answer_cases c
    · have happlied := applied_of_answer hok
      generalize p.after c = p' at happlied ⊢
      obtain ⟨fresh, rule, event⟩ := c
      cases happlied with
      | decided _ _ hdecided => exact hdecided.identified ih
      | rejected => exact ih
      | edited _ htip hedited =>
        have hmem := PeriodTable.tip_mem htip
        have hnew : fresh 0 ∉ _ := hfresh.unused (fresh 0) (List.mem_map_of_mem (by decide))
        refine ih.insert (hedited.nodup_ids (ih _ hmem) fun hused => hnew ?_)
        exact PeriodTable.mem_ids_of_mem_timeline hmem hused
      | corrected hcorrect =>
        obtain ⟨tip, corrected, htip, hcorrectable, _, rfl⟩ :=
          PeriodTable.withCorrection_of_correct hcorrect
        have hmem := PeriodTable.tip_mem htip
        have hcorrected := PeriodTable.mem_of_correctable hmem hcorrectable
        have hinStep := inStep_of_reachable hp.reachable corrected hcorrected
        have hcopy := hinStep.nodup_ids_correctionOf hfresh.nodup
        exact ih.withCorrection hcopy hcorrected hmem
    · rw [hsame]
      exact ih

end Person

end Fortnight
