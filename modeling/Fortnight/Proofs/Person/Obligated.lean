import Mathlib.Data.List.DropRight
import Fortnight.Proofs.Period.Obstacle
import Fortnight.Proofs.Person.Loading
import Fortnight.Proofs.Person.Opening

/-!
# Since when a person has been obligated

The obligations up to an instant end with a run of snapshots none of which is the
absence of one. The date on which a person became obligated is the start date of
the first snapshot in this run, and there is such a date exactly if an obligation
is in effect. So where a fortnight turns under an obligation, the date is there.
A decision that is granted under an obligation is put into a run or takes the
place of one of its snapshots, and all runs start when they did before.
-/

namespace Fortnight

namespace History

variable {h : History Obligation} {moment t : Instant} {o : Obligation}

theorem filter_put {P : Instant × Obligation → Bool} (hP : ∀ o, ¬ P (moment, o))
    (h : History Obligation) (o : Obligation) :
    (h.put moment o).toList.filter P = h.toList.filter P := by
  apply Register.toList_eq_of_mem_iff ((h.put moment o).ascending.filter _) (h.ascending.filter _)
  intro snapshot
  rw [List.mem_filter, List.mem_filter, ← Register.mem_def, ← Register.mem_def, put,
    Register.mem_insert]
  constructor
  · rintro ⟨rfl | ⟨hs, _⟩, hpass⟩
    · exact absurd hpass (hP o)
    · exact ⟨hs, hpass⟩
  · rintro ⟨hs, hpass⟩
    refine ⟨Or.inr ⟨hs, ?_⟩, hpass⟩
    rintro rfl
    exact hP _ hpass

theorem upTo_put_of_lt (hlt : t < moment) (h : History Obligation) (o : Obligation) :
    (h.put moment o).upTo t = h.upTo t := by
  rw [upTo_eq_filter, upTo_eq_filter]
  have hnot : ¬ moment ≤ t := Int.not_le.mpr hlt
  exact filter_put (fun _ => by simpa using hnot) h o

/-- The snapshots that begin to count after one instant and up to another. -/
def between (h : History Obligation) (moment t : Instant) : List (Instant × Obligation) :=
  h.toList.filter fun snapshot => moment < snapshot.1 ∧ snapshot.1 ≤ t

theorem between_put (h : History Obligation) (moment t : Instant) (o : Obligation) :
    (h.put moment o).between moment t = h.between moment t := by
  have hnot : ¬ moment < moment := Int.lt_irrefl _
  exact filter_put (fun _ => by simp [hnot]) h o

theorem upTo_append_between (hle : moment ≤ t) (h : History Obligation) :
    h.upTo t = h.upTo moment ++ h.between moment t := by
  rw [Instant.le_iff] at hle
  have hboth : (h.upTo moment ++ h.between moment t).Pairwise
      fun b c => rank b.1 < rank c.1 := by
    refine List.pairwise_append.mpr ⟨?_, h.ascending.filter _, ?_⟩
    · rw [upTo_eq_filter]
      exact h.ascending.filter _
    · intro b hb c hc
      have hbefore := (mem_upTo.mp hb).2
      have hafter := (List.mem_filter.mp hc).2
      rw [decide_eq_true_eq] at hafter
      exact Int.lt_of_le_of_lt hbefore hafter.1
  have hall : (h.upTo t).Pairwise fun b c => rank b.1 < rank c.1 := by
    rw [upTo_eq_filter]
    exact h.ascending.filter _
  apply Register.toList_eq_of_mem_iff hall hboth
  intro snapshot
  simp only [List.mem_append, mem_upTo, between, List.mem_filter, Register.mem_def,
    decide_eq_true_eq, Instant.le_iff, Instant.lt_iff, ← and_or_left]
  refine and_congr_right fun _ => ?_
  omega

theorem Anchored.foldl_put_of_list (hanchored : Anchored h) (l : List Obligation) :
    Anchored (l.foldl (fun h o => h.put o.effectiveFrom o) h) := by
  induction l generalizing h with
  | nil => exact hanchored
  | cons o rest ih => exact ih (hanchored.put o)

end History

namespace Person

variable {p : Person} {c : Call} {past run run' : List (Instant × Obligation)}
  {moment t : Instant} {o : Obligation} {date : Date} {ns : List Notification} {e : Error}

/-- A person who was new once, or was read from a record, and whatever came then. -/
inductive Known : Person → Prop
  | new (id : Id) (ident : String) : Known (new id ident)
  | read {r : Record} {id : Id} {p : Person} : r.person id = .ok p → Known p
  | after {p : Person} (c : Call) : Known p → Known (p.after c)

theorem Reachable.known (h : Reachable p) : Known p := by
  induction h with
  | new id ident => exact .new id ident
  | after c _ ih => exact ih.after c

theorem Known.anchored (h : Known p) : History.Anchored p.obligations := by
  induction h with
  | new id ident => exact .new id ident
  | read hread =>
    obtain ⟨obligations, _, _, rfl⟩ := Record.person_eq_ok_iff.mp hread
    exact (History.Anchored.new _ _).foldl_put_of_list obligations
  | @after p c _ ih => exact (p.evolves_after c).history_keep (fun _ o h => h.put o) ih

section Runs

/-- Some snapshots end with these, each of which is an obligation, and with no more such. -/
structure EndsInRun (past run : List (Instant × Obligation)) : Prop where
  suffix : run <:+ past
  present : ∀ snapshot ∈ run, snapshot.2.kind ≠ .absent
  longest : ∀ other, other <:+ past → (∀ snapshot ∈ other, snapshot.2.kind ≠ .absent) →
    other.length ≤ run.length

theorem EndsInRun.unique (h : EndsInRun past run) (h' : EndsInRun past run') : run = run' := by
  have hle := h'.longest run h.suffix h.present
  have hge := h.longest run' h'.suffix h'.present
  exact (List.suffix_of_suffix_length_le h.suffix h'.suffix hle).eq_of_length
    (Nat.le_antisymm hle hge)

/-- The snapshots behind the last absence of an obligation. -/
def lastRun (past : List (Instant × Obligation)) : List (Instant × Obligation) :=
  past.rtakeWhile fun snapshot => snapshot.2.kind ≠ .absent

theorem lastRun_concat_of_absent (past : List (Instant × Obligation))
    (h : o.kind = .absent) : lastRun (past ++ [(moment, o)]) = [] :=
  List.rtakeWhile_concat_neg _ _ _ (by simpa using h)

theorem lastRun_concat_of_present (past : List (Instant × Obligation))
    (h : o.kind ≠ .absent) : lastRun (past ++ [(moment, o)]) = lastRun past ++ [(moment, o)] :=
  List.rtakeWhile_concat_pos _ _ _ (by simpa using h)

theorem length_le_lastRun {other : List (Instant × Obligation)} (hsuffix : other <:+ past)
    (hpresent : ∀ snapshot ∈ other, snapshot.2.kind ≠ .absent) :
    other.length ≤ (lastRun past).length := by
  induction past using List.reverseRecOn generalizing other with
  | nil => rw [List.suffix_nil.mp hsuffix, List.length_nil]; exact Nat.zero_le _
  | append_singleton past snapshot ih =>
    rcases List.suffix_concat_iff.mp hsuffix with rfl | ⟨other, rfl, hother⟩
    · exact Nat.zero_le _
    · have hlast : snapshot.2.kind ≠ .absent := hpresent snapshot (by simp)
      have hle := ih hother fun s hs => hpresent s (List.mem_append_left _ hs)
      rw [lastRun_concat_of_present past hlast, List.length_append, List.length_append]
      exact Nat.add_le_add_right hle _

theorem endsInRun_lastRun (past : List (Instant × Obligation)) : EndsInRun past (lastRun past) where
  suffix := List.rtakeWhile_suffix _ _
  present snapshot hs := by
    simpa using List.mem_rtakeWhile_imp hs
  longest _ := length_le_lastRun

theorem runOf_eq (past : List (Instant × Obligation)) :
    runOf past = (lastRun past).head?.map fun first => first.2.startDate := by
  induction past using List.reverseRecOn with
  | nil => rfl
  | append_singleton past snapshot ih =>
    rw [runOf_concat]
    by_cases hkind : snapshot.2.kind = .absent
    · rw [continueRun_of_absent hkind, lastRun_concat_of_absent past hkind]
      rfl
    · rw [continueRun_of_present hkind, lastRun_concat_of_present past hkind, ih]
      cases lastRun past with
      | nil => rfl
      | cons => rfl

theorem runOf_eq_some_iff :
    runOf past = some date ↔
      ∃ run, EndsInRun past run ∧ run.head?.map (fun first => first.2.startDate) = some date := by
  rw [runOf_eq]
  constructor
  · intro h
    exact ⟨_, endsInRun_lastRun past, h⟩
  · rintro ⟨run, hrun, h⟩
    rw [(endsInRun_lastRun past).unique hrun, h]

theorem exists_runOf (hlast : past.getLast? = some (moment, o)) (h : o.kind ≠ .absent) :
    ∃ date, runOf past = some date := by
  obtain ⟨before, rfl⟩ := List.getLast?_eq_some_iff.mp hlast
  rw [runOf_concat, continueRun_of_present h]
  exact ⟨_, rfl⟩

end Runs

section Since

theorem exists_obligatedSince_iff (ho : p.obligationAt moment = .ok o) :
    (∃ date, p.obligatedSince moment = .ok date) ↔ o.kind ≠ .absent := by
  obtain ⟨_, hlast⟩ := History.asOf_eq_ok_iff.mp ho
  simp only [obligatedSince_eq_ok_iff]
  constructor
  · rintro ⟨date, hdate⟩ habsent
    rw [runOf_of_absent hlast habsent] at hdate
    cases hdate
  · intro hpresent
    exact exists_runOf hlast hpresent

theorem Known.obligatedSince_eq_ok_iff_endsInRun (h : Known p) :
    p.obligatedSince moment = .ok date ↔
      ∃ o, p.obligationAt moment = .ok o ∧ o.kind ≠ .absent ∧
        ∃ run, EndsInRun (p.obligations.upTo moment) run ∧
          run.head?.map (fun first => first.2.startDate) = some date := by
  obtain ⟨o, ho⟩ := h.anchored.exists_asOf moment
  rw [obligatedSince_eq_ok_iff, ← runOf_eq_some_iff]
  constructor
  · intro hrun
    have hpresent := (exists_obligatedSince_iff ho).mp ⟨date, obligatedSince_eq_ok_iff.mpr hrun⟩
    exact ⟨o, ho, hpresent, hrun⟩
  · rintro ⟨_, _, _, hrun⟩
    exact hrun

theorem Known.obligatedSince_eq_error_iff (h : Known p) :
    (∃ e, p.obligatedSince moment = .error e) ↔
      ∃ o, p.obligationAt moment = .ok o ∧ o.kind = .absent := by
  obtain ⟨o, ho⟩ := h.anchored.exists_asOf moment
  have hdate := exists_obligatedSince_iff ho
  constructor
  · rintro ⟨e, he⟩
    refine ⟨o, ho, ?_⟩
    by_contra hpresent
    obtain ⟨date, hok⟩ := hdate.mpr hpresent
    rw [he] at hok
    cases hok
  · rintro ⟨o', ho', habsent⟩
    cases Except.ok.inj (ho.symm.trans ho')
    cases hsince : p.obligatedSince moment with
    | error e => exact ⟨e, rfl⟩
    | ok date => exact absurd habsent (hdate.mp ⟨date, hsince⟩)

end Since

/-- A fortnight that turns is never turned down for want of an obligation, but only
because a date is not supported or an identifier is taken. -/
theorem Known.obstacle_of_newCycleStarted (h : Known p) (hc : c.event = .newCycleStarted date)
    (herror : p.answer c = .error e) :
    e.IsOutOfRange ∨ e = .illegalState (.periodExists (c.fresh 1)) := by
  rw [answer, handle, Step.run_orNothing_fst, hc] at herror
  obtain ⟨o, ho⟩ := h.anchored.exists_asOf date.startOfDay
  rcases Step.run_bind_eq_error herror with hlook | ⟨o', _, hlook, herror⟩
  · change p.obligationAt date.startOfDay = .error e at hlook
    rw [obligationAt, ho] at hlook
    cases hlook
  obtain ⟨ho', rfl⟩ := Prod.mk.inj hlook
  cases Except.ok.inj (ho.symm.trans ho')
  by_cases hkind : o.kind = .absent
  · rw [Obligation.decide_of_absent hkind] at herror
    cases herror
  rw [Obligation.decide_of_present hkind] at herror
  rcases Step.run_bind_eq_error herror with hcarry | ⟨_, _, _, herror⟩
  · obtain ⟨since, hsince⟩ := (exists_obligatedSince_iff ho).mpr hkind
    rcases Step.run_bind_eq_error hcarry with hlook | ⟨_, _, hlook, hopen⟩
    · change p.obligatedSince date.startOfDay = .error e at hlook
      rw [hsince] at hlook
      cases hlook
    · obtain ⟨_, rfl⟩ := Prod.mk.inj hlook
      exact PeriodTable.obstacle_of_openNext hopen
  · cases herror

section Granted

variable {caseId : String}

theorem runOf_append (past later : List (Instant × Obligation)) :
    runOf (past ++ later) = (later.map Prod.snd).foldl continueRun (runOf past) := by
  simp [runOf]

/-- An obligation that is put where there is one already leaves the run as it was. -/
theorem runOf_upTo_put {h : History Obligation} (hanchored : History.Anchored h)
    {o' : Obligation} (ho : h.asOf o'.effectiveFrom = .ok o) (hpresent : o.kind ≠ .absent)
    (hpresent' : o'.kind ≠ .absent) :
    runOf ((h.put o'.effectiveFrom o').upTo o'.effectiveFrom) =
      runOf (h.upTo o'.effectiveFrom) := by
  obtain ⟨_, hlast⟩ := History.asOf_eq_ok_iff.mp ho
  rw [History.upTo_put, runOf_concat, continueRun_of_present hpresent']
  by_cases hkey : ∃ snapshot ∈ h, snapshot.1 = o'.effectiveFrom
  · -- It takes the place of a snapshot, which has the same start date.
    obtain ⟨⟨moment, replaced⟩, hmem, hmoment⟩ := hkey
    dsimp only at hmoment
    subst hmoment
    rw [History.upTo_of_mem hmem, List.getLast?_concat] at hlast
    cases hlast
    have hdate : o.startDate = o'.startDate :=
      congrArg Instant.date (hanchored.key_eq _ hmem).symm
    rw [History.upTo_of_mem hmem, runOf_concat, continueRun_of_present hpresent, hdate]
  · -- It continues the run that is there.
    push Not at hkey
    rw [History.upTo_eq_before hkey] at hlast ⊢
    obtain ⟨since, hsince⟩ := exists_runOf hlast hpresent
    rw [hsince]
    rfl

theorem obligatedSince_appendObligation (hanchored : History.Anchored p.obligations)
    (o' : Obligation) (ho : p.obligationAt o'.effectiveFrom = .ok o) (hpresent : o.kind ≠ .absent)
    (hpresent' : o'.kind ≠ .absent) (t : Instant) :
    (p.appendObligation o').obligatedSince t = p.obligatedSince t := by
  have hrun : runOf ((p.appendObligation o').obligations.upTo t) = runOf (p.obligations.upTo t) := by
    rw [appendObligation]
    by_cases hle : o'.effectiveFrom ≤ t
    · rw [History.upTo_append_between hle, History.upTo_append_between hle, runOf_append,
        runOf_append, History.between_put, runOf_upTo_put hanchored ho hpresent hpresent']
    · rw [History.upTo_put_of_lt (Int.not_le.mp hle)]
  unfold runOf History.upTo at hrun
  unfold obligatedSince
  dsimp only
  rw [hrun]

/-- A decision that is granted under an obligation is accepted, and no run starts
at another date because of it. -/
theorem Known.obligatedSince_of_granted (h : Known p)
    (hc : c.event = .decisionGranted caseId date)
    (ho : p.obligationAt date.startOfDay = .ok o) (hpresent : o.kind ≠ .absent) :
    p.answer c = .ok [] ∧ ∀ t, (p.after c).obligatedSince t = p.obligatedSince t := by
  have hmoment : c.event.decidedAt? = some date.startOfDay := by
    rw [hc]
    rfl
  have heffects : o.decide (c.fresh 0) c.event =
      [.append (Obligation.granted (c.fresh 0) caseId date)] := by
    rw [hc, Obligation.decide_of_present hpresent]
    rfl
  have happlied : Applied c.fresh c.rule p c.event []
      (p.appendObligation (Obligation.granted (c.fresh 0) caseId date)) :=
    .decided hmoment ho (heffects ▸ .noted _)
  obtain ⟨hok, hafter⟩ := answer_of_applied happlied
  refine ⟨hok, fun t => ?_⟩
  rw [hafter]
  exact obligatedSince_appendObligation h.anchored (.granted _ caseId date) ho hpresent
    (by simp [Obligation.granted]) t

end Granted

/-- There is a date since which a person has been obligated exactly if an obligation
is in effect, and it is the start date of the run that this obligation ends. A
fortnight that turns never fails for want of it, and no decision that is granted
under an obligation moves it. -/
theorem obligation_runs (h : Known p) :
    (∀ t date, p.obligatedSince t = .ok date ↔
      ∃ o, p.obligationAt t = .ok o ∧ o.kind ≠ .absent ∧
        ∃ run, EndsInRun (p.obligations.upTo t) run ∧
          run.head?.map (fun first => first.2.startDate) = some date) ∧
    (∀ t, (∃ e, p.obligatedSince t = .error e) ↔
      ∃ o, p.obligationAt t = .ok o ∧ o.kind = .absent) ∧
    (∀ c date e, c.event = .newCycleStarted date → p.answer c = .error e →
      e.IsOutOfRange ∨ e = .illegalState (.periodExists (c.fresh 1))) ∧
    ∀ c caseId date o, c.event = .decisionGranted caseId date →
      p.obligationAt date.startOfDay = .ok o → o.kind ≠ .absent →
      p.answer c = .ok [] ∧ ∀ t, (p.after c).obligatedSince t = p.obligatedSince t :=
  ⟨fun _ _ => h.obligatedSince_eq_ok_iff_endsInRun, fun _ => h.obligatedSince_eq_error_iff,
    fun _ _ _ hc herror => h.obstacle_of_newCycleStarted hc herror,
    fun _ _ _ _ hc ho hpresent => h.obligatedSince_of_granted hc ho hpresent⟩

/-- A decision of 17 January, which comes after the rejection of 7 February. -/
def grantedInBetween : Call :=
  ⟨supplyFrom 40, .standard, .decisionGranted "case-3" (january 17)⟩

set_option maxRecDepth 8000 in
theorem obligation_runs_rejected :
    Known rejected ∧
      rejected.obligatedSince (january 20).startOfDay = .ok (january 2) ∧
      (∃ run, EndsInRun (rejected.obligations.upTo (january 20).startOfDay) run ∧
        run.head?.map (fun first => first.2.startDate) = some (january 2)) ∧
      (∃ e, rejected.obligatedSince (february 7).startOfDay = .error e) ∧
      rejected.answer grantedInBetween = .ok [] ∧
      ∀ t, (rejected.after grantedInBetween).obligatedSince t = rejected.obligatedSince t := by
  have hknown := reachable_rejected.known
  obtain ⟨hdate, hnone, _, hgranted⟩ := obligation_runs hknown
  have hsince : rejected.obligatedSince (january 20).startOfDay = .ok (january 2) := by
    cbv
  have happlied : rejected.obligationAt (january 17).startOfDay =
      .ok ⟨supplyFrom 10 0, .applicationBased, (january 2).startOfDay⟩ := by
    cbv
  have hrejected : rejected.obligationAt (february 7).startOfDay =
      .ok ⟨supplyFrom 20 0, .absent, (february 7).startOfDay⟩ := by
    cbv
  obtain ⟨_, _, _, hrun⟩ := (hdate _ _).mp hsince
  exact ⟨hknown, hsince, hrun, (hnone _).mpr ⟨_, hrejected, rfl⟩,
    hgranted grantedInBetween _ _ _ rfl happlied (by simp)⟩

end Person

end Fortnight
