import Fortnight.Proofs.Timeline.Filling

/-!
# Activities that are added and deleted

An activity is added to the day of its date, and deleted where it is first
found. Nothing else changes. Every activity of a timeline keeps its identifier,
so that identifiers which are all different stay so, and an activity that can be
deleted is found wherever it is.
-/

namespace Fortnight

theorem Activity.run_delete_eq_ok_iff {a a' : Activity} {u : Unit} :
    delete.run a = (.ok u, a') ↔ a.state = .unlocked ∧ { a with state := .deleted } = a' := by
  by_cases hstate : a.state = .unlocked <;>
    simp [Step.run, delete, change, ActivityChange.source, ActivityChange.target, hstate]

namespace Day

variable {d d' : Day} {id : Id}

theorem run_add_eq_ok_iff {a : Activity} {u : Unit} :
    (add a).run d = (.ok u, d') ↔
      d.conflict? a = none ∧ { d with activities := d.activities ++ [a] } = d' := by
  simp only [Step.run, add]
  cases d.conflict? a <;> simp

theorem run_delete_eq_ok_iff {found : Bool} :
    (delete id).run d = (.ok found, d') ↔
      ∃ result activities, (Step.onFirst (fun a => a.id = id) Activity.delete).run d.activities =
          (.ok result, activities) ∧ result.isSome = found ∧ { d with activities } = d' := by
  rw [delete, onActivities, Step.run_within_eq_ok_iff]
  simp only [Step.run_map_eq_ok_iff]
  constructor
  · rintro ⟨activities, ⟨result, hrun, rfl⟩, rfl⟩
    exact ⟨result, activities, hrun, rfl, rfl⟩
  · rintro ⟨result, activities, hrun, rfl, rfl⟩
    exact ⟨activities, ⟨result, hrun, rfl⟩, rfl⟩

theorem run_delete_eq_ok_true_iff :
    (delete id).run d = (.ok true, d') ↔
      ∃ before a after, d.activities = before ++ a :: after ∧ (∀ b ∈ before, b.id ≠ id) ∧
        a.id = id ∧ a.state = .unlocked ∧
        { d with activities := before ++ { a with state := .deleted } :: after } = d' := by
  rw [run_delete_eq_ok_iff]
  constructor
  · rintro ⟨result, activities, hrun, hfound, rfl⟩
    obtain ⟨u, rfl⟩ := Option.isSome_iff_exists.mp hfound
    obtain ⟨before, a, a', after, hactivities, hbefore, hid, hdelete, rfl⟩ :=
      Step.run_onFirst_eq_ok_some_iff.mp hrun
    obtain ⟨hstate, rfl⟩ := Activity.run_delete_eq_ok_iff.mp hdelete
    exact ⟨before, a, after, hactivities, by simpa using hbefore, by simpa using hid, hstate, rfl⟩
  · rintro ⟨before, a, after, hactivities, hbefore, hid, hstate, rfl⟩
    refine ⟨some (), _, ?_, rfl, rfl⟩
    exact Step.run_onFirst_eq_ok_some_iff.mpr
      ⟨before, a, _, after, hactivities, by simpa using hbefore, by simpa using hid,
        Activity.run_delete_eq_ok_iff.mpr ⟨hstate, rfl⟩, rfl⟩

theorem run_delete_eq_ok_false_iff :
    (delete id).run d = (.ok false, d') ↔ (∀ a ∈ d.activities, a.id ≠ id) ∧ d = d' := by
  rw [run_delete_eq_ok_iff]
  constructor
  · rintro ⟨result, activities, hrun, hfound, rfl⟩
    rw [Option.isSome_eq_false_iff, Option.isNone_iff_eq_none] at hfound
    subst hfound
    obtain ⟨hnone, rfl⟩ := Step.run_onFirst_eq_ok_none_iff.mp hrun
    exact ⟨by simpa using hnone, rfl⟩
  · rintro ⟨hnone, rfl⟩
    refine ⟨none, d.activities, ?_, rfl, rfl⟩
    exact Step.run_onFirst_eq_ok_none_iff.mpr ⟨by simpa using hnone, rfl⟩

end Day

namespace Timeline

variable {t t' : Timeline} {α : Type}

def activities (t : Timeline) : List Activity :=
  t.days.flatMap Day.activities

def ids (t : Timeline) : List Id :=
  t.activities.map Activity.id

theorem run_onDay_eq_ok_iff {f : Step Day α} {date : Date} {a : α} :
    (onDay date f).run t = (.ok a, t') ↔
      ∃ before d d' after, t.days = before ++ d :: after ∧ (∀ e ∈ before, e.date ≠ date) ∧
        d.date = date ∧ f.run d = (.ok a, d') ∧ ⟨before ++ d' :: after⟩ = t' := by
  rw [onDay, onDays, Step.run_within_bind_eq_ok_iff]
  constructor
  · rintro ⟨found, days, hfound, h⟩
    cases found with
    | none => cases h
    | some b =>
      cases h
      obtain ⟨before, d, d', after, hdays, hbefore, hdate, hf, rfl⟩ :=
        Step.run_onFirst_eq_ok_some_iff.mp hfound
      exact ⟨before, d, d', after, hdays, by simpa using hbefore, by simpa using hdate, hf, rfl⟩
  · rintro ⟨before, d, d', after, hdays, hbefore, hdate, hf, rfl⟩
    refine ⟨some a, before ++ d' :: after, ?_, rfl⟩
    exact Step.run_onFirst_eq_ok_some_iff.mpr
      ⟨before, d, d', after, hdays, by simpa using hbefore, by simpa using hdate, hf, rfl⟩

/-- An activity is added exactly where the day of its date takes it. -/
theorem exists_run_add_iff {a : Activity} :
    (∃ t', (add a).run t = (.ok (), t')) ↔
      ∃ d, t.day? a.date = some d ∧ d.conflict? a = none := by
  simp only [add, run_onDay_eq_ok_iff, Day.run_add_eq_ok_iff, day?,
    List.find?_eq_some_iff_append]
  constructor
  · rintro ⟨_, before, d, _, after, hdays, hbefore, hdate, ⟨hnone, rfl⟩, rfl⟩
    exact ⟨d, ⟨by simpa using hdate, before, after, hdays, by simpa using hbefore⟩, hnone⟩
  · rintro ⟨d, ⟨hdate, before, after, hdays, hbefore⟩, hnone⟩
    exact ⟨_, before, d, _, after, hdays, by simpa using hbefore, by simpa using hdate,
      ⟨hnone, rfl⟩, rfl⟩

theorem ids_of_add {a : Activity} {u : Unit} (h : (add a).run t = (.ok u, t')) :
    t'.ids.Perm (a.id :: t.ids) := by
  obtain ⟨before, d, _, after, hdays, _, _, hadd, rfl⟩ := run_onDay_eq_ok_iff.mp h
  obtain ⟨_, rfl⟩ := Day.run_add_eq_ok_iff.mp hadd
  simp only [ids, activities, hdays, List.flatMap_append, List.flatMap_cons, List.map_append,
    List.map_cons, List.append_assoc, List.cons_append, List.nil_append]
  rw [← List.append_assoc, ← List.append_assoc]
  exact List.perm_middle

theorem run_deleteFrom_eq_ok_iff {id : Id} {days days' : List Day} {u : Unit} :
    (deleteFrom id).run days = (.ok u, days') ↔
      ∃ before d d' after, days = before ++ d :: after ∧
        (∀ e ∈ before, ∀ a ∈ e.activities, a.id ≠ id) ∧
        (Day.delete id).run d = (.ok true, d') ∧ before ++ d' :: after = days' := by
  constructor
  · intro h
    induction days generalizing days' with
    | nil => cases h
    | cons d rest ih =>
      simp only [Step.run, deleteFrom] at h ih
      split at h
      · cases h
      · rename_i d' hdelete
        cases h
        exact ⟨[], d, d', rest, rfl, by simp, hdelete, rfl⟩
      · rename_i d' hdelete
        obtain ⟨hnone, rfl⟩ := Day.run_delete_eq_ok_false_iff.mp hdelete
        obtain ⟨hrest, rfl⟩ := Prod.mk.inj h
        obtain ⟨before, e, e', after, rfl, hbefore, hdelete', hsame⟩ := ih (Prod.ext hrest rfl)
        refine ⟨d :: before, e, e', after, rfl, List.forall_mem_cons.mpr ⟨hnone, hbefore⟩,
          hdelete', ?_⟩
        rw [List.cons_append, hsame]
  · rintro ⟨before, d, d', after, rfl, hbefore, hdelete, rfl⟩
    induction before with
    | nil =>
      simp only [Step.run] at hdelete ⊢
      rw [List.nil_append, deleteFrom, hdelete]
      rfl
    | cons e before ih =>
      obtain ⟨hnone, hbefore⟩ := List.forall_mem_cons.mp hbefore
      have hskip := Day.run_delete_eq_ok_false_iff.mpr ⟨hnone, rfl⟩
      have hrest := ih hbefore
      simp only [Step.run] at hskip hrest ⊢
      rw [List.cons_append, deleteFrom, hskip]
      simp only [hrest]
      rfl

theorem run_delete_eq_ok_iff {id : Id} {u : Unit} :
    (delete id).run t = (.ok u, t') ↔
      ∃ days, (deleteFrom id).run t.days = (.ok u, days) ∧ ⟨days⟩ = t' := by
  rw [delete, onDays, Step.run_within_eq_ok_iff]

/-- Where all identifiers are different, every unlocked activity can be deleted. -/
theorem exists_run_delete_iff {id : Id} (hnodup : t.ids.Nodup) :
    (∃ t', (delete id).run t = (.ok (), t')) ↔
      ∃ a ∈ t.activities, a.id = id ∧ a.state = .unlocked := by
  simp only [run_delete_eq_ok_iff, run_deleteFrom_eq_ok_iff, Day.run_delete_eq_ok_true_iff]
  constructor
  · rintro ⟨_, _, ⟨before, d, _, after, hdays, _, ⟨as, a, bs, has, _, hid, hstate, _⟩, _⟩, _⟩
    refine ⟨a, List.mem_flatMap.mpr ⟨d, ?_, ?_⟩, hid, hstate⟩
    · rw [hdays]
      exact List.mem_append_right _ List.mem_cons_self
    · rw [has]
      exact List.mem_append_right _ List.mem_cons_self
  · rintro ⟨a, ha, rfl, hstate⟩
    obtain ⟨d, hd, ha⟩ := List.mem_flatMap.mp ha
    obtain ⟨before, after, hdays⟩ := List.append_of_mem hd
    obtain ⟨as, bs, has⟩ := List.append_of_mem ha
    -- The identifiers before that of the activity are all different from it.
    have hids : t.ids = (before.flatMap Day.activities ++ as).map Activity.id ++
        a.id :: (bs ++ after.flatMap Day.activities).map Activity.id := by
      simp [ids, activities, hdays, has]
    rw [hids, List.nodup_append] at hnodup
    have hne : ∀ b ∈ before.flatMap Day.activities ++ as, b.id ≠ a.id := fun b hb =>
      hnodup.2.2 b.id (List.mem_map_of_mem hb) a.id List.mem_cons_self
    refine ⟨_, _, ⟨before, d, _, after, hdays, ?_, ⟨as, a, bs, has, ?_, rfl, hstate, rfl⟩, rfl⟩,
      rfl⟩
    · intro e he b hb
      exact hne b (List.mem_append_left _ (List.mem_flatMap.mpr ⟨e, he, hb⟩))
    · intro b hb
      exact hne b (List.mem_append_right _ hb)

theorem ids_of_delete {id : Id} {u : Unit} (h : (delete id).run t = (.ok u, t')) :
    t'.ids = t.ids := by
  obtain ⟨_, hrun, rfl⟩ := run_delete_eq_ok_iff.mp h
  obtain ⟨before, d, _, after, hdays, _, hdelete, rfl⟩ := run_deleteFrom_eq_ok_iff.mp hrun
  obtain ⟨as, a, bs, has, _, _, _, rfl⟩ := Day.run_delete_eq_ok_true_iff.mp hdelete
  simp [ids, activities, hdays, has]

theorem ids_map {f : Day → Day}
    (h : ∀ d, (f d).activities.map Activity.id = d.activities.map Activity.id) :
    ids ⟨t.days.map f⟩ = t.ids := by
  simp only [ids, activities, List.map_flatMap, List.flatMap_map, h]

theorem ids_locked : ids ⟨t.days.map Day.locked⟩ = t.ids :=
  ids_map fun d => by simp [Day.locked, Day.withChanged]

theorem ids_unlocked : ids ⟨t.days.map Day.unlocked⟩ = t.ids :=
  ids_map fun d => by simp [Day.unlocked, Day.withChanged]

/-- How many activities of the timeline count. -/
def liveCount (t : Timeline) : ℕ :=
  (t.days.flatMap Day.liveActivities).length

theorem ids_copyForCorrection (fresh : ℕ → Id) (t : Timeline) :
    (t.copyForCorrection fresh).ids = (List.range t.liveCount).map fresh := by
  unfold ids activities copyForCorrection liveCount
  dsimp only
  generalize t.days = days
  induction days generalizing fresh with
  | nil => rfl
  | cons d rest ih =>
    have hday : (d.copyForCorrection fresh).activities.map Activity.id =
        (List.range d.liveActivities.length).map fresh := by
      apply List.ext_getElem
      · simp [Day.copyForCorrection]
      · intro i _ _
        simp [Day.copyForCorrection, Activity.create]
    rw [copyDays, List.flatMap_cons, List.map_append, hday, ih, List.flatMap_cons,
      List.length_append, List.range_add, List.map_append, List.map_map]
    rfl

theorem liveCount_le (h : ∀ d ∈ t.days, d.liveActivities.length ≤ 1) :
    t.liveCount ≤ t.days.length := by
  unfold liveCount
  generalize t.days = days at h
  induction days with
  | nil => exact Nat.le_refl _
  | cons d rest ih =>
    obtain ⟨hd, hrest⟩ := List.forall_mem_cons.mp h
    have hle := ih hrest
    rw [List.flatMap_cons, List.length_append, List.length_cons]
    omega

end Timeline

end Fortnight
