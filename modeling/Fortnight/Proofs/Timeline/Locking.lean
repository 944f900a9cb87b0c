import Fortnight.Proofs.Step
import Fortnight.Timeline

/-!
# Locking and unlocking

Locking goes from activity to activity and stops at the first one that is not in
the right state. Where it succeeds it has done the same to every live activity
and to every day, so that its outcome is that of a plain map: `Day.locked` on
each day of a timeline, and `Day.unlocked` for the way back.
-/

namespace Fortnight

namespace Activity

/-- The activity after a change of the live ones. -/
def changed (c : ActivityChange) (a : Activity) : Activity :=
  if a.isLive then { a with state := c.target } else a

theorem changed_of_isLive (c : ActivityChange) {a : Activity} (h : a.isLive) :
    a.changed c = { a with state := c.target } :=
  if_pos h

@[simp] theorem changed_id (c : ActivityChange) (a : Activity) : (a.changed c).id = a.id := by
  unfold changed
  split <;> rfl

@[simp] theorem changed_type (c : ActivityChange) (a : Activity) :
    (a.changed c).type = a.type := by
  unfold changed
  split <;> rfl

@[simp] theorem changed_hours (c : ActivityChange) (a : Activity) :
    (a.changed c).hours = a.hours := by
  unfold changed
  split <;> rfl

theorem isLive_changed {c : ActivityChange} (hc : c ≠ .delete) (a : Activity) :
    (a.changed c).isLive = a.isLive := by
  unfold changed
  split
  · rename_i hlive
    rw [hlive]
    cases c with
    | lock => rfl
    | unlock => rfl
    | delete => exact absurd rfl hc
  · rfl

/-- Unlocking undoes locking. -/
theorem changed_unlock_lock {a : Activity} (h : a.isLive → a.state = .unlocked) :
    (a.changed .lock).changed .unlock = a := by
  by_cases hlive : a.isLive
  · have hlocked : (a.changed .lock).isLive := by
      rw [isLive_changed (by decide), hlive]
    rw [changed_of_isLive .unlock hlocked, changed_of_isLive .lock hlive]
    change { a with state := ActivityState.unlocked } = a
    rw [← h hlive]
  · have hdead : ¬ (a.changed .lock).isLive := by
      rwa [isLive_changed (by decide)]
    rw [changed, if_neg hdead, changed, if_neg hlive]

theorem run_change_eq_ok_iff {c : ActivityChange} {a b : Activity} :
    (Step.onlyIf isLive (change c)).run a = (.ok (), b) ↔
      (a.isLive → a.state = c.source) ∧ b = a.changed c := by
  rw [Step.run_onlyIf]
  by_cases hlive : a.isLive
  · rw [if_pos hlive, changed_of_isLive c hlive]
    simp only [Step.run, change, hlive, forall_const]
    split
    · rename_i hsource
      simp [hsource, eq_comm]
    · rename_i hsource
      simp [hsource]
  · rw [if_neg hlive, changed, if_neg hlive]
    simp [hlive, eq_comm]

end Activity

namespace Day

/-- The day with every live activity changed. -/
def withChanged (c : ActivityChange) (d : Day) : Day :=
  { d with activities := d.activities.map (Activity.changed c) }

/-- The day as it is once it is locked. -/
def locked (d : Day) : Day :=
  { d.withChanged .lock with policy := .nothingAllowed }

/-- The day as it is once it is unlocked. -/
def unlocked (d : Day) : Day :=
  { d.withChanged .unlock with policy := if d.exempt then d.policy else .singleActivityAllowed }

theorem liveActivities_withChanged {c : ActivityChange} (hc : c ≠ .delete) (d : Day) :
    (d.withChanged c).liveActivities = d.liveActivities.map (Activity.changed c) := by
  have hlive : Activity.isLive ∘ Activity.changed c = Activity.isLive :=
    funext fun a => Activity.isLive_changed hc a
  rw [liveActivities, withChanged, List.filter_map, hlive]
  rfl

theorem state_of_mem_withChanged {c : ActivityChange} (hc : c ≠ .delete) {d : Day}
    {a : Activity} (ha : a ∈ (d.withChanged c).liveActivities) : a.state = c.target := by
  rw [liveActivities_withChanged hc] at ha
  obtain ⟨b, hb, rfl⟩ := List.mem_map.mp ha
  rw [Activity.changed_of_isLive c (List.mem_filter.mp hb).2]

/-- Changing the live activities succeeds exactly when all of them are in the
state from which the change leads. -/
theorem run_eachLive_eq_ok_iff {c : ActivityChange} {d d' : Day} :
    (eachLive (Activity.change c)).run d = (.ok (), d') ↔
      (∀ a ∈ d.liveActivities, a.state = c.source) ∧ d' = d.withChanged c := by
  have hready : (∀ a ∈ d.liveActivities, a.state = c.source) ↔
      ∀ a ∈ d.activities, a.isLive → a.state = c.source := by
    simp [liveActivities]
  rw [hready, eachLive, onActivities, Step.run_within_eq_ok_iff]
  constructor
  · rintro ⟨as, has, rfl⟩
    obtain ⟨hall, rfl⟩ := (Step.run_each_eq_ok_iff fun _ _ =>
      Activity.run_change_eq_ok_iff).mp has
    exact ⟨hall, rfl⟩
  · rintro ⟨hall, rfl⟩
    exact ⟨_, (Step.run_each_eq_ok_iff fun _ _ =>
      Activity.run_change_eq_ok_iff).mpr ⟨hall, rfl⟩, rfl⟩

theorem run_lock_eq_ok_iff {d d' : Day} :
    lock.run d = (.ok (), d') ↔
      (∀ a ∈ d.liveActivities, a.state = .unlocked) ∧ d' = d.locked := by
  rw [lock, Step.run_bind_eq_ok_iff]
  constructor
  · rintro ⟨_, e, he, hpolicy⟩
    obtain ⟨hall, rfl⟩ := run_eachLive_eq_ok_iff.mp he
    cases hpolicy
    exact ⟨hall, rfl⟩
  · rintro ⟨hall, rfl⟩
    exact ⟨(), _, run_eachLive_eq_ok_iff.mpr ⟨hall, rfl⟩, rfl⟩

theorem run_unlock_eq_ok_iff {d d' : Day} :
    unlock.run d = (.ok (), d') ↔
      (∀ a ∈ d.liveActivities, a.state = .locked) ∧ d' = d.unlocked := by
  rw [unlock, Step.run_bind_eq_ok_iff]
  constructor
  · rintro ⟨_, e, he, hpolicy⟩
    obtain ⟨hall, rfl⟩ := run_eachLive_eq_ok_iff.mp he
    cases hpolicy
    exact ⟨hall, rfl⟩
  · rintro ⟨hall, rfl⟩
    exact ⟨(), _, run_eachLive_eq_ok_iff.mpr ⟨hall, rfl⟩, rfl⟩

end Day

namespace Timeline

variable {t t' : Timeline}

theorem run_onDays_each_eq_ok_iff {f : Step Day Unit} {ready : Day → Prop} {g : Day → Day}
    (hf : ∀ d d', f.run d = (.ok (), d') ↔ ready d ∧ d' = g d) :
    (onDays (Step.each f)).run t = (.ok (), t') ↔
      (∀ d ∈ t.days, ready d) ∧ t' = ⟨t.days.map g⟩ := by
  rw [onDays, Step.run_within_eq_ok_iff]
  constructor
  · rintro ⟨ds, hds, rfl⟩
    obtain ⟨hall, rfl⟩ := (Step.run_each_eq_ok_iff hf).mp hds
    exact ⟨hall, rfl⟩
  · rintro ⟨hall, rfl⟩
    exact ⟨_, (Step.run_each_eq_ok_iff hf).mpr ⟨hall, rfl⟩, rfl⟩

theorem run_lock_eq_ok_iff :
    lock.run t = (.ok (), t') ↔
      (∀ d ∈ t.days, ∀ a ∈ d.liveActivities, a.state = .unlocked) ∧
        t' = ⟨t.days.map Day.locked⟩ :=
  run_onDays_each_eq_ok_iff fun _ _ => Day.run_lock_eq_ok_iff

theorem run_unlock_eq_ok_iff :
    unlock.run t = (.ok (), t') ↔
      (∀ d ∈ t.days, ∀ a ∈ d.liveActivities, a.state = .locked) ∧
        t' = ⟨t.days.map Day.unlocked⟩ :=
  run_onDays_each_eq_ok_iff fun _ _ => Day.run_unlock_eq_ok_iff

end Timeline

end Fortnight
