import Fortnight.Proofs.Timeline
import Fortnight.Proofs.Timeline.Locking

/-!
# Days that are filled in and days that are closed

What a day reports is always sound: one live activity at most, of a duration
that a day can hold, and nothing at all on exempt days, among which are the
holidays. Beyond that a day is in one of two states. While it is filled in, all
that is live is unlocked, and the policy forbids additions exactly if the day is
exempt. Once it is closed, all that is live is locked and nothing may be added.

Adding and deleting keep a day that is filled in. Locking closes it, unlocking
leads back, and the copy for a correction is filled in whatever the day was.
-/

namespace Fortnight

namespace Day

/-- What is reported for the day is in order. -/
structure Sound (d : Day) : Prop where
  single : d.liveActivities.length ≤ 1
  exempt_of_holiday : d.date.isHoliday → d.exempt
  eq_nil_of_exempt : d.exempt → d.activities = []
  hours : ∀ a ∈ d.activities, a.hours.WithinDay

structure Fillable (d : Day) : Prop extends d.Sound where
  policy_iff : d.policy = .nothingAllowed ↔ d.exempt
  unlocked : ∀ a ∈ d.liveActivities, a.state = .unlocked

structure Closed (d : Day) : Prop extends d.Sound where
  policy_eq : d.policy = .nothingAllowed
  allowedTypes_eq : d.allowedTypes = []
  locked : ∀ a ∈ d.liveActivities, a.state = .locked

/-- A day for which nothing was reported yet. -/
structure Unfilled (d : Day) : Prop where
  eq_nil : d.activities = []
  exempt_of_holiday : d.date.isHoliday → d.exempt
  policy_iff : d.policy = .nothingAllowed ↔ d.exempt

namespace Unfilled

variable {d : Day}

theorem openingDay (date : Date) : (Timeline.openingDay date).Unfilled where
  eq_nil := Timeline.openingDay_activities date
  exempt_of_holiday h := by
    rw [Timeline.openingDay_date] at h
    rw [Timeline.openingDay, if_pos h]
    rfl
  policy_iff := by
    unfold Timeline.openingDay
    split
    · simp [markExempt]
    · simp [blank]

theorem markExempt (h : d.Unfilled) : d.markExempt.Unfilled :=
  ⟨h.eq_nil, fun _ => rfl, by simp [Day.markExempt]⟩

theorem fillable (h : d.Unfilled) : d.Fillable where
  single := by simp [liveActivities, h.eq_nil]
  exempt_of_holiday := h.exempt_of_holiday
  eq_nil_of_exempt _ := h.eq_nil
  hours := by simp [h.eq_nil]
  policy_iff := h.policy_iff
  unlocked := by simp [liveActivities, h.eq_nil]

end Unfilled

variable {d : Day}

theorem mem_allowedTypes_iff {type : ActivityType} :
    type ∈ d.allowedTypes ↔
      ¬ d.date.isHoliday ∧ d.policy ≠ .nothingAllowed ∧ d.liveActivities = [] := by
  unfold allowedTypes
  split
  · rename_i h
    simp only [List.not_mem_nil, false_iff]
    tauto
  · rename_i h
    simp only [ActivityType.mem_all, true_iff]
    tauto

theorem liveActivities_append (d : Day) (l : List Activity) :
    liveActivities { d with activities := d.activities ++ l } =
      d.liveActivities ++ l.filter Activity.isLive :=
  List.filter_append ..

theorem keeps_fillable_add {a : Activity} (ha : a.state = .unlocked) :
    Step.Keeps (fun d d' => d.Fillable → d'.Fillable) (add a) := by
  intro d
  simp only [Step.run, add]
  split
  · exact id
  · rename_i hnone
    intro hd
    obtain ⟨_, hhours, htype⟩ := conflict?_eq_none_iff.mp hnone
    obtain ⟨hholiday, hpolicy, hlive⟩ := mem_allowedTypes_iff.mp htype
    -- There was no live activity before.
    have hlive' : liveActivities { d with activities := d.activities ++ [a] } = [a] := by
      rw [liveActivities_append, hlive, List.nil_append]
      simp [Activity.isLive, ha]
    refine ⟨⟨?_, ?_, ?_, ?_⟩, hd.policy_iff, ?_⟩
    · simp [hlive']
    · exact fun h => absurd h hholiday
    · exact fun h => absurd (hd.policy_iff.mpr h) hpolicy
    · intro b hb
      rcases List.mem_append.mp hb with hb | hb
      · exact hd.hours b hb
      · rw [List.mem_singleton.mp hb]
        exact hhours
    · intro b hb
      rw [hlive'] at hb
      rw [List.mem_singleton.mp hb]
      exact ha

end Day

namespace Activity

/-- What a deletion may do to an activity: leave it as it is, or let it count no more. -/
def Dwindles (a b : Activity) : Prop :=
  b.hours = a.hours ∧ (b.isLive → b = a)

theorem Dwindles.refl (a : Activity) : Dwindles a a :=
  ⟨rfl, fun _ => rfl⟩

theorem keeps_delete : Step.Keeps Dwindles delete := by
  intro a
  simp only [Step.run, delete, change]
  split
  · exact ⟨rfl, fun h => by simp [isLive, ActivityChange.target] at h⟩
  · exact .refl a

theorem sublist_of_dwindles {as bs : List Activity} (h : List.Forall₂ Dwindles as bs) :
    (bs.filter isLive).Sublist (as.filter isLive) := by
  induction h with
  | nil => exact .slnil
  | @cons a b as bs hab _ ih =>
    by_cases hb : b.isLive
    · obtain rfl := hab.2 hb
      rw [List.filter_cons_of_pos hb, List.filter_cons_of_pos hb]
      exact ih.cons_cons b
    · rw [List.filter_cons_of_neg hb]
      exact ih.trans ((List.sublist_cons_self a as).filter isLive)

end Activity

namespace Day

variable {d : Day}

theorem Fillable.of_dwindles {as : List Activity}
    (has : List.Forall₂ Activity.Dwindles d.activities as) (h : d.Fillable) :
    Fillable { d with activities := as } where
  single := Nat.le_trans (Activity.sublist_of_dwindles has).length_le h.single
  exempt_of_holiday := h.exempt_of_holiday
  eq_nil_of_exempt hexempt := by
    rw [h.eq_nil_of_exempt hexempt] at has
    exact List.forall₂_nil_left_iff.mp has
  hours := Step.forall_mem_of_forall₂ has (fun _ _ hab ha => hab.1 ▸ ha) h.hours
  policy_iff := h.policy_iff
  unlocked a ha := h.unlocked a ((Activity.sublist_of_dwindles has).subset ha)

theorem keeps_fillable_delete (id : Id) :
    Step.Keeps (fun d d' => d.Fillable → d'.Fillable) (delete id) :=
  keeps_onActivities .of_dwindles ((Activity.keeps_delete.onFirst .refl _).map _)

/-- What is reported stays in order when the live activities are changed, under
whatever policy. -/
theorem Sound.withChanged (h : d.Sound) {c : ActivityChange} (hc : c ≠ .delete)
    (policy : DayPolicy) : Sound { d.withChanged c with policy } where
  single := by
    have hlength := congrArg List.length (liveActivities_withChanged hc d)
    rw [List.length_map] at hlength
    exact Nat.le_trans (Nat.le_of_eq hlength) h.single
  exempt_of_holiday := h.exempt_of_holiday
  eq_nil_of_exempt hexempt := by
    have hnil := h.eq_nil_of_exempt hexempt
    simp [Day.withChanged, hnil]
  hours := by simpa [Day.withChanged] using h.hours

theorem Fillable.locked (h : d.Fillable) : d.locked.Closed where
  toSound := h.toSound.withChanged (by decide) .nothingAllowed
  policy_eq := rfl
  allowedTypes_eq := if_pos (Or.inr (Or.inl rfl))
  locked _ ha := state_of_mem_withChanged (by decide) ha

theorem Closed.unlocked (h : d.Closed) : d.unlocked.Fillable where
  toSound := h.toSound.withChanged (by decide) _
  policy_iff := by
    by_cases hexempt : d.exempt
    · simp [Day.unlocked, Day.withChanged, hexempt, h.policy_eq]
    · simp [Day.unlocked, Day.withChanged, hexempt]
  unlocked _ ha := state_of_mem_withChanged (by decide) ha

/-- Nothing of a locked day tells the policy that it had before. It is the policy of
a day that is filled in, which is told by the exemption. -/
theorem Fillable.unlocked_locked (h : d.Fillable) : d.locked.unlocked = d := by
  have hsame : ∀ a ∈ d.activities, (a.changed .lock).changed .unlock = a := by
    intro a ha
    apply Activity.changed_unlock_lock
    intro hlive
    exact h.unlocked a (List.mem_filter.mpr ⟨ha, hlive⟩)
  have hactivities : d.locked.unlocked.activities = d.activities := by
    change (d.activities.map _).map _ = d.activities
    exact Step.map_map_eq_self hsame
  have hpolicy : d.locked.unlocked.policy = d.policy := by
    change (if d.exempt then .nothingAllowed else .singleActivityAllowed) = d.policy
    have hexempt := h.policy_iff
    cases hd : d.policy <;> simp_all
  calc d.locked.unlocked
      = { d with
          activities := d.locked.unlocked.activities, policy := d.locked.unlocked.policy } := rfl
    _ = d := by rw [hactivities, hpolicy]

/-- Copied are the live activities only, each as if it had just been added. -/
theorem Sound.copyForCorrection (h : d.Sound) (fresh : ℕ → Id) :
    (d.copyForCorrection fresh).Fillable where
  single := by
    have hlength : (d.copyForCorrection fresh).activities.length = d.liveActivities.length := by
      simp [Day.copyForCorrection]
    apply Nat.le_trans (List.length_filter_le _ _)
    rw [hlength]
    exact h.single
  exempt_of_holiday := h.exempt_of_holiday
  eq_nil_of_exempt hexempt := by
    have hnil := h.eq_nil_of_exempt hexempt
    simp [Day.copyForCorrection, liveActivities, hnil]
  hours a ha := by
    obtain ⟨i, hi, rfl⟩ := List.mem_mapIdx.mp ha
    have hmem := (List.mem_filter.mp (List.getElem_mem hi)).1
    exact h.hours d.liveActivities[i] hmem
  policy_iff := by
    simp only [Day.copyForCorrection, openPolicy]
    split <;> simp_all
  unlocked a ha := by
    obtain ⟨i, hi, rfl⟩ := List.mem_mapIdx.mp (List.mem_filter.mp ha).1
    rfl

end Day

namespace Timeline

variable {t t' : Timeline}

theorem forall_days_of_forall₂ {P : Day → Prop}
    (h : List.Forall₂ (fun d d' => P d → P d') t.days t'.days) (ht : ∀ d ∈ t.days, P d) :
    ∀ d ∈ t'.days, P d :=
  Step.forall_mem_of_forall₂ h (fun _ _ hd => hd) ht

theorem keeps_fillable_add {a : Activity} (ha : a.state = .unlocked) :
    Step.Keeps (fun t t' : Timeline => (∀ d ∈ t.days, d.Fillable) → ∀ d ∈ t'.days, d.Fillable)
      (add a) :=
  keeps_onDay (fun _ => id) forall_days_of_forall₂ (fun h h' => h' ∘ h)
    (Day.keeps_fillable_add ha) a.date

theorem keeps_fillable_delete (id : Id) :
    Step.Keeps (fun t t' : Timeline => (∀ d ∈ t.days, d.Fillable) → ∀ d ∈ t'.days, d.Fillable)
      (delete id) :=
  keeps_onDays forall_days_of_forall₂
    (keeps_deleteFrom (fun _ hd => hd) (Day.keeps_fillable_delete id))

theorem closed_of_lock {u : Unit} (h : lock.run t = (.ok u, t'))
    (ht : ∀ d ∈ t.days, d.Fillable) : ∀ d ∈ t'.days, d.Closed := by
  obtain ⟨_, rfl⟩ := run_lock_eq_ok_iff.mp h
  exact List.forall_mem_map.mpr fun d hd => (ht d hd).locked

theorem fillable_of_unlock {u : Unit} (h : unlock.run t = (.ok u, t'))
    (ht : ∀ d ∈ t.days, d.Closed) : ∀ d ∈ t'.days, d.Fillable := by
  obtain ⟨_, rfl⟩ := run_unlock_eq_ok_iff.mp h
  exact List.forall_mem_map.mpr fun d hd => (ht d hd).unlocked

theorem fillable_of_starting {start : Date} (h : starting start = .ok t) (since : Date) :
    ∀ d ∈ (t.markExemptBefore since).days, d.Fillable := by
  intro d' hd'
  obtain ⟨d, hd, rfl⟩ := List.mem_map.mp hd'
  have hunfilled : d.Unfilled := by
    rw [openingDay_of_starting h d hd]
    exact .openingDay d.date
  split
  · exact hunfilled.markExempt.fillable
  · exact hunfilled.fillable

theorem mem_copyDays {fresh : ℕ → Id} {days : List Day} {d' : Day}
    (h : d' ∈ copyDays fresh days) : ∃ fresh', ∃ d ∈ days, d' = d.copyForCorrection fresh' := by
  induction days generalizing fresh with
  | nil => cases h
  | cons d rest ih =>
    rcases List.mem_cons.mp h with rfl | h
    · exact ⟨fresh, d, List.mem_cons_self, rfl⟩
    · obtain ⟨fresh', e, he, rfl⟩ := ih h
      exact ⟨fresh', e, List.mem_cons_of_mem _ he, rfl⟩

theorem fillable_copyForCorrection (ht : ∀ d ∈ t.days, d.Sound) (fresh : ℕ → Id) :
    ∀ d ∈ (t.copyForCorrection fresh).days, d.Fillable := by
  intro d' hd'
  obtain ⟨fresh', d, hd, rfl⟩ := mem_copyDays hd'
  exact (ht d hd).copyForCorrection fresh'

end Timeline

end Fortnight
