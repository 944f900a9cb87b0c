import Fortnight.Proofs.Calendar.Civil
import Fortnight.Proofs.Hours.Sum
import Fortnight.Proofs.Identifier
import Fortnight.Proofs.Timeline.Growth

/-!
# The hours of a timeline

A day has one live activity at most, of at most 24 hours. Whatever is done to a
timeline, and however it ends, this stays so: an activity is added only where none
is live, and no change brings a deleted one back. With fourteen days the hours of a
type are at most 336. A sum of them never fails, and it is exact as long as none
of them needs more than 26 decimals.
-/

namespace Fortnight

open ActivityState (Follows Outlasts)

namespace Hours

theorem withinDay_iff {h : Hours} : h.WithinDay ↔ h.Within 24 := by
  unfold WithinDay
  rw [lt_iff_value, lt_iff_value, value_zero, value_dayLength, not_lt, not_lt]
  constructor
  · rintro ⟨hnonneg, hle⟩
    exact ⟨hnonneg, by exact_mod_cast hle⟩
  · rintro ⟨hnonneg, hle⟩
    exact ⟨hnonneg, by exact_mod_cast hle⟩

end Hours

namespace Activity

theorem keeps_becomes_change (c : ActivityChange) :
    Step.Keeps (Becomes Outlasts) (change c) := by
  intro a
  simp only [Step.run, change]
  split
  · rename_i hstate
    refine ⟨rfl, ?_⟩
    rw [hstate]
    exact (ActivityState.follows_change c).outlasts
  · exact .refl (fun _ h => h) a

theorem Becomes.isLive {a b : Activity} (h : Becomes Outlasts a b) (hb : b.isLive) : a.isLive := by
  simp only [Activity.isLive, decide_eq_true_eq] at hb ⊢
  exact fun ha => hb (h.state ha)

theorem Becomes.hours_eq {moves : ActivityState → ActivityState → Prop} {a b : Activity}
    (h : Becomes moves a b) : b.hours = a.hours := by
  rw [h.eq]

theorem length_live_le {as bs : List Activity} (h : List.Forall₂ (Becomes Outlasts) as bs) :
    (bs.filter isLive).length ≤ (as.filter isLive).length := by
  rw [← List.countP_eq_length_filter, ← List.countP_eq_length_filter]
  induction h with
  | nil => exact Nat.le_refl _
  | @cons a b as bs hab _ ih =>
    by_cases hb : b.isLive
    · rw [List.countP_cons_of_pos hb, List.countP_cons_of_pos (hab.isLive hb)]
      exact Nat.succ_le_succ ih
    · rw [List.countP_cons_of_neg hb]
      exact ih.trans ((List.sublist_cons_self a as).countP_le)

end Activity

namespace Day

/-- Holds when a day has one live activity at most, and no activity is longer than a day. -/
structure Limited (d : Day) : Prop where
  single : d.liveActivities.length ≤ 1
  hours : ∀ a ∈ d.activities, a.hours.WithinDay

variable {d : Day}

theorem Limited.of_becomes {as : List Activity}
    (has : List.Forall₂ (Activity.Becomes Outlasts) d.activities as) (h : d.Limited) :
    Limited { d with activities := as } where
  single := (Activity.length_live_le has).trans h.single
  hours := Step.forall_mem_of_forall₂ has (fun _ _ hab ha => hab.hours_eq ▸ ha) h.hours

theorem Limited.closeOrOpen (h : d.Limited) (policy : DayPolicy) (exempt : Bool) :
    Limited ⟨d.date, d.activities, policy, exempt⟩ :=
  ⟨h.single, h.hours⟩

theorem limited_openingDay (date : Date) : (Timeline.openingDay date).Limited where
  single := by simp [liveActivities, Timeline.openingDay_activities]
  hours := by simp [Timeline.openingDay_activities]

theorem keeps_limited_add (a : Activity) :
    Step.Keeps (fun d d' => d.Limited → d'.Limited) (add a) := by
  intro d
  simp only [Step.run, add]
  split
  · exact id
  · rename_i hnone
    intro hd
    obtain ⟨_, hhours, htype⟩ := conflict?_eq_none_iff.mp hnone
    obtain ⟨_, _, hlive⟩ := mem_allowedTypes_iff.mp htype
    refine ⟨?_, ?_⟩
    · rw [liveActivities_append, hlive, List.nil_append]
      exact List.length_filter_le _ _
    · intro b hb
      rcases List.mem_append.mp hb with hb | hb
      · exact hd.hours b hb
      · rw [List.mem_singleton.mp hb]
        exact hhours

theorem keeps_limited_delete (id : Id) :
    Step.Keeps (fun d d' => d.Limited → d'.Limited) (delete id) :=
  keeps_onActivities .of_becomes
    (((Activity.keeps_becomes_change .delete).onFirst (.refl fun _ h => h) _).map _)

theorem keeps_limited_eachLive (c : ActivityChange) :
    Step.Keeps (fun d d' => d.Limited → d'.Limited) (eachLive (Activity.change c)) := by
  have hrefl : ∀ a, Activity.Becomes Outlasts a a := .refl fun _ h => h
  exact keeps_onActivities .of_becomes
    (((Activity.keeps_becomes_change c).onlyIf hrefl _).each hrefl)

theorem keeps_limited_lock : Step.Keeps (fun d d' => d.Limited → d'.Limited) lock :=
  (keeps_limited_eachLive .lock).bind (fun h h' => h' ∘ h) fun _ =>
    Step.keeps_modify fun _ h => h.closeOrOpen _ _

theorem keeps_limited_unlock : Step.Keeps (fun d d' => d.Limited → d'.Limited) unlock :=
  (keeps_limited_eachLive .unlock).bind (fun h h' => h' ∘ h) fun _ =>
    Step.keeps_modify fun _ h => h.closeOrOpen _ _

theorem Limited.copyForCorrection (h : d.Limited) (fresh : ℕ → Id) :
    (d.copyForCorrection fresh).Limited where
  single := by
    have hlength : (d.copyForCorrection fresh).activities.length = d.liveActivities.length := by
      simp [Day.copyForCorrection]
    apply Nat.le_trans (List.length_filter_le _ _)
    rw [hlength]
    exact h.single
  hours a ha := by
    obtain ⟨i, hi, rfl⟩ := List.mem_mapIdx.mp ha
    have hmem := (List.mem_filter.mp (List.getElem_mem hi)).1
    exact h.hours d.liveActivities[i] hmem

end Day

namespace Timeline

/-- What can be done to a timeline. -/
inductive Operation where
  | add (a : Activity)
  | delete (id : Id)
  | markExempt (date : Date)
  | lock
  | unlock
  | copyForCorrection (fresh : ℕ → Id)

/-- The operation itself. A copy takes the place of what is copied. -/
def Operation.step : Operation → Step Timeline Unit
  | add a => Timeline.add a
  | delete id => Timeline.delete id
  | markExempt date => Timeline.markExempt date
  | lock => Timeline.lock
  | unlock => Timeline.unlock
  | copyForCorrection fresh => Step.modify (Timeline.copyForCorrection fresh)

/-- The timeline after an operation, whether it succeeds or fails. -/
def after (t : Timeline) (operation : Operation) : Timeline :=
  (operation.step.run t).2

/-- The timeline after one operation after another. -/
def run (t : Timeline) (operations : List Operation) : Timeline :=
  operations.foldl after t

inductive Reachable : Timeline → Prop
  | starting {start : Date} {t : Timeline} : starting start = .ok t → Reachable t
  | after {t : Timeline} (operation : Operation) : Reachable t → Reachable (t.after operation)

theorem Reachable.run {t : Timeline} (h : Reachable t) (operations : List Operation) :
    Reachable (t.run operations) := by
  induction operations generalizing t with
  | nil => exact h
  | cons operation rest ih => exact ih (h.after operation)

/-- Holds when a timeline has fourteen days, each of which is limited. -/
structure Limited (t : Timeline) : Prop where
  length_eq : t.days.length = periodLength
  days : ∀ d ∈ t.days, d.Limited

variable {t t' : Timeline}

theorem Limited.of_forall₂
    (hdays : List.Forall₂ (fun d d' : Day => d.Limited → d'.Limited) t.days t'.days)
    (h : t.Limited) : t'.Limited where
  length_eq := hdays.length_eq.symm.trans h.length_eq
  days := forall_days_of_forall₂ hdays h.days

theorem limited_of_starting {start : Date} (h : starting start = .ok t) : t.Limited where
  length_eq := by
    have hlength := (isFortnight_of_starting h).length_eq
    rwa [dates, List.length_map] at hlength
  days d hd := by
    rw [openingDay_of_starting h d hd]
    exact Day.limited_openingDay d.date

theorem Limited.copyForCorrection (h : t.Limited) (fresh : ℕ → Id) :
    (t.copyForCorrection fresh).Limited where
  length_eq := by
    have hdates := congrArg List.length (continues_copyForCorrection fresh t).dates_eq
    rw [dates, dates, List.length_map, List.length_map] at hdates
    exact hdates.trans h.length_eq
  days d' hd' := by
    obtain ⟨fresh', d, hd, rfl⟩ := mem_copyDays hd'
    exact (h.days d hd).copyForCorrection fresh'

/-- No operation, successful or not, leads beyond the limits. -/
theorem keeps_limited (operation : Operation) :
    Step.Keeps (fun t t' => t.Limited → t'.Limited) operation.step := by
  have hrefl : ∀ d : Day, d.Limited → d.Limited := fun _ => id
  cases operation with
  | add a =>
    exact keeps_onDay hrefl Limited.of_forall₂ (fun h h' => h' ∘ h) (Day.keeps_limited_add a) a.date
  | delete id =>
    exact keeps_onDays Limited.of_forall₂ (keeps_deleteFrom hrefl (Day.keeps_limited_delete id))
  | markExempt date =>
    have hmark : Step.Keeps (fun d d' => d.Limited → d'.Limited) (Step.modify Day.markExempt) :=
      Step.keeps_modify fun _ h => h.closeOrOpen _ _
    exact keeps_onDay hrefl Limited.of_forall₂ (fun h h' => h' ∘ h) hmark date
  | lock => exact keeps_onDays Limited.of_forall₂ (Day.keeps_limited_lock.each hrefl)
  | unlock => exact keeps_onDays Limited.of_forall₂ (Day.keeps_limited_unlock.each hrefl)
  | copyForCorrection fresh => exact fun _ h => h.copyForCorrection fresh

theorem limited_of_reachable (h : Reachable t) : t.Limited := by
  induction h with
  | starting h => exact limited_of_starting h
  | after operation _ ih => exact keeps_limited operation _ ih

theorem mem_hoursOf_iff {type : ActivityType} {hours : Hours} :
    hours ∈ t.hoursOf type ↔
      ∃ d ∈ t.days, ∃ a ∈ d.liveActivities, a.type = type ∧ a.hours = hours := by
  simp only [hoursOf, List.mem_map, List.mem_filter, List.mem_flatMap, decide_eq_true_eq]
  constructor
  · rintro ⟨a, ⟨⟨d, hd, ha⟩, htype⟩, rfl⟩
    exact ⟨d, hd, a, ha, htype, rfl⟩
  · rintro ⟨d, hd, a, ha, htype, rfl⟩
    exact ⟨a, ⟨⟨d, hd, ha⟩, htype⟩, rfl⟩

theorem Limited.length_hoursOf_le (h : t.Limited) (type : ActivityType) :
    (t.hoursOf type).length ≤ periodLength := by
  have hcount := liveCount_le fun d hd => (h.days d hd).single
  rw [h.length_eq] at hcount
  rw [hoursOf, List.length_map]
  exact (List.length_filter_le _ _).trans hcount

theorem Limited.within_of_mem_hoursOf (h : t.Limited) {type : ActivityType} {hours : Hours}
    (hhours : hours ∈ t.hoursOf type) : hours.Within 24 := by
  obtain ⟨d, hd, a, ha, _, rfl⟩ := mem_hoursOf_iff.mp hhours
  exact Hours.withinDay_iff.mp ((h.days d hd).hours a (List.mem_filter.mp ha).1)

/-- What is summed up are the hours of the activities of the type that are not deleted. -/
theorem hoursOf_eq (t : Timeline) (type : ActivityType) :
    t.hoursOf type = ((t.days.flatMap Day.activities).filter fun a =>
      a.state ≠ .deleted ∧ a.type = type).map Activity.hours := by
  have hlive : t.days.flatMap Day.liveActivities =
      (t.days.flatMap Day.activities).filter Activity.isLive := List.filter_flatMap.symm
  rw [hoursOf, hlive, List.filter_filter]
  congr 1
  apply List.filter_congr
  intro a _
  simp [Activity.isLive, and_comm]

/-- Whatever was done to a timeline, the sum of the hours of a type does not fail, and it
is exact if the hours have no more than 26 decimals. -/
theorem total_of_reachable (h : Reachable t) (type : ActivityType) :
    ∃ total, t.total? type = some total ∧
      ((∀ d ∈ t.days, ∀ a ∈ d.activities, a.state ≠ .deleted → a.hours.HasDecimals 26) →
        total.value = (((t.days.flatMap Day.activities).filter fun a =>
          a.state ≠ .deleted ∧ a.type = type).map fun a => a.hours.value).sum) := by
  have hlimited := limited_of_reachable h
  have hlength := hlimited.length_hoursOf_le type
  have hbound : 24 * (t.hoursOf type).length ≤ 24 * periodLength := Nat.mul_le_mul_left 24 hlength
  obtain ⟨total, htotal, hexact⟩ := Hours.sum?_of_within
    (fun _ hhours => hlimited.within_of_mem_hoursOf hhours) (hbound.trans_lt (by decide))
  refine ⟨total, htotal, fun hdecimals => ?_⟩
  have hsum : total.value = ((t.hoursOf type).map Hours.value).sum := by
    apply hexact 26 ((Nat.mul_le_mul_right _ hbound).trans_lt (by decide))
    intro hours hhours
    obtain ⟨d, hd, a, ha, _, rfl⟩ := mem_hoursOf_iff.mp hhours
    obtain ⟨hmem, hlive⟩ := List.mem_filter.mp ha
    exact hdecimals d hd a hmem (of_decide_eq_true hlive)
  rw [hsum, hoursOf_eq, List.map_map]
  rfl

section Mixed

/-- An entry for a day of January 2024, of hours that are written with so many decimals. -/
def entry (id day digits scale : ℕ) (type : ActivityType) (state : ActivityState) : Activity :=
  ⟨supplyFrom id 0, january day, (Hours.ofParts? digits scale).getD .zero, type, state⟩

/-- Work of one, of two and of 26 decimals, and days of other types. A second entry for a
day, a second deletion and a second lock fail. -/
def mixed : List Operation :=
  [.add (entry 1 2 75 1 .work .unlocked), .add (entry 2 2 10 0 .work .unlocked),
    .add (entry 3 3 30 1 .work .deleted), .add (entry 4 3 825 2 .work .unlocked),
    .add (entry 5 4 (24 * 10 ^ 26) 26 .work .unlocked), .add (entry 6 5 60 1 .work .unlocked),
    .delete (supplyFrom 6 0), .delete (supplyFrom 6 0), .markExempt (january 4), .lock, .lock,
    .unlock, .copyForCorrection (supplyFrom 7), .add (entry 10 8 55 1 .sick .unlocked),
    .add (entry 11 9 90 1 .work .unlocked), .delete (supplyFrom 11 0)]

/-- The first fortnight of the year after all that. -/
def afterMixed : Timeline :=
  match starting (january 1) with
  | .ok t => t.run mixed
  | .error _ => ⟨[]⟩

theorem reachable_afterMixed : Reachable afterMixed := by
  obtain ⟨t, ht⟩ := Error.exists_of_isOk (show (starting (january 1)).isOk by cbv)
  rw [afterMixed, ht]
  exact (Reachable.starting ht).run mixed

/-- What was copied, and what was entered and deleted after that. -/
def left : List Activity :=
  [entry 7 2 75 1 .work .unlocked, entry 8 3 825 2 .work .unlocked,
    entry 9 4 (24 * 10 ^ 26) 26 .work .unlocked, entry 10 8 55 1 .sick .unlocked,
    entry 11 9 90 1 .work .deleted]

set_option maxRecDepth 8000 in
theorem activities_afterMixed : afterMixed.days.flatMap Day.activities = left := by
  cbv

theorem value_entry {digits scale : ℕ} (hdigits : digits < 2 ^ 96) (hscale : scale ≤ 28)
    (id day : ℕ) (type : ActivityType) (state : ActivityState) :
    (entry id day digits scale type state).hours.value = digits / 10 ^ scale := by
  have hfits : (digits : ℤ).natAbs < 2 ^ 96 := by simpa using hdigits
  obtain ⟨hours, hhours⟩ := Hours.exists_ofParts? hfits hscale
  have hvalue := Hours.value_of_ofParts? hhours
  rw [Int.cast_natCast] at hvalue
  simp only [entry, hhours, Option.getD_some]
  exact hvalue

/-- Work comes to 7.5, 8.25 and 24 hours, without what was deleted and what was no work. -/
theorem total_of_reachable_mixed :
    Reachable afterMixed ∧ afterMixed.days.flatMap Day.activities = left ∧
      (∀ d ∈ afterMixed.days, ∀ a ∈ d.activities, a.state ≠ .deleted →
        a.hours.HasDecimals 26) ∧
      (∃ total, afterMixed.total? .work = some total ∧ total.value = 39.75) ∧
      ∃ total, afterMixed.total? .sick = some total ∧ total.value = 5.5 := by
  have hdecimals : ∀ d ∈ afterMixed.days, ∀ a ∈ d.activities, a.state ≠ .deleted →
      a.hours.HasDecimals 26 := by
    intro d hd a ha _
    have hmem := List.mem_flatMap.mpr ⟨d, hd, ha⟩
    simp only [activities_afterMixed, left, List.mem_cons, List.not_mem_nil, or_false] at hmem
    apply Hours.hasDecimals_of_scale_le
    rcases hmem with rfl | rfl | rfl | rfl | rfl <;> decide
  have hwork : (left.filter fun a => a.state ≠ .deleted ∧ a.type = .work) = left.take 3 := rfl
  have hsick : (left.filter fun a => a.state ≠ .deleted ∧ a.type = .sick) =
      [entry 10 8 55 1 .sick .unlocked] := rfl
  obtain ⟨total, htotal, hexact⟩ := total_of_reachable reachable_afterMixed .work
  obtain ⟨total', htotal', hexact'⟩ := total_of_reachable reachable_afterMixed .sick
  refine ⟨reachable_afterMixed, activities_afterMixed, hdecimals, ⟨total, htotal, ?_⟩,
    total', htotal', ?_⟩
  · rw [hexact hdecimals, activities_afterMixed, hwork]
    simp only [left, List.take_succ_cons, List.take_zero, List.map_cons, List.map_nil,
      List.sum_cons, List.sum_nil]
    rw [value_entry (by decide) (by decide), value_entry (by decide) (by decide),
      value_entry (by decide) (by decide)]
    norm_num
  · rw [hexact' hdecimals, activities_afterMixed, hsick]
    simp only [List.map_cons, List.map_nil, List.sum_cons, List.sum_nil]
    rw [value_entry (by decide) (by decide)]
    norm_num

end Mixed

end Timeline

end Fortnight
