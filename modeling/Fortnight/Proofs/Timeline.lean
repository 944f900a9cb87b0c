import Fortnight.Proofs.Step
import Fortnight.Timeline

/-!
# The days of a timeline

A timeline is made for fourteen dates in a row, and its activities are of the
date of the day that they are on. No step on a timeline, successful or not,
moves a day or puts an activity on another day.
-/

namespace Fortnight

/-- The dates of the fourteen days from `start` on. -/
structure Date.IsFortnight (start : Date) (dates : List Date) : Prop where
  length_eq : dates.length = periodLength
  head_eq : dates.head? = some start
  consecutive : dates.IsChain fun a b => a.next? = some b

theorem Date.number_of_next? {a b : Date} (h : a.next? = some b) : b.number = a.number + 1 :=
  ofNumber?_eq_some_iff.mp h

theorem Date.IsFortnight.of_number {start : Date} {dates : List Date}
    (hlength : dates.length = periodLength)
    (hnumber : ∀ (i : ℕ) (hi : i < dates.length), dates[i].number = start.number + i) :
    start.IsFortnight dates where
  length_eq := hlength
  head_eq := by
    have hpos : 0 < dates.length := by
      rw [hlength]
      decide
    rw [List.head?_eq_getElem?, List.getElem?_eq_getElem hpos]
    refine congrArg some (ext_number ?_)
    simpa using hnumber 0 hpos
  consecutive := by
    refine List.isChain_iff_getElem.mpr fun i hi => ofNumber?_eq_some_iff.mpr ?_
    rw [hnumber (i + 1) hi, hnumber i (Nat.lt_of_succ_lt hi)]
    omega

theorem Date.IsFortnight.pairwise {start : Date} {dates : List Date}
    (h : start.IsFortnight dates) : dates.Pairwise (· < ·) := by
  have : IsTrans Date (· < ·) := ⟨fun _ _ _ hab hbc => Int.lt_trans hab hbc⟩
  have hlt : dates.IsChain (· < ·) := h.consecutive.imp fun a b hab => by
    rw [lt_iff, number_of_next? hab]
    omega
  exact hlt.pairwise

theorem Date.IsFortnight.nodup {start : Date} {dates : List Date} (h : start.IsFortnight dates) :
    dates.Nodup := by
  refine h.pairwise.imp fun hab e => ?_
  rw [e] at hab
  exact Int.lt_irrefl _ hab

theorem Date.IsFortnight.number_eq {start : Date} {dates : List Date} (h : start.IsFortnight dates)
    {i : ℕ} (hi : i < dates.length) : dates[i].number = start.number + i := by
  induction i with
  | zero =>
    have hhead := h.head_eq
    rw [List.head?_eq_getElem?, List.getElem?_eq_getElem hi] at hhead
    simp [Option.some.inj hhead]
  | succ i ih =>
    have hnext := List.isChain_iff_getElem.mp h.consecutive i hi
    have hnumber := ih (Nat.lt_of_succ_lt hi)
    rw [number_of_next? hnext, hnumber]
    omega

/-- The dates of a fortnight are all those from its first to its last day. -/
theorem Date.IsFortnight.mem_iff {start : Date} {dates : List Date} (h : start.IsFortnight dates)
    {date : Date} :
    date ∈ dates ↔ start.number ≤ date.number ∧ date.number < start.number + periodLength := by
  have hlength := h.length_eq
  rw [List.mem_iff_getElem]
  constructor
  · rintro ⟨i, hi, rfl⟩
    have hnumber := h.number_eq hi
    omega
  · rintro ⟨hle, hlt⟩
    have hi : (date.number - start.number).toNat < dates.length := by
      omega
    refine ⟨_, hi, ext_number ?_⟩
    rw [h.number_eq hi]
    omega

/-- A duration that a day can hold. -/
def Hours.WithinDay (h : Hours) : Prop :=
  ¬ h < zero ∧ ¬ dayLength < h

namespace Activity

def SameDate (a b : Activity) : Prop :=
  b.date = a.date

theorem SameDate.refl (a : Activity) : SameDate a a :=
  rfl

theorem keeps_change (c : ActivityChange) : Step.Keeps SameDate (change c) := by
  intro a
  simp only [Step.run, change]
  split <;> rfl

end Activity

namespace Day

/-- Holds when the activities of a day are of its date. -/
def Tidy (d : Day) : Prop :=
  ∀ a ∈ d.activities, a.date = d.date

/-- What a step may do to a day. -/
structure Continues (d d' : Day) : Prop where
  date_eq : d'.date = d.date
  tidy : d.Tidy → d'.Tidy

namespace Continues

variable {d d' d'' : Day}

theorem refl (d : Day) : Continues d d := ⟨rfl, id⟩

theorem trans (h : Continues d d') (h' : Continues d' d'') : Continues d d'' :=
  ⟨h'.date_eq.trans h.date_eq, h'.tidy ∘ h.tidy⟩

theorem of_forall₂ {as : List Activity}
    (h : List.Forall₂ Activity.SameDate d.activities as) :
    Continues d { d with activities := as } where
  date_eq := rfl
  tidy htidy := Step.forall_mem_of_forall₂ h (fun _ _ hab ha => hab.trans ha) htidy

end Continues

/-- What is kept activity by activity is kept for the day, if it is lifted to it. -/
theorem keeps_onActivities {α : Type} {q : Activity → Activity → Prop} {r : Day → Day → Prop}
    (lift : ∀ {d as}, List.Forall₂ q d.activities as → r d { d with activities := as })
    {f : Step (List Activity) α} (hf : Step.Keeps (List.Forall₂ q) f) :
    Step.Keeps r (onActivities f) :=
  hf.within fun _ _ => lift

/-- What an activity must fulfil to be added. -/
theorem conflict?_eq_none_iff {d : Day} {a : Activity} :
    d.conflict? a = none ↔
      a.date = d.date ∧ a.hours.WithinDay ∧ a.type ∈ d.allowedTypes := by
  unfold conflict? Hours.WithinDay
  split_ifs <;> tauto

theorem keeps_add (a : Activity) : Step.Keeps Continues (add a) := by
  intro d
  simp only [Step.run, add]
  split
  · exact .refl d
  · rename_i hnone
    have hdate := (conflict?_eq_none_iff.mp hnone).1
    refine ⟨rfl, fun htidy b hb => ?_⟩
    rcases List.mem_append.mp hb with hb | hb
    · exact htidy b hb
    · rw [List.mem_singleton.mp hb]
      exact hdate

theorem keeps_delete (id : Id) : Step.Keeps Continues (delete id) :=
  keeps_onActivities .of_forall₂ (((Activity.keeps_change .delete).onFirst .refl _).map _)

theorem keeps_eachLive (c : ActivityChange) :
    Step.Keeps Continues (eachLive (Activity.change c)) :=
  keeps_onActivities .of_forall₂ (((Activity.keeps_change c).onlyIf .refl _).each .refl)

theorem keeps_lock : Step.Keeps Continues lock :=
  (keeps_eachLive .lock).bind Continues.trans fun _ =>
    Step.keeps_modify fun _ => ⟨rfl, id⟩

theorem keeps_unlock : Step.Keeps Continues unlock :=
  (keeps_eachLive .unlock).bind Continues.trans fun _ =>
    Step.keeps_modify fun _ => ⟨rfl, id⟩

theorem continues_markExempt (d : Day) : Continues d d.markExempt := ⟨rfl, id⟩

theorem continues_copyForCorrection (fresh : ℕ → Id) (d : Day) :
    Continues d (d.copyForCorrection fresh) := by
  refine ⟨rfl, fun htidy a ha => ?_⟩
  obtain ⟨i, hi, rfl⟩ := List.mem_mapIdx.mp ha
  have hmem : d.liveActivities[i] ∈ d.activities :=
    (List.mem_filter.mp (List.getElem_mem hi)).1
  have hdate := htidy _ hmem
  exact hdate

end Day

namespace Timeline

def dates (t : Timeline) : List Date :=
  t.days.map Day.date

theorem consecutive_iff {l : List Day} :
    consecutive l = true ↔ (l.map Day.date).IsChain fun a b => a.next? = some b := by
  induction l with
  | nil => simp [consecutive]
  | cons d l ih =>
    cases l with
    | nil => simp [consecutive]
    | cons e l =>
      rw [consecutive, Bool.and_eq_true, ih]
      simp

theorem dates_mergeSort (days : List Day) :
    (days.mergeSort fun a b => a.date ≤ b.date).map Day.date =
      (days.map Day.date).mergeSort fun a b => a ≤ b :=
  List.map_mergeSort fun _ _ _ _ => rfl

/-- Days make a timeline if there are fourteen of them, one after another. -/
theorem ofDays_eq_ok_iff {days : List Day} {t : Timeline} :
    ofDays days = .ok t ↔
      (t.days = days.mergeSort fun a b => a.date ≤ b.date) ∧ t.dates.length = periodLength ∧
        t.dates.IsChain fun a b => a.next? = some b := by
  unfold ofDays dates
  rw [List.length_map, ← consecutive_iff]
  dsimp only
  split
  · rename_i hshape
    rw [Except.ok.injEq]
    constructor
    · intro h
      subst h
      exact ⟨rfl, hshape⟩
    · intro h
      obtain ⟨days⟩ := t
      exact congrArg Timeline.mk h.1.symm
  · rename_i hshape
    constructor
    · intro h
      cases h
    · intro h
      rw [h.1] at h
      exact absurd h.2 hshape

theorem ofDays_of_isFortnight {start : Date} {t : Timeline} (h : start.IsFortnight t.dates) :
    ofDays t.days = .ok t := by
  have hsorted : (t.days.mergeSort fun a b => a.date ≤ b.date) = t.days := by
    refine List.mergeSort_of_pairwise ?_
    refine (List.pairwise_map.mp h.pairwise).imp fun hab => ?_
    simpa [Date.le_iff] using Int.le_of_lt hab
  exact ofDays_eq_ok_iff.mpr ⟨hsorted.symm, h.length_eq, h.consecutive⟩

theorem openingDay_date (date : Date) : (openingDay date).date = date := by
  unfold openingDay
  split <;> rfl

theorem openingDay_activities (date : Date) : (openingDay date).activities = [] := by
  unfold openingDay
  split <;> rfl

/-- A timeline that starts on `start` has the dates from there on, each as it is at first. -/
theorem numbers_of_starting {start : Date} {t : Timeline} (h : starting start = .ok t) :
    List.Forall₂ (fun (k : ℕ) d => d.date.number = start.number + k ∧ d = openingDay d.date)
      (List.range periodLength) t.days := by
  obtain ⟨days, hdays, hpure⟩ := Error.bind_eq_ok_iff.mp h
  cases hpure
  refine (Error.mapM_eq_ok_iff.mp hdays).imp fun k d hd => ?_
  obtain ⟨date, hdate, hpure⟩ := Error.bind_eq_ok_iff.mp hd
  cases hpure
  rw [openingDay_date]
  exact ⟨(Date.shift_eq_ok_iff.mp hdate).2, rfl⟩

theorem openingDay_of_starting {start : Date} {t : Timeline} (h : starting start = .ok t) :
    ∀ d ∈ t.days, d = openingDay d.date :=
  Step.forall_mem_of_forall₂ (P := fun _ => True) (numbers_of_starting h)
    (fun _ _ hd _ => hd.2) (by simp)

theorem isFortnight_of_starting {start : Date} {t : Timeline} (h : starting start = .ok t) :
    start.IsFortnight t.dates := by
  have hdays := numbers_of_starting h
  have hlength : t.days.length = periodLength := by
    rw [← hdays.length_eq, List.length_range]
  refine .of_number (by rw [dates, List.length_map, hlength]) fun i hi => ?_
  have hi' : i < t.days.length := by simpa [dates] using hi
  have hnumber := (hdays.get (by simpa [hlength] using hi') hi').1
  simpa [dates] using hnumber

theorem tidy_of_starting {start : Date} {t : Timeline} (h : starting start = .ok t) :
    ∀ d ∈ t.days, d.Tidy := by
  refine Step.forall_mem_of_forall₂ (P := fun _ => True) (numbers_of_starting h) ?_ (by simp)
  intro k d hd _ a ha
  rw [hd.2, openingDay_activities] at ha
  cases ha

/-- What a step may do to a timeline. -/
structure Continues (t t' : Timeline) : Prop where
  dates_eq : t'.dates = t.dates
  tidy : (∀ d ∈ t.days, d.Tidy) → ∀ d ∈ t'.days, d.Tidy

namespace Continues

variable {t t' t'' : Timeline}

theorem refl (t : Timeline) : Continues t t := ⟨rfl, id⟩

theorem trans (h : Continues t t') (h' : Continues t' t'') : Continues t t'' :=
  ⟨h'.dates_eq.trans h.dates_eq, h'.tidy ∘ h.tidy⟩

theorem of_forall₂ (h : List.Forall₂ Day.Continues t.days t'.days) : Continues t t' where
  dates_eq := by
    have hdates : List.Forall₂ (· = ·) (t'.days.map Day.date) (t.days.map Day.date) :=
      List.forall₂_map_left_iff.mpr (List.forall₂_map_right_iff.mpr
        (h.imp fun _ _ hd => hd.date_eq).flip)
    rwa [List.forall₂_eq_eq_eq] at hdates
  tidy htidy := Step.forall_mem_of_forall₂ h (fun _ _ hd hd' => hd.tidy hd') htidy

end Continues

section Days

variable {α : Type} {r : Day → Day → Prop} {R : Timeline → Timeline → Prop}

theorem keeps_onDays (lift : ∀ {t t'}, List.Forall₂ r t.days t'.days → R t t')
    {f : Step (List Day) α} (hf : Step.Keeps (List.Forall₂ r) f) : Step.Keeps R (onDays f) :=
  hf.within fun _ _ h => lift h

theorem keeps_onDay (refl : ∀ d, r d d) (lift : ∀ {t t'}, List.Forall₂ r t.days t'.days → R t t')
    (trans : ∀ {t t' t''}, R t t' → R t' t'' → R t t'') {f : Step Day α} (hf : Step.Keeps r f)
    (date : Date) : Step.Keeps R (onDay date f) := by
  refine (keeps_onDays lift (hf.onFirst refl _)).bind trans fun found t => ?_
  have hsame : R t t := lift (List.forall₂_same.mpr fun d _ => refl d)
  cases found <;> exact hsame

theorem keeps_deleteFrom (refl : ∀ d, r d d) {id : Id} (hr : Step.Keeps r (Day.delete id)) :
    Step.Keeps (List.Forall₂ r) (deleteFrom id) := by
  intro l
  have hrefl : ∀ l, List.Forall₂ r l l := fun l => List.forall₂_same.mpr fun d _ => refl d
  induction l with
  | nil => exact .nil
  | cons d rest ih =>
    have hd := hr d
    simp only [Step.run, deleteFrom] at hd ih ⊢
    split
    · rename_i h
      rw [h] at hd
      exact .cons hd (hrefl rest)
    · rename_i h
      rw [h] at hd
      exact .cons hd (hrefl rest)
    · rename_i h
      rw [h] at hd
      exact .cons hd ih

end Days

theorem keeps_add (a : Activity) : Step.Keeps Continues (add a) :=
  keeps_onDay .refl .of_forall₂ .trans (Day.keeps_add a) a.date

theorem keeps_delete (id : Id) : Step.Keeps Continues (delete id) :=
  keeps_onDays .of_forall₂ (keeps_deleteFrom .refl (Day.keeps_delete id))

theorem keeps_lock : Step.Keeps Continues lock :=
  keeps_onDays .of_forall₂ (Day.keeps_lock.each .refl)

theorem keeps_unlock : Step.Keeps Continues unlock :=
  keeps_onDays .of_forall₂ (Day.keeps_unlock.each .refl)

theorem continues_markExemptBefore (date : Date) (t : Timeline) :
    Continues t (t.markExemptBefore date) := by
  refine .of_forall₂ (List.forall₂_map_right_iff.mpr (List.forall₂_same.mpr fun d _ => ?_))
  split
  · exact Day.continues_markExempt d
  · exact .refl d

theorem continues_copyForCorrection (fresh : ℕ → Id) (t : Timeline) :
    Continues t (t.copyForCorrection fresh) := by
  refine .of_forall₂ ?_
  unfold copyForCorrection
  generalize t.days = days
  induction days generalizing fresh with
  | nil => exact .nil
  | cons d rest ih => exact .cons (Day.continues_copyForCorrection fresh d) (ih _)

end Timeline

end Fortnight
