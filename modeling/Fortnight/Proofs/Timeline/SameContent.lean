import Fortnight.Proofs.Hours.Size
import Fortnight.Proofs.Timeline
import Fortnight.Proofs.Timeline.Content

/-!
# When two timelines report the same

What is reported for a day is how often each type occurs among its live activities
with each number of hours. The content of a day says this and no more: it is a
sorted list of normalized hours, and there is one such list for each report. So two
timelines have the same content exactly if they have the same dates and the same
reports for them.

Put the other way round, content is all that is left if nobody looks at identifiers
and locks, at deleted activities, at the order of activities, at how their hours are
written, and at what may still be added to a day (`Day.Unseen`).
-/

namespace Fortnight

theorem ActivityType.rank_injective : Function.Injective rank := by
  intro a b h
  cases a <;> cases b <;> first | rfl | cases h

theorem perm_map_of_factorsThrough {α β γ : Type} {f : α → β} {g : α → γ}
    (hg : g.FactorsThrough f) {l m : List α} (h : (l.map f).Perm (m.map f)) :
    (l.map g).Perm (m.map g) := by
  cases l with
  | nil =>
    rw [List.map_eq_nil_iff.mp h.nil_eq.symm]
  | cons a l =>
    have : Nonempty γ := ⟨g a⟩
    obtain ⟨e, rfl⟩ := (Function.factorsThrough_iff g).mp hg
    simpa using h.map e

theorem forall₂_and {α β : Type} {R S : α → β → Prop} {l : List α} {m : List β}
    (h : List.Forall₂ R l m) (h' : List.Forall₂ S l m) :
    List.Forall₂ (fun a b => R a b ∧ S a b) l m := by
  induction h with
  | nil => exact .nil
  | cons hab _ ih =>
    cases h' with
    | cons hab' hrest => exact .cons ⟨hab, hab'⟩ (ih hrest)

namespace Day

variable {d e : Day}

theorem entryLE_iff {a b : Entry} :
    entryLE a b = true ↔ a.1.rank < b.1.rank ∨ a.1 = b.1 ∧ a.2.value ≤ b.2.value := by
  unfold entryLE
  split
  · rename_i htype
    simp [htype, Hours.lt_iff_value]
  · rename_i htype
    have hrank : a.1.rank ≠ b.1.rank := fun h => htype (ActivityType.rank_injective h)
    simp [htype]
    omega

theorem entryLE_trans {a b c : Entry} (hab : entryLE a b) (hbc : entryLE b c) : entryLE a c := by
  rw [entryLE_iff] at *
  rcases hab with hab | ⟨hab, hle⟩
  · rcases hbc with hbc | ⟨hbc, _⟩
    · exact Or.inl (hab.trans hbc)
    · exact Or.inl (hbc ▸ hab)
  · rcases hbc with hbc | ⟨hbc, hle'⟩
    · exact Or.inl (hab ▸ hbc)
    · exact Or.inr ⟨hab.trans hbc, hle.trans hle'⟩

theorem entryLE_total (a b : Entry) : (entryLE a b || entryLE b a) = true := by
  rw [Bool.or_eq_true, entryLE_iff, entryLE_iff]
  rcases lt_trichotomy a.1.rank b.1.rank with hlt | heq | hlt
  · exact Or.inl (Or.inl hlt)
  · have htype := ActivityType.rank_injective heq
    rcases le_total a.2.value b.2.value with hle | hle
    · exact Or.inl (Or.inr ⟨htype, hle⟩)
    · exact Or.inr (Or.inr ⟨htype.symm, hle⟩)
  · exact Or.inr (Or.inl hlt)

theorem pairwise_content (d : Day) : d.content.Pairwise fun a b => entryLE a b :=
  @List.pairwise_mergeSort _ entryLE (fun _ _ _ => entryLE_trans) entryLE_total _

theorem content_perm (d : Day) :
    d.content.Perm (d.liveActivities.map fun a => (a.type, a.hours.normalize)) :=
  List.mergeSort_perm _ _

theorem normal_of_mem_content {entry : Entry} (h : entry ∈ d.content) : entry.2.Normal := by
  obtain ⟨a, _, rfl⟩ := List.mem_map.mp (d.content_perm.mem_iff.mp h)
  exact a.hours.normal_normalize

theorem eq_of_entryLE {a b : Entry} (ha : a.2.Normal) (hb : b.2.Normal) (hab : entryLE a b)
    (hba : entryLE b a) : a = b := by
  rw [entryLE_iff] at hab hba
  rcases hab with hlt | ⟨htype, hle⟩
  · rcases hba with hlt' | ⟨htype, _⟩
    · exact absurd hlt (Nat.lt_asymm hlt')
    · exact absurd hlt (htype ▸ Nat.lt_irrefl _)
  · rcases hba with hlt | ⟨_, hge⟩
    · exact absurd hlt (htype ▸ Nat.lt_irrefl _)
    · exact Prod.ext htype (ha.eq hb (le_antisymm hle hge))

/-- What is reported for the day: the types of its live activities and the numbers of
their hours, each as often as it occurs. -/
def report (d : Day) : Multiset (ActivityType × ℚ) :=
  (d.liveActivities.map fun a => (a.type, a.hours.value) : List (ActivityType × ℚ))

/-- There is one content for each report. -/
theorem content_eq_iff : d.content = e.content ↔ d.report = e.report := by
  have hentry : (fun a : Activity => (a.type, a.hours.normalize)).FactorsThrough
      fun a => (a.type, a.hours.value) := by
    intro a b h
    obtain ⟨htype, hvalue⟩ := Prod.mk.inj h
    exact Prod.ext htype (Hours.normalize_eq_iff.mpr hvalue)
  have hvalue : (fun a : Activity => (a.type, a.hours.value)).FactorsThrough
      fun a => (a.type, a.hours.normalize) := by
    intro a b h
    obtain ⟨htype, hnormalize⟩ := Prod.mk.inj h
    exact Prod.ext htype (Hours.normalize_eq_iff.mp hnormalize)
  unfold report
  rw [Multiset.coe_eq_coe]
  constructor
  · intro h
    apply perm_map_of_factorsThrough hvalue
    exact d.content_perm.symm.trans (h ▸ e.content_perm)
  · intro h
    have hperm := perm_map_of_factorsThrough hentry h
    refine List.Perm.eq_of_pairwise (fun a b ha hb => ?_) d.pairwise_content e.pairwise_content
      (d.content_perm.trans (hperm.trans e.content_perm.symm))
    exact eq_of_entryLE (normal_of_mem_content ha) (normal_of_mem_content hb)

/-- A change of a day that is not seen in its content. -/
inductive Unseen (d : Day) : Day → Prop
  /-- An activity gets another identifier or date, is locked or unlocked, or has its hours
  written in another way. -/
  | rewritten {before after : List Activity} {a b : Activity} :
      d.activities = before ++ a :: after → b.type = a.type → b.hours.SameSize a.hours →
      b.isLive = a.isLive → Unseen d { d with activities := before ++ b :: after }
  /-- An activity that is deleted anyhow is dropped. -/
  | dropped {before after : List Activity} {a : Activity} :
      d.activities = before ++ a :: after → a.state = .deleted →
      Unseen d { d with activities := before ++ after }
  | reordered {activities : List Activity} :
      d.activities.Perm activities → Unseen d { d with activities }
  | reopened (policy : DayPolicy) (exempt : Bool) : Unseen d { d with policy, exempt }

theorem Unseen.date_eq (h : Unseen d e) : e.date = d.date := by
  cases h <;> rfl

theorem Unseen.report_eq (h : Unseen d e) : e.report = d.report := by
  cases h with
  | @rewritten before after a b hactivities htype hsize hlive =>
    have hvalue := Hours.sameSize_iff_value.mp hsize
    cases hdead : a.isLive with
    | false => simp [report, liveActivities, hactivities, hlive, hdead]
    | true => simp [report, liveActivities, hactivities, hlive, hdead, htype, hvalue]
  | dropped hactivities hstate =>
    simp [report, liveActivities, hactivities, Activity.isLive, hstate]
  | reordered hperm =>
    rw [report, report, Multiset.coe_eq_coe]
    exact ((hperm.filter Activity.isLive).map _).symm
  | reopened => rfl

/-- Activities that can be replaced one by one without its being seen can be so all together. -/
theorem eqvGen_flatMap {g : Activity → List Activity}
    (hg : ∀ before a after, Relation.EqvGen Unseen { d with activities := before ++ a :: after }
      { d with activities := before ++ g a ++ after }) (before l : List Activity) :
    Relation.EqvGen Unseen { d with activities := before ++ l }
      { d with activities := before ++ l.flatMap g } := by
  induction l generalizing before with
  | nil => exact .refl _
  | cons a l ih =>
    refine .trans _ _ _ (hg before a l) ?_
    rw [List.flatMap_cons, ← List.append_assoc]
    exact ih (before ++ g a)

/-- The activity without anything that is not reported. -/
def reported (date : Date) (a : Activity) : List Activity :=
  if a.isLive then [.create ⟨0, by decide⟩ date a.hours.normalize a.type] else []

theorem eqvGen_reported (before : List Activity) (a : Activity) (after : List Activity) :
    Relation.EqvGen Unseen { d with activities := before ++ a :: after }
      { d with activities := before ++ reported d.date a ++ after } := by
  apply Relation.EqvGen.rel
  rw [List.append_assoc]
  unfold reported
  split
  · rename_i hlive
    have hsize := Hours.sameSize_iff_value.mpr a.hours.value_normalize
    exact .rewritten rfl rfl hsize hlive.symm
  · rename_i hlive
    exact .dropped rfl (by simpa [Activity.isLive] using hlive)

theorem flatMap_reported (date : Date) (activities : List Activity) :
    activities.flatMap (reported date) = (activities.filter Activity.isLive).map fun a =>
      .create ⟨0, by decide⟩ date a.hours.normalize a.type := by
  induction activities with
  | nil => rfl
  | cons a rest ih =>
    cases hlive : a.isLive <;> simp [reported, hlive, ih]

/-- The day that has this content and nothing else to it. -/
def bare (date : Date) (content : List Entry) : Day :=
  ⟨date, content.map fun entry => .create ⟨0, by decide⟩ date entry.2 entry.1,
    .nothingAllowed, false⟩

theorem eqvGen_bare (d : Day) : Relation.EqvGen Unseen d (bare d.date d.content) := by
  have hreported : Relation.EqvGen Unseen d
      { d with activities := d.activities.flatMap (reported d.date) } :=
    eqvGen_flatMap eqvGen_reported [] d.activities
  have hreordered : Unseen { d with activities := d.activities.flatMap (reported d.date) }
      { d with activities := (bare d.date d.content).activities } := by
    apply Unseen.reordered
    rw [flatMap_reported]
    have hcontent := d.content_perm.symm.map fun entry : Entry =>
      Activity.create ⟨0, by decide⟩ d.date entry.2 entry.1
    rwa [List.map_map] at hcontent
  have hreopened : Unseen { d with activities := (bare d.date d.content).activities }
      (bare d.date d.content) :=
    .reopened .nothingAllowed false
  exact .trans _ _ _ hreported (.trans _ _ _ (.rel _ _ hreordered) (.rel _ _ hreopened))

/-- Changes that are not seen lead from a day to all days of its date and content, and
to no other. -/
theorem eqvGen_unseen_iff :
    Relation.EqvGen Unseen d e ↔ d.date = e.date ∧ d.content = e.content := by
  constructor
  · intro h
    rw [content_eq_iff]
    induction h with
    | rel d e h => exact ⟨h.date_eq.symm, h.report_eq.symm⟩
    | refl d => exact ⟨rfl, rfl⟩
    | symm d e _ ih => exact ⟨ih.1.symm, ih.2.symm⟩
    | trans d e f _ _ ih ih' => exact ⟨ih.1.trans ih'.1, ih.2.trans ih'.2⟩
  · rintro ⟨hdate, hcontent⟩
    have hbare := e.eqvGen_bare
    rw [← hdate, ← hcontent] at hbare
    exact .trans _ _ _ d.eqvGen_bare (.symm _ _ hbare)

end Day

namespace Timeline

variable {a b : Timeline}

theorem sameContent_iff : a.sameContent b ↔ a.content = b.content := by
  simp [sameContent]

theorem content_eq_iff_forall₂ :
    a.content = b.content ↔
      List.Forall₂ (fun d e => d.date = e.date ∧ d.content = e.content) a.days b.days := by
  unfold content
  rw [← List.forall₂_eq_eq_eq, List.forall₂_map_left_iff, List.forall₂_map_right_iff]
  simp only [Prod.mk.injEq]

theorem content_eq_iff_report :
    a.content = b.content ↔
      a.dates = b.dates ∧ a.days.map Day.report = b.days.map Day.report := by
  rw [content_eq_iff_forall₂]
  simp only [Day.content_eq_iff, dates, ← List.forall₂_eq_eq_eq, List.forall₂_map_left_iff,
    List.forall₂_map_right_iff]
  constructor
  · intro h
    exact ⟨h.imp fun _ _ h => h.1, h.imp fun _ _ h => h.2⟩
  · rintro ⟨hdates, hreports⟩
    exact forall₂_and hdates hreports

/-- Two timelines report the same exactly if they have the same dates and, day by day, the
same types with the same numbers of hours, equally often. This does not depend on anything
else about the days, and all else is left open by it. -/
theorem sameContent_report :
    (∀ a b : Timeline, a.sameContent b ↔
        a.dates = b.dates ∧ a.days.map Day.report = b.days.map Day.report) ∧
      (∀ a b : Timeline, a.sameContent b ↔
        List.Forall₂ (Relation.EqvGen Day.Unseen) a.days b.days) ∧
      (Equivalence fun a b : Timeline => a.sameContent b = true) ∧
      ∀ (fresh : ℕ → Id) (t : Timeline), (t.copyForCorrection fresh).sameContent t := by
  refine ⟨fun a b => ?_, fun a b => ?_, ?_, fun fresh t => ?_⟩
  · rw [sameContent_iff, content_eq_iff_report]
  · have hunseen : Relation.EqvGen Day.Unseen =
        fun d e => d.date = e.date ∧ d.content = e.content := by
      funext d e
      exact propext Day.eqvGen_unseen_iff
    rw [sameContent_iff, content_eq_iff_forall₂, hunseen]
  · refine ⟨fun _ => sameContent_iff.mpr rfl, fun h => ?_, fun h h' => ?_⟩
    · exact sameContent_iff.mpr (sameContent_iff.mp h).symm
    · exact sameContent_iff.mpr ((sameContent_iff.mp h).trans (sameContent_iff.mp h'))
  · rw [sameContent_iff, content_copyForCorrection]

end Timeline

end Fortnight
