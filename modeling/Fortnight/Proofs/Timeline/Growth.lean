import Fortnight.Proofs.Timeline.Reporting

/-!
# Timelines grow

What was entered for a day stays there. An operation on a timeline puts new
activities behind those that the days have, and of these it changes the state
alone. The states that one operation leads to are those of `Follows`. No number
of operations leads out of a deletion.
-/

namespace Fortnight

section Places

variable {α : Type} {R : α → α → Prop} {l m n : List α}

theorem forall₂_trans (trans : ∀ a b c, R a b → R b c → R a c) (h : List.Forall₂ R l m)
    (h' : List.Forall₂ R m n) : List.Forall₂ R l n := by
  induction h generalizing n with
  | nil => exact h'
  | @cons a b _ _ hab _ ih =>
    cases h' with
    | cons hbc hrest => exact .cons (trans a b _ hab hbc) (ih hrest)

theorem forall₂_replace (refl : ∀ a, R a a) {a b : α} (hab : R a b) (before after : List α) :
    List.Forall₂ R (before ++ a :: after) (before ++ b :: after) := by
  induction before with
  | nil => exact .cons hab (List.forall₂_same.mpr fun c _ => refl c)
  | cons c before ih => exact .cons (refl c) ih

end Places

namespace ActivityState

/-- The states that an operation can leave an activity in. -/
inductive Follows : ActivityState → ActivityState → Prop
  | same (s : ActivityState) : Follows s s
  | lock : Follows .unlocked .locked
  | unlock : Follows .locked .unlocked
  | delete : Follows .unlocked .deleted

theorem follows_change (c : ActivityChange) : Follows c.source c.target := by
  cases c <;> constructor

/-- Whatever else happens to an activity, once it is deleted it stays so. -/
def Outlasts (s s' : ActivityState) : Prop :=
  s = .deleted → s' = .deleted

theorem Follows.outlasts {s s' : ActivityState} (h : Follows s s') : Outlasts s s' := by
  intro hs
  cases h with
  | same => exact hs
  | lock | unlock | delete => cases hs

end ActivityState

open ActivityState (Follows)

variable {moves moves' : ActivityState → ActivityState → Prop}

namespace Activity

/-- Holds when an activity is as it was but for its state. -/
structure Becomes (moves : ActivityState → ActivityState → Prop) (a b : Activity) : Prop where
  eq : b = { a with state := b.state }
  state : moves a.state b.state

namespace Becomes

variable {a b c : Activity}

theorem refl (hrefl : ∀ s, moves s s) (a : Activity) : Becomes moves a a :=
  ⟨rfl, hrefl a.state⟩

theorem trans (htrans : ∀ s s' s'', moves s s' → moves s' s'' → moves s s'')
    (h : Becomes moves a b) (h' : Becomes moves b c) : Becomes moves a c where
  eq := by
    rw [h'.eq, h.eq]
  state := htrans _ _ _ h.state h'.state

theorem mono (himp : ∀ s s', moves s s' → moves' s s') (h : Becomes moves a b) :
    Becomes moves' a b :=
  ⟨h.eq, himp _ _ h.state⟩

end Becomes

/-- A change that can be made leads to a state that follows. -/
theorem becomes_changed {c : ActivityChange} {a : Activity} (h : a.isLive → a.state = c.source) :
    Becomes Follows a (a.changed c) := by
  unfold changed
  split
  · rename_i hlive
    refine ⟨rfl, ?_⟩
    rw [h hlive]
    exact ActivityState.follows_change c
  · exact .refl .same a

end Activity

namespace Day

/-- Holds when the activities of a day come first, and in their order, on a later
one of the same date. -/
structure Extends (moves : ActivityState → ActivityState → Prop) (d d' : Day) : Prop where
  date_eq : d'.date = d.date
  activities : ∃ kept added, d'.activities = kept ++ added ∧
    List.Forall₂ (Activity.Becomes moves) d.activities kept

namespace Extends

variable {d d' d'' : Day}

theorem of_forall₂ {as : List Activity} {policy : DayPolicy} {exempt : Bool}
    (h : List.Forall₂ (Activity.Becomes moves) d.activities as) :
    Extends moves d ⟨d.date, as, policy, exempt⟩ :=
  ⟨rfl, as, [], (List.append_nil as).symm, h⟩

theorem refl (hrefl : ∀ s, moves s s) (d : Day) : Extends moves d d :=
  of_forall₂ (List.forall₂_same.mpr fun a _ => .refl hrefl a)

theorem trans (htrans : ∀ s s' s'', moves s s' → moves s' s'' → moves s s'')
    (h : Extends moves d d') (h' : Extends moves d' d'') : Extends moves d d'' where
  date_eq := h'.date_eq.trans h.date_eq
  activities := by
    obtain ⟨kept, added, hactivities, hkept⟩ := h.activities
    obtain ⟨kept', added', hactivities', hkept'⟩ := h'.activities
    -- What was kept first is a first part of all that is kept later.
    have hfirst := List.forall₂_take kept.length hkept'
    rw [hactivities, List.take_left] at hfirst
    refine ⟨_, kept'.drop kept.length ++ added', ?_,
      forall₂_trans (fun _ _ _ => Activity.Becomes.trans htrans) hkept hfirst⟩
    rw [← List.append_assoc, List.take_append_drop, hactivities']

theorem mono (himp : ∀ s s', moves s s' → moves' s s') (h : Extends moves d d') :
    Extends moves' d d' where
  date_eq := h.date_eq
  activities := by
    obtain ⟨kept, added, hactivities, hkept⟩ := h.activities
    exact ⟨kept, added, hactivities, hkept.imp fun _ _ hab => hab.mono himp⟩

end Extends

/-- A day on which every live activity can be changed and is. -/
theorem extends_withChanged {c : ActivityChange} {d : Day} {policy : DayPolicy}
    (h : ∀ a ∈ d.liveActivities, a.state = c.source) :
    Extends Follows d { d.withChanged c with policy } := by
  refine .of_forall₂ (List.forall₂_map_right_iff.mpr (List.forall₂_same.mpr fun a ha => ?_))
  apply Activity.becomes_changed
  intro hlive
  exact h a (List.mem_filter.mpr ⟨ha, hlive⟩)

theorem extends_of_add {a : Activity} {d d' : Day} (h : (add a).run d = (.ok (), d')) :
    Extends Follows d d' := by
  obtain ⟨_, rfl⟩ := run_add_eq_ok_iff.mp h
  refine ⟨rfl, d.activities, [a], rfl, List.forall₂_same.mpr fun b _ => ?_⟩
  exact .refl .same b

theorem extends_of_delete {id : Id} {d d' : Day} (h : (delete id).run d = (.ok true, d')) :
    Extends Follows d d' := by
  obtain ⟨before, a, after, hactivities, _, _, hstate, rfl⟩ := run_delete_eq_ok_true_iff.mp h
  apply Extends.of_forall₂
  rw [hactivities]
  refine forall₂_replace (.refl .same) ⟨rfl, ?_⟩ before after
  rw [hstate]
  exact .delete

end Day

namespace Timeline

/-- Holds when every day is continued in its place. -/
def Extends (moves : ActivityState → ActivityState → Prop) (t t' : Timeline) : Prop :=
  List.Forall₂ (Day.Extends moves) t.days t'.days

namespace Extends

variable {t t' t'' : Timeline}

theorem refl (hrefl : ∀ s, moves s s) (t : Timeline) : Extends moves t t :=
  List.forall₂_same.mpr fun d _ => .refl hrefl d

theorem trans (htrans : ∀ s s' s'', moves s s' → moves s' s'' → moves s s'')
    (h : Extends moves t t') (h' : Extends moves t' t'') : Extends moves t t'' :=
  forall₂_trans (fun _ _ _ => Day.Extends.trans htrans) h h'

theorem mono (himp : ∀ s s', moves s s' → moves' s s') (h : Extends moves t t') :
    Extends moves' t t' :=
  h.imp fun _ _ hd => hd.mono himp

end Extends

section Operations

variable {t t' : Timeline}

theorem extends_of_add {a : Activity} (h : (add a).run t = (.ok (), t')) :
    t.Extends Follows t' := by
  obtain ⟨before, d, d', after, hdays, _, _, hadd, rfl⟩ := run_onDay_eq_ok_iff.mp h
  unfold Extends
  rw [hdays]
  exact forall₂_replace (.refl .same) (Day.extends_of_add hadd) before after

theorem extends_of_delete {id : Id} (h : (delete id).run t = (.ok (), t')) :
    t.Extends Follows t' := by
  obtain ⟨days, hrun, rfl⟩ := run_delete_eq_ok_iff.mp h
  obtain ⟨before, d, d', after, hdays, _, hdelete, rfl⟩ := run_deleteFrom_eq_ok_iff.mp hrun
  unfold Extends
  rw [hdays]
  exact forall₂_replace (.refl .same) (Day.extends_of_delete hdelete) before after

theorem extends_of_lock (h : lock.run t = (.ok (), t')) : t.Extends Follows t' := by
  obtain ⟨hunlocked, rfl⟩ := run_lock_eq_ok_iff.mp h
  refine List.forall₂_map_right_iff.mpr (List.forall₂_same.mpr fun d hd => ?_)
  exact Day.extends_withChanged (hunlocked d hd)

theorem extends_of_unlock (h : unlock.run t = (.ok (), t')) : t.Extends Follows t' := by
  obtain ⟨hlocked, rfl⟩ := run_unlock_eq_ok_iff.mp h
  refine List.forall₂_map_right_iff.mpr (List.forall₂_same.mpr fun d hd => ?_)
  exact Day.extends_withChanged (hlocked d hd)

end Operations

end Timeline

end Fortnight
