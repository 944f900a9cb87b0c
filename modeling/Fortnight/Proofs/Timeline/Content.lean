import Fortnight.Proofs.Timeline.Locking

/-!
# What a timeline reports

The content of a timeline is what is live on its days, without regard to the
identifiers and the states of the activities. Locking the days does not change
it, and a copy for a correction has it as well.
-/

namespace Fortnight

namespace Day

theorem content_locked (d : Day) : d.locked.content = d.content := by
  have hlive : d.locked.liveActivities = d.liveActivities.map (Activity.changed .lock) :=
    liveActivities_withChanged (by decide) d
  rw [content, hlive, List.map_map, content]
  congr 1
  apply List.map_congr_left
  intro a _
  simp

theorem liveActivities_copyForCorrection (fresh : ℕ → Id) (d : Day) :
    (d.copyForCorrection fresh).liveActivities = (d.copyForCorrection fresh).activities := by
  apply List.filter_eq_self.mpr
  intro a ha
  obtain ⟨i, _, rfl⟩ := List.mem_mapIdx.mp ha
  rfl

theorem content_copyForCorrection (fresh : ℕ → Id) (d : Day) :
    (d.copyForCorrection fresh).content = d.content := by
  rw [content, liveActivities_copyForCorrection, content]
  congr 1
  apply List.ext_getElem
  · simp [copyForCorrection]
  · intro i _ _
    simp [copyForCorrection, Activity.create]

end Day

namespace Timeline

theorem content_locked (t : Timeline) : content ⟨t.days.map Day.locked⟩ = t.content := by
  simp only [content, List.map_map]
  apply List.map_congr_left
  intro d _
  rw [Function.comp_apply, Day.content_locked]
  rfl

theorem content_copyForCorrection (fresh : ℕ → Id) (t : Timeline) :
    (t.copyForCorrection fresh).content = t.content := by
  unfold content copyForCorrection
  dsimp only
  generalize t.days = days
  induction days generalizing fresh with
  | nil => rfl
  | cons d rest ih =>
    rw [copyDays, List.map_cons, List.map_cons, ih, Day.content_copyForCorrection]
    rfl

end Timeline

end Fortnight
