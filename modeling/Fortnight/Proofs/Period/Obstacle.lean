import Fortnight.Proofs.Period.Shape

/-!
# What stands against opening a period

A period is opened unless one of its dates is not supported or its identifier is
taken. The last supported date is no Sunday, so that there is always a day after
the end of a period, on which the next one can start.
-/

namespace Fortnight

namespace Error

variable {α β : Type} {e : Error}

/-- The error says that a date is outside the supported range. -/
def IsOutOfRange (e : Error) : Prop :=
  ∃ date days, e = .illegalState (.outOfRange date days)

theorem bind_eq_error_iff {x : Except Error α} {f : α → Except Error β} :
    (x >>= f) = .error e ↔ x = .error e ∨ ∃ a, x = .ok a ∧ f a = .error e := by
  cases x <;> simp

theorem exists_of_mapM_eq_error {f : α → Except Error β} {l : List α}
    (h : l.mapM f = .error e) : ∃ a ∈ l, f a = .error e := by
  induction l with
  | nil => cases h
  | cons a rest ih =>
    rw [List.mapM_cons] at h
    rcases bind_eq_error_iff.mp h with ha | ⟨_, _, h⟩
    · exact ⟨a, List.mem_cons_self, ha⟩
    · rcases bind_eq_error_iff.mp h with hrest | ⟨_, _, h⟩
      · obtain ⟨b, hb, hfb⟩ := ih hrest
        exact ⟨b, List.mem_cons_of_mem a hb, hfb⟩
      · cases h

end Error

namespace Step

variable {σ α β : Type} {e : Error}

theorem run_orNothing_fst (f : Step σ α) (s : σ) : (f.orNothing.run s).1 = (f.run s).1 := by
  simp only [run, orNothing]
  rcases f s with ⟨_ | _, _⟩ <;> rfl

theorem run_bind_eq_error {f : Step σ α} {g : α → Step σ β} {s : σ}
    (h : ((f >>= g).run s).1 = .error e) :
    (f.run s).1 = .error e ∨ ∃ a t, f.run s = (.ok a, t) ∧ ((g a).run t).1 = .error e := by
  rw [run_bind] at h
  rcases hf : f.run s with ⟨_ | a, t⟩
  · rw [hf] at h
    cases h
    exact Or.inl rfl
  · rw [hf] at h
    exact Or.inr ⟨a, t, rfl, h⟩

end Step

section Obstacles

variable {date start since : Date} {id : Id} {rule : FinalizeRule} {t : PeriodTable} {e : Error}

/-- Nothing but the range of dates stands against a shift by some weeks. -/
theorem Date.obstacle_of_shift {days : ℤ} (hdays : days.natAbs ≤ longestShift)
    (h : date.shift days = .error e) :
    e.IsOutOfRange ∧ ¬ (firstNumber ≤ date.number + days ∧ date.number + days ≤ lastNumber) := by
  rw [shift, if_neg (Nat.not_lt.mpr hdays), plus?, ofNumber?] at h
  split at h
  · cases h
  · rename_i hnone
    cases h
    refine ⟨⟨_, _, rfl⟩, fun hrange => ?_⟩
    rw [dif_pos hrange] at hnone
    cases hnone

theorem Date.obstacle_of_shift_forward {k : ℕ} (hk : k < periodLength)
    (h : date.shift k = .error e) :
    e.IsOutOfRange ∧ lastNumber < date.number + (periodLength - 1) := by
  have hfirst := date.first_le
  rw [periodLength] at hk ⊢
  obtain ⟨hrange, hnot⟩ := obstacle_of_shift (by unfold longestShift; omega) h
  exact ⟨hrange, by omega⟩

theorem Timeline.obstacle_of_starting (h : starting start = .error e) :
    e.IsOutOfRange ∧ Date.lastNumber < start.number + (periodLength - 1) := by
  rcases Error.bind_eq_error_iff.mp h with h | ⟨_, _, h⟩
  · obtain ⟨k, hk, h⟩ := Error.exists_of_mapM_eq_error h
    rcases Error.bind_eq_error_iff.mp h with h | ⟨_, _, h⟩
    · exact Date.obstacle_of_shift_forward (List.mem_range.mp hk) h
    · cases h
  · cases h

theorem Period.obstacle_of_starting (h : starting id start rule = .error e) :
    e.IsOutOfRange ∧ Date.lastNumber < start.number + (periodLength - 1) := by
  rcases Error.bind_eq_error_iff.mp h with h | ⟨finish, hfinish, h⟩
  · exact Date.obstacle_of_shift_forward (k := 13) (by decide) h
  rcases Error.bind_eq_error_iff.mp h with h | ⟨_, _, h⟩
  · -- The Saturday before the end is a day of the period.
    obtain ⟨_, hnot⟩ := Date.obstacle_of_shift (by unfold Date.longestShift; omega) h
    have hnumber := (Date.shift_eq_ok_iff.mp hfinish).2
    have hfirst := start.first_le
    have hlast := finish.le_last
    rw [periodLength] at hnumber
    omega
  rcases Error.bind_eq_error_iff.mp h with h | ⟨_, _, h⟩
  · exact Timeline.obstacle_of_starting h
  · cases h

namespace PeriodTable

theorem obstacle_of_insertNew {p : Period} (h : ((insertNew p).run t).1 = .error e) :
    e = .illegalState (.periodExists p.id) ∧ t.find? p.id ≠ none := by
  cases hfind : t.find? p.id with
  | none =>
    have hok := congrArg Prod.fst (run_insertNew_eq_ok_iff (u := ()).mpr ⟨hfind, rfl⟩)
    cases hok.symm.trans h
  | some q =>
    simp only [Step.run, insertNew, extend, Register.contains, hfind, Option.isSome_some,
      if_true] at h
    exact ⟨(Except.error.inj h).symm, by simp⟩

/-- What stands against a period that is opened is that it does not end in the range of
dates, or that its identifier is taken. -/
theorem obstacle_of_openPeriod (h : ((openPeriod id start since rule).run t).1 = .error e) :
    e.IsOutOfRange ∧ Date.lastNumber < start.number + (periodLength - 1) ∨
      e = .illegalState (.periodExists id) ∧ t.find? id ≠ none := by
  rcases Step.run_bind_eq_error h with hstarting | ⟨p, _, hlook, h⟩
  · exact Or.inl (Period.obstacle_of_starting hstarting)
  obtain ⟨hp, rfl⟩ := Prod.mk.inj hlook
  obtain ⟨_, _, _, _, _, _, rfl⟩ := Period.starting_eq_ok_iff.mp hp
  rcases Step.run_bind_eq_error h with hinsert | ⟨_, _, _, h⟩
  · exact Or.inr (obstacle_of_insertNew hinsert)
  · cases h

theorem exists_run_openPeriod (hrange : start.number + (periodLength - 1) ≤ Date.lastNumber)
    (hnew : t.find? id = none) (since : Date) (rule : FinalizeRule) :
    ∃ q, (openPeriod id start since rule).run t = (.ok [q.stateChanged none], t.insert q) ∧
      q.id = id ∧ t.NewRoot start since q := by
  cases hp : Period.starting id start rule with
  | error e =>
    have hover := (Period.obstacle_of_starting hp).2
    omega
  | ok p =>
    have hid : p.id = id := by
      obtain ⟨_, _, _, _, _, _, rfl⟩ := Period.starting_eq_ok_iff.mp hp
      rfl
    rw [← hid] at hnew
    refine ⟨{ p with timeline := p.timeline.markExemptBefore since }, ?_, hid, hnew,
      id, rule, p, hp, rfl⟩
    refine Step.run_bind_eq_ok_iff.mpr ⟨p, t, by rw [Step.run_ofExcept, hp], ?_⟩
    exact Step.run_bind_eq_ok_iff.mpr ⟨(), _, run_insertNew_eq_ok_iff.mpr ⟨hnew, rfl⟩, rfl⟩

theorem isOutOfRange_of_nextStart (h : t.nextStart since = .error e) : e.IsOutOfRange := by
  unfold nextStart at h
  split at h
  · exact (Date.obstacle_of_shift (by decide) h).1
  · exact (Date.obstacle_of_shift (by unfold Date.weekday Date.longestShift; omega) h).1

theorem obstacle_of_openNext (h : ((openNext id since date rule).run t).1 = .error e) :
    e.IsOutOfRange ∨ e = .illegalState (.periodExists id) := by
  rcases Step.run_bind_eq_error h with hstart | ⟨_, _, _, h⟩
  · exact Or.inl (isOutOfRange_of_nextStart hstart)
  split at h
  · cases h
  · exact (obstacle_of_openPeriod h).imp And.left And.left

end PeriodTable

end Obstacles

end Fortnight
