import Fortnight.Proofs.Timeline.Reporting

/-!
# Failures that change no day

An activity is looked at before it is changed, and a day before an activity is
put into it. So whatever fails in a day or a timeline has left it as it was,
whatever it is like. Locking and unlocking are not of this kind: they stop at the
first activity that is not in the right state, and the ones before it are changed
by then.
-/

namespace Fortnight

theorem Activity.atomicAt_change (c : ActivityChange) (a : Activity) :
    Step.AtomicAt (change c) a := by
  intro e
  simp only [Step.run, change]
  split
  · simp
  · exact fun _ => rfl

namespace Day

theorem atomicAt_add (a : Activity) (d : Day) : Step.AtomicAt (add a) d := by
  intro e
  simp only [Step.run, add]
  cases d.conflict? a with
  | some c => exact fun _ => rfl
  | none => simp

theorem atomicAt_delete (id : Id) (d : Day) : Step.AtomicAt (delete id) d := by
  apply Step.AtomicAt.within rfl
  apply Step.AtomicAt.map
  exact Step.atomicAt_onFirst (Activity.atomicAt_change .delete) d.activities

end Day

namespace Timeline

theorem atomicAt_onDay {α : Type} {f : Step Day α} (hf : ∀ d, Step.AtomicAt f d) (date : Date)
    (t : Timeline) : Step.AtomicAt (onDay date f) t := by
  apply Step.AtomicAt.bind (Step.AtomicAt.within rfl (Step.atomicAt_onFirst hf t.days))
  intro found t' h
  cases found with
  | some a => exact Or.inl ⟨a, t', rfl⟩
  | none =>
    -- Without a day of the date nothing was done yet.
    obtain ⟨days, hdays, rfl⟩ := Step.run_within_eq_ok_iff.mp h
    obtain ⟨_, rfl⟩ := Step.run_onFirst_eq_ok_none_iff.mp hdays
    exact Or.inr ⟨rfl, Step.atomicAt_of_snd_eq rfl⟩

theorem atomicAt_add (a : Activity) (t : Timeline) : Step.AtomicAt (add a) t :=
  atomicAt_onDay (Day.atomicAt_add a) a.date t

theorem atomicAt_deleteFrom (id : Id) (days : List Day) :
    Step.AtomicAt (deleteFrom id) days := by
  intro e
  induction days with
  | nil => exact fun _ => rfl
  | cons d rest ih =>
    have hday := Day.atomicAt_delete id d
    simp only [Step.AtomicAt, Step.run, deleteFrom] at hday ih ⊢
    split
    · rename_i e' d' h
      rw [h] at hday
      obtain rfl : d' = d := hday e' rfl
      exact fun _ => rfl
    · simp
    · rename_i d' h
      obtain ⟨_, rfl⟩ := Day.run_delete_eq_ok_false_iff.mp h
      intro he
      rw [ih he]

theorem atomicAt_delete (id : Id) (t : Timeline) : Step.AtomicAt (delete id) t :=
  Step.AtomicAt.within rfl (atomicAt_deleteFrom id t.days)

end Timeline

end Fortnight
