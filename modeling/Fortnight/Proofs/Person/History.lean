import Fortnight.Proofs.History
import Fortnight.Proofs.Person.Reachable

/-!
# Histories of obligations

The snapshots of a reachable person are filed under the instants from which
their obligations count. The run of obligations that is in effect began on the
date of one of them.
-/

namespace Fortnight

namespace History

/-- Holds when snapshots are filed under the instants from which they count, of
which one is the first instant of all. -/
structure Anchored (h : History Obligation) : Prop where
  key_eq : ∀ snapshot ∈ h, snapshot.1 = snapshot.2.effectiveFrom
  exists_first : ∃ snapshot ∈ h, snapshot.1 = Instant.first

namespace Anchored

variable {h : History Obligation}

theorem new (id : Id) (ident : String) : Anchored (Person.new id ident).obligations where
  key_eq := Register.forall_mem_insert (fun _ hs => absurd hs (Register.not_mem_empty _)) rfl
  exists_first := ⟨_, Register.mem_insert.mpr (Or.inl rfl), rfl⟩

theorem put (hanchored : Anchored h) (o : Obligation) : Anchored (h.put o.effectiveFrom o) where
  key_eq := Register.forall_mem_insert hanchored.key_eq rfl
  exists_first := by
    obtain ⟨snapshot, hs, hfirst⟩ := hanchored.exists_first
    by_cases hkey : snapshot.1 = o.effectiveFrom
    · exact ⟨_, Register.mem_insert.mpr (Or.inl rfl), hkey.symm.trans hfirst⟩
    · exact ⟨snapshot, Register.mem_insert.mpr (Or.inr ⟨hs, hkey⟩), hfirst⟩

theorem exists_asOf (hanchored : Anchored h) (moment : Instant) : ∃ o, h.asOf moment = .ok o := by
  obtain ⟨snapshot, hs, hfirst⟩ := hanchored.exists_first
  have hmem : snapshot ∈ h.upTo moment := by
    refine mem_upTo.mpr ⟨hs, ?_⟩
    rw [hfirst]
    exact moment.first_le
  cases hlast : (h.upTo moment).getLast? with
  | none =>
    rw [List.getLast?_eq_none_iff.mp hlast] at hmem
    cases hmem
  | some last => exact ⟨last.2, asOf_eq_ok_iff.mpr ⟨last.1, hlast⟩⟩

/-- The obligations of a history give it back, since the one at the first
instant replaces the only one that a new person has. -/
theorem foldl_put (hanchored : Anchored h) (id : Id) (ident : String) :
    (h.toList.map Prod.snd).foldl (fun h o => h.put o.effectiveFrom o)
      (Person.new id ident).obligations = h := by
  rw [List.foldl_map]
  have hput : ∀ (g : History Obligation), ∀ snapshot ∈ h.toList,
      g.put snapshot.2.effectiveFrom snapshot.2 = g.insert snapshot := by
    intro g snapshot hs
    rw [History.put, ← hanchored.key_eq snapshot hs]
  rw [List.foldl_ext _ _ _ hput]
  refine h.foldl_insert_toList fun snapshot hs => ?_
  -- All that a new person has is replaced, since the history has the first instant as well.
  obtain ⟨a, ha, hfirst⟩ := hanchored.exists_first
  rcases Register.mem_insert.mp hs with rfl | ⟨hs, _⟩
  · exact ⟨a, ha, hfirst.symm⟩
  · exact absurd hs (Register.not_mem_empty snapshot)

end Anchored

end History

namespace Person

variable {p : Person} {past : List (Instant × Obligation)} {moment : Instant} {o : Obligation}
  {date : Date}

theorem Reachable.anchored (h : Reachable p) : History.Anchored p.obligations :=
  h.obligations_induction History.Anchored.new fun _ o hanchored => hanchored.put o

/-- The date on which the run of obligations began with which some snapshots end,
if they end with one. -/
def runOf (past : List (Instant × Obligation)) : Option Date :=
  (past.map Prod.snd).foldl continueRun none

theorem runOf_concat (past : List (Instant × Obligation)) (snapshot : Instant × Obligation) :
    runOf (past ++ [snapshot]) = continueRun (runOf past) snapshot.2 := by
  simp [runOf]

theorem continueRun_of_absent (h : o.kind = .absent) (since : Option Date) :
    continueRun since o = none := by
  simp [continueRun, h]

theorem continueRun_of_present (h : o.kind ≠ .absent) (since : Option Date) :
    continueRun since o = some (since.getD o.startDate) := by
  unfold continueRun
  split
  · contradiction
  · rfl
  · rfl

theorem runOf_of_absent (hlast : past.getLast? = some (moment, o)) (h : o.kind = .absent) :
    runOf past = none := by
  obtain ⟨before, rfl⟩ := List.getLast?_eq_some_iff.mp hlast
  rw [runOf_concat, continueRun_of_absent h]

theorem exists_of_runOf (h : runOf past = some date) :
    ∃ snapshot ∈ past, snapshot.2.startDate = date := by
  induction past using List.reverseRecOn with
  | nil => simp [runOf] at h
  | append_singleton past snapshot ih =>
    rw [runOf_concat] at h
    by_cases hkind : snapshot.2.kind = .absent
    · rw [continueRun_of_absent hkind] at h
      cases h
    · rw [continueRun_of_present hkind] at h
      cases hrun : runOf past with
      | none =>
        rw [hrun] at h
        exact ⟨snapshot, by simp, Option.some.inj h⟩
      | some began =>
        rw [hrun] at h
        obtain ⟨first, hfirst, hdate⟩ := ih (hrun.trans h)
        exact ⟨first, List.mem_append_left _ hfirst, hdate⟩

theorem obligatedSince_eq_ok_iff :
    p.obligatedSince moment = .ok date ↔ runOf (p.obligations.upTo moment) = some date := by
  unfold obligatedSince runOf History.upTo
  dsimp only
  split
  · rename_i began hrun
    simp [hrun]
  · rename_i hrun
    simp [hrun]

end Person

end Fortnight
