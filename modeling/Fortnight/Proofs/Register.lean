import Fortnight.Register

/-!
# Registers that are written to

Values that are put in under different keys can be put in in any order. A value
that is put in the place of another one is a change of that value alone, and so
a case of `map`, which changes all values in their places.
-/

namespace Fortnight

namespace Register

variable {α κ : Type} [Ranked κ] {key : α → κ} {r : Register key} {a b : α} {k : κ} {l m : List α}

/-- Every value changed in its place, under the key that it has. -/
def map (r : Register key) (f : α → α) (h : ∀ a, key (f a) = key a) : Register key :=
  ⟨r.toList.map f, by
    apply List.pairwise_map.mpr
    simpa only [h] using r.ascending⟩

section Map

variable {f g : α → α} {hf : ∀ a, key (f a) = key a} {hg : ∀ a, key (g a) = key a}

@[simp] theorem toList_map : (r.map f hf).toList = r.toList.map f := rfl

@[simp] theorem mem_map : b ∈ r.map f hf ↔ ∃ a ∈ r, f a = b := by
  simp [mem_def]

theorem map_eq_self (h : ∀ a ∈ r, f a = a) : r.map f hf = r := by
  apply ext_toList
  rw [toList_map]
  exact (List.map_congr_left h).trans (List.map_id _)

theorem map_insert_of_mem (ha : a ∈ r) (hkey : key b = key a) (hsame : f b = f a) :
    (r.insert b).map f hf = r.map f hf := by
  apply ext_mem
  intro c
  simp only [mem_map, mem_insert]
  constructor
  · rintro ⟨d, rfl | ⟨hd, _⟩, rfl⟩
    · exact ⟨a, ha, hsame.symm⟩
    · exact ⟨d, hd, rfl⟩
  · rintro ⟨d, hd, rfl⟩
    by_cases hdb : key d = key b
    · obtain rfl := eq_of_key_eq hd ha (hdb.trans hkey)
      exact ⟨b, Or.inl rfl, hsame⟩
    · exact ⟨d, Or.inr ⟨hd, hdb⟩, rfl⟩

end Map

theorem insert_comm (r : Register key) (h : key a ≠ key b) :
    (r.insert a).insert b = (r.insert b).insert a := by
  apply ext_mem
  intro c
  simp only [mem_insert]
  constructor
  · rintro (rfl | ⟨rfl | ⟨hc, hca⟩, hcb⟩)
    · exact Or.inr ⟨Or.inl rfl, h.symm⟩
    · exact Or.inl rfl
    · exact Or.inr ⟨Or.inr ⟨hc, hcb⟩, hca⟩
  · rintro (rfl | ⟨rfl | ⟨hc, hcb⟩, hca⟩)
    · exact Or.inr ⟨Or.inl rfl, h⟩
    · exact Or.inl rfl
    · exact Or.inr ⟨Or.inr ⟨hc, hca⟩, hcb⟩

theorem foldl_insert_insert (h : ∀ b ∈ l, key b ≠ key a) :
    l.foldl insert (r.insert a) = (l.foldl insert r).insert a := by
  induction l generalizing r with
  | nil => rfl
  | cons b l ih =>
    obtain ⟨hb, hl⟩ := List.forall_mem_cons.mp h
    rw [List.foldl_cons, List.foldl_cons, insert_comm r hb.symm, ih hl]

theorem find?_insert_eq_none_iff : (r.insert a).find? k = none ↔ key a ≠ k ∧ r.find? k = none := by
  rw [find?_insert]
  by_cases hkey : key a = k
  · simp [hkey]
  · have hrank : rank (key a) ≠ rank k := fun e => hkey (Ranked.eq_of_rank e)
    simp [hkey, hrank]

/-- What is put in under different keys can be put in in either order. -/
theorem foldl_insert_comm (h : ∀ a ∈ l, ∀ b ∈ m, key a ≠ key b) :
    m.foldl insert (l.foldl insert r) = l.foldl insert (m.foldl insert r) := by
  induction l generalizing r with
  | nil => rfl
  | cons a l ih =>
    obtain ⟨ha, hl⟩ := List.forall_mem_cons.mp h
    rw [List.foldl_cons, List.foldl_cons, ih hl, foldl_insert_insert fun b hb => (ha b hb).symm]

theorem find?_foldl_insert_of_ne (h : ∀ a ∈ l, key a ≠ k) :
    (l.foldl insert r).find? k = r.find? k := by
  induction l generalizing r with
  | nil => rfl
  | cons a l ih =>
    obtain ⟨ha, hl⟩ := List.forall_mem_cons.mp h
    have hrank : rank (key a) ≠ rank k := fun e => ha (Ranked.eq_of_rank e)
    rw [List.foldl_cons, ih hl, find?_insert, if_neg hrank]

end Register

end Fortnight
