/-!
# Registers

A register keeps values in the order of a key, one for each key that occurs.
Because the order is part of the type, two registers with the same values are
equal.
-/

namespace Fortnight

/-- A type whose values are ordered by a number that tells them apart. -/
class Ranked (κ : Type) where
  rank : κ → Int
  eq_of_rank : ∀ {a b : κ}, rank a = rank b → a = b

export Ranked (rank)

/-- Values of `α`, ascending by their keys. -/
structure Register {α κ : Type} [Ranked κ] (key : α → κ) where
  toList : List α
  ascending : toList.Pairwise fun a b => rank (key a) < rank (key b)

namespace Register

variable {α κ : Type} [Ranked κ] {key : α → κ}

theorem ext_toList {r s : Register key} (h : r.toList = s.toList) : r = s := by
  cases r; cases s; simp_all

instance [DecidableEq α] : DecidableEq (Register key) := fun r s =>
  if h : r.toList = s.toList then .isTrue (ext_toList h)
  else .isFalse fun e => h (e ▸ rfl)

instance : Membership α (Register key) := ⟨fun r a => a ∈ r.toList⟩

theorem mem_def {a : α} {r : Register key} : a ∈ r ↔ a ∈ r.toList := Iff.rfl

def empty : Register key := ⟨[], List.Pairwise.nil⟩

def size (r : Register key) : Nat := r.toList.length

def find? (r : Register key) (k : κ) : Option α :=
  r.toList.find? fun a => rank (key a) = rank k

def contains (r : Register key) (k : κ) : Bool :=
  (r.find? k).isSome

/-- The value with the greatest key that is not after `k`. -/
def upTo? (r : Register key) (k : κ) : Option α :=
  (r.toList.filter fun a => rank (key a) ≤ rank k).getLast?

def last? (r : Register key) : Option α :=
  r.toList.getLast?

/-- Puts `a` in its place and drops a value with the same key. -/
def insertIntoList (key : α → κ) (a : α) : List α → List α
  | [] => [a]
  | b :: rest =>
    if rank (key a) < rank (key b) then a :: b :: rest
    else if rank (key a) = rank (key b) then a :: rest
    else b :: insertIntoList key a rest

theorem mem_insertIntoList {a b : α} {l : List α} (h : b ∈ insertIntoList key a l) :
    b = a ∨ b ∈ l := by
  induction l with
  | nil => simpa [insertIntoList] using h
  | cons c rest ih =>
    simp only [insertIntoList] at h
    split at h
    · simpa using h
    · split at h
      · simp only [List.mem_cons] at h ⊢
        exact h.imp_right Or.inr
      · simp only [List.mem_cons] at h ⊢
        rcases h with h | h
        · exact Or.inr (Or.inl h)
        · exact (ih h).imp_right Or.inr

theorem pairwise_insertIntoList (a : α) {l : List α}
    (h : l.Pairwise fun a b => rank (key a) < rank (key b)) :
    (insertIntoList key a l).Pairwise fun a b => rank (key a) < rank (key b) := by
  induction l with
  | nil => simp [insertIntoList]
  | cons c rest ih =>
    rw [List.pairwise_cons] at h
    simp only [insertIntoList]
    split
    · rename_i hac
      refine List.pairwise_cons.2 ⟨fun b hb => ?_, List.pairwise_cons.2 h⟩
      rcases List.mem_cons.1 hb with rfl | hb
      · exact hac
      · exact Int.lt_trans hac (h.1 b hb)
    · split
      · rename_i hac
        exact List.pairwise_cons.2 ⟨fun b hb => hac ▸ h.1 b hb, h.2⟩
      · rename_i hlt hne
        refine List.pairwise_cons.2 ⟨fun b hb => ?_, ih h.2⟩
        rcases mem_insertIntoList hb with rfl | hb
        · omega
        · exact h.1 b hb

/-- The register with `a` in it, in the place of the value with the same key if there is one. -/
def insert (r : Register key) (a : α) : Register key :=
  ⟨insertIntoList key a r.toList, pairwise_insertIntoList a r.ascending⟩

def ofList (l : List α) : Register key :=
  l.foldl insert empty

@[simp] theorem find?_empty (k : κ) : (empty : Register key).find? k = none := rfl

/-- After `a` was put in, its key leads to it and other keys lead where they led before. -/
theorem find?_insert (r : Register key) (a : α) (k : κ) :
    (r.insert a).find? k = if rank (key a) = rank k then some a else r.find? k := by
  simp only [find?, insert]
  induction r.toList with
  | nil => by_cases h : rank (key a) = rank k <;> simp [insertIntoList, h]
  | cons b rest ih =>
    simp only [insertIntoList]
    split
    · by_cases h : rank (key a) = rank k <;> simp [h]
    · split
      · rename_i hab
        by_cases h : rank (key a) = rank k
        · simp [h]
        · have hb : rank (key b) ≠ rank k := hab ▸ h
          simp [h, hb]
      · rename_i hne
        by_cases hb : rank (key b) = rank k
        · have h : rank (key a) ≠ rank k := fun e => hne (e.trans hb.symm)
          simp [h, hb]
        · simp [hb, ih]

theorem key_eq_of_find? {r : Register key} {k : κ} {a : α} (h : r.find? k = some a) :
    key a = k :=
  Ranked.eq_of_rank (by simpa using List.find?_some h)

theorem mem_of_find? {r : Register key} {k : κ} {a : α} (h : r.find? k = some a) : a ∈ r :=
  List.mem_of_find?_eq_some h

theorem find?_of_mem {r : Register key} {a : α} (h : a ∈ r) : r.find? (key a) = some a := by
  obtain ⟨l, hl⟩ := r
  simp only [mem_def] at h
  simp only [find?]
  induction l with
  | nil => cases h
  | cons b rest ih =>
    rw [List.pairwise_cons] at hl
    rcases List.mem_cons.1 h with rfl | h
    · simp
    · have hb : rank (key b) ≠ rank (key a) := fun e => by
        have := hl.1 a h
        omega
      simpa [hb] using ih hl.2 h

theorem find?_eq_some_iff {r : Register key} {k : κ} {a : α} :
    r.find? k = some a ↔ a ∈ r ∧ key a = k :=
  ⟨fun h => ⟨mem_of_find? h, key_eq_of_find? h⟩, fun h => h.2 ▸ find?_of_mem h.1⟩

theorem find?_eq_none_iff {r : Register key} {k : κ} :
    r.find? k = none ↔ ∀ a ∈ r, key a ≠ k := by
  constructor
  · intro h a ha hk
    rw [← hk, find?_of_mem ha] at h
    cases h
  · intro h
    cases hf : r.find? k with
    | none => rfl
    | some a => exact absurd (key_eq_of_find? hf) (h a (mem_of_find? hf))

theorem eq_of_key_eq {r : Register key} {a b : α} (ha : a ∈ r) (hb : b ∈ r)
    (h : key a = key b) : a = b := by
  have := find?_of_mem ha
  rw [h, find?_of_mem hb] at this
  exact (Option.some.inj this).symm

theorem contains_iff {r : Register key} {k : κ} : r.contains k = true ↔ ∃ a ∈ r, key a = k := by
  simp only [contains, Option.isSome_iff_exists, find?_eq_some_iff]

@[simp] theorem not_mem_empty (a : α) : a ∉ (empty : Register key) := by
  simp [mem_def, empty]

theorem mem_insert {r : Register key} {a b : α} :
    b ∈ r.insert a ↔ b = a ∨ b ∈ r ∧ key b ≠ key a := by
  have h : b ∈ r.insert a ↔ (r.insert a).find? (key b) = some b :=
    ⟨find?_of_mem, mem_of_find?⟩
  rw [h, find?_insert]
  split
  · rename_i hab
    have hk := Ranked.eq_of_rank hab
    simp [hk, eq_comm]
  · rename_i hab
    have hba : key b ≠ key a := fun e => hab (e ▸ rfl)
    have hne : b ≠ a := fun e => hba (e ▸ rfl)
    simp [find?_eq_some_iff, hba, hne]

theorem forall_mem_insert {r : Register key} {a : α} {P : α → Prop} (h : ∀ b ∈ r, P b)
    (ha : P a) : ∀ b ∈ r.insert a, P b := by
  intro b hb
  rcases mem_insert.1 hb with rfl | ⟨hb, _⟩
  · exact ha
  · exact h b hb

theorem nodup_keys (r : Register key) : (r.toList.map key).Nodup := by
  refine List.pairwise_map.2 (r.ascending.imp fun hab e => ?_)
  rw [e] at hab
  exact Int.lt_irrefl _ hab

/-- When values with keys of their own are put in one after another, they are
there together with what they have not replaced. -/
theorem mem_foldl_insert {l : List α} (hl : (l.map key).Nodup) {r : Register key} {b : α} :
    b ∈ l.foldl insert r ↔ b ∈ l ∨ b ∈ r ∧ ∀ a ∈ l, key b ≠ key a := by
  induction l generalizing r with
  | nil => simp
  | cons a l ih =>
    rw [List.map_cons, List.nodup_cons] at hl
    rw [List.foldl_cons, ih hl.2, mem_insert, List.mem_cons, List.forall_mem_cons]
    constructor
    · rintro (hb | ⟨rfl | ⟨hb, hba⟩, hrest⟩)
      · exact Or.inl (Or.inr hb)
      · exact Or.inl (Or.inl rfl)
      · exact Or.inr ⟨hb, hba, hrest⟩
    · rintro ((rfl | hb) | ⟨hb, hba, hrest⟩)
      · exact Or.inr ⟨Or.inl rfl, fun c hc e => hl.1 (e ▸ List.mem_map_of_mem hc)⟩
      · exact Or.inl hb
      · exact Or.inr ⟨Or.inr ⟨hb, hba⟩, hrest⟩

theorem toList_eq_of_mem_iff {l m : List α}
    (hl : l.Pairwise fun a b => rank (key a) < rank (key b))
    (hm : m.Pairwise fun a b => rank (key a) < rank (key b)) (h : ∀ a, a ∈ l ↔ a ∈ m) :
    l = m := by
  induction l generalizing m with
  | nil => exact (List.eq_nil_iff_forall_not_mem.2 fun a ha => List.not_mem_nil ((h a).2 ha)).symm
  | cons a l ih =>
    cases m with
    | nil => exact absurd ((h a).1 List.mem_cons_self) List.not_mem_nil
    | cons b m =>
      rw [List.pairwise_cons] at hl hm
      have hab : a = b := by
        rcases List.mem_cons.1 ((h a).1 List.mem_cons_self) with e | ha
        · exact e
        · rcases List.mem_cons.1 ((h b).2 List.mem_cons_self) with e | hb
          · exact e.symm
          · have := hm.1 a ha
            have := hl.1 b hb
            omega
      subst hab
      refine congrArg _ (ih hl.2 hm.2 fun c => ?_)
      constructor
      · intro hc
        rcases List.mem_cons.1 ((h c).1 (List.mem_cons_of_mem _ hc)) with rfl | hc'
        · exact absurd (hl.1 c hc) (Int.lt_irrefl _)
        · exact hc'
      · intro hc
        rcases List.mem_cons.1 ((h c).2 (List.mem_cons_of_mem _ hc)) with rfl | hc'
        · exact absurd (hm.1 c hc) (Int.lt_irrefl _)
        · exact hc'

theorem ext_mem {r s : Register key} (h : ∀ a, a ∈ r ↔ a ∈ s) : r = s :=
  ext_toList (toList_eq_of_mem_iff r.ascending s.ascending h)

theorem insert_of_mem {r : Register key} {a : α} (h : a ∈ r) : r.insert a = r := by
  refine ext_mem fun b => ?_
  rw [mem_insert]
  constructor
  · rintro (rfl | ⟨hb, _⟩)
    · exact h
    · exact hb
  · intro hb
    by_cases hba : key b = key a
    · exact Or.inl (eq_of_key_eq hb h hba)
    · exact Or.inr ⟨hb, hba⟩

/-- The values of a register give it back, also when they are put into another
one of which they replace everything. -/
theorem foldl_insert_toList (r : Register key) {s : Register key}
    (h : ∀ b ∈ s, ∃ a ∈ r, key b = key a) : r.toList.foldl insert s = r := by
  refine ext_mem fun b => ?_
  rw [mem_foldl_insert r.nodup_keys]
  constructor
  · rintro (hb | ⟨hb, hne⟩)
    · exact hb
    · obtain ⟨a, ha, hba⟩ := h b hb
      exact absurd hba (hne a ha)
  · exact Or.inl

end Register

end Fortnight
