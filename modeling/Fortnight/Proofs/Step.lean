import Mathlib.Data.List.Forall2
import Fortnight.Step

/-!
# What steps keep

A step keeps a relation when the value after it is related to the value before
it, whether the step succeeds or fails on the way. For a relation that is
reflexive and transitive this goes from small steps to the steps made of them.

Where a failure leaves nothing behind, all that counts of a step is its outcome:
an error, or what it gives together with the value after it. A step is of this
kind by itself if its checks come before its changes, and no change is followed
by what may fail.
-/

namespace Fortnight

namespace Step

variable {σ τ α β : Type} {r : σ → σ → Prop}

def Keeps (r : σ → σ → Prop) (f : Step σ α) : Prop :=
  ∀ s, r s (f.run s).2

theorem Keeps.of_run {f : Step σ α} (h : Keeps r f) {s t : σ} {result : Except Error α}
    (hrun : f.run s = (result, t)) : r s t := by
  have := h s
  rwa [hrun] at this

theorem keeps_modify {f : σ → σ} (h : ∀ s, r s (f s)) : Keeps r (modify f) := h

theorem Keeps.bind {f : Step σ α} {g : α → Step σ β}
    (trans : ∀ {s t u}, r s t → r t u → r s u) (hf : Keeps r f) (hg : ∀ a, Keeps r (g a)) :
    Keeps r (f >>= g) := by
  intro s
  rw [run_bind]
  split
  · rename_i a t h
    exact trans (hf.of_run h) (hg a t)
  · rename_i e t h
    exact hf.of_run h

theorem Keeps.map {f : Step σ α} (hf : Keeps r f) (g : α → β) : Keeps r (g <$> f) := by
  intro s
  rw [← bind_pure_comp, run_bind]
  split
  · rename_i a t h
    exact hf.of_run h
  · rename_i e t h
    exact hf.of_run h

theorem Keeps.onlyIf {f : Step σ Unit} (refl : ∀ s, r s s) (hf : Keeps r f) (p : σ → Bool) :
    Keeps r (Step.onlyIf p f) := by
  intro s
  rw [run_onlyIf]
  split
  · exact hf s
  · exact refl s

theorem Keeps.within {q : τ → τ → Prop} {f : Step τ α} (hf : Keeps q f) {part : σ → τ}
    {put : τ → σ → σ} (h : ∀ s t, q (part s) t → r s (put t s)) :
    Keeps r (Step.within part put f) :=
  fun s => h s _ (hf (part s))

/-- A step on each element keeps the relation place by place. -/
theorem Keeps.each {f : Step σ Unit} (refl : ∀ s, r s s) (hf : Keeps r f) :
    Keeps (List.Forall₂ r) (Step.each f) := by
  intro l
  have hrefl : ∀ l, List.Forall₂ r l l := fun l => List.forall₂_same.mpr fun s _ => refl s
  induction l with
  | nil => exact .nil
  | cons s rest ih =>
    have hs := hf s
    simp only [run, Step.each] at hs ih ⊢
    split
    · rename_i e t h
      rw [h] at hs
      exact .cons hs (hrefl rest)
    · rename_i t h
      rw [h] at hs
      exact .cons hs ih

theorem Keeps.onFirst {f : Step σ α} (refl : ∀ s, r s s) (hf : Keeps r f) (p : σ → Bool) :
    Keeps (List.Forall₂ r) (Step.onFirst p f) := by
  intro l
  have hrefl : ∀ l, List.Forall₂ r l l := fun l => List.forall₂_same.mpr fun s _ => refl s
  induction l with
  | nil => exact .nil
  | cons s rest ih =>
    simp only [run, Step.onFirst] at ih ⊢
    split
    · exact .cons (hf s) (hrefl rest)
    · exact .cons (refl s) ih

theorem run_map_eq_ok_iff {f : Step σ α} {g : α → β} {s t : σ} {b : β} :
    (g <$> f).run s = (.ok b, t) ↔ ∃ a, f.run s = (.ok a, t) ∧ g a = b := by
  rw [← bind_pure_comp, run_bind_eq_ok_iff]
  constructor
  · rintro ⟨a, u, hf, h⟩
    cases h
    exact ⟨a, hf, rfl⟩
  · rintro ⟨a, hf, rfl⟩
    exact ⟨a, t, hf, rfl⟩

theorem run_each_cons_eq_ok_iff {f : Step σ Unit} {s : σ} {rest m : List σ} :
    (Step.each f).run (s :: rest) = (.ok (), m) ↔
      ∃ t rest', f.run s = (.ok (), t) ∧ (Step.each f).run rest = (.ok (), rest') ∧
        m = t :: rest' := by
  simp only [run, Step.each]
  rcases f s with ⟨_ | _, t⟩
  · simp
  · rcases Step.each f rest with ⟨r, rest'⟩
    simp only [Prod.mk.injEq, true_and, and_assoc, exists_eq_left', exists_and_left]
    tauto

/-- A step of which it is known when it succeeds, and with which outcome, is
known as well on the elements of a list. -/
theorem run_each_eq_ok_iff {f : Step σ Unit} {ready : σ → Prop} {g : σ → σ}
    (hf : ∀ s t, f.run s = (.ok (), t) ↔ ready s ∧ t = g s) {l m : List σ} :
    (Step.each f).run l = (.ok (), m) ↔ (∀ s ∈ l, ready s) ∧ m = l.map g := by
  induction l generalizing m with
  | nil => simp [run, Step.each, eq_comm]
  | cons s rest ih =>
    rw [run_each_cons_eq_ok_iff, List.forall_mem_cons, List.map_cons]
    constructor
    · rintro ⟨t, rest', hs, hrest, rfl⟩
      obtain ⟨hready, rfl⟩ := (hf s t).mp hs
      obtain ⟨hall, rfl⟩ := ih.mp hrest
      exact ⟨⟨hready, hall⟩, rfl⟩
    · rintro ⟨⟨hready, hall⟩, rfl⟩
      exact ⟨g s, rest.map g, (hf s _).mpr ⟨hready, rfl⟩, ih.mpr ⟨hall, rfl⟩, rfl⟩

theorem run_onFirst_cons_of_pos {p : σ → Bool} (f : Step σ α) {s : σ} (hs : p s) (rest : List σ) :
    (Step.onFirst p f).run (s :: rest) = ((f.run s).1.map some, (f.run s).2 :: rest) := by
  simp only [run, Step.onFirst, if_pos hs]

theorem run_onFirst_cons_of_neg {p : σ → Bool} (f : Step σ α) {s : σ} (hs : ¬ p s)
    (rest : List σ) :
    (Step.onFirst p f).run (s :: rest) =
      (((Step.onFirst p f).run rest).1, s :: ((Step.onFirst p f).run rest).2) := by
  simp only [run, Step.onFirst, if_neg hs]

/-- A step on the first element that fulfils a condition succeeds exactly when it
does so there, and nothing else changes. -/
theorem run_onFirst_eq_ok_some_iff {p : σ → Bool} {f : Step σ α} {l m : List σ} {a : α} :
    (Step.onFirst p f).run l = (.ok (some a), m) ↔
      ∃ before s t after, l = before ++ s :: after ∧ (∀ r ∈ before, ¬ p r) ∧ p s ∧
        f.run s = (.ok a, t) ∧ before ++ t :: after = m := by
  constructor
  · intro h
    induction l generalizing m with
    | nil => cases h
    | cons s rest ih =>
      by_cases hs : p s
      · rw [run_onFirst_cons_of_pos f hs] at h
        rcases hf : f.run s with ⟨_ | b, t⟩
        · rw [hf] at h
          cases h
        · rw [hf] at h
          cases h
          exact ⟨[], s, t, rest, rfl, by simp, hs, hf, rfl⟩
      · rw [run_onFirst_cons_of_neg f hs] at h
        obtain ⟨hresult, rfl⟩ := Prod.mk.inj h
        obtain ⟨before, r, t, after, rfl, hbefore, hr, hf, hm⟩ := ih (Prod.ext hresult rfl)
        refine ⟨s :: before, r, t, after, rfl, List.forall_mem_cons.mpr ⟨hs, hbefore⟩, hr, hf, ?_⟩
        rw [List.cons_append, hm]
  · rintro ⟨before, s, t, after, rfl, hbefore, hs, hf, rfl⟩
    induction before with
    | nil =>
      rw [List.nil_append, run_onFirst_cons_of_pos f hs, hf]
      rfl
    | cons r before ih =>
      obtain ⟨hr, hbefore⟩ := List.forall_mem_cons.mp hbefore
      rw [List.cons_append, run_onFirst_cons_of_neg f hr, ih hbefore]
      rfl

theorem run_onFirst_eq_ok_none_iff {p : σ → Bool} {f : Step σ α} {l m : List σ} :
    (Step.onFirst p f).run l = (.ok none, m) ↔ (∀ s ∈ l, ¬ p s) ∧ l = m := by
  induction l generalizing m with
  | nil => simp [run, Step.onFirst]
  | cons s rest ih =>
    by_cases hs : p s
    · rw [run_onFirst_cons_of_pos f hs]
      rcases f.run s with ⟨_ | _, t⟩ <;> simp [hs, Except.map]
    · rw [run_onFirst_cons_of_neg f hs, List.forall_mem_cons, and_iff_right hs]
      have hrest := ih (m := ((Step.onFirst p f).run rest).2)
      constructor
      · intro h
        obtain ⟨hresult, rfl⟩ := Prod.mk.inj h
        obtain ⟨hall, hsame⟩ := hrest.mp (Prod.ext hresult rfl)
        exact ⟨hall, by rw [← hsame]⟩
      · rintro ⟨hall, rfl⟩
        rw [ih.mpr ⟨hall, rfl⟩]

theorem forall_mem_of_forall₂ {R : α → β → Prop} {P : α → Prop} {Q : β → Prop} {l : List α}
    {m : List β} (h : List.Forall₂ R l m) (hR : ∀ a b, R a b → P a → Q b)
    (hl : ∀ a ∈ l, P a) : ∀ b ∈ m, Q b := by
  induction h with
  | nil => simp
  | cons hab _ ih =>
    rw [List.forall_mem_cons] at hl ⊢
    exact ⟨hR _ _ hab hl.1, ih hl.2⟩

theorem map_map_eq_self {f : α → β} {g : β → α} {l : List α} (h : ∀ a ∈ l, g (f a) = a) :
    (l.map f).map g = l := by
  rw [List.map_map]
  exact (List.map_congr_left h).trans (List.map_id l)

section Atomic

variable {s : σ}

/-- The step leaves the value as it was if it fails there. -/
def AtomicAt (f : Step σ α) (s : σ) : Prop :=
  ∀ e, (f.run s).1 = .error e → (f.run s).2 = s

theorem atomicAt_of_run_eq_ok {f : Step σ α} {a : α} {t : σ} (h : f.run s = (.ok a, t)) :
    AtomicAt f s := by
  intro e he
  rw [h] at he
  cases he

theorem atomicAt_of_snd_eq {f : Step σ α} (h : (f.run s).2 = s) : AtomicAt f s :=
  fun _ _ => h

theorem AtomicAt.run_orNothing {f : Step σ α} (hf : AtomicAt f s) :
    f.orNothing.run s = f.run s := by
  unfold AtomicAt at hf
  simp only [run, orNothing] at hf ⊢
  split
  · rename_i a t h
    rw [h]
  · rename_i e t h
    rw [h] at hf ⊢
    obtain rfl : t = s := hf e rfl
    rfl

theorem AtomicAt.map {f : Step σ α} (hf : AtomicAt f s) (g : α → β) : AtomicAt (g <$> f) s := by
  intro e
  rw [← bind_pure_comp, run_bind]
  split
  · simp
  · rename_i e' t h
    rw [AtomicAt, h] at hf
    exact fun _ => hf e' rfl

/-- After a step only what cannot fail may follow, unless it has changed nothing. -/
theorem AtomicAt.bind {f : Step σ α} {g : α → Step σ β} (hf : AtomicAt f s)
    (hg : ∀ a t, f.run s = (.ok a, t) →
      (∃ b u, (g a).run t = (.ok b, u)) ∨ t = s ∧ AtomicAt (g a) s) :
    AtomicAt (f >>= g) s := by
  intro e
  rw [run_bind]
  split
  · rename_i a t h
    rcases hg a t h with ⟨b, u, hrun⟩ | ⟨rfl, hatomic⟩
    · simp [hrun]
    · exact hatomic e
  · rename_i e' t h
    rw [AtomicAt, h] at hf
    exact fun _ => hf e' rfl

theorem atomicAt_look_bind {f : σ → Except Error α} {g : α → Step σ β}
    (hg : ∀ a, f s = .ok a → AtomicAt (g a) s) : AtomicAt (look f >>= g) s := by
  apply AtomicAt.bind (atomicAt_of_snd_eq rfl)
  intro a t h
  obtain ⟨hlook, rfl⟩ := Prod.mk.inj h
  exact Or.inr ⟨rfl, hg a hlook⟩

theorem AtomicAt.within {part : σ → τ} {put : τ → σ → σ} {f : Step τ α}
    (hput : put (part s) s = s) (hf : AtomicAt f (part s)) :
    AtomicAt (Step.within part put f) s := by
  intro e he
  change put (f.run (part s)).2 s = s
  rw [hf e he, hput]

theorem atomicAt_onFirst {p : σ → Bool} {f : Step σ α} (hf : ∀ s, AtomicAt f s) (l : List σ) :
    AtomicAt (Step.onFirst p f) l := by
  intro e
  induction l with
  | nil => exact fun _ => rfl
  | cons s rest ih =>
    by_cases hs : p s
    · rw [run_onFirst_cons_of_pos f hs]
      intro he
      have hs' : (f.run s).2 = s := by
        cases hresult : (f.run s).1 with
        | error e' => exact hf s e' hresult
        | ok a => simp [hresult, Except.map] at he
      rw [hs']
    · rw [run_onFirst_cons_of_neg f hs]
      intro he
      rw [ih he]

end Atomic

section Outcome

variable {s t : σ} {a : α}

/-- What a step comes to if a failure leaves nothing behind. -/
def outcome (f : Step σ α) (s : σ) : Except Error (α × σ) :=
  match f.run s with
  | (.ok a, t) => .ok (a, t)
  | (.error e, _) => .error e

theorem outcome_eq_ok_iff {f : Step σ α} : f.outcome s = .ok (a, t) ↔ f.run s = (.ok a, t) := by
  unfold outcome
  rcases f.run s with ⟨_ | _, _⟩ <;> simp

theorem run_orNothing (f : Step σ α) (s : σ) :
    f.orNothing.run s = match f.outcome s with
      | .ok (a, t) => (.ok a, t)
      | .error e => (.error e, s) := by
  simp only [run, orNothing, outcome]
  rcases f s with ⟨_ | _, _⟩ <;> rfl

theorem outcome_bind (f : Step σ α) (g : α → Step σ β) (s : σ) :
    (f >>= g).outcome s = f.outcome s >>= fun r => (g r.1).outcome r.2 := by
  unfold outcome
  rw [run_bind]
  rcases f.run s with ⟨_ | _, _⟩ <;> rfl

theorem outcome_look_bind (f : σ → Except Error α) (g : α → Step σ β) (s : σ) :
    (look f >>= g).outcome s = f s >>= fun a => (g a).outcome s := by
  unfold outcome
  rw [run_bind, run_look]
  cases f s <;> rfl

theorem outcome_within (part : σ → τ) (put : τ → σ → σ) (f : Step τ α) (s : σ) :
    (within part put f).outcome s = (f.outcome (part s)).map fun r => (r.1, put r.2 s) := by
  simp only [outcome, run, within]
  rcases f (part s) with ⟨_ | _, _⟩ <;> rfl

end Outcome

end Step

theorem Error.exists_of_isOk {α : Type} {result : Except Error α} (h : result.isOk) :
    ∃ a, result = .ok a := by
  cases result with
  | ok a => exact ⟨a, rfl⟩
  | error e => cases h

theorem Error.mapM_eq_ok_iff {α β : Type} {f : α → Except Error β} {l : List α} {m : List β} :
    l.mapM f = .ok m ↔ List.Forall₂ (fun a b => f a = .ok b) l m := by
  induction l generalizing m with
  | nil => simp [pure, Except.pure, eq_comm]
  | cons a l ih =>
    rw [List.mapM_cons, List.forall₂_cons_left_iff]
    simp only [bind_eq_ok_iff, ih, pure, Except.pure, Except.ok.injEq]
    constructor
    · rintro ⟨b, hb, rest, hrest, rfl⟩
      exact ⟨b, rest, hb, hrest, rfl⟩
    · rintro ⟨b, rest, hb, hrest, rfl⟩
      exact ⟨b, hb, rest, hrest, rfl⟩

end Fortnight
