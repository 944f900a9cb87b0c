import Fortnight.Error

/-!
# Steps

A step changes a value and may fail on the way. What it had changed by then
stays changed: a step gives the value back in either case. Whoever wants all or
nothing runs the step on a copy.
-/

namespace Fortnight

/-- A change of a `σ` that gives an `α` or fails. -/
def Step (σ α : Type) := σ → Except Error α × σ

namespace Step

variable {σ τ α β γ : Type}

def run (f : Step σ α) (s : σ) : Except Error α × σ := f s

def pure (a : α) : Step σ α := fun s => (.ok a, s)

def fail (e : Error) : Step σ α := fun s => (.error e, s)

/-- Does `g` after `f`, unless `f` fails. -/
def bind (f : Step σ α) (g : α → Step σ β) : Step σ β := fun s =>
  match f s with
  | (.ok a, t) => g a t
  | (.error e, t) => (.error e, t)

instance : Monad (Step σ) where
  pure := pure
  bind := bind

/-- The value as it is now. -/
def get : Step σ σ := fun s => (.ok s, s)

def set (s : σ) : Step σ Unit := fun _ => (.ok (), s)

def modify (f : σ → σ) : Step σ Unit := fun s => (.ok (), f s)

/-- What was computed beside the value. -/
def ofExcept (r : Except Error α) : Step σ α := fun s => (r, s)

/-- What is computed from the value without changing it. -/
def look (f : σ → Except Error α) : Step σ α := fun s => (f s, s)

/-- A step on a part of the value. -/
def within (part : σ → τ) (put : τ → σ → σ) (f : Step τ α) : Step σ α := fun s =>
  match f (part s) with
  | (r, t) => (r, put t s)

/-- The same step on each element in turn, up to the first failure. -/
def each (f : Step σ Unit) : Step (List σ) Unit
  | [] => (.ok (), [])
  | s :: rest =>
    match f s with
    | (.error e, t) => (.error e, t :: rest)
    | (.ok (), t) =>
      match each f rest with
      | (r, rest) => (r, t :: rest)

/-- A step on the first element that fulfils a condition, if there is one. -/
def onFirst (p : σ → Bool) (f : Step σ α) : Step (List σ) (Option α)
  | [] => (.ok none, [])
  | s :: rest =>
    if p s then
      match f s with
      | (r, t) => (r.map some, t :: rest)
    else
      match onFirst p f rest with
      | (r, rest) => (r, s :: rest)

/-- A step only where the value fulfils a condition. -/
def onlyIf (p : σ → Bool) (f : Step σ Unit) : Step σ Unit := fun s =>
  if p s then f s else (.ok (), s)

/-- Keeps the value as it was if the step fails. -/
def orNothing (f : Step σ α) : Step σ α := fun s =>
  match f s with
  | (.ok a, t) => (.ok a, t)
  | (.error e, _) => (.error e, s)

@[simp] theorem run_pure (a : α) (s : σ) : (Pure.pure a : Step σ α).run s = (.ok a, s) := rfl

@[simp] theorem run_fail (e : Error) (s : σ) : (fail e : Step σ α).run s = (.error e, s) := rfl

@[simp] theorem run_get (s : σ) : (get : Step σ σ).run s = (.ok s, s) := rfl

@[simp] theorem run_set (s t : σ) : (set t).run s = (.ok (), t) := rfl

@[simp] theorem run_modify (f : σ → σ) (s : σ) : (modify f).run s = (.ok (), f s) := rfl

@[simp] theorem run_ofExcept (r : Except Error α) (s : σ) : (ofExcept r).run s = (r, s) := rfl

@[simp] theorem run_look (f : σ → Except Error α) (s : σ) : (look f).run s = (f s, s) := rfl

theorem run_bind (f : Step σ α) (g : α → Step σ β) (s : σ) :
    (f >>= g).run s = match f.run s with
      | (.ok a, t) => (g a).run t
      | (.error e, t) => (.error e, t) := rfl

theorem id_map (f : Step σ α) : id <$> f = f := by
  funext s
  change bind f _ s = f s
  simp only [bind]
  rcases f s with ⟨_ | _, _⟩ <;> rfl

theorem bind_assoc (f : Step σ α) (g : α → Step σ β) (h : β → Step σ γ) :
    f >>= g >>= h = f >>= fun a => g a >>= h := by
  funext s
  change bind (bind f g) h s = bind f _ s
  simp only [bind]
  rcases f s with ⟨_ | _, _⟩ <;> rfl

instance : LawfulMonad (Step σ) :=
  LawfulMonad.mk' (Step σ) id_map (fun _ _ => rfl) bind_assoc

/-- A step after another succeeds exactly when both do. -/
theorem run_bind_eq_ok_iff {f : Step σ α} {g : α → Step σ β} {s u : σ} {b : β} :
    (f >>= g).run s = (.ok b, u) ↔
      ∃ a t, f.run s = (.ok a, t) ∧ (g a).run t = (.ok b, u) := by
  rw [run_bind]
  rcases f.run s with ⟨_ | a, t⟩
  · simp
  · constructor
    · intro h
      exact ⟨a, t, rfl, h⟩
    · rintro ⟨_, _, h, hg⟩
      cases h
      exact hg

theorem run_look_bind_eq_ok_iff {f : σ → Except Error α} {g : α → Step σ β} {s u : σ} {b : β} :
    (look f >>= g).run s = (.ok b, u) ↔ ∃ a, f s = .ok a ∧ (g a).run s = (.ok b, u) := by
  rw [run_bind, run_look]
  cases f s <;> simp

theorem run_within_eq_ok_iff {part : σ → τ} {put : τ → σ → σ} {f : Step τ α} {s s' : σ} {a : α} :
    (within part put f).run s = (.ok a, s') ↔
      ∃ t, f.run (part s) = (.ok a, t) ∧ put t s = s' := by
  simp only [run, within]
  rcases f (part s) with ⟨r, t⟩
  simp [and_assoc]

theorem run_within_bind_eq_ok_iff {part : σ → τ} {put : τ → σ → σ} {f : Step τ α}
    {g : α → Step σ β} {s u : σ} {b : β} :
    (within part put f >>= g).run s = (.ok b, u) ↔
      ∃ a t, f.run (part s) = (.ok a, t) ∧ (g a).run (put t s) = (.ok b, u) := by
  simp only [run_bind_eq_ok_iff, run_within_eq_ok_iff]
  constructor
  · rintro ⟨a, _, ⟨t, hf, rfl⟩, hg⟩
    exact ⟨a, t, hf, hg⟩
  · rintro ⟨a, t, hf, hg⟩
    exact ⟨a, _, ⟨t, hf, rfl⟩, hg⟩

theorem run_onlyIf (p : σ → Bool) (f : Step σ Unit) (s : σ) :
    (onlyIf p f).run s = if p s then f.run s else (.ok (), s) := rfl

theorem run_orNothing_eq_ok_iff {f : Step σ α} {s t : σ} {a : α} :
    f.orNothing.run s = (.ok a, t) ↔ f.run s = (.ok a, t) := by
  simp only [run, orNothing]
  rcases f s with ⟨_ | b, u⟩ <;> simp

theorem run_orNothing_of_error {f : Step σ α} {s : σ} {e : Error}
    (h : (f.orNothing.run s).1 = .error e) : (f.orNothing.run s).2 = s := by
  revert h
  simp only [run, orNothing]
  split
  · simp
  · simp

end Step

end Fortnight
