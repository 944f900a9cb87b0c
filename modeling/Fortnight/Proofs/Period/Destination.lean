import Fortnight.Proofs.Period.Walk

/-!
# What links come to

In a table whose links may be wrong in any way, the links that begin at an
identifier end at a period that leads nowhere, break off at an identifier of no
period, or never end. A way that breaks off is a walk as well, along the links
that lead to periods of the table, and so it is no longer than the table is
large. Limits of at least that many steps therefore cut nothing short: `tip`,
`root` and `chain` tell in every case what the links come to.
-/

namespace Fortnight

namespace PeriodTable

/-- The period that `n` links lead to from `id`, if there are periods all the way. -/
def after (t : PeriodTable) (link : Period → Option Id) (id : Id) : ℕ → Option Period
  | 0 => t.find? id
  | n + 1 => do t.find? (← link (← t.after link id n))

/-- The links from `id` lead to `e` in some number of steps, and `e` leads nowhere. -/
def EndsAt (t : PeriodTable) (link : Period → Option Id) (id : Id) (e : Period) : Prop :=
  ∃ n, t.after link id n = some e ∧ link e = none

/-- The links from `id` begin at `missing` or lead to it, and there is no such period. -/
def BreaksAt (t : PeriodTable) (link : Period → Option Id) (id missing : Id) : Prop :=
  t.find? missing = none ∧
    (missing = id ∨ ∃ n p, t.after link id n = some p ∧ link p = some missing)

/-- Any number of links leads from `id` to a period. -/
def IsEndless (t : PeriodTable) (link : Period → Option Id) (id : Id) : Prop :=
  ∀ n, ∃ p, t.after link id n = some p

/-- `answer` says what the links from `id` come to: the period at which they end, the
identifier at which they break off, or that they are a cycle. -/
structure Tells (t : PeriodTable) (link : Period → Option Id) (id : Id)
    (answer : Except Error Period) : Prop where
  ok_iff : ∀ e, answer = .ok e ↔ t.EndsAt link id e
  notFound_iff : ∀ what, answer = .error (.notFound what) ↔
    ∃ missing, t.BreaksAt link id missing ∧ what = .period missing
  illegalState_iff : ∀ cause, answer = .error (.illegalState cause) ↔
    t.IsEndless link id ∧ cause = .cycle id

/-- `l` has the periods that the links from `id` lead to, in their order and no others. -/
def Lists (t : PeriodTable) (link : Period → Option Id) (id : Id) (l : List Period) : Prop :=
  ∀ n, l[n]? = t.after link id n

variable {t : PeriodTable} {link : Period → Option Id} {p q e e' : Period} {l l' : List Period}
  {id i missing missing' start : Id} {steps steps' m n : ℕ}

section After

theorem after_succ_of_link (hp : p ∈ t) (hl : link p = some i) :
    t.after link p.id (n + 1) = t.after link i n := by
  induction n with
  | zero => simp [after, Register.find?_of_mem hp, hl]
  | succ n ih =>
    rw [after, ih]
    rfl

theorem after_eq_none_of_le (h : t.after link id m = none) (hmn : m ≤ n) :
    t.after link id n = none := by
  induction hmn with
  | refl => exact h
  | step _ ih => simp [after, ih]

theorem after_eq_none_of_find? (h : t.find? id = none) : t.after link id n = none :=
  after_eq_none_of_le (m := 0) h (Nat.zero_le n)

/-- The period after which there is none is reached in one number of steps only. -/
theorem after_last_unique (hp : t.after link id m = some p)
    (hm : t.after link id (m + 1) = none) (hq : t.after link id n = some q)
    (hn : t.after link id (n + 1) = none) : p = q := by
  have hle : ∀ {a b r}, t.after link id a = some r → t.after link id (b + 1) = none → a ≤ b := by
    intro a b r ha hb
    by_contra hlt
    rw [after_eq_none_of_le hb (by omega)] at ha
    cases ha
  obtain rfl := Nat.le_antisymm (hle hp hn) (hle hq hm)
  exact Option.some.inj (hp.symm.trans hq)

theorem after_succ_of_none (hp : t.after link id n = some p) (hl : link p = none) :
    t.after link id (n + 1) = none := by
  simp [after, hp, hl]

theorem after_succ_of_missing (hp : t.after link id n = some p) (hl : link p = some missing)
    (hmissing : t.find? missing = none) : t.after link id (n + 1) = none := by
  simp [after, hp, hl, hmissing]

end After

section Outcomes

theorem EndsAt.unique (h : t.EndsAt link id e) (h' : t.EndsAt link id e') : e = e' := by
  obtain ⟨m, he, hl⟩ := h
  obtain ⟨n, he', hl'⟩ := h'
  exact after_last_unique he (after_succ_of_none he hl) he' (after_succ_of_none he' hl')

theorem EndsAt.not_breaksAt (h : t.EndsAt link id e) : ¬ t.BreaksAt link id missing := by
  obtain ⟨m, he, hl⟩ := h
  rintro ⟨hmissing, rfl | ⟨n, p, hp, hlink⟩⟩
  · rw [after_eq_none_of_find? hmissing] at he
    cases he
  · obtain rfl := after_last_unique he (after_succ_of_none he hl) hp
      (after_succ_of_missing hp hlink hmissing)
    rw [hl] at hlink
    cases hlink

theorem BreaksAt.unique (h : t.BreaksAt link id missing) (h' : t.BreaksAt link id missing') :
    missing = missing' := by
  obtain ⟨hmissing, rfl | ⟨m, p, hp, hl⟩⟩ := h <;>
    obtain ⟨hmissing', rfl | ⟨n, q, hq, hl'⟩⟩ := h'
  · rfl
  · rw [after_eq_none_of_find? hmissing] at hq
    cases hq
  · rw [after_eq_none_of_find? hmissing'] at hp
    cases hp
  · obtain rfl := after_last_unique hp (after_succ_of_missing hp hl hmissing) hq
      (after_succ_of_missing hq hl' hmissing')
    exact Option.some.inj (hl.symm.trans hl')

theorem not_isEndless_of_eq_none (h : t.after link id n = none) : ¬ t.IsEndless link id := by
  intro hendless
  obtain ⟨p, hp⟩ := hendless n
  rw [h] at hp
  cases hp

theorem EndsAt.not_isEndless (h : t.EndsAt link id e) : ¬ t.IsEndless link id := by
  obtain ⟨n, he, hl⟩ := h
  exact not_isEndless_of_eq_none (after_succ_of_none he hl)

theorem BreaksAt.not_isEndless (h : t.BreaksAt link id missing) : ¬ t.IsEndless link id := by
  obtain ⟨hmissing, rfl | ⟨n, p, hp, hl⟩⟩ := h
  · exact not_isEndless_of_eq_none (n := 0) hmissing
  · exact not_isEndless_of_eq_none (after_succ_of_missing hp hl hmissing)

theorem tells_ok (h : t.EndsAt link id e) : t.Tells link id (.ok e) where
  ok_iff e' := by
    constructor
    · intro heq
      exact Except.ok.inj heq ▸ h
    · exact fun h' => congrArg Except.ok (h.unique h')
  notFound_iff what := iff_of_false nofun fun ⟨_, hbreaks, _⟩ => h.not_breaksAt hbreaks
  illegalState_iff cause := iff_of_false nofun fun ⟨hendless, _⟩ => h.not_isEndless hendless

theorem tells_notFound (h : t.BreaksAt link id missing) :
    t.Tells link id (.error (.notFound (.period missing))) where
  ok_iff e := iff_of_false nofun fun hends => hends.not_breaksAt h
  notFound_iff what := by
    constructor
    · intro heq
      cases heq
      exact ⟨missing, h, rfl⟩
    · rintro ⟨missing', h', rfl⟩
      rw [h.unique h']
  illegalState_iff cause := iff_of_false nofun fun ⟨hendless, _⟩ => h.not_isEndless hendless

theorem tells_cycle (h : t.IsEndless link id) : t.Tells link id (.error (cycleError id)) where
  ok_iff e := iff_of_false nofun fun hends => hends.not_isEndless h
  notFound_iff what := iff_of_false nofun fun ⟨_, hbreaks, _⟩ => hbreaks.not_isEndless h
  illegalState_iff cause := by
    constructor
    · intro heq
      cases heq
      exact ⟨h, rfl⟩
    · rintro ⟨_, rfl⟩
      rfl

end Outcomes

section Limits

/-- The link of a period as far as it leads to a period of the table. -/
def known (t : PeriodTable) (link : Period → Option Id) (p : Period) : Option Id :=
  (link p).filter t.contains

theorem known_eq_some_iff : t.known link p = some i ↔ link p = some i ∧ ∃ q ∈ t, q.id = i := by
  simp [known, Option.filter_eq_some_iff, Register.contains_iff]

theorem known_eq_none_iff :
    t.known link p = none ↔ ∀ missing, link p = some missing → t.find? missing = none := by
  cases hl : link p <;> simp [known, hl, Register.contains]

theorem Walk.lists (h : t.Walk (t.known link) p l e) : t.Lists link p.id l := by
  induction h with
  | @last p hp hn =>
    intro n
    cases n with
    | zero => exact (Register.find?_of_mem hp).symm
    | succ n =>
      -- The last link leads nowhere or to no period, and so the next one does as well.
      have hone : t.after link p.id 1 = none := by
        cases hl : link p with
        | none => simp [after, Register.find?_of_mem hp, hl]
        | some i => simp [after, Register.find?_of_mem hp, hl, known_eq_none_iff.mp hn i hl]
      exact (after_eq_none_of_le hone (Nat.le_add_left 1 n)).symm
  | next hp hl _ ih =>
    intro n
    cases n with
    | zero => exact (Register.find?_of_mem hp).symm
    | succ n => exact (ih n).trans (after_succ_of_link hp (known_eq_some_iff.mp hl).1).symm

theorem Walk.exists_after (h : t.Walk (t.known link) p l e) (hq : q ∈ l) :
    ∃ n, t.after link p.id n = some q := by
  obtain ⟨n, hn⟩ := List.mem_iff_getElem?.mp hq
  exact ⟨n, (h.lists n).symm.trans hn⟩

/-- Without a walk to the end of the known links there is always one more of them. -/
theorem isEndless_of_forall_not_walk (hp : p ∈ t) (h : ∀ l e, ¬ t.Walk (t.known link) p l e) :
    t.IsEndless link p.id := by
  -- Nor does a walk begin at any period on the way, or there would be one from `p`.
  have hnext : ∀ n, ∃ q ∈ t, t.after link p.id n = some q ∧
      ∀ l e, ¬ t.Walk (t.known link) q l e := by
    intro n
    induction n with
    | zero => exact ⟨p, hp, Register.find?_of_mem hp, h⟩
    | succ n ih =>
      obtain ⟨q, hq, hafter, hnone⟩ := ih
      cases hl : t.known link q with
      | none => exact absurd (.last hq hl) (hnone [q] q)
      | some i =>
        obtain ⟨hlink, r, hr, rfl⟩ := known_eq_some_iff.mp hl
        refine ⟨r, hr, ?_, fun l e hw => hnone (q :: l) e (.next hq hl hw)⟩
        simp [after, hafter, hlink, Register.find?_of_mem hr]
  intro n
  obtain ⟨q, _, hafter, _⟩ := hnext n
  exact ⟨q, hafter⟩

theorem get_of_find? (h : t.find? id = none) : t.get id = .error (.notFound (.period id)) := by
  simp [get, h]

theorem follow_eq_known (hp : p ∈ t) :
    t.follow link start steps p =
      (do let e ← t.follow (t.known link) start steps p; t.get ((link e).getD e.id)) := by
  induction steps generalizing p with
  | zero => rfl
  | succ steps ih =>
    cases hl : t.known link p with
    | none =>
      simp only [follow, hl, Error.ok_bind]
      cases hlink : link p with
      | none => exact (get_of_mem hp).symm
      | some i => simp [get_of_find? (known_eq_none_iff.mp hl i hlink)]
    | some i =>
      obtain ⟨hlink, q, hq, rfl⟩ := known_eq_some_iff.mp hl
      simp only [follow, hl, hlink, get_of_mem hq, Error.ok_bind]
      exact ih hq

theorem Walk.follow_eq (h : t.Walk (t.known link) p l e) (start : Id) (hs : t.size ≤ steps) :
    t.follow link start steps p = t.get ((link e).getD e.id) := by
  rw [follow_eq_known h.start_mem, follow_of_walk h start (Nat.le_trans h.length_le hs)]
  rfl

theorem IsEndless.exists_next (h : t.IsEndless link p.id) (hp : p ∈ t) :
    ∃ q ∈ t, link p = some q.id ∧ t.IsEndless link q.id := by
  obtain ⟨q, hq⟩ := h 1
  have hfind : ∃ i, link p = some i ∧ t.find? i = some q := by
    simpa [after, Register.find?_of_mem hp, Option.bind_eq_some_iff] using hq
  obtain ⟨i, hl, hi⟩ := hfind
  obtain ⟨hmem, rfl⟩ := Register.find?_eq_some_iff.mp hi
  refine ⟨q, hmem, hl, fun n => ?_⟩
  rw [← after_succ_of_link hp hl]
  exact h (n + 1)

theorem IsEndless.follow_eq (h : t.IsEndless link p.id) (hp : p ∈ t) (start : Id) (steps : ℕ) :
    t.follow link start steps p = .error (cycleError start) := by
  induction steps generalizing p with
  | zero => rfl
  | succ steps ih =>
    obtain ⟨q, hq, hl, hendless⟩ := h.exists_next hp
    simp only [follow, hl, get_of_mem hq, Error.ok_bind]
    exact ih hendless hq

/-- What comes of following links is the same for all limits that are as large as the table. -/
theorem follow_eq_follow (hp : p ∈ t) (start : Id) (hs : t.size ≤ steps) (hs' : t.size ≤ steps') :
    t.follow link start steps p = t.follow link start steps' p := by
  by_cases h : ∃ l e, t.Walk (t.known link) p l e
  · obtain ⟨l, e, hw⟩ := h
    rw [hw.follow_eq start hs, hw.follow_eq start hs']
  · have hendless := isEndless_of_forall_not_walk hp fun l e hw => h ⟨l, e, hw⟩
    rw [hendless.follow_eq hp, hendless.follow_eq hp]

theorem Walk.tells (h : t.Walk (t.known link) p l e) :
    t.Tells link p.id (t.get ((link e).getD e.id)) := by
  obtain ⟨n, hafter⟩ := h.exists_after h.end_mem_list
  cases hl : link e with
  | none =>
    rw [Option.getD_none, get_of_mem h.end_mem]
    exact tells_ok ⟨n, hafter, hl⟩
  | some missing =>
    have hmissing := known_eq_none_iff.mp h.end_link missing hl
    rw [Option.getD_some, get_of_find? hmissing]
    exact tells_notFound ⟨hmissing, Or.inr ⟨n, e, hafter, hl⟩⟩

theorem tells_follow (t : PeriodTable) (link : Period → Option Id) (id : Id)
    (hs : t.size ≤ steps) : t.Tells link id (do t.follow link id steps (← t.get id)) := by
  cases hfind : t.find? id with
  | none =>
    rw [get_of_find? hfind, Error.error_bind]
    exact tells_notFound ⟨hfind, Or.inl rfl⟩
  | some p =>
    obtain ⟨hp, rfl⟩ := Register.find?_eq_some_iff.mp hfind
    rw [get_of_mem hp, Error.ok_bind]
    by_cases h : ∃ l e, t.Walk (t.known link) p l e
    · obtain ⟨l, e, hw⟩ := h
      rw [hw.follow_eq p.id hs]
      exact hw.tells
    · have hendless := isEndless_of_forall_not_walk hp fun l e hw => h ⟨l, e, hw⟩
      rw [hendless.follow_eq hp]
      exact tells_cycle hendless

end Limits

section Chain

theorem chainFrom_eq_error_iff {error : Error} :
    t.chainFrom start steps p = .error error ↔
      t.follow Period.correctedBy start steps p = .error error := by
  induction steps generalizing p with
  | zero => simp [chainFrom, follow]
  | succ steps ih =>
    cases hl : p.correctedBy with
    | none => simp [chainFrom, follow, hl]
    | some next =>
      simp only [chainFrom, follow, hl]
      cases t.get next with
      | error => simp
      | ok q =>
        rw [Error.ok_bind, Error.ok_bind, ← ih]
        cases t.chainFrom start steps q with
        | error => simp
        | ok rest => simp [pure, Except.pure]

/-- The limit of `chain` is one step shorter than that of `tip`, which makes no difference. -/
theorem chain_eq_error_iff {error : Error} :
    t.chain id = .error error ↔ t.tip id = .error error := by
  unfold chain tip
  cases hget : t.get id with
  | error => simp
  | ok p =>
    rw [Error.ok_bind, Error.ok_bind, chainFrom_eq_error_iff,
      follow_eq_follow (get_eq_ok_iff.mp hget).1 id (Nat.le_refl _) (Nat.le_succ _)]

theorem Walk.known (h : t.Walk link p l e) : t.Walk (t.known link) p l e := by
  induction h with
  | last hp hn => exact .last hp (by simp [PeriodTable.known, hn])
  | next hp hl hw ih => exact .next hp (known_eq_some_iff.mpr ⟨hl, _, hw.start_mem, rfl⟩) ih

theorem Lists.unique (h : t.Lists link id l) (h' : t.Lists link id l') : l = l' :=
  List.ext_getElem? fun n => (h n).trans (h' n).symm

theorem chain_eq_ok_iff : t.chain id = .ok l ↔
    (∃ e, t.tip id = .ok e) ∧ t.Lists Period.correctedBy id l := by
  have hlists : ∀ e, t.tip id = .ok e →
      ∃ l, t.chain id = .ok l ∧ t.Lists Period.correctedBy id l := by
    intro e he
    obtain ⟨p, _, rfl, l, hw⟩ := walk_of_get_follow he
    exact ⟨l, chain_of_walk hw, hw.known.lists⟩
  constructor
  · intro h
    cases htip : t.tip id with
    | error error =>
      rw [chain_eq_error_iff.mpr htip] at h
      cases h
    | ok e =>
      obtain ⟨l', hl', hafter⟩ := hlists e htip
      obtain rfl : l' = l := Except.ok.inj (hl'.symm.trans h)
      exact ⟨⟨e, rfl⟩, hafter⟩
  · rintro ⟨⟨e, he⟩, hafter⟩
    obtain ⟨l', hl', hafter'⟩ := hlists e he
    rw [hl', hafter.unique hafter']

end Chain

/-- Whatever the links of a table, the walks that are limited by its size tell what the
links come to: a cycle is reported exactly where they never end. The periods of a chain
are those on the way to its tip, and without a tip there is no chain, for the same reason. -/
theorem limited_walks_exact (t : PeriodTable) (id : Id) :
    t.Tells Period.correctedBy id (t.tip id) ∧ t.Tells Period.corrects id (t.root id) ∧
      (∀ l, t.chain id = .ok l ↔
        (∃ e, t.tip id = .ok e) ∧ t.Lists Period.correctedBy id l) ∧
      ∀ error, t.chain id = .error error ↔ t.tip id = .error error :=
  ⟨tells_follow t Period.correctedBy id (Nat.le_succ _),
    tells_follow t Period.corrects id (Nat.le_succ _),
    fun _ => chain_eq_ok_iff, fun _ => chain_eq_error_iff⟩

end PeriodTable

end Fortnight
