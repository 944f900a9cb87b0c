import Fortnight.Proofs.Hours.Size

/-!
# Sums of durations

A sum gives up decimals until its digits fit, and it fails only if they do not fit
without decimals. To round a number that is at most a whole number does not lead
beyond it, so that sums of durations that are not negative stay within the sum of
their bounds and never fail as long as this sum fits. And where it fits with so many
decimals as any of the summands needs, what is given up is zeros: the sum is exact.
-/

namespace Fortnight

namespace Hours

variable {a b c : Hours} {hs : List Hours} {exact : ℤ} {m n k dropped scale : ℕ}

theorem coefficient_of_ofParts? {coefficient : ℤ} (h : ofParts? coefficient scale = some a) :
    a.coefficient = coefficient ∧ a.scale = scale := by
  unfold ofParts? at h
  split at h
  · cases h
    refine ⟨?_, rfl⟩
    simp only [Hours.coefficient, decide_eq_true_eq]
    split <;> omega
  · cases h

theorem value_of_ofParts? {coefficient : ℤ} (h : ofParts? coefficient scale = some a) :
    a.value = coefficient / 10 ^ scale := by
  obtain ⟨hcoefficient, hscale⟩ := coefficient_of_ofParts? h
  rw [value, hcoefficient, hscale]

theorem exists_ofParts? {coefficient : ℤ} (hfits : coefficient.natAbs < 2 ^ 96)
    (hscale : scale ≤ 28) : ∃ h, ofParts? coefficient scale = some h :=
  ⟨_, dif_pos ⟨hfits, hscale⟩⟩

section Rounding

theorem roundEven_nonneg {num : ℤ} (hnum : 0 ≤ num) (den : ℕ) : 0 ≤ roundEven num den := by
  unfold roundEven
  simp only [if_neg (Int.not_lt.mpr hnum)]
  exact Int.natCast_nonneg _

theorem roundEven_le {num : ℤ} {den : ℕ} (hden : 0 < den) (hnum : 0 ≤ num)
    (hle : num ≤ m * den) : roundEven num den ≤ m := by
  obtain ⟨num, rfl⟩ := Int.eq_ofNat_of_zero_le hnum
  have hle' : num ≤ m * den := by exact_mod_cast hle
  have hdiv := Nat.div_add_mod num den
  have hquotient : num / den ≤ m := Nat.div_le_of_le_mul (by rwa [Nat.mul_comm])
  have hwhole : num / den = m → num % den = 0 := by
    intro h
    rw [h, Nat.mul_comm] at hdiv
    omega
  unfold roundEven
  simp only [if_neg (Int.not_lt.mpr hnum), Int.natAbs_natCast]
  split
  · have hne : num / den ≠ m := by
      intro h
      have hzero := hwhole h
      omega
    omega
  · omega

theorem roundEven_mul {den : ℕ} (hden : 0 < den) (num : ℤ) : roundEven (num * den) den = num := by
  have hquotient : (num * den).natAbs / den = num.natAbs := by
    rw [Int.natAbs_mul, Int.natAbs_natCast, Nat.mul_div_cancel _ hden]
  have hrest : (num * den).natAbs % den = 0 := by
    rw [Int.natAbs_mul, Int.natAbs_natCast, Nat.mul_mod_left]
  have hsign : num * den < 0 ↔ num < 0 := by
    have hden' : (0 : ℤ) < den := by exact_mod_cast hden
    exact ⟨fun h => neg_of_mul_neg_left h hden'.le, fun h => mul_neg_of_neg_of_pos h hden'⟩
  have hround : ¬ (den < 2 * 0 ∨ 2 * 0 = den ∧ num.natAbs % 2 = 1) := by omega
  simp only [roundEven, hquotient, hrest, if_neg hround, hsign]
  split <;> omega

end Rounding

/-- Holds when a duration is not negative and at most a whole number of hours. -/
structure Within (m : ℕ) (h : Hours) : Prop where
  nonneg : 0 ≤ h.value
  le : h.value ≤ m

/-- Holds when a duration needs no more than so many decimals. -/
def HasDecimals (k : ℕ) (h : Hours) : Prop :=
  ∃ n : ℤ, h.value * 10 ^ k = n

theorem Within.mono (h : a.Within m) (hle : m ≤ n) : a.Within n where
  nonneg := h.nonneg
  le := h.le.trans (by exact_mod_cast hle)

theorem within_zero : zero.Within 0 where
  nonneg := value_zero.ge
  le := by simp

theorem value_mul_pow (h : a.scale ≤ k) :
    a.value * 10 ^ k = (a.coefficient * 10 ^ (k - a.scale) : ℤ) := by
  unfold value
  nth_rewrite 1 [← Nat.add_sub_cancel' h]
  push_cast
  rw [pow_add]
  field_simp

theorem hasDecimals_of_scale_le (h : a.scale ≤ k) : a.HasDecimals k :=
  ⟨_, value_mul_pow h⟩

theorem hasDecimals_zero : zero.HasDecimals k :=
  hasDecimals_of_scale_le (Nat.zero_le k)

theorem value_of_digits_eq_zero (h : a.digits = 0) : a.value = 0 := by
  have hcoefficient : a.coefficient = 0 := by
    rw [← Int.natAbs_eq_zero, natAbs_coefficient, h]
  rw [value, hcoefficient, Int.cast_zero, zero_div]

section Fitting

theorem within_of_ofParts? {coefficient : ℤ} (h : ofParts? coefficient scale = some a)
    (hnonneg : 0 ≤ coefficient) (hle : coefficient ≤ (m * 10 ^ scale : ℕ)) : a.Within m where
  nonneg := by
    rw [value_of_ofParts? h]
    positivity
  le := by
    rw [value_of_ofParts? h, div_le_iff₀ (by positivity)]
    exact_mod_cast hle

theorem roundEven_pow_le (hexact : 0 ≤ exact) (hle : exact ≤ m * 10 ^ (dropped + scale)) :
    roundEven exact (10 ^ dropped) ≤ (m * 10 ^ scale : ℕ) := by
  apply roundEven_le (by positivity) hexact
  push_cast
  rwa [mul_assoc, ← pow_add, Nat.add_comm scale]

/-- What is at most a whole number of hours with few enough digits can be written,
if need be without decimals. -/
theorem exists_fit? (hm : m < 2 ^ 96) (hscale : scale ≤ 28) (hexact : 0 ≤ exact)
    (hle : exact ≤ m * 10 ^ (dropped + scale)) :
    ∃ h, fit? exact dropped scale = some h ∧ h.Within m := by
  induction scale generalizing dropped with
  | zero =>
    have hnonneg := roundEven_nonneg hexact (10 ^ dropped)
    have hround := roundEven_pow_le hexact hle
    have hfits : (roundEven exact (10 ^ dropped)).natAbs < 2 ^ 96 := by omega
    obtain ⟨h, hh⟩ := exists_ofParts? hfits (Nat.zero_le 28)
    exact ⟨h, hh, within_of_ofParts? hh hnonneg hround⟩
  | succ scale ih =>
    unfold fit?
    split
    · rename_i h hh
      exact ⟨h, rfl, within_of_ofParts? hh (roundEven_nonneg hexact _) (roundEven_pow_le hexact hle)⟩
    · apply ih (Nat.le_of_succ_le hscale)
      rwa [Nat.add_assoc, Nat.add_comm 1]

theorem roundEven_mul_pow (c : ℤ) (dropped k : ℕ) :
    roundEven (c * 10 ^ (dropped + k)) (10 ^ dropped) = c * 10 ^ k := by
  have hsplit : c * 10 ^ (dropped + k) = c * 10 ^ k * (10 ^ dropped : ℕ) := by
    push_cast
    ring
  rw [hsplit, roundEven_mul (by positivity)]

theorem fit?_mul_pow {c : ℤ} (hc : c.natAbs < 2 ^ 96) (hscale : scale ≤ 28) (hk : k ≤ scale) :
    ∃ h, fit? (c * 10 ^ (dropped + k)) dropped scale = some h ∧
      h.value = c / 10 ^ (scale - k) := by
  induction scale generalizing dropped k with
  | zero =>
    obtain rfl : k = 0 := Nat.le_zero.mp hk
    obtain ⟨h, hh⟩ := exists_ofParts? hc (Nat.zero_le 28)
    refine ⟨h, ?_, value_of_ofParts? hh⟩
    rw [fit?, roundEven_mul_pow, pow_zero, mul_one, hh]
  | succ scale ih =>
    rw [fit?, roundEven_mul_pow]
    cases k with
    | zero =>
      obtain ⟨h, hh⟩ := exists_ofParts? hc hscale
      refine ⟨h, ?_, value_of_ofParts? hh⟩
      rw [pow_zero, mul_one, hh]
    | succ k =>
      split
      · rename_i h hh
        refine ⟨h, rfl, ?_⟩
        have hscale' : k + 1 + (scale - k) = scale + 1 := by omega
        rw [value_of_ofParts? hh, Nat.add_sub_add_right,
          div_eq_div_iff (by positivity) (by positivity)]
        push_cast
        rw [mul_assoc, ← pow_add, hscale']
      · have hdropped : dropped + (k + 1) = dropped + 1 + k := by omega
        rw [hdropped, Nat.add_sub_add_right]
        exact ih (Nat.le_of_succ_le hscale) (Nat.le_of_succ_le_succ hk)

theorem value_of_fit? {q : ℚ} {x : ℤ} (hexact : q * 10 ^ scale = exact) (hx : q * 10 ^ k = x)
    (hfits : |q| * 10 ^ k < 2 ^ 96) (hscale : scale ≤ 28) (h : fit? exact 0 scale = some a) :
    a.value = q := by
  -- The digits without the zeros beyond the decimals that are needed.
  obtain ⟨y, hy⟩ : ∃ y : ℤ, q * 10 ^ min k scale = y := by
    rcases min_choice k scale with hmin | hmin
    · rw [hmin]
      exact ⟨x, hx⟩
    · rw [hmin]
      exact ⟨exact, hexact⟩
  have hyfits : y.natAbs < 2 ^ 96 := by
    have hle : |q| * 10 ^ min k scale ≤ |q| * 10 ^ k := by
      gcongr
      · norm_num
      · exact min_le_left k scale
    have habs : |(y : ℚ)| = |q| * 10 ^ min k scale := by
      rw [← hy, abs_mul, abs_of_pos (show (0 : ℚ) < 10 ^ min k scale by positivity)]
    have hlt : |(y : ℚ)| < 2 ^ 96 := by
      rw [habs]
      exact hle.trans_lt hfits
    rw [← Int.cast_abs, Int.abs_eq_natAbs] at hlt
    exact_mod_cast hlt
  have hzeros : exact = y * 10 ^ (0 + (scale - min k scale)) := by
    have hpow : min k scale + (0 + (scale - min k scale)) = scale := by omega
    have hcast : (exact : ℚ) = y * 10 ^ (0 + (scale - min k scale)) := by
      rw [← hexact, ← hy, mul_assoc, ← pow_add, hpow]
    exact_mod_cast hcast
  obtain ⟨b, hb, hvalue⟩ := fit?_mul_pow hyfits hscale (Nat.sub_le scale (min k scale))
  rw [hzeros, hb] at h
  cases h
  rw [hvalue, ← hy, Nat.sub_sub_self (min_le_right k scale),
    mul_div_cancel_right₀ _ (by positivity)]

end Fitting

section Adding

theorem value_add_mul_pow (a b : Hours) :
    (a.value + b.value) * 10 ^ max a.scale b.scale =
      (a.coefficient * 10 ^ (max a.scale b.scale - a.scale) +
        b.coefficient * 10 ^ (max a.scale b.scale - b.scale) : ℤ) := by
  rw [add_mul, value_mul_pow (le_max_left _ _), value_mul_pow (le_max_right _ _)]
  exact_mod_cast rfl

/-- A sum does not fail as long as the bounds of its summands fit. -/
theorem exists_add? (ha : a.Within m) (hb : b.Within n) (hfits : m + n < 2 ^ 96) :
    ∃ c, add? a b = some c ∧ c.Within (m + n) := by
  unfold add?
  split
  · exact ⟨b, rfl, hb.mono (Nat.le_add_left n m)⟩
  · split
    · exact ⟨a, rfl, ha.mono (Nat.le_add_right m n)⟩
    · have hexact := value_add_mul_pow a b
      have hnonneg : 0 ≤ (a.value + b.value) * 10 ^ max a.scale b.scale :=
        mul_nonneg (add_nonneg ha.nonneg hb.nonneg) (by positivity)
      have hle : (a.value + b.value) * 10 ^ max a.scale b.scale ≤
          (m + n : ℕ) * 10 ^ max a.scale b.scale := by
        push_cast
        gcongr
        · exact ha.le
        · exact hb.le
      rw [hexact] at hnonneg hle
      apply exists_fit? hfits (max_le a.scale_le b.scale_le) (by exact_mod_cast hnonneg)
      rw [Nat.zero_add]
      exact_mod_cast hle

theorem exists_add_mul_pow (ha : a.HasDecimals k) (hb : b.HasDecimals k) :
    ∃ n : ℤ, (a.value + b.value) * 10 ^ k = n := by
  obtain ⟨x, hx⟩ := ha
  obtain ⟨y, hy⟩ := hb
  refine ⟨x + y, ?_⟩
  rw [add_mul, hx, hy]
  exact_mod_cast rfl

/-- A sum is exact where the bounds of its summands fit with all the decimals that these
need. -/
theorem value_of_add? (ha : a.Within m) (hb : b.Within n) (hka : a.HasDecimals k)
    (hkb : b.HasDecimals k) (hfits : (m + n) * 10 ^ k < 2 ^ 96) (h : add? a b = some c) :
    c.value = a.value + b.value := by
  unfold add? at h
  split at h
  · rename_i hzero
    cases h
    rw [value_of_digits_eq_zero hzero, zero_add]
  · split at h
    · rename_i hzero
      cases h
      rw [value_of_digits_eq_zero hzero, add_zero]
    · obtain ⟨x, hx⟩ := exists_add_mul_pow hka hkb
      apply value_of_fit? (value_add_mul_pow a b) hx _ (max_le a.scale_le b.scale_le) h
      rw [abs_of_nonneg (add_nonneg ha.nonneg hb.nonneg)]
      calc (a.value + b.value) * 10 ^ k ≤ (m + n) * 10 ^ k := by
            gcongr
            · exact ha.le
            · exact hb.le
        _ < 2 ^ 96 := by exact_mod_cast hfits

end Adding

section Sums

theorem exists_foldlM_add? (ha : a.Within m) (hhs : ∀ h ∈ hs, h.Within n)
    (hfits : m + n * hs.length < 2 ^ 96) :
    ∃ c, hs.foldlM add? a = some c ∧ c.Within (m + n * hs.length) := by
  induction hs generalizing a m with
  | nil => exact ⟨a, rfl, ha⟩
  | cons h hs ih =>
    obtain ⟨hh, hhs⟩ := List.forall_mem_cons.mp hhs
    have hlength : m + n * (h :: hs).length = m + n + n * hs.length := by
      rw [List.length_cons]
      ring
    rw [hlength] at hfits ⊢
    obtain ⟨b, hb, hwithin⟩ := exists_add? ha hh (by omega)
    obtain ⟨c, hc, hwithin'⟩ := ih hwithin hhs hfits
    refine ⟨c, ?_, hwithin'⟩
    rw [List.foldlM_cons, hb]
    exact hc

theorem value_of_foldlM_add? (ha : a.Within m) (hhs : ∀ h ∈ hs, h.Within n)
    (hka : a.HasDecimals k) (hkhs : ∀ h ∈ hs, h.HasDecimals k)
    (hfits : (m + n * hs.length) * 10 ^ k < 2 ^ 96) (h : hs.foldlM add? a = some c) :
    c.value = a.value + (hs.map value).sum := by
  induction hs generalizing a m with
  | nil =>
    cases h
    simp
  | cons b hs ih =>
    obtain ⟨hb, hhs⟩ := List.forall_mem_cons.mp hhs
    obtain ⟨hkb, hkhs⟩ := List.forall_mem_cons.mp hkhs
    have hlength : m + n * (b :: hs).length = m + n + n * hs.length := by
      rw [List.length_cons]
      ring
    rw [hlength] at hfits
    have hfirst : (m + n) * 10 ^ k < 2 ^ 96 :=
      (Nat.mul_le_mul_right _ (Nat.le_add_right _ _)).trans_lt hfits
    have hplain : m + n < 2 ^ 96 :=
      (Nat.le_mul_of_pos_right _ (by positivity)).trans_lt hfirst
    obtain ⟨d, hd, hwithin⟩ := exists_add? ha hb hplain
    have hvalue := value_of_add? ha hb hka hkb hfirst hd
    have hkd : d.HasDecimals k := by
      rw [HasDecimals, hvalue]
      exact exists_add_mul_pow hka hkb
    rw [List.foldlM_cons, hd] at h
    rw [ih hwithin hhs hkd hkhs hfits h, hvalue, List.map_cons, List.sum_cons, add_assoc]

/-- The sum of durations, each of which is at most a whole number of hours, does not
fail as long as so many of these fit, and it is exact where they fit with all the
decimals that the durations need. -/
theorem sum?_of_within (hhs : ∀ h ∈ hs, h.Within n) (hfits : n * hs.length < 2 ^ 96) :
    ∃ total, sum? hs = some total ∧
      ∀ k, n * hs.length * 10 ^ k < 2 ^ 96 → (∀ h ∈ hs, h.HasDecimals k) →
        total.value = (hs.map value).sum := by
  obtain ⟨total, htotal, -⟩ := exists_foldlM_add? within_zero hhs (by rwa [Nat.zero_add])
  refine ⟨total, htotal, fun k hk hdecimals => ?_⟩
  rw [value_of_foldlM_add? within_zero hhs hasDecimals_zero hdecimals (by rwa [Nat.zero_add])
    htotal, value_zero, zero_add]

end Sums

end Hours

end Fortnight
