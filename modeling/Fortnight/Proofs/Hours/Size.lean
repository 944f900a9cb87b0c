import Mathlib
import Fortnight.Hours

/-!
# The size of durations

A duration is a number, its coefficient divided by a power of ten. The order of
durations is that of these numbers. Of all ways to write one number `normalize`
picks one: it has no decimal zero at its end, and zero has no sign. So durations are of one
size exactly if they are the same once they are normalized.
-/

namespace Fortnight

namespace Hours

variable {a b h : Hours}

/-- The number of hours. -/
def value (h : Hours) : ℚ :=
  h.coefficient / 10 ^ h.scale

theorem sameSize_iff_value : SameSize a b ↔ a.value = b.value := by
  unfold SameSize value
  rw [div_eq_div_iff (by positivity) (by positivity)]
  exact_mod_cast Iff.rfl

theorem lt_iff_value : a < b ↔ a.value < b.value := by
  unfold value
  rw [div_lt_div_iff₀ (by positivity) (by positivity)]
  exact_mod_cast Iff.rfl

@[simp] theorem value_zero : zero.value = 0 := by
  simp [value, coefficient, zero]

@[simp] theorem value_dayLength : dayLength.value = 24 := by
  simp [value, coefficient, dayLength]

/-- What `dropZeros` drops are decimals, and they are zeros. -/
theorem dropZeros_mul_pow (scale n : ℕ) :
    (dropZeros scale n).1 * 10 ^ (scale - (dropZeros scale n).2) = n := by
  induction scale generalizing n with
  | zero => simp [dropZeros]
  | succ scale ih =>
    simp only [dropZeros]
    split
    · rename_i hzero
      have hle := dropZeros_scale_le scale (n / 10)
      rw [Nat.succ_sub hle, Nat.pow_succ, ← Nat.mul_assoc, ih]
      omega
    · simp

theorem dropZeros_stops (scale n : ℕ) :
    (dropZeros scale n).2 = 0 ∨ (dropZeros scale n).1 % 10 ≠ 0 := by
  induction scale generalizing n with
  | zero => exact Or.inl rfl
  | succ scale ih =>
    simp only [dropZeros]
    split
    · exact ih (n / 10)
    · rename_i hdigit
      exact Or.inr hdigit

/-- Holds when a duration is written with as few decimals as it needs, and zero without a sign. -/
structure Normal (h : Hours) : Prop where
  stops : h.scale = 0 ∨ h.digits % 10 ≠ 0
  unsigned : h.digits = 0 → h.negative = false

theorem normal_normalize (h : Hours) : h.normalize.Normal where
  stops := dropZeros_stops h.scale h.digits
  unsigned hzero := by
    have hdigits := dropZeros_mul_pow h.scale h.digits
    have hnone : h.digits = 0 := by
      rw [← hdigits, show (dropZeros h.scale h.digits).1 = 0 from hzero, Nat.zero_mul]
    simp [normalize, hnone]

theorem coefficient_normalize (h : Hours) :
    h.normalize.coefficient * 10 ^ (h.scale - h.normalize.scale) = h.coefficient := by
  have hdigits : (h.normalize.digits : ℤ) * 10 ^ (h.scale - h.normalize.scale) = h.digits := by
    exact_mod_cast dropZeros_mul_pow h.scale h.digits
  have hnegative : h.normalize.negative = (h.negative && h.digits != 0) := rfl
  unfold coefficient
  rw [hnegative, ← hdigits]
  cases h.negative with
  | false => simp
  | true =>
    by_cases hzero : h.digits = 0
    · rw [hzero] at hdigits
      simp [hdigits]
    · simp [hzero]

theorem value_normalize (h : Hours) : h.normalize.value = h.value := by
  have hle : h.normalize.scale ≤ h.scale := dropZeros_scale_le h.scale h.digits
  have hcoefficient : (h.normalize.coefficient : ℚ) * 10 ^ (h.scale - h.normalize.scale) =
      h.coefficient := by
    exact_mod_cast coefficient_normalize h
  unfold value
  rw [← hcoefficient, ← Nat.add_sub_cancel' hle, pow_add, Nat.add_sub_cancel_left]
  field_simp

theorem Normal.scale_le (ha : a.Normal) (hsame : SameSize a b) : a.scale ≤ b.scale := by
  by_contra hlt
  obtain ⟨more, hmore⟩ := Nat.exists_eq_add_of_lt (Nat.lt_of_not_le hlt)
  have hdigits : a.digits * 10 ^ b.scale = b.digits * 10 ^ a.scale := by
    have habs := congrArg Int.natAbs hsame
    simpa [Int.natAbs_mul, Int.natAbs_pow, natAbs_coefficient] using habs
  have hzeros : a.digits = 10 * (b.digits * 10 ^ more) := by
    apply Nat.eq_of_mul_eq_mul_right (Nat.pow_pos (n := b.scale) (show 0 < 10 by decide))
    rw [hdigits, hmore]
    ring
  rcases ha.stops with hscale | hdigit
  · omega
  · omega

theorem Normal.negative_iff (h : a.Normal) : a.negative = true ↔ a.coefficient < 0 := by
  have hunsigned := h.unsigned
  unfold coefficient
  cases hnegative : a.negative with
  | false => simp
  | true =>
    rw [hnegative] at hunsigned
    have hpos : a.digits ≠ 0 := fun hzero => Bool.noConfusion (hunsigned hzero)
    simp only [if_true, true_iff]
    omega

/-- There is only one way to write a number without a zero at the end. -/
theorem Normal.eq (ha : a.Normal) (hb : b.Normal) (hvalue : a.value = b.value) : a = b := by
  have hsame := sameSize_iff_value.mpr hvalue
  have hscale := Nat.le_antisymm (ha.scale_le hsame) (hb.scale_le hsame.symm)
  have hcoefficient : a.coefficient = b.coefficient := by
    rw [SameSize, hscale] at hsame
    exact Int.eq_of_mul_eq_mul_right (by positivity) hsame
  have hdigits : a.digits = b.digits := by
    rw [← natAbs_coefficient a, hcoefficient, natAbs_coefficient]
  have hnegative : a.negative = b.negative := by
    rw [Bool.eq_iff_iff, ha.negative_iff, hb.negative_iff, hcoefficient]
  cases a
  cases b
  dsimp only at hscale hdigits hnegative
  subst hscale hdigits hnegative
  rfl

theorem normalize_eq_iff : a.normalize = b.normalize ↔ a.value = b.value := by
  constructor
  · intro h
    rw [← value_normalize a, h, value_normalize]
  · intro h
    apply (normal_normalize a).eq (normal_normalize b)
    rw [value_normalize, value_normalize, h]

end Hours

end Fortnight
