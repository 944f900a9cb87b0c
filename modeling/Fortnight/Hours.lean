import Fortnight.Power

/-!
# Hours

Durations are decimal numbers with a fixed number of decimals: digits that make
up a natural number below `2 ^ 96`, a scale from 0 to 28, and a sign. Sign and
scale are part of how a duration is written, so `7.5` and `7.50` are two values
of one size, and so are `0` and `-0`, which is what is left of a small negative
number that has been rounded. Order, `==` and `normalize` look at the size alone.
-/

namespace Fortnight

structure Hours where
  negative : Bool
  /-- All digits, read as one number. -/
  digits : Nat
  /-- How many of the digits are decimals. -/
  scale : Nat
  digits_lt : digits < 2 ^ 96
  scale_le : scale ≤ 28
  deriving DecidableEq

namespace Hours

def zero : Hours := ⟨false, 0, 0, by decide, by decide⟩

/-- The longest duration that a day can hold. -/
def dayLength : Hours := ⟨false, 24, 0, by decide, by decide⟩

/-- The digits with the sign. -/
def coefficient (h : Hours) : Int :=
  if h.negative then -(h.digits : Int) else h.digits

theorem natAbs_coefficient (h : Hours) : h.coefficient.natAbs = h.digits := by
  unfold coefficient
  split
  · exact Int.natAbs_neg _
  · rfl

/-- The number with these digits and this sign, where zero has none. -/
def ofParts? (coefficient : Int) (scale : Nat) : Option Hours :=
  if h : coefficient.natAbs < 2 ^ 96 ∧ scale ≤ 28 then
    some ⟨decide (coefficient < 0), coefficient.natAbs, scale, h.1, h.2⟩
  else none

instance : LT Hours :=
  ⟨fun a b => a.coefficient * 10 ^ b.scale < b.coefficient * 10 ^ a.scale⟩

instance (a b : Hours) : Decidable (a < b) :=
  inferInstanceAs (Decidable (a.coefficient * 10 ^ b.scale < b.coefficient * 10 ^ a.scale))

/-- Two durations of one size, however each is written. -/
def SameSize (a b : Hours) : Prop :=
  a.coefficient * 10 ^ b.scale = b.coefficient * 10 ^ a.scale

instance (a b : Hours) : Decidable (SameSize a b) :=
  inferInstanceAs (Decidable (a.coefficient * 10 ^ b.scale = b.coefficient * 10 ^ a.scale))

instance : BEq Hours :=
  ⟨fun a b => decide (SameSize a b)⟩

/-- Drops trailing zeros of the decimals. -/
def dropZeros : (scale : Nat) → Nat → Nat × Nat
  | 0, n => (n, 0)
  | scale + 1, n => if n % 10 = 0 then dropZeros scale (n / 10) else (n, scale + 1)

theorem dropZeros_digits_le (scale n : Nat) : (dropZeros scale n).1 ≤ n := by
  induction scale generalizing n with
  | zero => simp [dropZeros]
  | succ scale ih =>
    simp only [dropZeros]
    split
    · exact Nat.le_trans (ih (n / 10)) (Nat.div_le_self n 10)
    · simp

theorem dropZeros_scale_le (scale n : Nat) : (dropZeros scale n).2 ≤ scale := by
  induction scale generalizing n with
  | zero => simp [dropZeros]
  | succ scale ih =>
    simp only [dropZeros]
    split
    · have := ih (n / 10)
      omega
    · simp

/-- The same duration with as few decimals as it needs, and zero without a sign. -/
def normalize (h : Hours) : Hours :=
  ⟨h.negative && h.digits != 0, (dropZeros h.scale h.digits).1, (dropZeros h.scale h.digits).2,
    Nat.lt_of_le_of_lt (dropZeros_digits_le _ _) h.digits_lt,
    Nat.le_trans (dropZeros_scale_le _ _) h.scale_le⟩

/-- The number without its last `count` digits, halves away from zero. -/
def roundedDigits (n count : Nat) : Nat :=
  (2 * n + 10 ^ count) / (2 * 10 ^ count)

theorem roundedDigits_le (n count : Nat) : roundedDigits n count ≤ n := by
  have h : 1 ≤ 10 ^ count := Nat.one_le_pow _ _ (by decide)
  have hn : 2 * n ≤ 2 * 10 ^ count * n := Nat.mul_le_mul_right n (by omega)
  exact Nat.le_of_lt_succ (Nat.div_lt_of_lt_mul (by
    rw [Nat.mul_succ]
    omega))

/-- Writes the digits of `h` with 28 decimals, the last `cut` of them rounded away. The sign stays. -/
def roundToFinest (h : Hours) (cut : Nat) : Hours :=
  ⟨h.negative, roundedDigits h.digits cut, 28,
    Nat.lt_of_le_of_lt (roundedDigits_le _ _) h.digits_lt, Nat.le_refl 28⟩

/-- Moves the point by `places` to the left. What exceeds 28 decimals is rounded away. -/
def pointLeft (h : Hours) (places : Nat) : Hours :=
  if fits : h.scale + places ≤ 28 then ⟨h.negative, h.digits, h.scale + places, h.digits_lt, fits⟩
  else h.roundToFinest (h.scale + places - 28)

/-- Moves the point by `places` to the right, beyond the last digit if need be. -/
def pointRight? (h : Hours) (places : Nat) : Option Hours :=
  if places ≤ h.scale then
    some ⟨h.negative, h.digits, h.scale - places, h.digits_lt,
      Nat.le_trans (Nat.sub_le _ _) h.scale_le⟩
  else ofParts? (h.coefficient * 10 ^ (places - h.scale)) 0

/-- The quotient to the nearest integer, halves to the even neighbour. -/
def roundEven (num : Int) (den : Nat) : Int :=
  let quotient := num.natAbs / den
  let twice := 2 * (num.natAbs % den)
  let rounded := if den < twice ∨ twice = den ∧ quotient % 2 = 1 then quotient + 1 else quotient
  if num < 0 then -(rounded : Int) else rounded

/-- Gives up decimals of an exact result until its coefficient fits. -/
def fit? (exact : Int) (dropped : Nat) : (scale : Nat) → Option Hours
  | 0 => ofParts? (roundEven exact (10 ^ dropped)) 0
  | scale + 1 =>
    match ofParts? (roundEven exact (10 ^ dropped)) (scale + 1) with
    | some h => some h
    | none => fit? exact (dropped + 1) scale

/-- The sum at the larger scale of the two, at a smaller one if it does not fit,
and nothing if it does not fit without decimals either. Nothing is done to a
number when zero is added to it, not even to its sign. -/
def add? (a b : Hours) : Option Hours :=
  if a.digits = 0 then some b
  else if b.digits = 0 then some a
  else
    let scale := max a.scale b.scale
    fit? (a.coefficient * 10 ^ (scale - a.scale) + b.coefficient * 10 ^ (scale - b.scale)) 0 scale

/-- The sum from left to right. -/
def sum? (hs : List Hours) : Option Hours :=
  hs.foldlM add? zero

end Hours

end Fortnight
