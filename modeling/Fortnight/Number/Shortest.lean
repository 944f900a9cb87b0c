import Fortnight.Number.Binary
import Fortnight.Text.Digits

/-!
# Shortest decimal digits

A binary fraction is shown by the fewest decimal digits that single it out: of
all decimal numbers that round to it one with the least count of digits is
chosen, and of those the nearest. Where two are equally near the even one wins.
-/

namespace Fortnight

/-- A decimal number `digits * 10 ^ power`. -/
structure ScaledDigits where
  digits : Nat
  power : Int

namespace Binary

/-- The power of ten below `num / den`, which must not be zero. -/
def powerBelow (num den : Nat) : Int :=
  if den ≤ num then ((Nat.toDigits 10 (num / den)).length : Int) - 1
  else
    let count := (Nat.toDigits 10 (den / num)).length
    if num * 10 ^ (count - 1) = den then 1 - (count : Int) else -(count : Int)

/-- Where the numbers lie that round to this one, in units of a quarter of its last place. -/
def quarters (x : Binary) : Nat × Nat × Nat :=
  let below := if x.mantissa = 2 ^ 52 ∧ -1074 < x.exponent then 1 else 2
  (4 * x.mantissa - below, 4 * x.mantissa, 4 * x.mantissa + 2)

/-- The fraction `n * 2 ^ e`. -/
def timesPowerOfTwo (n : Nat) (e : Int) : Nat × Nat :=
  if 0 ≤ e then (n * 2 ^ e.toNat, 1) else (n, 2 ^ (-e).toNat)

/-- The fraction `n * 10 ^ p`. -/
def timesPowerOfTen (n : Nat) (p : Int) : Nat × Nat :=
  if 0 ≤ p then (n * 10 ^ p.toNat, 1) else (n, 10 ^ (-p).toNat)

/-- Holds when `digits * 10 ^ power` rounds to `x`. -/
def singles (x : Binary) (digits : Nat) (power : Int) : Bool :=
  let (low, _, high) := x.quarters
  let (n, d) := timesPowerOfTen digits power
  let (lowN, lowD) := timesPowerOfTwo low (x.exponent - 2)
  let (highN, highD) := timesPowerOfTwo high (x.exponent - 2)
  if x.mantissa % 2 = 0 then lowN * d ≤ n * lowD && n * highD ≤ highN * d
  else lowN * d < n * lowD && n * highD < highN * d

/-- The best number with its last digit at `power`, if one rounds to `x`. -/
def onGrid? (x : Binary) (power : Int) : Option Nat :=
  let (n, d) := x.ratio
  let (unitN, unitD) := timesPowerOfTen 1 power
  let num := n * unitD
  let den := d * unitN
  let floor := num / den
  let twice := 2 * (num % den)
  let nearest := if twice < den ∨ twice = den ∧ floor % 2 = 0 then floor else floor + 1
  let other := if nearest = floor then floor + 1 else floor
  if x.singles nearest power then some nearest
  else if x.singles other power then some other
  else none

/-- Tries ever finer grids, `count` of them. -/
def searchGrids (x : Binary) : (count : Nat) → (power : Int) → ScaledDigits
  | 0, power => ⟨x.ratio.1, power⟩
  | count + 1, power =>
    match x.onGrid? power with
    | some digits => ⟨digits, power⟩
    | none => searchGrids x count (power - 1)

/-- Moves trailing zeros of the digits into the power. -/
def stripZeros : (fuel : Nat) → ScaledDigits → ScaledDigits
  | 0, s => s
  | fuel + 1, s =>
    if s.digits ≠ 0 ∧ s.digits % 10 = 0 then stripZeros fuel ⟨s.digits / 10, s.power + 1⟩ else s

/-- The shortest digits of the value without its sign. -/
def shortest (x : Binary) : ScaledDigits :=
  if x.mantissa = 0 then ⟨0, 0⟩
  else stripZeros 20 (searchGrids x 18 (powerBelow x.ratio.1 x.ratio.2))

end Binary

namespace ScaledDigits

/-- The digits with the decimal point in place and no exponent. A whole number has no point. -/
def plainChars (s : ScaledDigits) : List Char :=
  if 0 ≤ s.power then Nat.toDigits 10 s.digits ++ List.replicate s.power.toNat '0'
  else
    let places := (-s.power).toNat
    let ds := paddedDigits (places + 1) s.digits
    ds.take (ds.length - places) ++ '.' :: ds.drop (ds.length - places)

end ScaledDigits

namespace Binary

/-- The number in full, without an exponent however small or large it is. -/
def plainChars (x : Binary) : List Char :=
  (if x.negative then ['-'] else []) ++ (x.shortest).plainChars

end Binary

end Fortnight
