import Fortnight.Power

/-!
# Binary fractions

Numbers of the form `m * 2 ^ e` with 53 bits of precision and exponents from
-1074 to 971, that is the finite numbers of the common double-precision format,
kept as integers. Every operation is exact and is then rounded once, to the
nearest such number, and to the one with an even mantissa when two are equally
near.
-/

namespace Fortnight

structure Binary where
  negative : Bool
  mantissa : Nat
  exponent : Int
  deriving DecidableEq

namespace Binary

def zero : Binary := ⟨false, 0, -1074⟩

def neg (x : Binary) : Binary :=
  { x with negative := !x.negative }

/-- The quotient to the nearest integer, halves to the even neighbour. -/
def divEven (num den : Nat) : Nat :=
  let quotient := num / den
  let twice := 2 * (num % den)
  if den < twice ∨ twice = den ∧ quotient % 2 = 1 then quotient + 1 else quotient

/-- The fraction `num / den` divided by `2 ^ e`, as a fraction again. -/
def overPowerOfTwo (num den : Nat) (e : Int) : Nat × Nat :=
  if 0 ≤ e then (num, den * 2 ^ e.toNat) else (num * 2 ^ (-e).toNat, den)

/-- The exponent at which the integral part of `num / den` has 53 bits, or -1074 if that is larger. -/
def exponentOf (num den : Nat) : Int :=
  let e := (num.log2 : Int) - den.log2 - 52
  let (n, d) := overPowerOfTwo num den e
  max (if n / d < 2 ^ 52 then e - 1 else e) (-1074)

/-- The number nearest to `num / den`, unless it is too large. -/
def ofRatio? (num den : Nat) : Option Binary :=
  if num = 0 then some zero
  else
    let e := exponentOf num den
    let (n, d) := overPowerOfTwo num den e
    let m := divEven n d
    let (m, e) := if m = 2 ^ 53 then (2 ^ 52, e + 1) else (m, e)
    if 971 < e then none else some ⟨false, m, e⟩

/-- The value without its sign, as a fraction. -/
def ratio (x : Binary) : Nat × Nat :=
  if 0 ≤ x.exponent then (x.mantissa * 2 ^ x.exponent.toNat, 1)
  else (x.mantissa, 2 ^ (-x.exponent).toNat)

/-- The product of two numbers that are not negative. -/
def mul? (x y : Binary) : Option Binary :=
  ofRatio? (x.ratio.1 * y.ratio.1) (x.ratio.2 * y.ratio.2)

/-- The quotient of two numbers that are not negative, the second not zero. -/
def div? (x y : Binary) : Option Binary :=
  ofRatio? (x.ratio.1 * y.ratio.2) (x.ratio.2 * y.ratio.1)

/-- The number nearest to `10 ^ power`. -/
def tenPower? (power : Nat) : Option Binary :=
  ofRatio? (10 ^ power) 1

/-- Divides by the largest power of ten there is, `steps` times, or until nothing is left. -/
def divLargest? : (steps : Nat) → Binary → Option Binary
  | 0, x => some x
  | steps + 1, x =>
    if x.mantissa = 0 then some x
    else (tenPower? 308).bind fun big => (x.div? big).bind (divLargest? steps)

/-- Multiplies by `10 ^ power`, itself rounded. Powers below -308 are divided out in steps. -/
def scaleTen? (x : Binary) (power : Int) : Option Binary :=
  if x.mantissa = 0 then some x
  else if 308 < power then none
  else if 0 ≤ power then (tenPower? power.toNat).bind x.mul?
  else
    let steps := ((-power).toNat - 1) / 308
    (divLargest? steps x).bind fun y =>
      (tenPower? ((-power).toNat - 308 * steps)).bind y.div?

end Binary

end Fortnight
