import Fortnight.Hours
import Fortnight.Text.Digits

/-!
# Hours as text

A duration is written with exactly the decimals of its scale. The reader takes a
sign, digits with at most one point, and underscores after the first digit. A
number with more decimals than fit is cut there, and the first digit that is cut
rounds the rest, a half upwards. Text that is no such number may still be one
with an exponent.
-/

namespace Fortnight

namespace Hours

def chars (h : Hours) : List Char :=
  let ds := paddedDigits (h.scale + 1) h.digits
  let whole := ds.length - h.scale
  (if h.negative then ['-'] else []) ++
    if h.scale = 0 then ds else ds.take whole ++ '.' :: ds.drop whole

def text (h : Hours) : String :=
  String.ofList h.chars

instance : ToString Hours := ⟨text⟩

/-- What has been read of a number: the digits so far, how many of them are
decimals, and whether there was a point and a digit or underscore at all. -/
structure Scan where
  negative : Bool
  digits : Nat
  scale : Nat
  point : Bool
  any : Bool

namespace Scan

def start (negative : Bool) : Scan := ⟨negative, 0, 0, false, false⟩

def finish? (s : Scan) : Option Hours :=
  ofParts? (if s.negative then -(s.digits : Int) else s.digits) s.scale

def isSpacedDigit (c : Char) : Bool :=
  c.isDigit || c == '_'

/-- Holds when more than a machine word was needed before the last digit. -/
def isLong (s : Scan) : Bool :=
  1844674407370954906 ≤ s.digits / 10

/-- The first digit of what is cut off. Underscores before it are passed over in
long numbers and count as the digit zero in others. -/
def cutDigit (s : Scan) (cs : List Char) : Nat :=
  match if s.isLong then cs.dropWhile (· = '_') else cs with
  | [] => 0
  | c :: _ => if c.isDigit then c.toNat - '0'.toNat else 0

/-- Ends the number before `cs`, whose first digit rounds what was read. -/
def cutBefore? (s : Scan) (cs : List Char) : Option Hours :=
  if !cs.all isSpacedDigit then none
  else if s.cutDigit cs < 5 then s.finish?
  else if s.digits + 1 < 2 ^ 96 then finish? { s with digits := s.digits + 1 }
  else if s.scale = 0 then none
  else finish? { s with digits := (s.digits + 5) / 10, scale := s.scale - 1 }

def run? (s : Scan) : List Char → Option Hours
  | [] => if s.any then s.finish? else none
  | c :: cs =>
    if s.point ∧ 28 ≤ s.scale then s.cutBefore? (c :: cs)
    else if c.isDigit then
      let digits := 10 * s.digits + (c.toNat - '0'.toNat)
      if digits < 2 ^ 96 then
        run? { s with digits, scale := if s.point then s.scale + 1 else 0, any := true } cs
      else if s.point then s.cutBefore? (c :: cs)
      else none
    else if c = '.' ∧ !s.point then run? { s with point := true } cs
    else if c = '_' ∧ s.any then run? s cs
    else none

end Scan

def ofPlainChars? : List Char → Option Hours
  | [] => none
  | '-' :: cs => (Scan.start true).run? cs
  | '+' :: cs => (Scan.start false).run? cs
  | cs => (Scan.start false).run? cs

/-- Reads an exponent without its minus sign: an optional plus and digits, below `2 ^ 32`. -/
def readExponent? (cs : List Char) : Option Nat :=
  let ds := if cs.head? = some '+' then cs.drop 1 else cs
  if ds.isEmpty || !ds.all Char.isDigit then none
  else
    let n := Nat.ofDigitChars 10 ds 0
    if n < 2 ^ 32 then some n else none

/-- Moves the point of `h` by a decimal exponent. No number is moved by more than 28 places. -/
def shiftPoint? (h : Hours) (negative : Bool) (exponent : Nat) : Option Hours :=
  if 28 < exponent then none
  else if negative then some (h.pointLeft exponent)
  else h.pointRight? exponent

/-- Reads a number followed by `e` or `E` and an exponent. -/
def ofExponentChars? (cs : List Char) : Option Hours :=
  let isMark := fun c => c == 'e' || c == 'E'
  match cs.dropWhile fun c => !isMark c with
  | [] => none
  | _ :: exponent => do
    let base ← ofPlainChars? (cs.takeWhile fun c => !isMark c)
    match exponent with
    | '-' :: rest => shiftPoint? base true (← readExponent? rest)
    | rest => shiftPoint? base false (← readExponent? rest)

def ofText? (s : String) : Option Hours :=
  match ofPlainChars? s.toList with
  | some h => some h
  | none => ofExponentChars? s.toList

end Hours

end Fortnight
