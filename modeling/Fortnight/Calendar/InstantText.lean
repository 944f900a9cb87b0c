import Fortnight.Calendar.DateText
import Fortnight.Calendar.Instant

/-!
# Instants as text

An instant is written as date, `T`, time and `Z`, with the fewest of 0, 3, 6 or
9 fraction digits that lose nothing. Messages show it with blanks and `UTC`
instead. A leap second is written as second 60. The reader also takes other
offsets from universal time, up to a day, and moves the instant accordingly.
-/

namespace Fortnight

namespace Instant

/-- The nanosecond within the second as written, where a leap second is a second of its own. -/
def writtenNano (t : Instant) : Nat :=
  t.nano % 1000000000

def fractionChars (t : Instant) : List Char :=
  let n := t.writtenNano
  if n = 0 then []
  else if n % 1000000 = 0 then '.' :: paddedDigits 3 (n / 1000000)
  else if n % 1000 = 0 then '.' :: paddedDigits 6 (n / 1000)
  else '.' :: paddedDigits 9 n

/-- Hour, minute, second and fraction. -/
def timeChars (t : Instant) : List Char :=
  paddedDigits 2 (t.second / 3600) ++ ':' :: paddedDigits 2 (t.second / 60 % 60) ++
    ':' :: paddedDigits 2 (t.second % 60 + t.nano / 1000000000) ++ t.fractionChars

/-- The form that is exchanged. -/
def chars (t : Instant) : List Char :=
  t.date.chars ++ 'T' :: t.timeChars ++ ['Z']

def text (t : Instant) : String :=
  String.ofList t.chars

/-- The form that messages show. -/
def display (t : Instant) : String :=
  String.ofList (t.date.chars ++ ' ' :: t.timeChars) ++ " UTC"

instance : ToString Instant := ⟨display⟩

/-- Reads the digits after a decimal point as nanoseconds; digits beyond the ninth are dropped. -/
def readFraction? (cs : List Char) : Option (Nat × List Char) :=
  match spanDigits 9 cs with
  | ([], _) => none
  | (ds, rest) =>
    some (Nat.ofDigitChars 10 ds 0 * 10 ^ (9 - ds.length), rest.dropWhile Char.isDigit)

/-- Reads hour, minute, second and fraction as seconds of the day and
nanoseconds. Second 60 makes the fraction count from one second on. -/
def readTime? (cs : List Char) : Option ((Nat × Nat) × List Char) := do
  let (hour, cs) ← readTwoDigits? cs
  let cs ← readMark? ':' cs
  let (minute, cs) ← readTwoDigits? cs
  let cs ← readMark? ':' cs
  let (second, cs) ← readTwoDigits? cs
  let (nano, cs) ← match cs with
    | '.' :: rest => readFraction? rest
    | _ => some (0, cs)
  if hour ≤ 23 ∧ minute ≤ 59 ∧ second ≤ 60 then
    pure ((hour * 3600 + minute * 60 + min second 59,
      nano + if second = 60 then 1000000000 else 0), cs)
  else none

/-- Reads two digits that must both be there. -/
def readPair? : List Char → Option (Nat × List Char)
  | a :: b :: rest =>
    if a.isDigit && b.isDigit then some (Nat.ofDigitChars 10 [a, b] 0, rest) else none
  | _ => none

/-- Reads hours and minutes of an offset, between which colons and blanks may
stand, as seconds. -/
def readOffsetTime? (cs : List Char) : Option (Int × List Char) := do
  let (hours, cs) ← readPair? cs
  let (minutes, cs) ← readPair? (cs.dropWhile fun c => c == ':' || isBlank c)
  if minutes ≤ 59 ∧ hours * 3600 + minutes * 60 < 86400 then
    pure (((hours * 3600 + minutes * 60 : Nat) : Int), cs)
  else none

/-- Reads the offset from universal time in seconds: `UTC` or `Z` in any case,
or a sign with hours and minutes. -/
def readOffset? : List Char → Option (Int × List Char)
  | c :: cs =>
    if c.toLower = 'u' then
      match cs with
      | t :: u :: rest => if t.toLower = 't' ∧ u.toLower = 'c' then some (0, rest) else none
      | _ => none
    else if c.toLower = 'z' then some (0, cs)
    else if c = '+' then readOffsetTime? cs
    else if c = '-' ∨ c = '\u2212' then
      (readOffsetTime? cs).map fun (seconds, rest) => (-seconds, rest)
    else none
  | [] => none

/-- The instant at `second` and `nano` of a day that is `offset` seconds ahead of universal time. -/
def ofLocal? (date : Date) (second nano : Nat) (offset : Int) : Option Instant :=
  let total := (second : Int) - offset
  match date.plus? (total / 86400) with
  | some date =>
    if h : (total % 86400).toNat < 86400 ∧
        (nano < 1000000000 ∨ nano < 2000000000 ∧ (total % 86400).toNat % 60 = 59) then
      some ⟨date, (total % 86400).toNat, nano, h.1, h.2⟩
    else none
  | none => none

def ofChars? (cs : List Char) : Option Instant := do
  let (date, cs) ← Date.read? cs
  let cs ← match cs with
    | c :: rest => if c = 'T' ∨ c = 't' ∨ c = ' ' then some rest else none
    | [] => none
  let ((second, nano), cs) ← readTime? cs
  let (offset, cs) ← readOffset? (skipBlanks cs)
  if (skipBlanks cs).isEmpty then ofLocal? date second nano offset else none

def ofText? (s : String) : Option Instant :=
  ofChars? s.toList

end Instant

end Fortnight
