import Fortnight.Json
import Fortnight.Text.Digits

/-!
# Reading JSON

The reader takes one value from the front of a text and gives what follows it.
When it fails it still gives what had been read of the value by then: the
complete items of a list or members of an object. Values may be nested 127 deep.

A number that is no integer of 64 bits becomes a binary fraction in two
roundings: its digits, as many as fit 64 bits, are rounded first, and then
multiplied or divided by the power of ten that remains.
-/

namespace Fortnight

namespace Json

/-- What is read and what follows it, or else what had been read of the value
before the text turned out not to be JSON. -/
abbrev Parsed := Except Json (Json × List Char)

def isSpace (c : Char) : Bool :=
  c == ' ' || c == '\n' || c == '\t' || c == '\r'

def skipSpaces (cs : List Char) : List Char :=
  cs.dropWhile isSpace

/-- Takes digits as long as the number that they form fits 64 bits, and gives
it with the count of digits left over. -/
def gatherDigits (n : Nat) : List Char → Nat × Nat
  | [] => (n, 0)
  | c :: cs =>
    let next := 10 * n + (c.toNat - '0'.toNat)
    if next < 2 ^ 64 then gatherDigits next cs else (n, (c :: cs).length)

/-- The value of a number that is written with a fraction or an exponent, or that is too long. -/
def scaledNumber? (negative : Bool) (whole decimals : List Char) (exponent : Int) : Option Json :=
  let (n, skipped) := gatherDigits 0 whole
  let (n, cut) := gatherDigits n decimals
  let power := exponent + skipped - ((decimals.length - cut : Nat) : Int)
  ((Binary.ofRatio? n 1).bind (·.scaleTen? power)).map fun x =>
    Json.fraction { x with negative }

def integerOrFraction? (negative : Bool) (digits : List Char) : Option Json :=
  let n := Nat.ofDigitChars 10 digits 0
  if negative then
    if 0 < n ∧ n ≤ 2 ^ 63 then some (integer (-(n : Int))) else scaledNumber? true digits [] 0
  else if n < 2 ^ 64 then some (integer n)
  else scaledNumber? false digits [] 0

/-- Reads the decimals of a number and the point before them, if there is one. -/
def readDecimals? : List Char → Option (Option (List Char) × List Char)
  | '.' :: cs =>
    let ds := cs.takeWhile Char.isDigit
    if ds.isEmpty then none else some (some ds, cs.dropWhile Char.isDigit)
  | cs => some (none, cs)

def readExponentDigits? (negative : Bool) (cs : List Char) : Option (Option Int × List Char) :=
  let ds := cs.takeWhile Char.isDigit
  if ds.isEmpty then none
  else
    let n : Int := Nat.ofDigitChars 10 ds 0
    some (some (if negative then -n else n), cs.dropWhile Char.isDigit)

/-- Reads a number's exponent, if there is one. -/
def readExponent? : List Char → Option (Option Int × List Char)
  | c :: cs =>
    if c = 'e' ∨ c = 'E' then
      match cs with
      | '-' :: rest => readExponentDigits? true rest
      | '+' :: rest => readExponentDigits? false rest
      | rest => readExponentDigits? false rest
    else some (none, c :: cs)
  | [] => some (none, [])

def readNumber? (negative : Bool) (cs : List Char) : Option (Json × List Char) := do
  let whole := cs.takeWhile Char.isDigit
  if whole.isEmpty ∨ whole.head? = some '0' ∧ 1 < whole.length then none
  let (decimals, cs) ← readDecimals? (cs.dropWhile Char.isDigit)
  let (exponent, cs) ← readExponent? cs
  let value ←
    if decimals.isNone && exponent.isNone then integerOrFraction? negative whole
    else scaledNumber? negative whole (decimals.getD []) (exponent.getD 0)
  pure (value, cs)

def hexValue? (c : Char) : Option Nat :=
  if '0' ≤ c ∧ c ≤ '9' then some (c.toNat - '0'.toNat)
  else if 'a' ≤ c ∧ c ≤ 'f' then some (c.toNat - 'a'.toNat + 10)
  else if 'A' ≤ c ∧ c ≤ 'F' then some (c.toNat - 'A'.toNat + 10)
  else none

def hexUnit? (a b c d : Char) : Option Nat := do
  pure (4096 * (← hexValue? a) + 256 * (← hexValue? b) + 16 * (← hexValue? c) + (← hexValue? d))

/-- The character that a single letter stands for after a backslash. -/
def escaped? (c : Char) : Option Char :=
  if c = '"' ∨ c = '\\' ∨ c = '/' then some c
  else if c = 'n' then some '\n'
  else if c = 'r' then some '\r'
  else if c = 't' then some '\t'
  else if c = 'b' then some '\x08'
  else if c = 'f' then some '\x0c'
  else none

/-- The character of a four-digit escape that is no half of a pair. -/
def unitChar? (unit : Nat) : Option Char :=
  if 0xD800 ≤ unit ∧ unit ≤ 0xDFFF then none else some (Char.ofNat unit)

/-- The character of two escapes that are the halves of a pair. -/
def pairChar? (high low : Nat) : Option Char :=
  if 0xD800 ≤ high ∧ high ≤ 0xDBFF ∧ 0xDC00 ≤ low ∧ low ≤ 0xDFFF then
    some (Char.ofNat (0x10000 + 1024 * (high - 0xD800) + (low - 0xDC00)))
  else none

/-- Reads the characters of a string up to its closing quote. -/
def readString? : List Char → Option (List Char × List Char)
  | [] => none
  | '"' :: rest => some ([], rest)
  | '\\' :: 'u' :: a :: b :: c :: d :: '\\' :: 'u' :: e :: f :: g :: h :: rest =>
    match hexUnit? a b c d with
    | none => none
    | some high =>
      match unitChar? high with
      | some x =>
        (readString? ('\\' :: 'u' :: e :: f :: g :: h :: rest)).map fun (xs, r) => (x :: xs, r)
      | none =>
        match (hexUnit? e f g h).bind (pairChar? high) with
        | some x => (readString? rest).map fun (xs, r) => (x :: xs, r)
        | none => none
  | '\\' :: 'u' :: a :: b :: c :: d :: rest =>
    match (hexUnit? a b c d).bind unitChar? with
    | some x => (readString? rest).map fun (xs, r) => (x :: xs, r)
    | none => none
  | '\\' :: c :: rest =>
    match escaped? c with
    | some x => (readString? rest).map fun (xs, r) => (x :: xs, r)
    | none => none
  | c :: rest =>
    if c = '\\' ∨ c.toNat < 0x20 then none
    else (readString? rest).map fun (xs, r) => (c :: xs, r)

def readLiteral (word : String) (value : Json) (cs : List Char) : Parsed :=
  if word.toList.isPrefixOf cs then .ok (value, cs.drop word.length) else .error null

mutual

/-- Reads a value. `depth` is how many containers may still be opened, plus one. -/
def readValue : (fuel depth : Nat) → List Char → Parsed
  | 0, _, _ => .error null
  | fuel + 1, depth, cs =>
    match skipSpaces cs with
    | [] => .error null
    | c :: rest =>
      if c = 'n' then readLiteral "null" null (c :: rest)
      else if c = 't' then readLiteral "true" (bool true) (c :: rest)
      else if c = 'f' then readLiteral "false" (bool false) (c :: rest)
      else if c = '"' then
        match readString? rest with
        | some (s, rest) => .ok (string (String.ofList s), rest)
        | none => .error null
      else if c = '[' then
        if depth ≤ 1 then .error null
        else
          match skipSpaces rest with
          | ']' :: rest => .ok (array [], rest)
          | rest => readItems fuel (depth - 1) [] rest
      else if c = '\x7b' then
        if depth ≤ 1 then .error null
        else
          match skipSpaces rest with
          | '\x7d' :: rest => .ok (object [], rest)
          | rest => readMembers fuel (depth - 1) [] rest
      else
        match if c = '-' then readNumber? true rest else readNumber? false (c :: rest) with
        | some r => .ok r
        | none => .error null

/-- Reads the items of a list, of which those in `done` have been read, last first. -/
def readItems : (fuel depth : Nat) → (done : List Json) → List Char → Parsed
  | 0, _, done, _ => .error (array done.reverse)
  | fuel + 1, depth, done, cs =>
    match readValue fuel depth cs with
    | .error _ => .error (array done.reverse)
    | .ok (item, rest) =>
      match skipSpaces rest with
      | ']' :: rest => .ok (array (item :: done).reverse, rest)
      | ',' :: rest => readItems fuel depth (item :: done) rest
      | _ => .error (array (item :: done).reverse)

/-- Reads the members of an object, of which those in `done` have been read, last first. -/
def readMembers : (fuel depth : Nat) → (done : List (String × Json)) → List Char → Parsed
  | 0, _, done, _ => .error (object done.reverse)
  | fuel + 1, depth, done, cs =>
    match skipSpaces cs with
    | '"' :: rest =>
      match readString? rest with
      | none => .error (object done.reverse)
      | some (name, rest) =>
        match skipSpaces rest with
        | ':' :: rest =>
          match readValue fuel depth rest with
          | .error _ => .error (object done.reverse)
          | .ok (value, rest) =>
            let done := (String.ofList name, value) :: done
            match skipSpaces rest with
            | '\x7d' :: rest => .ok (object done.reverse, rest)
            | ',' :: rest => readMembers fuel depth done rest
            | _ => .error (object done.reverse)
        | _ => .error (object done.reverse)
    | _ => .error (object done.reverse)

end

/-- Reads one value from the front of a text. Each step takes a character at
least, so the length of the text bounds the steps. -/
def readFront (cs : List Char) : Parsed :=
  readValue (cs.length + 1) 128 cs

/-- Reads a text that holds one value and nothing else but white space. -/
def ofText? (s : String) : Option Json :=
  match readFront s.toList with
  | .ok (value, rest) => if (skipSpaces rest).isEmpty then some value else none
  | .error _ => none

end Json

end Fortnight
