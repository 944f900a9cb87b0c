import Fortnight.Power

/-!
# Identifiers

Persons' periods, days' activities and everything else that has an identity of
its own carry a number of 128 bits. It is written as 32 lower-case hexadecimal
digits in groups of 8, 4, 4, 4 and 12. The reader takes either case, the digits
without hyphens, and the hyphenated form in braces or after `urn:uuid:`.
-/

namespace Fortnight

structure Id where
  value : Nat
  value_lt : value < 2 ^ 128
  deriving DecidableEq

namespace Id

instance : LT Id := ⟨fun a b => a.value < b.value⟩

instance (a b : Id) : Decidable (a < b) :=
  inferInstanceAs (Decidable (a.value < b.value))

theorem ext_value {a b : Id} (h : a.value = b.value) : a = b := by
  cases a; cases b; simp_all

def hexDigits (id : Id) : List Char :=
  (Nat.toDigits 16 id.value).leftpad 32 '0'

/-- Puts a hyphen after every group but the last. -/
def hyphenate : List Nat → List Char → List Char
  | [], cs => cs
  | length :: lengths, cs => cs.take length ++ '-' :: hyphenate lengths (cs.drop length)

def chars (id : Id) : List Char :=
  hyphenate [8, 4, 4, 4] id.hexDigits

def text (id : Id) : String :=
  String.ofList id.chars

instance : ToString Id := ⟨text⟩

def hexValue? (c : Char) : Option Nat :=
  if '0' ≤ c ∧ c ≤ '9' then some (c.toNat - '0'.toNat)
  else if 'a' ≤ c ∧ c ≤ 'f' then some (c.toNat - 'a'.toNat + 10)
  else if 'A' ≤ c ∧ c ≤ 'F' then some (c.toNat - 'A'.toNat + 10)
  else none

/-- Reads exactly 32 hexadecimal digits. -/
def ofHexDigits? (cs : List Char) : Option Id :=
  if cs.length = 32 then
    match cs.mapM hexValue? with
    | some ds =>
      let value := ds.foldl (fun n d => 16 * n + d) 0
      if h : value < 2 ^ 128 then some ⟨value, h⟩ else none
    | none => none
  else none

/-- Takes out the hyphen that must follow each group but the last. -/
def unhyphenate? : List Nat → List Char → Option (List Char)
  | [], cs => some cs
  | length :: lengths, cs =>
    match cs.drop length with
    | '-' :: rest => (unhyphenate? lengths rest).map (cs.take length ++ ·)
    | _ => none

def ofHyphenated? (cs : List Char) : Option Id :=
  if cs.length = 36 then (unhyphenate? [8, 4, 4, 4] cs).bind ofHexDigits? else none

def ofChars? (cs : List Char) : Option Id :=
  if cs.length = 32 then ofHexDigits? cs
  else if cs.head? = some '{' ∧ cs.getLast? = some '}' then ofHyphenated? (cs.drop 1).dropLast
  else if (cs.take 9).map Char.toLower = "urn:uuid:".toList then ofHyphenated? (cs.drop 9)
  else ofHyphenated? cs

def ofText? (s : String) : Option Id :=
  ofChars? s.toList

end Id

end Fortnight
