import Fortnight.Json
import Fortnight.Number.Shortest

/-!
# JSON text

Values are written without any white space. In a string only the quote, the
backslash and the characters below U+0020 are escaped. A binary fraction is
written with its shortest digits; it always has a point or an exponent, so that
it is not read back as an integer, and it has an exponent only when it is very
small or very large.
-/

namespace Fortnight

namespace Json

def hexDigit (n : Nat) : Char :=
  Nat.digitChar n

def escapeChar (c : Char) : List Char :=
  if c = '"' then ['\\', '"']
  else if c = '\\' then ['\\', '\\']
  else if c = '\n' then ['\\', 'n']
  else if c = '\r' then ['\\', 'r']
  else if c = '\t' then ['\\', 't']
  else if c = '\x08' then ['\\', 'b']
  else if c = '\x0c' then ['\\', 'f']
  else if c.toNat < 0x20 then
    ['\\', 'u', '0', '0', hexDigit (c.toNat / 16), hexDigit (c.toNat % 16)]
  else [c]

def stringChars (s : String) : List Char :=
  '"' :: s.toList.flatMap escapeChar ++ ['"']

def integerChars (n : Int) : List Char :=
  if n < 0 then '-' :: Nat.toDigits 10 n.natAbs else Nat.toDigits 10 n.natAbs

/-- The digits with a point among or after them, or with an exponent where the
first digit would stand more than 16 places before the point or more than five
behind it. -/
def fractionChars (x : Binary) : List Char :=
  let s := x.shortest
  let ds := Nat.toDigits 10 s.digits
  let first := (ds.length : Int) + s.power
  (if x.negative then ['-'] else []) ++
    if s.digits = 0 then ['0', '.', '0']
    else if first < -4 ∨ 16 < first then
      ds.take 1 ++ (if ds.length = 1 then [] else '.' :: ds.drop 1) ++
        'e' :: integerChars (first - 1)
    else if 0 ≤ s.power then s.plainChars ++ ['.', '0']
    else s.plainChars

/-- Puts commas between the written items. -/
def commaSeparated : List (List Char) → List Char
  | [] => []
  | [item] => item
  | item :: rest => item ++ ',' :: commaSeparated rest

mutual

def chars : Json → List Char
  | null => ['n', 'u', 'l', 'l']
  | bool true => ['t', 'r', 'u', 'e']
  | bool false => ['f', 'a', 'l', 's', 'e']
  | integer n => integerChars n
  | fraction x => fractionChars x
  | string s => stringChars s
  | array items => '[' :: commaSeparated (itemChars items) ++ [']']
  | object members => '\x7b' :: commaSeparated (memberChars members) ++ ['\x7d']

def itemChars : List Json → List (List Char)
  | [] => []
  | j :: rest => j.chars :: itemChars rest

def memberChars : List (String × Json) → List (List Char)
  | [] => []
  | (name, j) :: rest => (stringChars name ++ ':' :: j.chars) :: memberChars rest

end

def text (j : Json) : String :=
  String.ofList j.chars

end Json

end Fortnight
