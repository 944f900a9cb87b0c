import Fortnight.Json

/-!
# YAML values

A scalar that is written without quotes and without a tag is null, a truth value
or a number if it reads as one, and text otherwise. Integers are written in base
10, or in base 16, 8 or 2 after `0x`, `0o` or `0b`, and have up to 64 bits. Zeros
before other digits make a number text. Numbers with a fraction or an exponent
are binary fractions.
-/

namespace Fortnight

inductive Yaml where
  | null
  | bool (b : Bool)
  /-- An integer that is written without a minus sign. -/
  | natural (n : Nat)
  /-- An integer that is written with a minus sign. -/
  | signed (n : Int)
  | fraction (x : Binary)
  /-- An infinity, or what is not a number. -/
  | notFinite
  | text (s : String)
  | list (items : List Yaml)
  | mapping (members : List (Yaml × Yaml))

namespace Yaml

def digitValue? (base : Nat) (c : Char) : Option Nat :=
  let n :=
    if '0' ≤ c ∧ c ≤ '9' then c.toNat - '0'.toNat
    else if 'a' ≤ c ∧ c ≤ 'f' then c.toNat - 'a'.toNat + 10
    else if 'A' ≤ c ∧ c ≤ 'F' then c.toNat - 'A'.toNat + 10
    else base
  if n < base then some n else none

def natural? (base : Nat) (cs : List Char) : Option Nat :=
  if cs.isEmpty then none
  else (cs.mapM (digitValue? base)).map fun ds => ds.foldl (fun n d => base * n + d) 0

def dropPlus : List Char → List Char
  | '+' :: cs => cs
  | cs => cs

def isSign (c : Char) : Bool :=
  c == '+' || c == '-'

/-- Holds for digits after a zero, with or without a sign. -/
def hasIdleZero (cs : List Char) : Bool :=
  match if cs.head?.any isSign then cs.drop 1 else cs with
  | '0' :: c :: rest => (c :: rest).all Char.isDigit
  | _ => false

/-- Reads the digits of an integer with the mark of their base. -/
def digits? : List Char → Option Nat
  | '0' :: 'x' :: cs => natural? 16 cs
  | '0' :: 'o' :: cs => natural? 8 cs
  | '0' :: 'b' :: cs => natural? 2 cs
  | cs => natural? 10 cs

/-- What a scalar without quotes reads as: nothing if it is an integer of more than
64 bits, unless it has more than 128 bits, when it is no integer at all. -/
inductive IntegerText where
  | none
  | tooLong
  | value (y : Yaml)

def integerText (cs : List Char) : IntegerText :=
  if hasIdleZero cs then .none
  else
    match cs with
    | '-' :: ds =>
      match digits? ds with
      | some n =>
        if n ≤ 2 ^ 63 then .value (signed (-n)) else if n ≤ 2 ^ 127 then .tooLong else .none
      | none => .none
    | _ =>
      match digits? (dropPlus cs) with
      | some n => if n < 2 ^ 64 then .value (natural n) else if n < 2 ^ 128 then .tooLong else .none
      | none => .none

/-- Reads digits with a point among them: all of them as one number, and how many are decimals. -/
def pointed? (cs : List Char) : Option (Nat × Nat) :=
  let whole := cs.takeWhile Char.isDigit
  let decimals :=
    match cs.drop whole.length with
    | [] => some []
    | '.' :: rest => if rest.all Char.isDigit then some rest else none
    | _ => none
  match decimals with
  | none => none
  | some decimals => (natural? 10 (whole ++ decimals)).map fun n => (n, decimals.length)

/-- Reads an exponent with or without a sign. -/
def exponent? : List Char → Option Int
  | '-' :: ds => (natural? 10 ds).map fun n => -(n : Int)
  | ds => (natural? 10 (dropPlus ds)).map fun n => (n : Int)

/-- The binary fraction nearest to `n * 10 ^ power`, unless it is too large. -/
def scaled? (n : Nat) (power : Int) : Option Binary :=
  let size := (Nat.toDigits 10 n).length + power
  if n = 0 ∨ size < -400 then some .zero
  else if 400 < size then none
  else if 0 ≤ power then Binary.ofRatio? (n * 10 ^ power.toNat) 1
  else Binary.ofRatio? n (10 ^ (-power).toNat)

def unsignedFraction? (cs : List Char) : Option Binary := do
  let isMark := fun c => c == 'e' || c == 'E'
  let (n, decimals) ← pointed? (cs.takeWhile fun c => !isMark c)
  match cs.dropWhile fun c => !isMark c with
  | [] => scaled? n (-decimals)
  | _ :: e => scaled? n ((← exponent? e) - decimals)

/-- Reads a number with a fraction. An infinity has a sign or none, and no other number is infinite. -/
def fraction? (cs : List Char) : Option Yaml :=
  let ds := dropPlus cs
  if cs.head? = some '+' ∧ ds.head?.any isSign then none
  else if String.ofList ds ∈ [".inf", ".Inf", ".INF"] then some notFinite
  else if String.ofList cs ∈ ["-.inf", "-.Inf", "-.INF", ".nan", ".NaN", ".NAN"] then some notFinite
  else
    match ds with
    | '-' :: rest => (unsignedFraction? rest).map fun x => fraction x.neg
    | _ => (unsignedFraction? ds).map fraction

def bool? (s : String) : Option Bool :=
  if s ∈ ["true", "True", "TRUE"] then some true
  else if s ∈ ["false", "False", "FALSE"] then some false
  else none

def isNullText (s : String) : Bool :=
  s ∈ ["null", "Null", "NULL", "~"]

/-- The value of a scalar that is written without quotes and without a tag, and
nothing for an integer that is too long. -/
def ofPlain? (s : String) : Option Yaml :=
  if s.isEmpty || isNullText s then some null
  else
    match bool? s, integerText s.toList with
    | some b, _ => some (bool b)
    | none, .value y => some y
    | none, .tooLong => none
    | none, .none =>
      if hasIdleZero s.toList then some (text s) else some ((fraction? s.toList).getD (text s))

/-- The name of a member in JSON. -/
def name : Yaml → String
  | text s => s
  | natural n => toString n
  | signed n => toString n
  | bool b => toString b
  | _ => ""

mutual

/-- The value as JSON, which has no numbers that are not finite and no names but texts. -/
def toJson : Yaml → Json
  | null => .null
  | bool b => .bool b
  | natural n => .integer n
  | signed n => .integer n
  | fraction x => .fraction x
  | notFinite => .null
  | text s => .string s
  | list items => .array (listToJson items)
  | mapping members => .object (membersToJson members)

def listToJson : List Yaml → List Json
  | [] => []
  | y :: rest => y.toJson :: listToJson rest

def membersToJson : List (Yaml × Yaml) → List (String × Json)
  | [] => []
  | (k, y) :: rest => (k.name, y.toJson) :: membersToJson rest

end

end Yaml

end Fortnight
