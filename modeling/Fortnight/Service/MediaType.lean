/-!
# Media types

A media type is written as type, slash and subtype, of which a part after the
last plus sign is the suffix, and parameters after semicolons. Spaces may stand
only where a parameter could begin, and after a quoted value.
-/

namespace Fortnight

/-- The characters of which types, names and unquoted values consist. -/
def isTokenChar (c : Char) : Bool :=
  c.isAlphanum || "!#$%&'*+-.^_`|~".toList.contains c

structure MediaType where
  type : String
  subtype : String
  suffix : Option String
  deriving DecidableEq

namespace MediaType

/-- Where the reader of parameters stands. -/
inductive Place where
  /-- Before a name. -/
  | start
  /-- In a name that has begun. -/
  | name
  /-- In a value that is not quoted; `begun` if it has characters already. -/
  | value (begun : Bool)
  | quoted (begun : Bool)
  | afterQuoted

/-- Holds when parameters are well formed from this place to the end. -/
def validParameters : Place → List Char → Bool
  | .start, [] => true
  | .start, c :: cs =>
    if c = ' ' then validParameters .start cs
    else isTokenChar c && validParameters .name cs
  | .name, [] => false
  | .name, c :: cs =>
    if c = '=' then validParameters (.value false) cs
    else isTokenChar c && validParameters .name cs
  | .value _, [] => true
  | .value begun, c :: cs =>
    if c = '"' ∧ !begun then validParameters (.quoted false) cs
    else if c = ';' ∧ begun then validParameters .start cs
    else isTokenChar c && validParameters (.value true) cs
  | .quoted _, [] => false
  | .quoted begun, c :: cs =>
    if c = '"' ∧ begun then validParameters .afterQuoted cs
    else 32 ≤ c.toNat && c.toNat < 127 && validParameters (.quoted true) cs
  | .afterQuoted, [] => true
  | .afterQuoted, c :: cs =>
    if c = ';' then validParameters .start cs
    else c = ' ' && validParameters .afterQuoted cs

/-- Splits a subtype at its last plus sign, unless it begins there. -/
def splitSuffix (cs : List Char) : List Char × Option (List Char) :=
  let suffix := (cs.reverse.takeWhile fun c => c ≠ '+').reverse
  let rest := cs.length - suffix.length
  if rest ≤ 1 then (cs, none) else (cs.take (rest - 1), some suffix)

def ofText? (s : String) : Option MediaType :=
  let type := s.toList.takeWhile isTokenChar
  match s.toList.dropWhile isTokenChar with
  | '/' :: rest =>
    let (subtype, suffix) := splitSuffix (rest.takeWhile isTokenChar)
    let media : MediaType := ⟨.ofList type, .ofList subtype, suffix.map .ofList⟩
    match rest.dropWhile isTokenChar with
    | [] => if type.isEmpty then none else some media
    | c :: parameters =>
      if type.isEmpty ∨ subtype.isEmpty ∨ c ≠ ';' then none
      else if validParameters .start parameters then some media
      else none
  | _ => none

/-- Holds for JSON and for types that are built on it. -/
def isJson (m : MediaType) : Bool :=
  m.type.toLower = "application" &&
    (m.subtype.toLower = "json" || m.suffix.any fun s => s.toLower = "json")

end MediaType

end Fortnight
