import Fortnight.Yaml.Cursor

/-!
# YAML tags

A tag says of what kind a value is. It is written with a handle, for which a
beginning of a tag stands, and a rest, and is kept as the octets that make it
up, since an octet can also be written with a percent sign and two digits. A tag
that begins with an exclamation mark is local to the application.
-/

namespace Fortnight

namespace Yaml

/-- The octets of a tag. -/
abbrev Tag := List UInt8

namespace Tag

def ofString (s : String) : Tag :=
  s.toUTF8.toList

def core (name : String) : Tag :=
  ofString ("tag:yaml.org,2002:" ++ name)

/-- Holds when the tag begins with an exclamation mark. -/
def isMarked (t : Tag) : Bool :=
  t.head? == some 0x21

/-- Holds for a tag of the application that is text. -/
def isLocal (t : Tag) : Bool :=
  t.isMarked && (String.fromUTF8? ⟨t.toArray⟩).isSome

/-- Characters of a tag that are written as they are. -/
def isPlainChar (brackets : Bool) (c : Char) : Bool :=
  isNameChar c || ";/?:@&=+$.!~*'()".toList.contains c || brackets && ",[]".toList.contains c

def hexDigit? (c : Char) : Option Nat :=
  if '0' ≤ c ∧ c ≤ '9' then some (c.toNat - '0'.toNat)
  else if 'a' ≤ c ∧ c ≤ 'f' then some (c.toNat - 'a'.toNat + 10)
  else if 'A' ≤ c ∧ c ≤ 'F' then some (c.toNat - 'A'.toNat + 10)
  else none

/-- The octet of a percent sign and two digits. -/
def octet? : List Char → Option Nat
  | '%' :: a :: b :: _ => do pure (16 * (← hexDigit? a) + (← hexDigit? b))
  | _ => none

/-- How many octets follow the first one of a character. -/
def following? (octet : Nat) : Option Nat :=
  if octet < 0x80 then some 0
  else if octet < 0xC0 then none
  else if octet < 0xE0 then some 1
  else if octet < 0xF0 then some 2
  else if octet < 0xF8 then some 3
  else none

/-- Reads the characters of a tag. `due` octets of a character are still to come. -/
def scan (brackets : Bool) (due : Nat) (done : Tag) (c : Cursor) : Option (Tag × Cursor) :=
  if h : c.rest = [] then
    if due = 0 then some (done.reverse, c) else none
  else if c.rest.head h = '%' then
    match octet? c.rest with
    | none => none
    | some octet =>
      if due = 0 then
        match following? octet with
        | none => none
        | some due => scan brackets due (octet.toUInt8 :: done) (c.advance 3)
      else if 0x80 ≤ octet ∧ octet < 0xC0 then
        scan brackets (due - 1) (octet.toUInt8 :: done) (c.advance 3)
      else none
  else if due ≠ 0 then none
  else if isPlainChar brackets (c.rest.head h) then
    scan brackets 0 ((c.rest.head h).toNat.toUInt8 :: done) (c.advance 1)
  else some (done.reverse, c)
termination_by c.rest.length
decreasing_by all_goals exact Cursor.length_advance_lt h (by decide)

/-- Reads the rest of a tag after `first`. It must not be empty, and it ends before a zero octet. -/
def scanAfter? (first : Tag) (brackets : Bool) (c : Cursor) : Option (Tag × Cursor) := do
  let (octets, stop) ← scan brackets 0 [] c
  if stop.index = c.index ∧ first.isEmpty then none
  else pure ((first.drop 1 ++ octets).takeWhile (· ≠ 0), stop)

end Tag

/-- Reads a handle: an exclamation mark and, if another one follows, a name between the two. -/
def handle? (c : Cursor) : Option (String × Cursor) :=
  match c.rest with
  | '!' :: cs =>
    let name := cs.takeWhile isNameChar
    let closed := (cs.drop name.length).head? = some '!'
    some (String.ofList ('!' :: name ++ if closed then ['!'] else []),
      c.advance (1 + name.length + if closed then 1 else 0))
  | _ => none

/-- A tag as it is written: a handle and the rest. A tag in angle brackets has no handle. -/
structure WrittenTag where
  handle : String
  suffix : Tag
  deriving DecidableEq

namespace WrittenTag

/-- Reads the rest of a tag that begins with `handle`. What looks like a handle but
is not closed belongs to the rest, and a single exclamation mark is a tag of its own. -/
def afterHandle? (handle : String) (c : Cursor) : Option (WrittenTag × Cursor) := do
  if 1 < handle.length ∧ handle.endsWith "!" then
    let (suffix, c) ← Tag.scanAfter? [] false c
    pure (⟨handle, suffix⟩, c)
  else
    let (suffix, c) ← Tag.scanAfter? (Tag.ofString handle) false c
    pure (if suffix.isEmpty then ⟨"", Tag.ofString "!"⟩ else ⟨"!", suffix⟩, c)

/-- Reads a tag, after which a blank must follow, or a comma within brackets. -/
def scan? (brackets : Bool) (c : Cursor) : Option (WrittenTag × Cursor) := do
  let (tag, c) ←
    if c.rest.drop 1 |>.head? |> (· == some '<') then do
      let (suffix, c) ← Tag.scanAfter? [] true (c.advance 2)
      if c.rest.head? = some '>' then pure (⟨"", suffix⟩, c.next) else none
    else do
      let (handle, c) ← handle? c
      afterHandle? handle c
  if atBlank c.rest || brackets && c.rest.head? == some ',' then pure (tag, c) else none

end WrittenTag

end Yaml

end Fortnight
