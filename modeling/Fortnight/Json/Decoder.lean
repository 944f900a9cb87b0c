import Fortnight.Json.Text

/-!
# Decoding JSON

A decoder takes a JSON value to a value of some type or says why it can not.
Records are read from an object by the names of their members, or from a list by
position. Of several faults in an object a wrong or repeated member counts before
a missing one, and among wrong members the one that is written first.

A value of several shapes tells its shape by a tag. What stands beside the tag
is set aside until the tag is known and is then read leniently: a tag within it
may give the position of its shape instead of the name, and a plain name may
carry an empty object.
-/

namespace Fortnight

/-- Why a value can not be decoded. -/
inductive DecodeError where
  | malformed
  | missingField (name : String)
  | repeatedField (name : String)
  | unknownName (given : String)
  | wrongType (given : Json)
  | wrongText (given : String)
  | unreadableText
  | outOfRange (given : Int)
  | wrongLength (given : Nat)
  | tooDeep

namespace DecodeError

/-- The explanation. It quotes a name or text that is not accepted. -/
def message : DecodeError → String
  | malformed => "the text is not JSON"
  | missingField name => "missing field '" ++ name ++ "'"
  | repeatedField name => "field '" ++ name ++ "' occurs twice"
  | unknownName given => "unknown name '" ++ given ++ "'"
  | wrongType (.string given) => "unexpected text '" ++ given ++ "'"
  | wrongType _ => "unexpected type"
  | wrongText given => "unexpected text '" ++ given ++ "'"
  | unreadableText => "unexpected text"
  | outOfRange given => "number " ++ toString given ++ " is out of range"
  | wrongLength given => "unexpected length " ++ toString given
  | tooDeep => "too much is nested"

/-- Holds when `part` stands somewhere in the text. -/
def occursIn (part : List Char) : List Char → Bool
  | [] => part.isEmpty
  | c :: cs => part.isPrefixOf (c :: cs) || occursIn part cs

/-- Holds when the explanation speaks of a missing field, be it in a quotation. -/
def namesMissingField (e : DecodeError) : Bool :=
  occursIn "missing field".toList e.message.toList

end DecodeError

/-- How a value is read: by itself, or set aside beside a tag. -/
inductive Leniency where
  | strict
  | lenient
  deriving DecidableEq

abbrev Decoder (α : Type) := Leniency → Json → Except DecodeError α

namespace Decoder

def string : Decoder String
  | _, .string s => .ok s
  | _, j => .error (.wrongType j)

def bool : Decoder Bool
  | _, .bool b => .ok b
  | _, j => .error (.wrongType j)

/-- An integer from 0 up to, but not including, `bound`. -/
def natBelow (bound : Nat) : Decoder Nat
  | _, .integer n => if 0 ≤ n ∧ n < bound then .ok n.toNat else .error (.outOfRange n)
  | _, j => .error (.wrongType j)

/-- Text that a reader accepts. -/
def ofText (read? : String → Option α) : Decoder α
  | _, .string s =>
    match read? s with
    | some a => .ok a
    | none => .error .unreadableText
  | _, j => .error (.wrongType j)

/-- Null or a value. -/
def nullable (d : Decoder α) : Decoder (Option α)
  | _, .null => .ok none
  | l, j => (d l j).map some

def list (d : Decoder α) : Decoder (List α)
  | l, .array items => items.mapM (d l)
  | _, j => .error (.wrongType j)

/-- Looks a name up among the names of the shapes. -/
def named (shapes : List (String × α)) (name : String) : Except DecodeError α :=
  match shapes.find? (·.1 = name) with
  | some (_, a) => .ok a
  | none => .error (.unknownName name)

/-- One of several plain names, by itself or as the only member of an object
that says nothing more about it. -/
def oneOf (shapes : List (String × α)) : Decoder α
  | _, .string s => named shapes s
  | l, .object [(s, j)] => do
    let a ← named shapes s
    match l, j with
    | _, .null => .ok a
    | .lenient, .object [] => .ok a
    | _, j => .error (.wrongType j)
  | _, j => .error (.wrongType j)

end Decoder

/-- How the members of a record are read, in the order of its fields. -/
structure Members (α : Type) where
  names : List String
  /-- Judges the value of the named member. -/
  check : Leniency → String → Json → Except DecodeError Unit
  /-- Builds the record from the members that are there; `byName` tells which form it has. -/
  build : Leniency → (byName : Bool) → (String → Option Json) → Except DecodeError α

namespace Members

/-- What is made of a field that is not there: by name it is missing, by position the list is too short. -/
def absent (byName : Bool) (name : String) : DecodeError :=
  if byName then .missingField name else .wrongLength 0

/-- A field, with what stands for it when it is left out by name and when it is left out of a list. -/
def field (name : String) (d : Decoder α) (byName byPosition : Option α) : Members α where
  names := [name]
  check l _ j := (d l j).map fun _ => ()
  build l named find? :=
    match find? name with
    | some j => d l j
    | none =>
      match if named then byName else byPosition with
      | some a => .ok a
      | none => .error (absent named name)

def required (name : String) (d : Decoder α) : Members α :=
  field name d none none

/-- A field that may be null, and that may be left out by name. -/
def optional (name : String) (d : Decoder α) : Members (Option α) :=
  field name d.nullable (some none) none

def withDefault (name : String) (d : Decoder α) (default : α) : Members α :=
  field name d (some default) (some default)

def pure (a : α) : Members α where
  names := []
  check _ _ _ := .ok ()
  build _ _ _ := .ok a

def seq (f : Members (α → β)) (x : Unit → Members α) : Members β where
  names := f.names ++ (x ()).names
  check l name j := if name ∈ f.names then f.check l name j else (x ()).check l name j
  build l byName find? := do
    let g ← f.build l byName find?
    let a ← (x ()).build l byName find?
    .ok (g a)

instance : Applicative Members where
  pure := pure
  seq := seq

/-- Judges members in the order of the text. Those of unknown names are passed over. -/
def scan (m : Members α) (l : Leniency) : (seen : List String) → List (String × Json) →
    Except DecodeError Unit
  | _, [] => .ok ()
  | seen, (name, j) :: rest =>
    if name ∈ m.names then
      if name ∈ seen then .error (.repeatedField name)
      else do
        m.check l name j
        scan m l (name :: seen) rest
    else scan m l seen rest

def ofMembers (m : Members α) (l : Leniency) (members : List (String × Json)) :
    Except DecodeError α := do
  m.scan l [] members
  m.build l true fun name => (members.find? (·.1 = name)).map Prod.snd

def ofItems (m : Members α) (l : Leniency) (items : List Json) : Except DecodeError α := do
  let members := m.names.zip items
  m.scan l [] members
  let a ← m.build l false fun name => (members.find? (·.1 = name)).map Prod.snd
  if m.names.length < items.length then .error (.wrongLength items.length) else .ok a

/-- A record, from an object or from a list. -/
def decoder (m : Members α) : Decoder α
  | l, .object members => m.ofMembers l members
  | l, .array items => m.ofItems l items
  | _, j => .error (.wrongType j)

end Members

/-- A type of several shapes: the name of the tag, and the fields of each shape by its name. -/
structure Tagged (α : Type) where
  tag : String
  shapes : List (String × Members α)

namespace Tagged

def shape (t : Tagged α) : Decoder (Members α)
  | _, .string s => Decoder.named t.shapes s
  | .lenient, .integer n =>
    if 0 ≤ n then
      match t.shapes[n.toNat]? with
      | some (_, m) => .ok m
      | none => .error (.outOfRange n)
    else .error (.wrongType (.integer n))
  | _, j => .error (.wrongType j)

/-- Finds the tag among members. It is judged where it stands, and must not be repeated. -/
def findShape (t : Tagged α) (l : Leniency) : (found : Option (Members α)) →
    List (String × Json) → Except DecodeError (Option (Members α))
  | found, [] => .ok found
  | found, (name, j) :: rest =>
    if name = t.tag then
      match found with
      | some _ => .error (.repeatedField t.tag)
      | none => do
        let m ← t.shape l j
        findShape t l (some m) rest
    else findShape t l found rest

/-- Reads the tag first and then the rest, which is read leniently. In a list the tag comes first. -/
def decoder (t : Tagged α) : Decoder α
  | l, .object members => do
    match ← t.findShape l none members with
    | none => .error (.missingField t.tag)
    | some m => m.ofMembers .lenient (members.filter (·.1 ≠ t.tag))
  | _, .array [] => .error (.missingField t.tag)
  | l, .array (first :: items) => do
    let m ← t.shape l first
    m.ofItems .lenient items
  | _, j => .error (.wrongType j)

/-- What is wrong with the tag in the part of a broken text that could be read.
The tag is judged as soon as it is read, so this comes before the fault in the text. -/
def earlyFault? (t : Tagged α) : Json → Option DecodeError
  | .object members =>
    match t.findShape .strict none members with
    | .error e => some e
    | .ok _ => none
  | .array (first :: _) =>
    match t.shape .strict first with
    | .error e => some e
    | .ok _ => none
  | _ => none

end Tagged

end Fortnight
