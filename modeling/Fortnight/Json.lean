import Fortnight.Number.Binary

/-!
# JSON values

A number is kept as an integer when it is written without fraction and exponent
and fits 64 bits, with or without a sign; any other number is a binary fraction.
The members of an object keep the order in which they are written, and a name
may occur more than once.
-/

namespace Fortnight

inductive Json where
  | null
  | bool (b : Bool)
  | integer (n : Int)
  | fraction (x : Binary)
  | string (s : String)
  | array (items : List Json)
  | object (members : List (String × Json))

namespace Json

/-- The value of a member of an object, the last one if the name is repeated. -/
def member? (name : String) : Json → Option Json
  | object members => (members.reverse.find? (·.1 = name)).map Prod.snd
  | _ => none

/-- The value of a member, where an absent member counts as null. -/
def memberOrNull (name : String) (j : Json) : Json :=
  (j.member? name).getD null

def isNull : Json → Bool
  | null => true
  | _ => false

def ofOption (encode : α → Json) : Option α → Json
  | none => null
  | some a => encode a

mutual

/-- The value with the members of every object in the order of their names, of
which the last one stands for all of a name. -/
def sorted : Json → Json
  | array items => array (sortedItems items)
  | object members => object ((sortedMembers members).foldr insertMember [])
  | j => j

def sortedItems : List Json → List Json
  | [] => []
  | j :: rest => j.sorted :: sortedItems rest

def sortedMembers : List (String × Json) → List (String × Json)
  | [] => []
  | (name, j) :: rest => (name, j.sorted) :: sortedMembers rest

/-- Puts a member in its place, unless its name is there already. -/
def insertMember (m : String × Json) : List (String × Json) → List (String × Json)
  | [] => [m]
  | n :: rest =>
    if m.1 < n.1 then m :: n :: rest
    else if m.1 = n.1 then n :: rest
    else n :: insertMember m rest

end

end Json

end Fortnight
