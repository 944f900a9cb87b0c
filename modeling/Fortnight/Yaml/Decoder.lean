import Fortnight.Json.Decoder
import Fortnight.Yaml
import Fortnight.Yaml.Document

/-!
# Decoding YAML

Nodes become values. References are followed where they stand, which may be done a
hundred times for every step that it takes to go through the document, and lists
and mappings are entered up to a depth of 128. A value of several shapes tells
its shape by a tag, as in JSON, and a field of it may also be named by its
position.
-/

namespace Fortnight

namespace Yaml

/-- What decoding looks at beside the node itself. -/
structure Surroundings where
  anchored : List (Nat × Node)
  /-- How many references may be followed. -/
  limit : Nat

namespace Surroundings

def ofRoot (root : Node) : Surroundings :=
  ⟨root.anchored, 100 * root.totalSteps⟩

end Surroundings

/-- Decoding counts the references that have been followed. -/
abbrev Decoding := StateT Nat (Except DecodeError)

/-- How many lists and mappings may stand within each other. -/
def maxDepth : Nat := 128

/-- The node itself, or the one for which a reference stands. -/
def follow (s : Surroundings) : Node → Decoding Node
  | .reference anchor => do
    modify (· + 1)
    if s.limit < (← get) then throw .tooDeep
    match s.anchored.lookup anchor with
    | some node => return node
    | none => throw .unreadableText
  | node => return node

/-- The text of a scalar, however it is tagged. -/
def scalarText (s : Surroundings) (node : Node) : Decoding String := do
  match ← follow s node with
  | .scalar _ _ content => return content
  | _ => throw .unreadableText

/-- The value of a scalar without a tag of the application. -/
def scalarValue? (tag : Option Tag) (plain : Bool) (s : String) : Option Yaml :=
  match tag with
  | none => if plain then ofPlain? s else some (text s)
  | some tag =>
    if tag = Tag.core "bool" then (bool? s).map bool
    else if tag = Tag.core "int" then
      match integerText s.toList with
      | .value y => some y
      | _ => none
    else if tag = Tag.core "float" then fraction? s.toList
    else if tag = Tag.core "null" then if isNullText s then some null else none
    else if tag.isMarked && plain then ofPlain? s
    else some (text s)

/-- The value of a node. Tags of the application have no meaning here. -/
def value (s : Surroundings) : (depth : Nat) → Node → Decoding Yaml
  | depth, node => do
    let node ← follow s node
    if node.marks.tag.any Tag.isLocal then throw .unreadableText
    match node, depth with
    | .scalar marks plain content, _ =>
      match scalarValue? marks.tag plain content with
      | some y => return y
      | none => throw .unreadableText
    | .list _ items, depth + 1 => return list (← items.mapM (value s depth))
    | .mapping _ members, depth + 1 =>
      return mapping (← members.mapM fun (k, v) => do return (← value s depth k, ← value s depth v))
    | _, _ => throw .tooDeep

/-- What stands beside a tag: the members of a mapping, or the rest of a list. -/
inductive Beside where
  | members (ms : List (Yaml × Yaml))
  | items (ys : List Yaml)

/-- Takes the member that is named `tag` out of a mapping, as text. -/
def splitTag (s : Surroundings) (depth : Nat) (tag : String) :
    (found : Option String) → (done : List (Yaml × Yaml)) → List (Node × Node) →
      Decoding (String × Beside)
  | some name, done, [] => return (name, .members done.reverse)
  | none, _, [] => throw (.missingField tag)
  | found, done, (k, v) :: rest => do
    match ← value s depth k, found with
    | text name, _ =>
      if name = tag then
        if found.isSome then throw (.repeatedField tag)
        splitTag s depth tag (some (← scalarText s v)) done rest
      else splitTag s depth tag found ((text name, ← value s depth v) :: done) rest
    | key, found => splitTag s depth tag found ((key, ← value s depth v) :: done) rest

/-- The tag of a value of several shapes, and what stands beside it. -/
def tagged (s : Surroundings) (depth : Nat) (tag : String) (node : Node) :
    Decoding (String × Beside) := do
  let node ← follow s node
  if node.marks.tag.any Tag.isLocal then throw .unreadableText
  match node, depth with
  | .mapping _ members, depth + 1 => splitTag s depth tag none [] members
  | .list _ (first :: items), depth + 1 =>
    return (← scalarText s first, .items (← items.mapM (value s depth)))
  | .list .., _ => throw (.missingField tag)
  | _, _ => throw .unreadableText

/-- The field that a key means, by its name or by its position. -/
def fieldName (names : List String) : Yaml → Except DecodeError String
  | text s => .ok s
  | natural n => .ok (names[n]?.getD (toString n))
  | _ => .error .unreadableText

end Yaml

open Yaml

namespace Tagged

/-- Reads what stands beside the tag. A shape without fields takes any members. -/
def ofBeside (t : Tagged α) (name : String) : Beside → Except DecodeError α
  | .members ms => do
    let shape ← Decoder.named t.shapes name
    if shape.names.isEmpty then shape.ofMembers .lenient []
    else
      shape.ofMembers .lenient
        (← ms.mapM fun (k, v) => do return (← fieldName shape.names k, v.toJson))
  | .items ys => do
    let shape ← Decoder.named t.shapes name
    shape.ofItems .lenient (ys.map Yaml.toJson)

def ofNode (t : Tagged α) (s : Surroundings) (depth : Nat) (node : Node) : Decoding α := do
  let (name, beside) ← tagged s depth t.tag node
  t.ofBeside name beside

end Tagged

end Fortnight
