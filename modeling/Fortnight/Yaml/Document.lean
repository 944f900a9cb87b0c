import Fortnight.Yaml.Node
import Fortnight.Yaml.Token

/-!
# YAML documents

The tokens of a text are put together to a document. A text holds no more than
one. Where a list or mapping leaves a place for a node open, an empty scalar
stands there.
-/

namespace Fortnight

namespace Yaml

/-- What is left of the tokens, and what is known of names. -/
structure Reading where
  tokens : List Token
  /-- The numbers of anchors, the last one that was given first. -/
  anchors : List (String × Nat)
  /-- What handles of tags stand for. -/
  handles : List (String × Tag)

abbrev Reader := StateT Reading Option

namespace Reader

def peek : Reader (Option Token) := do
  return (← get).tokens.head?

def pop : Reader Unit :=
  modify fun r => { r with tokens := r.tokens.tail }

/-- Gives the next token a number under a name. -/
def nameAnchor (name : String) : Reader Nat := do
  let r ← get
  let number := (r.anchors.map Prod.fst).eraseDups.length
  set { r with anchors := (name, number) :: r.anchors }
  return number

def anchorOf (name : String) : Reader Nat := do
  (← get).anchors.lookup name

/-- The octets of a tag, whose handle must be known. -/
def expand (t : WrittenTag) : Reader Tag := do
  if t.handle = "" then return t.suffix
  let expansion ← (← get).handles.lookup t.handle
  return expansion ++ t.suffix

def anchor? : Reader (Option Nat) := do
  match ← peek with
  | some (.anchor name) => pop; return some (← nameAnchor name)
  | _ => return none

def tag? : Reader (Option WrittenTag) := do
  match ← peek with
  | some (.tag t) => pop; return some t
  | _ => return none

/-- Reads what may stand before a node: an anchor and a tag, in either order. -/
def marks : Reader Marks := do
  match ← anchor? with
  | some a =>
    let t ← tag?
    return ⟨some a, ← t.mapM expand⟩
  | none =>
    let t ← tag?
    let a ← anchor?
    return ⟨a, ← t.mapM expand⟩

/-- Reads a node, or takes an empty one for it where one of the tokens `stops` comes next. -/
def place (stops : List Token) (node : Reader Node) : Reader Node := do
  match ← peek with
  | some t => if t ∈ stops then return .empty else node
  | none => failure

/-- Reads the value that belongs to a key, which may be left out with its colon. -/
def valueOf (stops : List Token) (node : Reader Node) : Reader Node := do
  match ← peek with
  | some .value => pop; place stops node
  | _ => return .empty

/-- The node of which nothing but anchor or tag is written. -/
def bare (marks : Marks) : Reader Node :=
  if marks = .none then failure else return .scalar marks true ""

/-- Passes over the comma between two items. -/
def comma (first : Bool) : Reader Unit := do
  if !first then
    match ← peek with
    | some .comma => pop
    | _ => failure

/-- What ends the place of a value outside of brackets. -/
def blockStops : List Token := [.key, .value, .blockEnd]

mutual

/-- Reads a node. Lists and mappings without brackets are taken if `block` holds, and
a list that is not indented further than the mapping around it if `loose` holds. -/
def node : (fuel : Nat) → (block loose : Bool) → Reader Node
  | 0, _, _ => failure
  | fuel + 1, block, loose => do
    match ← peek with
    | some (.reference name) => pop; return .reference (← anchorOf name)
    | _ =>
      let marks ← marks
      match ← peek with
      | some (.scalar plain content) => pop; return .scalar marks plain content
      | some .listStart => pop; return .list marks (← bracketItems fuel true)
      | some .mappingStart => pop; return .mapping marks (← bracketMembers fuel true)
      | some .dash => if loose then return .list marks (← looseItems fuel) else bare marks
      | some .blockListStart =>
        if block then pop; return .list marks (← blockItems fuel) else bare marks
      | some .blockMappingStart =>
        if block then pop; return .mapping marks (← blockMembers fuel) else bare marks
      | _ => bare marks

def blockItems : (fuel : Nat) → Reader (List Node)
  | 0 => failure
  | fuel + 1 => do
    match ← peek with
    | some .dash =>
      pop
      let item ← place [.dash, .blockEnd] (node fuel true false)
      return item :: (← blockItems fuel)
    | some .blockEnd => pop; return []
    | _ => failure

/-- Reads the items of a list that has no beginning and end of its own. -/
def looseItems : (fuel : Nat) → Reader (List Node)
  | 0 => failure
  | fuel + 1 => do
    match ← peek with
    | some .dash =>
      pop
      let item ← place (.dash :: blockStops) (node fuel true false)
      return item :: (← looseItems fuel)
    | _ => return []

def blockMembers : (fuel : Nat) → Reader (List (Node × Node))
  | 0 => failure
  | fuel + 1 => do
    match ← peek with
    | some .key =>
      pop
      let key ← place blockStops (node fuel true true)
      let value ← valueOf blockStops (node fuel true true)
      return (key, value) :: (← blockMembers fuel)
    | some .blockEnd => pop; return []
    | _ => failure

/-- Reads a single member within a list in brackets. A key that is left out takes
the token after it along. -/
def pair : (fuel : Nat) → Reader (Node × Node)
  | 0 => failure
  | fuel + 1 => do
    let key ← match ← peek with
      | some .value | some .comma | some .listEnd => pop; pure .empty
      | _ => node fuel false false
    let value ← valueOf [.comma, .listEnd] (node fuel false false)
    return (key, value)

def bracketItems : (fuel : Nat) → (first : Bool) → Reader (List Node)
  | 0, _ => failure
  | fuel + 1, first => do
    if (← peek) = some .listEnd then pop; return []
    comma first
    match ← peek with
    | some .listEnd => pop; return []
    | some .key =>
      pop
      let member ← pair fuel
      return .mapping .none [member] :: (← bracketItems fuel false)
    | _ =>
      let item ← node fuel false false
      return item :: (← bracketItems fuel false)

def bracketMembers : (fuel : Nat) → (first : Bool) → Reader (List (Node × Node))
  | 0, _ => failure
  | fuel + 1, first => do
    if (← peek) = some .mappingEnd then pop; return []
    comma first
    match ← peek with
    | some .mappingEnd => pop; return []
    | some .key =>
      pop
      let key ← place [.value, .comma, .mappingEnd] (node fuel false false)
      let value ← valueOf [.comma, .mappingEnd] (node fuel false false)
      return (key, value) :: (← bracketMembers fuel false)
    | _ =>
      let key ← node fuel false false
      return (key, .empty) :: (← bracketMembers fuel false)

end

end Reader

/-- What a text says: nothing at all, or one node. -/
structure Document where
  root? : Option Node

namespace Document

/-- Reads what is said about a document before it. Of the versions 1.1 and 1.2
one may be named, and no handle may be given twice. -/
def directives? : (version : Bool) → (handles : List (String × Tag)) → List Token →
    Option (List (String × Tag) × List Token)
  | version, handles, .version major minor :: rest =>
    if version || major != 1 || minor != 1 && minor != 2 then none
    else directives? true handles rest
  | version, handles, .tagPrefix handle expansion :: rest =>
    if (handles.lookup handle).isSome then none
    else directives? version ((handle, expansion) :: handles) rest
  | _, handles, rest => some (handles, rest)

/-- The handles that need not be given. -/
def knownHandles : List (String × Tag) :=
  [("!", Tag.ofString "!"), ("!!", Tag.core "")]

/-- Holds where what is said about a document, or its mark, comes next. -/
def beginsDocument : List Token → Bool
  | .version .. :: _ | .tagPrefix .. :: _ | .documentStart :: _ => true
  | _ => false

/-- Reads the node of a document, after which nothing but marks of its end may follow. -/
def ofNode? (handles : List (String × Tag)) (tokens : List Token) : Option Document := do
  let (node, r) ← (Reader.node (4 * tokens.length + 8) true false).run
    ⟨tokens, [], handles ++ knownHandles⟩
  if r.tokens.all (· = .documentEnd) then pure ⟨some node⟩ else none

def ofTokens? (tokens : List Token) : Option Document := do
  if tokens.isEmpty then return ⟨none⟩
  if !beginsDocument tokens then return ← ofNode? [] tokens
  let (handles, rest) ← directives? false [] tokens
  match rest with
  | .documentStart :: rest =>
    if rest.all (· = .documentEnd) then pure ⟨some .empty⟩
    else ofNode? handles rest
  | _ => none

def ofText? (s : String) : Option Document :=
  (Token.ofText? s).bind ofTokens?

end Document

end Yaml

end Fortnight
