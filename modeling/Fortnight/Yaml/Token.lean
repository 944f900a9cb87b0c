import Fortnight.Yaml.Scalar

/-!
# Tokens of a YAML text

A text is taken apart into tokens. Outside of brackets the indentation tells where
lists and mappings begin and end, so each of them is opened by a token of its own
and closed by another one. That a scalar, or something in brackets, is the key of
a mapping shows only at the colon after it, which must stand on the same line and
no more than 1024 octets on; the tokens for the key and for the mapping are
then put in before it.
-/

namespace Fortnight

namespace Yaml

inductive Token where
  | version (major minor : Nat)
  | tagPrefix (handle : String) (expansion : Tag)
  | documentStart
  | documentEnd
  | blockListStart
  | blockMappingStart
  | blockEnd
  | listStart
  | listEnd
  | mappingStart
  | mappingEnd
  | dash
  | comma
  | key
  | value
  | reference (name : String)
  | anchor (name : String)
  | tag (t : WrittenTag)
  | scalar (plain : Bool) (text : String)
  deriving DecidableEq

/-- A place where a key may have begun. -/
structure PossibleKey where
  /-- How many tokens lie before. -/
  number : Nat
  index : Nat
  line : Nat
  column : Nat
  /-- Holds when nothing but a key can stand there. -/
  required : Bool

/-- The state while tokens are read. -/
structure Lexer where
  place : Cursor
  tokens : Array Token
  /-- The column of the innermost list or mapping outside of brackets, -1 if there is none. -/
  indent : Int
  /-- The columns of those around it. -/
  outerIndents : List Int
  /-- Holds where a key may begin. -/
  keyAllowed : Bool
  /-- Where a key may have begun within the innermost brackets. -/
  possibleKey : Option PossibleKey
  /-- The same for the brackets around them, the last one outside of all brackets. -/
  outerKeys : List (Option PossibleKey)

namespace Lexer

def start (cs : List Char) : Lexer :=
  ⟨.start cs, #[], -1, [], true, none, []⟩

def inBrackets (s : Lexer) : Bool :=
  !s.outerKeys.isEmpty

def push (t : Token) (s : Lexer) : Lexer :=
  { s with tokens := s.tokens.push t }

/-- Takes `count` characters as the token `t`. -/
def take (t : Token) (count : Nat) (s : Lexer) : Lexer :=
  { s with tokens := s.tokens.push t, place := s.place.advance count }

/-- Puts a token in before those from `number` on. -/
def insert (number : Nat) (t : Token) (s : Lexer) : Lexer :=
  { s with tokens := s.tokens.insertIdxIfInBounds number t }

/-- Skips blanks, comments and line breaks. Tabs are skipped within brackets and
where no key may begin. Outside of brackets a key may begin on a new line. -/
def skipBetween (brackets : Bool) (keyAllowed : Bool) (c : Cursor) : Bool × Cursor :=
  let d := c.skipBlanks (brackets || !keyAllowed)
  if h : d.rest = [] then (keyAllowed, d)
  else if d.rest.head h = '\n' then skipBetween brackets (keyAllowed || !brackets) (d.advance 1)
  else (keyAllowed, d)
termination_by c.rest.length
decreasing_by
  exact Nat.lt_of_lt_of_le (Cursor.length_advance_lt h (by decide))
    (Cursor.length_skipBlanks_le _ c)

def skip (s : Lexer) : Lexer :=
  let (keyAllowed, place) := skipBetween s.inBrackets s.keyAllowed s.place
  { s with keyAllowed, place }

/-- Gives a possible key up. That is an error if nothing else can stand there. -/
def giveUp? : Option PossibleKey → Option (Option PossibleKey)
  | some k => if k.required then none else some none
  | none => some none

/-- Gives a possible key up if it is too far away or on another line. -/
def keepNear? (c : Cursor) : Option PossibleKey → Option (Option PossibleKey)
  | some k => if k.line < c.line ∨ k.index + 1024 < c.index then giveUp? (some k) else some (some k)
  | none => some none

def dropFarKeys? (s : Lexer) : Option Lexer := do
  let possibleKey ← keepNear? s.place s.possibleKey
  let outerKeys ← s.outerKeys.mapM (keepNear? s.place)
  pure { s with possibleKey, outerKeys }

def dropKey? (s : Lexer) : Option Lexer := do
  pure { s with possibleKey := ← giveUp? s.possibleKey }

/-- Notes that a key may begin here, if that is allowed. -/
def noteKey? (s : Lexer) : Option Lexer :=
  if s.keyAllowed then do
    let s ← s.dropKey?
    let required := !s.inBrackets && s.indent == s.place.column
    pure { s with
      possibleKey := some ⟨s.tokens.size, s.place.index, s.place.line, s.place.column, required⟩ }
  else some s

/-- Opens a list or mapping at a column, unless one is open there. Its token stands before those from `number` on. -/
def openBlock (column : Nat) (number : Nat) (t : Token) (s : Lexer) : Lexer :=
  if !s.inBrackets && s.indent < column then
    { s.insert number t with indent := column, outerIndents := s.indent :: s.outerIndents }
  else s

def closeBlocksFrom (column : Int) : (indent : Int) → (outer : List Int) → Lexer → Lexer
  | indent, [], s => { s with indent, outerIndents := [] }
  | indent, outer :: rest, s =>
    if column < indent then closeBlocksFrom column outer rest (s.push .blockEnd)
    else { s with indent, outerIndents := outer :: rest }

/-- Closes the lists and mappings that are indented further than `column`. -/
def closeBlocks (column : Int) (s : Lexer) : Lexer :=
  if s.inBrackets then s else closeBlocksFrom column s.indent s.outerIndents s

/-- Closes everything before a directive or the mark of a document. -/
def closeAll? (s : Lexer) : Option Lexer := do
  let s ← (s.closeBlocks (-1)).dropKey?
  pure { s with keyAllowed := false }

def documentMark? (t : Token) (s : Lexer) : Option Lexer := do
  pure ((← s.closeAll?).take t 3)

def versionNumber? (c : Cursor) : Option (Nat × Cursor) :=
  let ds := c.rest.takeWhile Char.isDigit
  if ds.isEmpty || 9 < ds.length then none
  else some (Nat.ofDigitChars 10 ds 0, c.advance ds.length)

def version? (c : Cursor) : Option (Token × Cursor) := do
  let (major, c) ← versionNumber? (c.skipWhile isGap)
  if c.rest.head? ≠ some '.' then none
  let (minor, c) ← versionNumber? c.next
  pure (.version major minor, c)

def tagPrefix? (c : Cursor) : Option (Token × Cursor) := do
  let (handle, c) ← handle? (c.skipWhile isGap)
  if 1 < handle.length ∧ !handle.endsWith "!" ∨ !c.rest.head?.any isGap then none
  let (expansion, c) ← Tag.scanAfter? [] true (c.skipWhile isGap)
  if atBlank c.rest then pure (.tagPrefix handle expansion, c) else none

/-- Reads a line that says something about the document. -/
def directive? (s : Lexer) : Option Lexer := do
  let s ← s.closeAll?
  let c := s.place.next
  let name := c.rest.takeWhile isNameChar
  let c := c.advance name.length
  if !atBlank c.rest then none
  let (t, c) ←
    if name = "YAML".toList then version? c
    else if name = "TAG".toList then tagPrefix? c
    else none
  pure { s.push t with place := ← c.endLine? }

def openBrackets? (t : Token) (s : Lexer) : Option Lexer := do
  let s ← s.noteKey?
  pure { s.take t 1 with
    keyAllowed := true, possibleKey := none, outerKeys := s.possibleKey :: s.outerKeys }

def closeBrackets? (t : Token) (s : Lexer) : Option Lexer := do
  let s ← s.dropKey?
  match s.outerKeys with
  | [] => pure { s.take t 1 with keyAllowed := false }
  | key :: outerKeys =>
    pure { s.take t 1 with keyAllowed := false, possibleKey := key, outerKeys }

def comma? (s : Lexer) : Option Lexer := do
  pure { (← s.dropKey?).take .comma 1 with keyAllowed := true }

/-- Opens a list or mapping here for a token that does not belong to brackets. -/
def openHere? (t : Token) (s : Lexer) : Option Lexer :=
  if s.inBrackets then some s
  else if s.keyAllowed then some (s.openBlock s.place.column s.tokens.size t)
  else none

def dash? (s : Lexer) : Option Lexer := do
  let s ← (← s.openHere? .blockListStart).dropKey?
  pure { s.take .dash 1 with keyAllowed := true }

def key? (s : Lexer) : Option Lexer := do
  let s ← (← s.openHere? .blockMappingStart).dropKey?
  pure { s.take .key 1 with keyAllowed := !s.inBrackets }

/-- Reads a colon. If a key may have begun before, there is one. -/
def value? (s : Lexer) : Option Lexer :=
  match s.possibleKey with
  | some k =>
    let s := (s.insert k.number .key).openBlock k.column k.number .blockMappingStart
    some { s.take .value 1 with possibleKey := none, keyAllowed := false }
  | none => do
    let s ← s.openHere? .blockMappingStart
    pure { s.take .value 1 with keyAllowed := !s.inBrackets }

/-- Reads the name of an anchor or of a reference to one. -/
def name? (t : String → Token) (s : Lexer) : Option Lexer := do
  let s ← s.noteKey?
  let name := s.place.rest.tail.takeWhile isNameChar
  let s := { s.take (t (String.ofList name)) (1 + name.length) with keyAllowed := false }
  let ended := atBlank s.place.rest || s.place.rest.head?.any ("?:,]\x7d%@\x60".toList.contains ·)
  if name.isEmpty || !ended then none else pure s

def tag? (s : Lexer) : Option Lexer := do
  let s ← s.noteKey?
  let (t, place) ← WrittenTag.scan? s.inBrackets s.place
  pure { s.push (.tag t) with keyAllowed := false, place }

def block? (folded : Bool) (s : Lexer) : Option Lexer := do
  let s ← s.dropKey?
  let (content, place) ← blockScalar? folded s.indent s.place.next
  pure { s.push (.scalar false content) with keyAllowed := true, place }

def quoted? (quote : Char) (s : Lexer) : Option Lexer := do
  let s ← s.noteKey?
  let (content, place) ← quotedScalar? quote .empty s.place.next
  pure { s.push (.scalar false content) with keyAllowed := false, place }

def plain? (s : Lexer) : Option Lexer := do
  let s ← s.noteKey?
  let (content, keyAllowed, place) ← plainScalar? s.inBrackets (s.indent + 1).toNat .empty s.place
  pure { s.push (.scalar true content) with keyAllowed, place }

/-- Reads the token that begins with the character `d`, before `ds`. -/
def token? (d : Char) (ds : List Char) (s : Lexer) : Option Lexer :=
  if s.place.column = 0 ∧ d = '%' then s.directive?
  else if s.place.column = 0 ∧ atMarker '-' (d :: ds) then s.documentMark? .documentStart
  else if s.place.column = 0 ∧ atMarker '.' (d :: ds) then s.documentMark? .documentEnd
  else if d = '[' then s.openBrackets? .listStart
  else if d = '\x7b' then s.openBrackets? .mappingStart
  else if d = ']' then s.closeBrackets? .listEnd
  else if d = '\x7d' then s.closeBrackets? .mappingEnd
  else if d = ',' then s.comma?
  else if d = '-' ∧ atBlank ds then s.dash?
  else if d = '?' ∧ (s.inBrackets ∨ atBlank ds) then s.key?
  else if d = ':' ∧ (s.inBrackets ∨ atBlank ds) then s.value?
  else if d = '*' then s.name? .reference
  else if d = '&' then s.name? .anchor
  else if d = '!' then s.tag?
  else if d = '|' ∧ !s.inBrackets then s.block? false
  else if d = '>' ∧ !s.inBrackets then s.block? true
  else if d = '\'' ∨ d = '"' then s.quoted? d
  else if startsPlain s.inBrackets (d :: ds) then s.plain?
  else none

/-- Reads all tokens. Every one takes a character at least, so `fuel` is the length of the text. -/
def run? : (fuel : Nat) → Lexer → Option (Array Token)
  | fuel, s => do
    let s ← s.skip.dropFarKeys?
    let s := s.closeBlocks s.place.column
    match s.place.rest, fuel with
    | [], _ => pure (← s.closeAll?).tokens
    | _ :: _, 0 => none
    | d :: ds, fuel + 1 => run? fuel (← s.token? d ds)

end Lexer

/-- The tokens of a text. -/
def Token.ofText? (s : String) : Option (List Token) :=
  if s.toList.all isAllowed then
    let cs := normalizeBreaks s.toList
    (Lexer.run? cs.length (.start cs)).map Array.toList
  else none

end Yaml

end Fortnight
