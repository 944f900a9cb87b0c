import Fortnight.Yaml.Tag

/-!
# Scalars in a YAML text

A plain scalar is written without quotes and ends where an indicator, a comment
or a line of lesser indentation begins. Quotes are single, where only a quote is
written twice, or double, with escapes. Both may go on for several lines, of
which a line break counts as a blank and every further one as a line break. A
block scalar takes the lines that are indented, as they are or folded.
-/

namespace Fortnight

namespace Yaml

/-- What has been read of a scalar, last character first, with the blanks and
line breaks after it. After an escaped line break those that follow count in full. -/
structure Folding where
  text : List Char
  gap : List Char
  breaks : Nat
  escaped : Bool

namespace Folding

def empty : Folding := ⟨[], [], 0, false⟩

/-- The characters that stand for the blanks and line breaks. -/
def joint (f : Folding) : List Char :=
  if f.escaped then List.replicate f.breaks '\n'
  else if f.breaks = 0 then f.gap
  else if f.breaks = 1 then [' ']
  else List.replicate (f.breaks - 1) '\n'

def flush (f : Folding) : Folding := ⟨f.joint ++ f.text, [], 0, false⟩

def push (f : Folding) (d : Char) : Folding := { f.flush with text := d :: f.flush.text }

/-- Blanks count only on the line of the text before. -/
def blank (f : Folding) (d : Char) : Folding :=
  if f.breaks = 0 ∧ !f.escaped then { f with gap := d :: f.gap } else f

def lineBreak (f : Folding) : Folding :=
  { f with gap := [], breaks := f.breaks + 1 }

def escapeBreak (f : Folding) : Folding :=
  { f.flush with escaped := true }

def string (f : Folding) : String :=
  String.ofList f.text.reverse

end Folding

def isBracketMark (d : Char) : Bool :=
  ",[]\x7b\x7d".toList.contains d

/-- Holds when a plain scalar can begin here. -/
def startsPlain (brackets : Bool) : List Char → Bool
  | [] => false
  | d :: ds =>
    if d = '-' then !ds.head?.any isGap
    else if d = '?' ∨ d = ':' then !brackets && !atBlank ds
    else !(isGap d || d == '\n' || isBracketMark d || "#&*!|>'\"%@\x60".toList.contains d)

/-- What a character that is no blank means within a plain scalar. -/
inductive PlainStep where
  | goesOn
  | ends
  | isWrong

/-- Judges the next character of a plain scalar whose further lines are indented by `indent`. -/
def plainStep (brackets : Bool) (indent : Nat) (f : Folding) (column : Nat) (d : Char)
    (ds : List Char) : PlainStep :=
  if 0 < f.breaks ∧ !brackets ∧ column < indent then .ends
  else if column = 0 ∧ atDocumentMarker (d :: ds) then .ends
  else if d = '#' ∧ (f.gap ≠ [] ∨ 0 < f.breaks) then .ends
  else if brackets ∧ d = ':' ∧ ds.head?.any (fun e => isBracketMark e || e == '?') then .isWrong
  else if d = ':' ∧ atBlank ds then .ends
  else if brackets ∧ isBracketMark d then .ends
  else .goesOn

/-- Reads a plain scalar, and tells whether line breaks follow it before the place where it stops. -/
def plainScalar? (brackets : Bool) (indent : Nat) (f : Folding) (c : Cursor) :
    Option (String × Bool × Cursor) :=
  if h : c.rest = [] then some (f.string, 0 < f.breaks, c)
  else
    let d := c.rest.head h
    if d = '\n' then plainScalar? brackets indent f.lineBreak (c.advance 1)
    else if isGap d then
      if d = '\t' ∧ 0 < f.breaks ∧ c.column < indent then none
      else plainScalar? brackets indent (f.blank d) (c.advance 1)
    else
      match plainStep brackets indent f c.column d c.rest.tail with
      | .goesOn => plainScalar? brackets indent (f.push d) (c.advance 1)
      | .ends => some (f.string, 0 < f.breaks, c)
      | .isWrong => none
termination_by c.rest.length
decreasing_by all_goals exact Cursor.length_advance_lt h (by decide)

/-- The character of a letter after a backslash, within double quotes. -/
def escaped? (d : Char) : Option Char :=
  [('0', 0), ('a', 7), ('b', 8), ('t', 9), ('\t', 9), ('n', 10), ('v', 11), ('f', 12), ('r', 13),
    ('e', 0x1B), (' ', 0x20), ('"', 0x22), ('/', 0x2F), ('\\', 0x5C), ('N', 0x85), ('_', 0xA0),
    ('L', 0x2028), ('P', 0x2029)].lookup d |>.map Char.ofNat

/-- How many hexadecimal digits follow a letter after a backslash. -/
def escapeLength? (d : Char) : Option Nat :=
  [('x', 2), ('u', 4), ('U', 8)].lookup d

/-- Reads as many hexadecimal digits as the number of a character. -/
def codePoint? (length : Nat) (ds : List Char) : Option Char :=
  let digits := (ds.take length).mapM Tag.hexDigit?
  match digits with
  | none => none
  | some ns =>
    let n := ns.foldl (fun n d => 16 * n + d) 0
    if ns.length = length ∧ n.isValidChar then some (Char.ofNat n) else none

/-- What stands at a place between quotes. A character may take `more` characters than one. -/
inductive QuotedPart where
  | closing
  | char (d : Char) (more : Nat)
  | escapedBreak

/-- Tells what stands here between quotes, if it may stand there. -/
def quotedPart? (quote : Char) : List Char → Option QuotedPart
  | [] => none
  | d :: ds =>
    if d = quote then
      if quote = '\'' ∧ ds.head? = some '\'' then some (.char '\'' 1) else some .closing
    else if d = '\\' ∧ quote = '"' then
      match ds with
      | [] => none
      | '\n' :: _ => some .escapedBreak
      | e :: es =>
        match escaped? e, escapeLength? e with
        | some d, _ => some (.char d 1)
        | none, some length => (codePoint? length es).map fun d => .char d (1 + length)
        | none, none => none
    else some (.char d 0)

/-- Reads what stands between quotes up to the closing one. -/
def quotedScalar? (quote : Char) (f : Folding) (c : Cursor) : Option (String × Cursor) :=
  if h : c.rest = [] then none
  else
    let d := c.rest.head h
    if d = '\n' then quotedScalar? quote f.lineBreak (c.advance 1)
    else if isGap d then quotedScalar? quote (f.blank d) (c.advance 1)
    else if c.column = 0 ∧ atDocumentMarker c.rest then none
    else
      match quotedPart? quote c.rest with
      | none => none
      | some .closing => some (f.flush.string, c.next)
      | some (.char d more) => quotedScalar? quote (f.push d) (c.advance (more + 1))
      | some .escapedBreak => quotedScalar? quote f.escapeBreak (c.advance 2)
termination_by c.rest.length
decreasing_by all_goals exact Cursor.length_advance_lt h (by omega)

/-- How the line breaks at the end of a block scalar are treated. -/
inductive Chomping where
  | strip
  | clip
  | keep
  deriving DecidableEq

namespace Chomping

def ofChar? (d : Char) : Option Chomping :=
  if d = '-' then some strip else if d = '+' then some keep else none

end Chomping

/-- The indentation beyond that of the parent. -/
def indentDigit? (d : Char) : Option Nat :=
  if '1' ≤ d ∧ d ≤ '9' then some (d.toNat - '0'.toNat) else none

/-- Reads what may follow the character that begins a block scalar: how its end is
treated and how far it is indented, in either order. -/
def blockHeader (ds : List Char) : Chomping × Option Nat × Nat :=
  match ds with
  | [] => (.clip, none, 0)
  | a :: rest =>
    match Chomping.ofChar? a, indentDigit? a with
    | some chomping, _ =>
      match rest.head?.bind indentDigit? with
      | some n => (chomping, some n, 2)
      | none => (chomping, none, 1)
    | none, some n =>
      match rest.head?.bind Chomping.ofChar? with
      | some chomping => (chomping, some n, 2)
      | none => (.clip, some n, 1)
    | none, none => (.clip, none, 0)

/-- Skips blanks up to the column `indent`, and all of them if the indentation is not known yet. -/
def skipIndent (indent : Nat) (c : Cursor) : Cursor :=
  let spaces := (c.rest.takeWhile (· = ' ')).length
  c.advance (if indent = 0 then spaces else min spaces (indent - c.column))

theorem length_skipIndent_le (indent : Nat) (c : Cursor) :
    (skipIndent indent c).rest.length ≤ c.rest.length := by
  rw [skipIndent, Cursor.length_advance]
  omega

/-- Skips empty lines and the indentation, which is not known yet if it is zero.
Gives the number of lines, the greatest column that was reached, and the place. -/
def blockGap? (indent breaks deepest : Nat) (c : Cursor) : Option (Nat × Nat × Cursor) :=
  let d := skipIndent indent c
  let deepest := max deepest d.column
  if h : d.rest = [] then some (breaks, deepest, d)
  else if d.rest.head h = '\t' ∧ (indent = 0 ∨ d.column < indent) then none
  else if d.rest.head h = '\n' then blockGap? indent (breaks + 1) deepest (d.advance 1)
  else some (breaks, deepest, d)
termination_by c.rest.length
decreasing_by
  exact Nat.lt_of_lt_of_le (Cursor.length_advance_lt h (by decide)) (length_skipIndent_le indent c)

/-- A block scalar while its lines are read. -/
structure BlockScan where
  /-- The text so far, last character first. -/
  text : List Char
  /-- Holds when a line break follows the text. -/
  broken : Bool
  /-- How many empty lines follow. -/
  breaks : Nat
  /-- Holds when the last line begins with a blank. -/
  indented : Bool

/-- Appends a line. If lines are folded, a break between two that do not begin
with a blank counts as a blank, and as nothing if empty lines follow it. -/
def BlockScan.line (s : BlockScan) (folded : Bool) (line : List Char) (broken : Bool) : BlockScan :=
  let indented := line.head?.any isGap
  let joint :=
    if folded && s.broken && !s.indented && !indented then
      if s.breaks = 0 then [' '] else []
    else if s.broken then ['\n'] else []
  ⟨line.reverse ++ List.replicate s.breaks '\n' ++ joint ++ s.text, broken, 0, indented⟩

/-- Reads the lines that are indented by exactly `indent`. -/
def blockLines? (folded : Bool) (indent : Nat) (s : BlockScan) (c : Cursor) :
    Option (BlockScan × Cursor) :=
  if c.rest = [] ∨ c.column ≠ indent then some (s, c)
  else
    let line := c.rest.takeWhile (· ≠ '\n')
    let d := c.advance line.length
    match blockGap? indent 0 0 d.next with
    | none => none
    | some (breaks, _, e) =>
      if _ : e.rest.length < c.rest.length then
        blockLines? folded indent { s.line folded line (d.rest ≠ []) with breaks } e
      else none
termination_by c.rest.length

/-- Reads a block scalar after the character that begins it. The parent is
indented by `parent`, which is -1 if there is none. -/
def blockScalar? (folded : Bool) (parent : Int) (c : Cursor) : Option (String × Cursor) := do
  let (chomping, told, length) := blockHeader c.rest
  let c ← (c.advance length).endLine?
  let given := match told with
    | some more => (max parent 0).toNat + more
    | none => 0
  let (breaks, deepest, c) ← blockGap? given 0 0 c
  let indent := if given = 0 then max deepest (max (parent + 1).toNat 1) else given
  let (s, c) ← blockLines? folded indent ⟨[], false, breaks, false⟩ c
  let text :=
    (if chomping = .keep then List.replicate s.breaks '\n' else []) ++
      (if chomping ≠ .strip ∧ s.broken then ['\n'] else []) ++ s.text
  pure (String.ofList text.reverse, c)

end Yaml

end Fortnight
