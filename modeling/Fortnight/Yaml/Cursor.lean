/-!
# Places in a YAML text

A cursor stands before the rest of a text and knows how much of the text and of
the line lies before it. Line breaks are written in one way before a text is read.
-/

namespace Fortnight

namespace Yaml

def isGap (c : Char) : Bool :=
  c == ' ' || c == '\t'

/-- Holds at a blank, at the end of the line and at the end of the text. -/
def atBlank : List Char → Bool
  | [] => true
  | c :: _ => isGap c || c == '\n'

/-- Holds at three characters that begin or end a document. -/
def atMarker (mark : Char) : List Char → Bool
  | a :: b :: c :: rest => a == mark && b == mark && c == mark && atBlank rest
  | _ => false

def atDocumentMarker (cs : List Char) : Bool :=
  atMarker '-' cs || atMarker '.' cs

/-- Letters, digits and marks that a name consists of. -/
def isNameChar (c : Char) : Bool :=
  c.isAlphanum || c == '_' || c == '-'

/-- Writes every line break the same way. -/
def normalizeBreaks : List Char → List Char
  | '\r' :: '\n' :: cs => '\n' :: normalizeBreaks cs
  | c :: cs =>
    (if c = '\r' ∨ c = '\u0085' ∨ c = '\u2028' ∨ c = '\u2029' then '\n' else c) ::
      normalizeBreaks cs
  | [] => []

/-- Holds for the characters that a text may consist of. -/
def isAllowed (c : Char) : Bool :=
  let n := c.toNat
  n == 9 || n == 10 || n == 13 || (0x20 ≤ n && n ≤ 0x7E) || n == 0x85 ||
    (0xA0 ≤ n && n ≤ 0xFFFD) || 0x10000 ≤ n

structure Cursor where
  rest : List Char
  /-- How many octets of the text lie before. -/
  index : Nat
  line : Nat
  /-- How many characters of the line lie before. -/
  column : Nat

namespace Cursor

def start (cs : List Char) : Cursor := ⟨cs, 0, 0, 0⟩

def next (c : Cursor) : Cursor :=
  match c.rest with
  | [] => c
  | '\n' :: cs => ⟨cs, c.index + 1, c.line + 1, 0⟩
  | d :: cs => ⟨cs, c.index + d.utf8Size, c.line, c.column + 1⟩

theorem length_next (c : Cursor) : c.next.rest.length = c.rest.length - 1 := by
  unfold next
  split <;> simp_all

def advance (c : Cursor) : (count : Nat) → Cursor
  | 0 => c
  | count + 1 => c.next.advance count

theorem length_advance (c : Cursor) (count : Nat) :
    (c.advance count).rest.length = c.rest.length - count := by
  induction count generalizing c with
  | zero => simp [advance]
  | succ count ih =>
    rw [advance, ih, length_next]
    omega

theorem length_advance_lt {c : Cursor} {count : Nat} (hc : c.rest ≠ []) (h : 0 < count) :
    (c.advance count).rest.length < c.rest.length := by
  have := List.length_pos_iff.2 hc
  rw [length_advance]
  omega

def skipWhile (p : Char → Bool) (c : Cursor) : Cursor :=
  c.advance (c.rest.takeWhile p).length

theorem length_skipWhile_le (p : Char → Bool) (c : Cursor) :
    (c.skipWhile p).rest.length ≤ c.rest.length := by
  rw [skipWhile, length_advance]
  omega

def skipComment (c : Cursor) : Cursor :=
  if c.rest.head? = some '#' then c.skipWhile (· ≠ '\n') else c

theorem length_skipComment_le (c : Cursor) : c.skipComment.rest.length ≤ c.rest.length := by
  unfold skipComment
  split
  · exact length_skipWhile_le _ c
  · exact Nat.le_refl _

/-- Skips a byte order mark at the beginning of a line. It takes up a column. -/
def skipByteOrderMark (c : Cursor) : Cursor :=
  if c.column = 0 ∧ c.rest.head? = some '\ufeff' then c.next else c

theorem length_skipByteOrderMark_le (c : Cursor) :
    c.skipByteOrderMark.rest.length ≤ c.rest.length := by
  unfold skipByteOrderMark
  split
  · rw [length_next]
    omega
  · exact Nat.le_refl _

/-- Skips what stands before the next token of a line. -/
def skipBlanks (tabs : Bool) (c : Cursor) : Cursor :=
  (c.skipByteOrderMark.skipWhile fun d => d == ' ' || tabs && d == '\t').skipComment

theorem length_skipBlanks_le (tabs : Bool) (c : Cursor) :
    (c.skipBlanks tabs).rest.length ≤ c.rest.length :=
  Nat.le_trans (length_skipComment_le _)
    (Nat.le_trans (length_skipWhile_le _ _) (length_skipByteOrderMark_le c))

/-- Skips the rest of a line, which must hold nothing but a comment, and the line break. -/
def endLine? (c : Cursor) : Option Cursor :=
  let c := (c.skipWhile isGap).skipComment
  match c.rest with
  | [] => some c
  | '\n' :: _ => some c.next
  | _ => none

end Cursor

end Yaml

end Fortnight
