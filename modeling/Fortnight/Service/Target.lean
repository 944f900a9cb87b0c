import Fortnight.Identifier

/-!
# Request targets

The target of a request has a path, after which a query and a fragment may stand.
A scheme and an authority may come before it, and an authority may stand alone.
Only the path tells what the request is about. Its parts are compared as they are
written; the parts that stand for an ident or an identifier are then decoded,
where `%` and two hexadecimal digits stand for a byte and anything else for itself.
-/

namespace Fortnight

namespace Target

/-- Holds for the characters of a path. -/
def isPathChar (c : Char) : Bool :=
  ' ' < c && !"#<>?\x60\x7f".toList.contains c

/-- Holds for the characters of a query. -/
def isQueryChar (c : Char) : Bool :=
  ' ' < c && !"\"#<>\x7f".toList.contains c

def isSchemeChar (c : Char) : Bool :=
  c.isAlphanum || "+-.~".toList.contains c

def isAuthorityChar (c : Char) : Bool :=
  c.isAlphanum || "!$&'()*+,-.;=_~".toList.contains c

/-- What has been seen of an authority. Colons and percent signs count only after
the last at sign or closing bracket. -/
structure AuthorityScan where
  colons : Nat
  opened : Bool
  closed : Bool
  percent : Bool

namespace AuthorityScan

def start : AuthorityScan := ⟨0, false, false, false⟩

def step? (a : AuthorityScan) (c : Char) : Option AuthorityScan :=
  if c = ':' then if a.colons < 8 then some { a with colons := a.colons + 1 } else none
  else if c = '[' then if a.percent || a.opened then none else some { a with opened := true }
  else if c = ']' then
    if !a.opened || a.closed then none
    else some { a with closed := true, colons := 0, percent := false }
  else if c = '@' then some { a with colons := 0, percent := false }
  else if c = '%' then some { a with percent := true }
  else if isAuthorityChar c then some a
  else none

/-- Holds when the authority may end here: brackets match, there is one port at
most, and a percent sign stands only before an at sign or within brackets. -/
def isComplete (a : AuthorityScan) : Bool :=
  a.opened == a.closed && a.colons ≤ 1 && !a.percent

end AuthorityScan

def isAuthority (cs : List Char) : Bool :=
  (cs.foldlM AuthorityScan.step? .start).any AuthorityScan.isComplete && cs.getLast? != some '@'

/-- The path of a text that goes on with a query and a fragment at most. -/
def pathBefore? (cs : List Char) : Option (List Char) :=
  let path := cs.takeWhile fun c => c ≠ '?' ∧ c ≠ '#'
  let query :=
    match cs.drop path.length with
    | '?' :: rest => rest.takeWhile fun c => c ≠ '#'
    | _ => []
  if path.all isPathChar && query.all isQueryChar then some path else none

/-- The path of a text that begins with an authority. -/
def pathAfterAuthority? (cs : List Char) : Option (List Char) :=
  let authority := cs.takeWhile fun c => c ≠ '/' ∧ c ≠ '?' ∧ c ≠ '#'
  if authority.isEmpty || !isAuthority authority then none
  else pathBefore? (cs.drop authority.length)

/-- The path of a target, which is empty in an authority that stands alone. -/
def path? (target : String) : Option (List Char) :=
  if target.isEmpty || 65534 < target.utf8ByteSize then none
  else
    match target.toList with
    | '/' :: cs => pathBefore? ('/' :: cs)
    | cs =>
      let scheme := cs.takeWhile isSchemeChar
      match cs.drop scheme.length with
      | ':' :: '/' :: '/' :: rest =>
        if 64 < scheme.length then none else pathAfterAuthority? rest
      | _ => if isAuthority cs then some [] else none

end Target

/-- What a path leads to. The parts are not decoded yet. -/
inductive Resource where
  | events (ident : String)
  | periods (ident : String)
  | latestCorrection (ident period : String)
  deriving DecidableEq

namespace Resource

/-- Cuts a path at its slashes. -/
def segments : List Char → List (List Char)
  | [] => [[]]
  | c :: cs =>
    match segments cs with
    | [] => [[c]]
    | s :: rest => if c = '/' then [] :: s :: rest else (c :: s) :: rest

def ofPath? (path : List Char) : Option Resource :=
  match (segments path).map String.ofList with
  | ["", "persons", ident, "events"] => some (events ident)
  | ["", "persons", ident, "periods"] => some (periods ident)
  | ["", "persons", ident, "periods", period, "latest"] =>
    some (latestCorrection ident period)
  | _ => none

end Resource

/-- The bytes for which a part of a path stands. -/
def percentBytes : List Char → List UInt8
  | [] => []
  | '%' :: a :: b :: rest =>
    match Id.hexValue? a, Id.hexValue? b with
    | some high, some low => UInt8.ofNat (16 * high + low) :: percentBytes rest
    | _, _ => '%'.toUInt8 :: percentBytes (a :: b :: rest)
  | c :: rest => String.utf8EncodeChar c ++ percentBytes rest

/-- The text for which a part of a path stands, if its bytes are text at all. -/
def percentDecoded? (part : String) : Option String :=
  String.fromUTF8? ⟨(percentBytes part.toList).toArray⟩

end Fortnight
