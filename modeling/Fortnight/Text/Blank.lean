/-!
# White space

Dates and instants may be written with white space between their parts. What
counts as blank is the whole Unicode property `White_Space`, not only the
characters of ASCII.
-/

namespace Fortnight

/-- Holds of exactly the characters with the Unicode property `White_Space`. -/
def isBlank (c : Char) : Bool :=
  let n := c.toNat
  (9 ≤ n && n ≤ 13) || n == 0x20 || n == 0x85 || n == 0xA0 || n == 0x1680 ||
    (0x2000 ≤ n && n ≤ 0x200A) || n == 0x2028 || n == 0x2029 || n == 0x202F ||
    n == 0x205F || n == 0x3000

def skipBlanks (cs : List Char) : List Char :=
  cs.dropWhile isBlank

theorem skipBlanks_cons {c : Char} (h : isBlank c = false) (cs : List Char) :
    skipBlanks (c :: cs) = c :: cs := by
  simp [skipBlanks, h]

end Fortnight
