import Fortnight.Power

/-!
# Decimal digits

Writing and reading natural numbers in base ten. A writer pads with zeros to a
width, a reader takes at most a given count of digits, and the two undo each
other when the width is that count.
-/

namespace Fortnight

/-- The digits of `n`, preceded by as many zeros as make up `width` characters. -/
def paddedDigits (width n : Nat) : List Char :=
  (Nat.toDigits 10 n).leftpad width '0'

/-- Splits off the digits at the front, at most `most` of them. -/
def spanDigits : (most : Nat) → List Char → List Char × List Char
  | 0, cs => ([], cs)
  | _ + 1, [] => ([], [])
  | most + 1, c :: cs =>
    if c.isDigit then
      let (ds, rest) := spanDigits most cs
      (c :: ds, rest)
    else ([], c :: cs)

/-- Reads a number of one to `most` digits and gives it with the rest of the text. -/
def readNumber? (most : Nat) (cs : List Char) : Option (Nat × List Char) :=
  match spanDigits most cs with
  | ([], _) => none
  | (ds, rest) => some (Nat.ofDigitChars 10 ds 0, rest)

theorem spanDigits_append {ds : List Char} (hd : ∀ c ∈ ds, c.isDigit = true) (rest : List Char) :
    spanDigits ds.length (ds ++ rest) = (ds, rest) := by
  induction ds with
  | nil => simp [spanDigits]
  | cons c ds ih =>
    simp [spanDigits, hd c (by simp), ih fun d h => hd d (by simp [h])]

theorem length_paddedDigits {width n : Nat} (h : n < 10 ^ width) (hw : 0 < width) :
    (paddedDigits width n).length = width := by
  have := (Nat.length_toDigits_le_iff (b := 10) (n := n) (k := width) (by decide) hw).2 h
  simp [paddedDigits, List.leftpad]
  omega

theorem isDigit_of_mem_paddedDigits {width n : Nat} {c : Char} (h : c ∈ paddedDigits width n) :
    c.isDigit = true := by
  simp only [paddedDigits, List.leftpad, List.mem_append, List.mem_replicate] at h
  rcases h with ⟨-, rfl⟩ | h
  · decide
  · exact Nat.isDigit_of_mem_toDigits (by decide) (by decide) h

theorem exists_paddedDigits_eq_cons (width n : Nat) :
    ∃ c ds, paddedDigits width n = c :: ds ∧ c.isDigit = true := by
  cases hds : paddedDigits width n with
  | nil => simp [paddedDigits, List.leftpad] at hds
  | cons c ds => exact ⟨c, ds, rfl, isDigit_of_mem_paddedDigits (hds ▸ List.mem_cons_self)⟩

theorem ofDigitChars_paddedDigits (width n : Nat) :
    Nat.ofDigitChars 10 (paddedDigits width n) 0 = n := by
  simp [paddedDigits, List.leftpad, Nat.ofDigitChars_append, Nat.ofDigitChars_replicate_zero]

/-- A number that fits the width is read back, whatever follows it. -/
theorem readNumber?_paddedDigits {width n : Nat} (h : n < 10 ^ width) (hw : 0 < width)
    (rest : List Char) : readNumber? width (paddedDigits width n ++ rest) = some (n, rest) := by
  have hl := length_paddedDigits h hw
  have hs := spanDigits_append (fun c hc => @isDigit_of_mem_paddedDigits width n c hc) rest
  rw [hl] at hs
  have hv := ofDigitChars_paddedDigits width n
  cases hp : paddedDigits width n with
  | nil => simp [hp] at hl; omega
  | cons c ds =>
    rw [hp] at hs hv
    rw [List.cons_append] at hs
    simp [readNumber?, hs, hv]

end Fortnight
