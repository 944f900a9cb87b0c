import Fortnight.Calendar.Date
import Fortnight.Text.Blank
import Fortnight.Text.Digits

/-!
# Dates as text

A date is written as year, month and day with hyphens between them. Years from
0 to 9999 have four digits and no sign; other years carry a sign and have at
least four digits. The reader is more generous: white space may stand before
each part and at the end, a signed year may have any number of digits, and month
and day may have one digit.
-/

namespace Fortnight

def yearText (year : Int) : List Char :=
  if 0 ≤ year ∧ year ≤ 9999 then paddedDigits 4 year.natAbs
  else (if year < 0 then '-' else '+') :: paddedDigits 4 year.natAbs

namespace Date

def chars (d : Date) : List Char :=
  let c := d.civil
  yearText c.year ++ '-' :: paddedDigits 2 c.month ++ '-' :: paddedDigits 2 c.day

def text (d : Date) : String :=
  String.ofList d.chars

instance : ToString Date := ⟨text⟩

end Date

/-- Reads a character that must stand here, after blanks. -/
def readMark? (mark : Char) (cs : List Char) : Option (List Char) :=
  match skipBlanks cs with
  | c :: rest => if c = mark then some rest else none
  | [] => none

/-- Reads a year after blanks. Only a signed year may have more than four digits. -/
def readYear? (cs : List Char) : Option (Int × List Char) :=
  match skipBlanks cs with
  | '-' :: rest => (readNumber? rest.length rest).map fun (n, rest) => (-(n : Int), rest)
  | '+' :: rest => (readNumber? rest.length rest).map fun (n, rest) => ((n : Int), rest)
  | cs => (readNumber? 4 cs).map fun (n, rest) => ((n : Int), rest)

/-- Reads a number of one or two digits after blanks. -/
def readTwoDigits? (cs : List Char) : Option (Nat × List Char) :=
  readNumber? 2 (skipBlanks cs)

namespace Date

/-- Reads a date and gives it with the rest of the text. -/
def read? (cs : List Char) : Option (Date × List Char) := do
  let (year, cs) ← readYear? cs
  let cs ← readMark? '-' cs
  let (month, cs) ← readTwoDigits? cs
  let cs ← readMark? '-' cs
  let (day, cs) ← readTwoDigits? cs
  let date ← ofCivil? year month day
  pure (date, cs)

def ofChars? (cs : List Char) : Option Date :=
  match read? cs with
  | some (date, rest) => if (skipBlanks rest).isEmpty then some date else none
  | none => none

def ofText? (s : String) : Option Date :=
  ofChars? s.toList

end Date

end Fortnight
