import Fortnight.Calendar.Date

/-!
# Easter

Easter Sunday is computed from the year alone, by the method that divides the
year and what results from it over and over. Quotients and remainders go toward
zero, which makes a difference for negative years only; there the method may
end with a day that its month does not have, and then there is no Easter.
-/

namespace Fortnight

/-- Month and day of Easter Sunday as the method yields them. -/
def easterMonthDay (year : Int) : Int × Int :=
  let a := year.tmod 19
  let b := year.tdiv 100
  let c := year.tmod 100
  let d := b.tdiv 4
  let e := b.tmod 4
  let f := (b + 8).tdiv 25
  let g := (b - f + 1).tdiv 3
  let h := (19 * a + b - d - g + 15).tmod 30
  let i := c.tdiv 4
  let k := c.tmod 4
  let l := (32 + 2 * e + 2 * i - h - k).tmod 7
  let m := (a + 11 * h + 22 * l).tdiv 451
  let n := h + l - 7 * m + 114
  (n.tdiv 31, n.tmod 31 + 1)

def easterSunday? (year : Int) : Option Date :=
  let (month, day) := easterMonthDay year
  if 0 ≤ month ∧ 0 ≤ day then Date.ofCivil? year month.toNat day.toNat else none

end Fortnight
