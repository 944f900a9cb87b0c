import Fortnight.Calendar.InstantText
import Fortnight.Proofs.Calendar.Civil

/-!
# Dates and instants as text

What is written of a date or an instant is read as the same one: years with a sign
or without, any number of fraction digits, and leap seconds.
-/

namespace Fortnight

section Digits

variable {ds : List Char} {c : Char} {most n width : ℕ}

theorem isDigit_iff : c.isDigit = true ↔ 48 ≤ c.toNat ∧ c.toNat ≤ 57 := by
  simp [Char.isDigit, UInt32.le_iff_toNat_le]

theorem isBlank_of_isDigit (h : c.isDigit = true) : isBlank c = false := by
  rw [isDigit_iff] at h
  simp only [isBlank, Bool.or_eq_false_iff, Bool.and_eq_false_iff, decide_eq_false_iff_not,
    beq_eq_false_iff_ne]
  omega

theorem spanDigits_append_cons (hds : ∀ d ∈ ds, d.isDigit = true) (hc : c.isDigit = false)
    (hmost : ds.length ≤ most) (rest : List Char) :
    spanDigits most (ds ++ c :: rest) = (ds, c :: rest) := by
  induction ds generalizing most with
  | nil => cases most <;> simp [spanDigits, hc]
  | cons d ds ih =>
    obtain ⟨hd, hds⟩ := List.forall_mem_cons.mp hds
    cases most with
    | zero => simp at hmost
    | succ most => simp [spanDigits, hd, ih hds (Nat.le_of_succ_le_succ hmost)]

theorem readNumber?_paddedDigits_cons (hc : c.isDigit = false) (rest : List Char)
    (hmost : (paddedDigits width n).length ≤ most) :
    readNumber? most (paddedDigits width n ++ c :: rest) = some (n, c :: rest) := by
  rw [readNumber?, spanDigits_append_cons (fun d => isDigit_of_mem_paddedDigits) hc hmost]
  have hvalue := ofDigitChars_paddedDigits width n
  obtain ⟨d, ds, hds, _⟩ := exists_paddedDigits_eq_cons width n
  rw [hds] at hvalue ⊢
  simp only [hvalue]

theorem skipBlanks_paddedDigits (width n : ℕ) (rest : List Char) :
    skipBlanks (paddedDigits width n ++ rest) = paddedDigits width n ++ rest := by
  obtain ⟨d, ds, hds, hd⟩ := exists_paddedDigits_eq_cons width n
  rw [hds]
  exact skipBlanks_cons (isBlank_of_isDigit hd) _

theorem readTwoDigits?_paddedDigits (h : n < 100) (rest : List Char) :
    readTwoDigits? (paddedDigits 2 n ++ rest) = some (n, rest) := by
  rw [readTwoDigits?, skipBlanks_paddedDigits]
  exact readNumber?_paddedDigits (by simpa using h) (by decide) rest

theorem readMark?_cons (hc : isBlank c = false) (rest : List Char) :
    readMark? c (c :: rest) = some rest := by
  simp [readMark?, skipBlanks_cons hc]

end Digits

section Year

variable {c : Char} {cs : List Char}

theorem readYear?_of_isDigit (hc : c.isDigit = true) :
    readYear? (c :: cs) = (readNumber? 4 (c :: cs)).map fun (n, rest) => ((n : ℤ), rest) := by
  rw [readYear?, skipBlanks_cons (isBlank_of_isDigit hc)]
  split
  · rename_i h
    rw [(List.cons.inj h).1] at hc
    cases hc
  · rename_i h
    rw [(List.cons.inj h).1] at hc
    cases hc
  · rfl

theorem readYear?_minus :
    readYear? ('-' :: cs) =
      (readNumber? cs.length cs).map fun (n, rest) => (-(n : ℤ), rest) := rfl

theorem readYear?_plus :
    readYear? ('+' :: cs) = (readNumber? cs.length cs).map fun (n, rest) => ((n : ℤ), rest) := rfl

/-- A year is read with its sign, or without one where it has four digits. -/
theorem readYear?_yearText (year : ℤ) (rest : List Char) :
    readYear? (yearText year ++ '-' :: rest) = some (year, '-' :: rest) := by
  unfold yearText
  split
  · have hfits : year.natAbs < 10 ^ 4 := by
      omega
    have hread := readNumber?_paddedDigits hfits (by decide) ('-' :: rest)
    obtain ⟨d, ds, hds, hd⟩ := exists_paddedDigits_eq_cons 4 year.natAbs
    rw [hds, List.cons_append] at hread ⊢
    rw [readYear?_of_isDigit hd, hread]
    simp only [Option.map_some]
    rw [Int.natAbs_of_nonneg (by omega)]
  · have hread : ∀ most, (paddedDigits 4 year.natAbs).length ≤ most →
        readNumber? most (paddedDigits 4 year.natAbs ++ '-' :: rest) =
          some (year.natAbs, '-' :: rest) := fun most =>
      readNumber?_paddedDigits_cons (by decide) rest
    rw [List.cons_append]
    split
    · rw [readYear?_minus, hread _ (by simp)]
      simp only [Option.map_some]
      rw [Int.ofNat_natAbs_of_nonpos (by omega), Int.neg_neg]
    · rw [readYear?_plus, hread _ (by simp)]
      simp only [Option.map_some]
      rw [Int.natAbs_of_nonneg (by omega)]

end Year

namespace Date

theorem read?_chars (d : Date) (rest : List Char) : read? (d.chars ++ rest) = some (d, rest) := by
  obtain ⟨_, _, hmonth, hday⟩ := d.civil_spec
  have hcivil := d.ofCivil?_civil
  have hmark := readMark?_cons (show isBlank '-' = false by decide)
  simp only [chars, List.append_assoc, List.cons_append]
  rw [read?, readYear?_yearText]
  simp only [Option.bind_eq_bind, Option.bind_some, hmark]
  rw [readTwoDigits?_paddedDigits (by omega)]
  simp only [Option.bind_some, hmark]
  rw [readTwoDigits?_paddedDigits (by omega)]
  simp [hcivil]

end Date

namespace Instant

variable {t : Instant}

theorem readFraction?_paddedDigits {width n : ℕ} {c : Char} (hn : n < 10 ^ width)
    (hpos : 0 < width) (hwidth : width ≤ 9) (hc : c.isDigit = false) (rest : List Char) :
    readFraction? (paddedDigits width n ++ c :: rest) =
      some (n * 10 ^ (9 - width), c :: rest) := by
  have hlength := length_paddedDigits hn hpos
  have hvalue := ofDigitChars_paddedDigits width n
  have hspan := spanDigits_append_cons (fun d => isDigit_of_mem_paddedDigits) hc
    (Nat.le_trans (Nat.le_of_eq hlength) hwidth) rest
  rw [readFraction?, hspan]
  obtain ⟨d, ds, hds, _⟩ := exists_paddedDigits_eq_cons width n
  rw [hds] at hlength hvalue ⊢
  simp only [hlength, hvalue, List.dropWhile_cons_of_neg (Bool.eq_false_iff.mp hc)]

theorem fractionChars_cases (t : Instant) :
    t.fractionChars = [] ∧ t.writtenNano = 0 ∨
      ∃ width n, n < 10 ^ width ∧ 0 < width ∧ width ≤ 9 ∧
        t.fractionChars = '.' :: paddedDigits width n ∧ n * 10 ^ (9 - width) = t.writtenNano := by
  have hlt : t.writtenNano < 1000000000 := Nat.mod_lt _ (by decide)
  unfold fractionChars
  dsimp only
  split_ifs with hzero hmillis hmicros
  · exact Or.inl ⟨rfl, hzero⟩
  · exact Or.inr ⟨3, t.writtenNano / 1000000, by omega, by decide, by decide, rfl, by omega⟩
  · exact Or.inr ⟨6, t.writtenNano / 1000, by omega, by decide, by decide, rfl, by omega⟩
  · exact Or.inr ⟨9, t.writtenNano, by omega, by decide, by decide, rfl, by omega⟩

/-- The parts of the time make it up again. Second 60 is second 59, with a fraction that
counts from one second on. -/
theorem time_of_parts (t : Instant) :
    (t.second / 3600 ≤ 23 ∧ t.second / 60 % 60 ≤ 59 ∧
      t.second % 60 + t.nano / 1000000000 ≤ 60) ∧
    t.second / 3600 * 3600 + t.second / 60 % 60 * 60 +
      min (t.second % 60 + t.nano / 1000000000) 59 = t.second ∧
    t.writtenNano + (if t.second % 60 + t.nano / 1000000000 = 60 then 1000000000 else 0) =
      t.nano := by
  have hsecond := t.second_lt
  have hnano := t.nano_lt
  have hwritten : t.writtenNano = t.nano % 1000000000 := rfl
  refine ⟨by omega, by omega, ?_⟩
  split
  · omega
  · omega

theorem readTime?_timeChars (t : Instant) (rest : List Char) :
    readTime? (t.timeChars ++ 'Z' :: rest) = some ((t.second, t.nano), 'Z' :: rest) := by
  have hsecond := t.second_lt
  have hmark := readMark?_cons (show isBlank ':' = false by decide)
  obtain ⟨hvalid, hseconds, hnano⟩ := t.time_of_parts
  simp only [timeChars, List.append_assoc, List.cons_append]
  rw [readTime?, readTwoDigits?_paddedDigits (by omega)]
  simp only [Option.bind_eq_bind, Option.bind_some, hmark]
  rw [readTwoDigits?_paddedDigits (by omega)]
  simp only [Option.bind_some, hmark]
  rw [readTwoDigits?_paddedDigits (by omega)]
  obtain ⟨hchars, hnone⟩ | ⟨width, n, hn, hpos, hwidth, hchars, hvalue⟩ := t.fractionChars_cases
  · rw [hnone] at hnano
    simp only [hchars, List.nil_append, Option.bind_some, if_pos hvalid, hseconds, hnano]
    rfl
  · rw [← hvalue] at hnano
    have hread := readFraction?_paddedDigits hn hpos hwidth (show 'Z'.isDigit = false by decide) rest
    simp only [hchars, List.cons_append, Option.bind_some, hread, if_pos hvalid, hseconds, hnano]
    rfl

theorem ofLocal?_zero (t : Instant) : ofLocal? t.date t.second t.nano 0 = some t := by
  have hsecond := t.second_lt
  have hdate : t.date.plus? (((t.second : ℤ) - 0) / 86400) = some t.date := by
    rw [Date.plus?, Date.ofNumber?_eq_some_iff]
    omega
  have hrest : (((t.second : ℤ) - 0) % 86400).toNat = t.second := by
    omega
  unfold ofLocal?
  simp only [hdate, hrest]
  exact dif_pos ⟨t.second_lt, t.nano_lt⟩

theorem ofChars?_chars (t : Instant) : ofChars? t.chars = some t := by
  have hzone : readOffset? (skipBlanks ['Z']) = some (0, []) := by
    decide
  simp only [chars, List.append_assoc, List.cons_append]
  rw [ofChars?, Date.read?_chars]
  simp only [Option.bind_eq_bind, Option.bind_some, true_or, if_true, readTime?_timeChars, hzone]
  exact t.ofLocal?_zero

end Instant

/-- Dates and instants are read as they are written. -/
theorem Date.ofText?_text (d : Date) : ofText? d.text = some d := by
  have hread := d.read?_chars []
  rw [List.append_nil] at hread
  rw [ofText?, text, String.toList_ofList, ofChars?, hread]
  rfl

theorem Instant.ofText?_text (t : Instant) : ofText? t.text = some t := by
  rw [ofText?, text, String.toList_ofList, t.ofChars?_chars]

end Fortnight
