import Mathlib.Data.Int.Notation
import Mathlib.Data.List.Basic
import Fortnight.Hours.Text

/-!
# Hours as text

Hours are read as they are written, digits, point and trailing zeros included. Only
a zero loses its sign, which makes no difference to its size.
-/

namespace Fortnight

namespace Hours

/-- The duration as it is read back: digits and decimals are the same, and zero has no sign. -/
def reread (h : Hours) : Hours :=
  ⟨h.negative && h.digits != 0, h.digits, h.scale, h.digits_lt, h.scale_le⟩

theorem coefficient_reread (h : Hours) : h.reread.coefficient = h.coefficient := by
  unfold coefficient reread
  cases h.negative with
  | false => rfl
  | true =>
    by_cases hzero : h.digits = 0
    · simp [hzero]
    · simp [hzero]

theorem sameSize_reread (h : Hours) : SameSize h.reread h := by
  rw [SameSize, coefficient_reread]
  rfl

theorem ofParts?_coefficient (h : Hours) : ofParts? h.coefficient h.scale = some h.reread := by
  have hsign : decide (h.coefficient < 0) = (h.negative && h.digits != 0) := by
    unfold coefficient
    cases h.negative with
    | false => simp
    | true =>
      by_cases hzero : h.digits = 0
      · simp [hzero]
      · simp [hzero, Nat.pos_of_ne_zero hzero]
  unfold ofParts?
  rw [dif_pos ⟨h.natAbs_coefficient ▸ h.digits_lt, h.scale_le⟩]
  simp only [natAbs_coefficient, hsign]
  rfl

namespace Scan

variable {s : Scan} {ds rest : List Char}

theorem le_ofDigitChars (ds : List Char) (n : ℕ) : n ≤ Nat.ofDigitChars 10 ds n := by
  induction ds generalizing n with
  | nil => exact Nat.le_refl n
  | cons c ds ih =>
    rw [Nat.ofDigitChars_cons]
    have hle := ih (10 * n + (c.toNat - '0'.toNat))
    omega

/-- Digits are taken in one after another, as long as they fit and the decimals do. -/
theorem run?_append (hds : ∀ c ∈ ds, c.isDigit = true)
    (hroom : s.point = true → s.scale + ds.length ≤ 28) (hwhole : s.point = false → s.scale = 0)
    (hfits : Nat.ofDigitChars 10 ds s.digits < 2 ^ 96) :
    s.run? (ds ++ rest) =
      run? { s with
        digits := Nat.ofDigitChars 10 ds s.digits
        scale := if s.point then s.scale + ds.length else 0
        any := s.any || !ds.isEmpty } rest := by
  induction ds generalizing s with
  | nil =>
    obtain ⟨negative, digits, scale, point, any⟩ := s
    cases point with
    | false => simp [show scale = 0 from hwhole rfl]
    | true => simp
  | cons c ds ih =>
    obtain ⟨hc, hds⟩ := List.forall_mem_cons.mp hds
    rw [Nat.ofDigitChars_cons] at hfits
    rw [List.length_cons] at hroom
    have hnext := Nat.lt_of_le_of_lt (le_ofDigitChars ds _) hfits
    have hopen : ¬ (s.point ∧ 28 ≤ s.scale) := by
      rintro ⟨hpoint, hscale⟩
      have hlength := hroom hpoint
      omega
    rw [List.cons_append, run?, if_neg hopen, if_pos hc]
    dsimp only
    rw [if_pos hnext, ih hds ?_ ?_ hfits]
    · obtain ⟨negative, digits, scale, point, any⟩ := s
      cases point with
      | false => simp [Nat.ofDigitChars_cons]
      | true => simp [Nat.ofDigitChars_cons, Nat.add_assoc, Nat.add_comm 1]
    · intro hpoint
      have hlength := hroom hpoint
      simp only [show s.point = true from hpoint, if_true]
      omega
    · intro hpoint
      simp [show s.point = false from hpoint]

theorem run?_digits (hds : ∀ c ∈ ds, c.isDigit = true) (hne : ds ≠ [])
    (hroom : s.point = true → s.scale + ds.length ≤ 28) (hwhole : s.point = false → s.scale = 0)
    (hfits : Nat.ofDigitChars 10 ds s.digits < 2 ^ 96) :
    s.run? ds = ofParts?
      (if s.negative then -(Nat.ofDigitChars 10 ds s.digits : ℤ) else Nat.ofDigitChars 10 ds s.digits)
      (if s.point then s.scale + ds.length else 0) := by
  have hrun : s.run? (ds ++ []) = _ := run?_append hds hroom hwhole hfits
  have hany : (s.any || !ds.isEmpty) = true := by
    simp [hne]
  rw [List.append_nil] at hrun
  rw [hrun, run?, if_pos hany, finish?]

theorem run?_point (negative : Bool) {whole decimals : List Char}
    (hwhole : ∀ c ∈ whole, c.isDigit = true) (hdecimals : ∀ c ∈ decimals, c.isDigit = true)
    (hne : decimals ≠ []) (hlength : decimals.length ≤ 28)
    (hfits : Nat.ofDigitChars 10 (whole ++ decimals) 0 < 2 ^ 96) :
    (start negative).run? (whole ++ '.' :: decimals) = ofParts?
      (if negative then -(Nat.ofDigitChars 10 (whole ++ decimals) 0 : ℤ)
        else Nat.ofDigitChars 10 (whole ++ decimals) 0) decimals.length := by
  rw [Nat.ofDigitChars_append] at hfits ⊢
  have hwholeFits : Nat.ofDigitChars 10 whole (start negative).digits < 2 ^ 96 :=
    Nat.lt_of_le_of_lt (le_ofDigitChars decimals _) hfits
  rw [run?_append hwhole (by simp [start]) (by simp [start]) hwholeFits, run?, if_neg (by simp [start]),
    if_neg (by decide), if_pos (by simp [start])]
  rw [run?_digits hdecimals hne (by simpa [start] using hlength) (by simp) hfits]
  simp [start]
  rfl

end Scan

theorem le_length_paddedDigits (width n : ℕ) : width ≤ (paddedDigits width n).length := by
  simp [paddedDigits, List.leftpad]
  omega

/-- The text without a sign. -/
def unsignedChars (h : Hours) : List Char :=
  let ds := paddedDigits (h.scale + 1) h.digits
  let whole := ds.length - h.scale
  if h.scale = 0 then ds else ds.take whole ++ '.' :: ds.drop whole

theorem run?_unsignedChars (h : Hours) :
    (Scan.start h.negative).run? h.unsignedChars = some h.reread := by
  have hdigits : ∀ c ∈ paddedDigits (h.scale + 1) h.digits, c.isDigit = true :=
    fun c => isDigit_of_mem_paddedDigits
  have hlength := le_length_paddedDigits (h.scale + 1) h.digits
  have hvalue := ofDigitChars_paddedDigits (h.scale + 1) h.digits
  have hparts := h.ofParts?_coefficient
  unfold unsignedChars
  generalize paddedDigits (h.scale + 1) h.digits = ds at hdigits hlength hvalue
  dsimp only
  split
  · rename_i hscale
    have hne : ds ≠ [] := List.length_pos_iff.mp (by omega)
    have hfits : Nat.ofDigitChars 10 ds 0 < 2 ^ 96 := hvalue ▸ h.digits_lt
    rw [Scan.run?_digits hdigits hne (by simp [Scan.start]) (by simp [Scan.start]) hfits]
    rw [hscale] at hparts
    simpa [Scan.start, hvalue, coefficient] using hparts
  · rename_i hscale
    have hsplit := List.take_append_drop (ds.length - h.scale) ds
    have hdrop : (ds.drop (ds.length - h.scale)).length = h.scale := by
      rw [List.length_drop]
      omega
    have hne : ds.drop (ds.length - h.scale) ≠ [] := List.length_pos_iff.mp (by omega)
    have hfits : Nat.ofDigitChars 10 (ds.take (ds.length - h.scale) ++
        ds.drop (ds.length - h.scale)) 0 < 2 ^ 96 := by
      rw [hsplit, hvalue]
      exact h.digits_lt
    have hroom : (ds.drop (ds.length - h.scale)).length ≤ 28 := by
      rw [hdrop]
      exact h.scale_le
    have hrun := Scan.run?_point h.negative (fun c hc => hdigits c (List.mem_of_mem_take hc))
      (fun c hc => hdigits c (List.mem_of_mem_drop hc)) hne hroom hfits
    rw [hrun, hsplit, hvalue, hdrop]
    exact hparts

theorem ofPlainChars?_of_isDigit {c : Char} {cs : List Char} (hc : c.isDigit = true) :
    ofPlainChars? (c :: cs) = (Scan.start false).run? (c :: cs) := by
  unfold ofPlainChars?
  split
  · rename_i h
    cases h
  · rename_i h
    rw [(List.cons.inj h).1] at hc
    cases hc
  · rename_i h
    rw [(List.cons.inj h).1] at hc
    cases hc
  · rfl

theorem exists_unsignedChars (h : Hours) :
    ∃ c cs, c.isDigit = true ∧ h.unsignedChars = c :: cs := by
  have hlength := le_length_paddedDigits (h.scale + 1) h.digits
  obtain ⟨c, cs, hds, hc⟩ := exists_paddedDigits_eq_cons (h.scale + 1) h.digits
  rw [hds] at hlength
  obtain ⟨whole, hwhole⟩ := Nat.exists_eq_add_of_lt hlength
  have hcount : (c :: cs).length - h.scale = whole + 1 := by
    omega
  unfold unsignedChars
  dsimp only
  rw [hds, hcount]
  split
  · exact ⟨c, cs, hc, rfl⟩
  · exact ⟨c, _, hc, rfl⟩

/-- Hours are read as they are written, but for the sign of a zero. -/
theorem ofText?_text (h : Hours) : ofText? h.text = some h.reread := by
  have hrun := h.run?_unsignedChars
  have hread : ofPlainChars? h.chars = some h.reread := by
    change ofPlainChars? ((if h.negative then ['-'] else []) ++ h.unsignedChars) = some h.reread
    cases hnegative : h.negative with
    | true =>
      rw [hnegative] at hrun
      exact hrun
    | false =>
      obtain ⟨c, cs, hc, hchars⟩ := h.exists_unsignedChars
      rw [hnegative, hchars] at hrun
      rw [hchars]
      exact (ofPlainChars?_of_isDigit hc).trans hrun
  rw [ofText?, text, String.toList_ofList, hread]

end Hours

end Fortnight
