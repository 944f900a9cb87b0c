import Mathlib.Algebra.GroupWithZero.Nat
import Mathlib.Data.List.Basic
import Fortnight.Identifier

/-!
# Identifiers as text

An identifier is read as it is written: its 32 digits, with the hyphens put in and
taken out again. For runs on fixed inputs there is a supply of identifiers in a row.
-/

namespace Fortnight

namespace Id

theorem hexValue?_digitChar : ∀ d < 16, hexValue? (Nat.digitChar d) = some d := by
  decide

theorem exists_digit_of_mem_toDigits {n : ℕ} {c : Char} (h : c ∈ Nat.toDigits 16 n) :
    ∃ d < 16, c = Nat.digitChar d := by
  induction n using Nat.strongRecOn with
  | ind n ih =>
    rw [Nat.toDigits_eq_if (by decide)] at h
    split at h
    · rename_i hn
      exact ⟨n, hn, List.mem_singleton.mp h⟩
    · rename_i hn
      rcases List.mem_append.mp h with h | h
      · exact ih (n / 16) (by omega) h
      · exact ⟨n % 16, Nat.mod_lt _ (by decide), List.mem_singleton.mp h⟩

theorem exists_values_toDigits (n : ℕ) :
    ∃ ds, (Nat.toDigits 16 n).mapM hexValue? = some ds ∧
      ds.foldl (fun n d => 16 * n + d) 0 = n := by
  induction n using Nat.strongRecOn with
  | ind n ih =>
    rw [Nat.toDigits_eq_if (by decide)]
    split
    · rename_i hn
      exact ⟨[n], by simp [hexValue?_digitChar n hn], by simp⟩
    · rename_i hn
      obtain ⟨ds, hds, hvalue⟩ := ih (n / 16) (by omega)
      refine ⟨ds ++ [n % 16], ?_, ?_⟩
      · simp [List.mapM_append, hds, hexValue?_digitChar (n % 16) (Nat.mod_lt _ (by decide))]
      · rw [List.foldl_append, hvalue]
        simp only [List.foldl_cons, List.foldl_nil]
        omega

theorem mapM_hexValue?_zeros (count : ℕ) :
    (List.replicate count '0').mapM hexValue? = some (List.replicate count 0) := by
  induction count with
  | zero => rfl
  | succ count ih => simp [List.replicate_succ, ih, hexValue?]

theorem foldl_zeros (count : ℕ) :
    (List.replicate count 0).foldl (fun n d => 16 * n + d) 0 = 0 := by
  induction count with
  | zero => rfl
  | succ count ih => exact ih

variable (id : Id)

theorem length_hexDigits : id.hexDigits.length = 32 := by
  have hlength := (Nat.length_toDigits_le_iff (b := 16) (n := id.value) (k := 32)
    (by decide) (by decide)).mpr id.value_lt
  simp only [hexDigits, List.leftpad, List.length_append, List.length_replicate]
  omega

theorem exists_digit_of_mem_hexDigits {c : Char} (h : c ∈ id.hexDigits) :
    ∃ d < 16, c = Nat.digitChar d := by
  rw [hexDigits, List.leftpad, List.mem_append, List.mem_replicate] at h
  rcases h with ⟨_, rfl⟩ | h
  · exact ⟨0, by decide, rfl⟩
  · exact exists_digit_of_mem_toDigits h

theorem ofHexDigits?_hexDigits : ofHexDigits? id.hexDigits = some id := by
  obtain ⟨ds, hds, hvalue⟩ := exists_values_toDigits id.value
  have hall : id.hexDigits.mapM hexValue? =
      some (List.replicate (32 - (Nat.toDigits 16 id.value).length) 0 ++ ds) := by
    rw [hexDigits, List.leftpad, List.mapM_append, mapM_hexValue?_zeros, hds]
    rfl
  have hfold : (List.replicate (32 - (Nat.toDigits 16 id.value).length) 0 ++ ds).foldl
      (fun n d => 16 * n + d) 0 = id.value := by
    rw [List.foldl_append, foldl_zeros, hvalue]
  rw [ofHexDigits?, if_pos id.length_hexDigits, hall]
  simp only [hfold]
  exact dif_pos id.value_lt

section Hyphens

variable {lengths : List ℕ} {cs : List Char}

theorem length_hyphenate (h : lengths.sum ≤ cs.length) :
    (hyphenate lengths cs).length = cs.length + lengths.length := by
  induction lengths generalizing cs with
  | nil => rfl
  | cons length lengths ih =>
    rw [List.sum_cons] at h
    have hrest : lengths.sum ≤ (cs.drop length).length := by
      rw [List.length_drop]
      omega
    rw [hyphenate, List.length_append, List.length_cons, ih hrest, List.length_take,
      List.length_drop, List.length_cons]
    omega

theorem unhyphenate?_hyphenate (h : lengths.sum ≤ cs.length) :
    unhyphenate? lengths (hyphenate lengths cs) = some cs := by
  induction lengths generalizing cs with
  | nil => rfl
  | cons length lengths ih =>
    rw [List.sum_cons] at h
    have hrest : lengths.sum ≤ (cs.drop length).length := by
      rw [List.length_drop]
      omega
    have htake : (cs.take length).length = length := by
      rw [List.length_take]
      omega
    rw [hyphenate, unhyphenate?, List.drop_left' htake, List.take_left' htake]
    simp only [ih hrest, Option.map_some, List.take_append_drop]

end Hyphens

theorem sum_groups_le : [8, 4, 4, 4].sum ≤ id.hexDigits.length := by
  rw [id.length_hexDigits]
  decide

theorem length_chars : id.chars.length = 36 := by
  rw [chars, length_hyphenate id.sum_groups_le, id.length_hexDigits]
  rfl

theorem exists_first_digit : ∃ d < 16, ∃ rest, id.chars = Nat.digitChar d :: rest := by
  cases hdigits : id.hexDigits with
  | nil =>
    have hlength := id.length_hexDigits
    rw [hdigits] at hlength
    cases hlength
  | cons c ds =>
    obtain ⟨d, hd, rfl⟩ := id.exists_digit_of_mem_hexDigits (hdigits ▸ List.mem_cons_self)
    exact ⟨d, hd, _, by rw [chars, hdigits]; rfl⟩

theorem ofHyphenated?_chars : ofHyphenated? id.chars = some id := by
  rw [ofHyphenated?, if_pos id.length_chars, chars, unhyphenate?_hyphenate id.sum_groups_le]
  exact id.ofHexDigits?_hexDigits

/-- A digit comes first, so that the text is not taken for one of the other forms. -/
theorem ofChars?_chars : ofChars? id.chars = some id := by
  obtain ⟨d, hd, rest, hchars⟩ := id.exists_first_digit
  have hbrace : ∀ d < 16, Nat.digitChar d ≠ '\x7b' := by
    decide
  have hurn : ∀ d < 16, (Nat.digitChar d).toLower ≠ 'u' := by
    decide
  rw [ofChars?, if_neg, if_neg, if_neg]
  · exact id.ofHyphenated?_chars
  · rw [hchars]
    intro h
    exact hurn d hd (List.cons.inj h).1
  · rw [hchars]
    rintro ⟨hhead, _⟩
    exact hbrace d hd (Option.some.inj hhead)
  · rw [id.length_chars]
    decide

/-- An identifier is read as it is written. -/
theorem ofText?_text : ofText? id.text = some id := by
  rw [ofText?, text, String.toList_ofList, ofChars?_chars]

end Id

/-- A supply that counts up from `start`. -/
def supplyFrom (start n : ℕ) : Id :=
  ⟨(start + n) % 2 ^ 128, Nat.mod_lt _ (by decide)⟩

end Fortnight
