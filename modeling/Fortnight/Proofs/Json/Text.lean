import Mathlib.Data.Nat.Notation
import Mathlib.Tactic.SplitIfs
import Fortnight.Json.Parser
import Fortnight.Json.Text

/-!
# JSON text is read as it is written

A value that holds no numbers and is not nested too deeply is read back from the
text that is written for it, whatever characters its strings and names have.
-/

namespace Fortnight

namespace Json

section Strings

variable {a b c d x : Char} {unit : ℕ} {rest : List Char}

theorem hexUnit?_hexDigit :
    ∀ n < 32, hexUnit? '0' '0' (hexDigit (n / 16)) (hexDigit (n % 16)) = some n := by
  decide

theorem readString?_letter (hx : escaped? c = some x) :
    readString? ('\\' :: c :: rest) = (readString? rest).map fun (xs, r) => (x :: xs, r) := by
  have hc : c ≠ 'u' := by
    rintro rfl
    cases hx
  simp [readString?, hc, hx]

/-- An escape of four digits is read by itself when it is no half of a pair. -/
theorem readString?_unit (hunit : hexUnit? a b c d = some unit) (hx : unitChar? unit = some x) :
    readString? ('\\' :: 'u' :: a :: b :: c :: d :: rest) =
      (readString? rest).map fun (xs, r) => (x :: xs, r) := by
  rw [readString?.eq_def]
  split
  case h_5 hshort heq =>
    obtain ⟨hu, hrest⟩ := List.cons.inj (List.cons.inj heq).2
    exact absurd hrest.symm (hshort a b c d rest hu.symm)
  case h_6 hshort heq =>
    exact absurd (List.cons.inj heq).2.symm (hshort 'u' _ (List.cons.inj heq).1.symm)
  all_goals simp_all

theorem readString?_escapeChar (x : Char) (rest : List Char) :
    readString? (escapeChar x ++ rest) = (readString? rest).map fun (xs, r) => (x :: xs, r) := by
  unfold escapeChar
  split_ifs with hquote hbackslash hn hr ht hb hf hcontrol
  any_goals
    subst x
    exact readString?_letter (by decide)
  · have hunit := hexUnit?_hexDigit x.toNat hcontrol
    have hx : unitChar? x.toNat = some x := by
      rw [unitChar?, if_neg (by omega), Char.ofNat_toNat]
    exact readString?_unit hunit hx
  · simp [readString?, hbackslash, hcontrol]

theorem readString?_flatMap (cs rest : List Char) :
    readString? (cs.flatMap escapeChar ++ '"' :: rest) = some (cs, rest) := by
  induction cs with
  | nil => simp [readString?]
  | cons c cs ih =>
    rw [List.flatMap_cons, List.append_assoc, readString?_escapeChar, ih]
    rfl

end Strings

/-- Holds when the value is read from the front of any text that begins with it. -/
def ReadsBack (depth : ℕ) (j : Json) : Prop :=
  ∀ fuel rest, j.chars.length ≤ fuel → readValue fuel depth (j.chars ++ rest) = .ok (j, rest)

theorem skipSpaces_cons {c : Char} (hc : isSpace c = false) (cs : List Char) :
    skipSpaces (c :: cs) = c :: cs :=
  List.dropWhile_cons_of_neg (Bool.eq_false_iff.mp hc)

section Items

variable {depth fuel : ℕ} {j : Json} {items done : List Json} {rest cs : List Char}

theorem readItems_last (hj : ReadsBack depth j) (hfuel : j.chars.length ≤ fuel) :
    readItems (fuel + 1) depth done (j.chars ++ ']' :: rest) =
      .ok (array (done.reverse ++ [j]), rest) := by
  rw [readItems, hj fuel _ hfuel]
  simp only [skipSpaces_cons (show isSpace ']' = false by decide), List.reverse_cons]

theorem readItems_comma (hj : ReadsBack depth j) (hfuel : j.chars.length ≤ fuel) :
    readItems (fuel + 1) depth done (j.chars ++ ',' :: cs) =
      readItems fuel depth (j :: done) cs := by
  rw [readItems, hj fuel _ hfuel]
  simp only [skipSpaces_cons (show isSpace ',' = false by decide)]

theorem readItems_itemChars (hitems : ∀ j ∈ items, ReadsBack depth j) (hne : items ≠ [])
    (hfuel : (commaSeparated (itemChars items)).length < fuel) :
    readItems fuel depth done (commaSeparated (itemChars items) ++ ']' :: rest) =
      .ok (array (done.reverse ++ items), rest) := by
  induction items generalizing fuel done with
  | nil => exact absurd rfl hne
  | cons j items ih =>
    obtain ⟨hj, hitems⟩ := List.forall_mem_cons.mp hitems
    obtain ⟨fuel, rfl⟩ := Nat.exists_eq_succ_of_ne_zero (Nat.ne_zero_of_lt hfuel)
    cases items with
    | nil =>
      simp only [itemChars, commaSeparated] at hfuel ⊢
      exact readItems_last hj (Nat.le_of_lt_succ hfuel)
    | cons k items =>
      have hlist : commaSeparated (itemChars (j :: k :: items)) =
          j.chars ++ ',' :: commaSeparated (itemChars (k :: items)) := rfl
      rw [hlist, List.length_append, List.length_cons] at hfuel
      rw [hlist, List.append_assoc, List.cons_append, readItems_comma hj (by omega),
        ih hitems (List.cons_ne_nil k items) (by omega)]
      simp

end Items

section Members

variable {depth fuel : ℕ} {name : String} {j : Json} {members done : List (String × Json)}
  {rest cs : List Char}

theorem readMembers_last (hj : ReadsBack depth j) (hfuel : j.chars.length ≤ fuel) :
    readMembers (fuel + 1) depth done (stringChars name ++ ':' :: j.chars ++ '\x7d' :: rest) =
      .ok (object (done.reverse ++ [(name, j)]), rest) := by
  simp only [stringChars, List.cons_append, List.append_assoc, List.nil_append]
  rw [readMembers, skipSpaces_cons (by decide)]
  simp only [readString?_flatMap, skipSpaces_cons (show isSpace ':' = false by decide),
    hj fuel _ hfuel, skipSpaces_cons (show isSpace '\x7d' = false by decide),
    String.ofList_toList, List.reverse_cons]

theorem readMembers_comma (hj : ReadsBack depth j) (hfuel : j.chars.length ≤ fuel) :
    readMembers (fuel + 1) depth done (stringChars name ++ ':' :: j.chars ++ ',' :: cs) =
      readMembers fuel depth ((name, j) :: done) cs := by
  simp only [stringChars, List.cons_append, List.append_assoc, List.nil_append]
  rw [readMembers, skipSpaces_cons (by decide)]
  simp only [readString?_flatMap, skipSpaces_cons (show isSpace ':' = false by decide),
    hj fuel _ hfuel, skipSpaces_cons (show isSpace ',' = false by decide),
    String.ofList_toList]

theorem readMembers_memberChars (hmembers : ∀ m ∈ members, ReadsBack depth m.2)
    (hne : members ≠ []) (hfuel : (commaSeparated (memberChars members)).length < fuel) :
    readMembers fuel depth done (commaSeparated (memberChars members) ++ '\x7d' :: rest) =
      .ok (object (done.reverse ++ members), rest) := by
  induction members generalizing fuel done with
  | nil => exact absurd rfl hne
  | cons m members ih =>
    obtain ⟨hm, hmembers⟩ := List.forall_mem_cons.mp hmembers
    obtain ⟨fuel, rfl⟩ := Nat.exists_eq_succ_of_ne_zero (Nat.ne_zero_of_lt hfuel)
    cases members with
    | nil =>
      simp only [memberChars, commaSeparated, List.length_append, List.length_cons] at hfuel
      exact readMembers_last hm (by omega)
    | cons n members =>
      have hlist : commaSeparated (memberChars (m :: n :: members)) =
          (stringChars m.1 ++ ':' :: m.2.chars) ++
            ',' :: commaSeparated (memberChars (n :: members)) := rfl
      rw [hlist] at hfuel ⊢
      simp only [List.length_append, List.length_cons] at hfuel
      rw [List.append_assoc _ _ ('\x7d' :: rest), List.cons_append,
        readMembers_comma hm (by omega), ih hmembers (List.cons_ne_nil n members) (by omega)]
      simp

end Members

/-- Holds when there are no numbers, and at most `n` containers within each other. -/
inductive Plain : ℕ → Json → Prop
  | null {n : ℕ} : Plain n null
  | bool {n : ℕ} (b : Bool) : Plain n (bool b)
  | string {n : ℕ} (s : String) : Plain n (string s)
  | array {n : ℕ} {items : List Json} (h : ∀ j ∈ items, Plain n j) : Plain (n + 1) (array items)
  | object {n : ℕ} {members : List (String × Json)} (h : ∀ m ∈ members, Plain n m.2) :
    Plain (n + 1) (object members)

attribute [simp] Plain.null Plain.bool Plain.string

theorem Plain.ofOption {α : Type} {n : ℕ} {encode : α → Json} (h : ∀ a, Plain n (encode a))
    (a : Option α) : Plain n (.ofOption encode a) := by
  cases a with
  | none => exact .null
  | some a => exact h a

section Values

variable {n depth fuel : ℕ} {j : Json} {items : List Json} {members : List (String × Json)}

/-- A value begins with a character of its own, which neither is white space nor ends a list. -/
theorem Plain.exists_front (h : Plain n j) :
    ∃ c cs, j.chars = c :: cs ∧ isSpace c = false ∧ c ≠ ']' := by
  cases h with
  | null => exact ⟨'n', _, rfl, by decide, by decide⟩
  | bool b =>
    cases b with
    | false => exact ⟨'f', _, rfl, by decide, by decide⟩
    | true => exact ⟨'t', _, rfl, by decide, by decide⟩
  | string s => exact ⟨'"', _, rfl, by decide, by decide⟩
  | array _ => exact ⟨'[', _, rfl, by decide, by decide⟩
  | object _ => exact ⟨'\x7b', _, rfl, by decide, by decide⟩

theorem exists_commaSeparated_cons (item : List Char) (rest : List (List Char)) :
    ∃ cs, commaSeparated (item :: rest) = item ++ cs := by
  cases rest with
  | nil => exact ⟨[], (List.append_nil item).symm⟩
  | cons next rest => exact ⟨_, rfl⟩

theorem readLiteral_append (word : String) (value : Json) (rest : List Char) :
    readLiteral word value (word.toList ++ rest) = .ok (value, rest) := by
  rw [readLiteral, if_pos (List.isPrefixOf_iff_prefix.mpr (List.prefix_append _ _)),
    ← String.length_toList, List.drop_left]

theorem readsBack_null : ReadsBack depth null := by
  intro fuel rest hfuel
  obtain ⟨fuel, rfl⟩ := Nat.exists_eq_succ_of_ne_zero (Nat.ne_zero_of_lt hfuel)
  exact readLiteral_append "null" null rest

theorem readsBack_bool (b : Bool) : ReadsBack depth (bool b) := by
  intro fuel rest hfuel
  cases b with
  | false =>
    obtain ⟨fuel, rfl⟩ := Nat.exists_eq_succ_of_ne_zero (Nat.ne_zero_of_lt hfuel)
    exact readLiteral_append "false" (bool false) rest
  | true =>
    obtain ⟨fuel, rfl⟩ := Nat.exists_eq_succ_of_ne_zero (Nat.ne_zero_of_lt hfuel)
    exact readLiteral_append "true" (bool true) rest

theorem readsBack_string (s : String) : ReadsBack depth (string s) := by
  intro fuel rest hfuel
  obtain ⟨fuel, rfl⟩ := Nat.exists_eq_succ_of_ne_zero (Nat.ne_zero_of_lt hfuel)
  simp [chars, stringChars, readValue, skipSpaces_cons, isSpace, readString?_flatMap]

theorem readValue_bracket {c : Char} {cs : List Char} (hspace : isSpace c = false) (hc : c ≠ ']') :
    readValue (fuel + 1) (depth + 2) ('[' :: c :: cs) = readItems fuel (depth + 1) [] (c :: cs) := by
  rw [readValue, skipSpaces_cons (by decide)]
  simp [skipSpaces_cons hspace, hc]

theorem readValue_brace {c : Char} {cs : List Char} (hspace : isSpace c = false) (hc : c ≠ '\x7d') :
    readValue (fuel + 1) (depth + 2) ('\x7b' :: c :: cs) =
      readMembers fuel (depth + 1) [] (c :: cs) := by
  rw [readValue, skipSpaces_cons (by decide)]
  simp [skipSpaces_cons hspace, hc]

theorem readsBack_array (hplain : ∀ j ∈ items, Plain n j)
    (hitems : ∀ j ∈ items, ReadsBack (depth + 1) j) : ReadsBack (depth + 2) (array items) := by
  intro fuel rest hfuel
  rw [chars, List.length_append, List.length_cons, List.length_singleton] at hfuel
  obtain ⟨fuel, rfl⟩ := Nat.exists_eq_succ_of_ne_zero (Nat.ne_zero_of_lt hfuel)
  rw [chars, List.append_assoc, List.cons_append, List.singleton_append]
  cases items with
  | nil => simp [itemChars, commaSeparated, readValue, skipSpaces_cons, isSpace]
  | cons j items =>
    have hread : readItems fuel (depth + 1) []
        (commaSeparated (itemChars (j :: items)) ++ ']' :: rest) = .ok (array (j :: items), rest) :=
      readItems_itemChars hitems (List.cons_ne_nil j items) (by omega)
    obtain ⟨c, cs, hchars, hspace, hc⟩ := (hplain j List.mem_cons_self).exists_front
    obtain ⟨tail, hlist⟩ := exists_commaSeparated_cons j.chars (itemChars items)
    rw [itemChars, hlist, hchars] at hread ⊢
    exact (readValue_bracket hspace hc).trans hread

theorem readsBack_object (hmembers : ∀ m ∈ members, ReadsBack (depth + 1) m.2) :
    ReadsBack (depth + 2) (object members) := by
  intro fuel rest hfuel
  rw [chars, List.length_append, List.length_cons, List.length_singleton] at hfuel
  obtain ⟨fuel, rfl⟩ := Nat.exists_eq_succ_of_ne_zero (Nat.ne_zero_of_lt hfuel)
  rw [chars, List.append_assoc, List.cons_append, List.singleton_append]
  cases members with
  | nil => simp [memberChars, commaSeparated, readValue, skipSpaces_cons, isSpace]
  | cons m members =>
    have hread : readMembers fuel (depth + 1) []
        (commaSeparated (memberChars (m :: members)) ++ '\x7d' :: rest) =
          .ok (object (m :: members), rest) :=
      readMembers_memberChars hmembers (List.cons_ne_nil m members) (by omega)
    obtain ⟨tail, hlist⟩ := exists_commaSeparated_cons (stringChars m.1 ++ ':' :: m.2.chars)
      (memberChars members)
    rw [memberChars, hlist] at hread ⊢
    exact (readValue_brace (by decide) (by decide)).trans hread

/-- What a value begins with tells what it is, and its parts are read one after another. -/
theorem Plain.readsBack (h : Plain n j) : ReadsBack (n + 1) j := by
  induction h with
  | null => exact readsBack_null
  | bool b => exact readsBack_bool b
  | string s => exact readsBack_string s
  | array h ih => exact readsBack_array h ih
  | object _ ih => exact readsBack_object ih

/-- Values without numbers are read as they are written, up to the depth that is allowed. -/
theorem Plain.ofText?_text (h : Plain 127 j) : ofText? j.text = some j := by
  have hread := h.readsBack (j.chars.length + 1) [] (Nat.le_succ _)
  rw [List.append_nil] at hread
  rw [ofText?, text, String.toList_ofList, readFront, hread]
  rfl

end Values

end Json

end Fortnight
