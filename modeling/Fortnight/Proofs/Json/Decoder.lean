import Mathlib.Data.List.Nodup
import Fortnight.Json.Decoder

/-!
# What decoders read

A decoder reads a value as some `a` when it takes it to `a`, be it by itself or set
aside beside a tag. A record is read from its own members when every field is read
from the member that bears its name and no name is used twice.
-/

namespace Fortnight

namespace Decoder

variable {α β : Type} {d : Decoder α} {j : Json} {a : α}

def Reads (d : Decoder α) (j : Json) (a : α) : Prop :=
  ∀ l, d l j = .ok a

theorem reads_string (s : String) : Reads string (.string s) s := fun _ => rfl

theorem reads_bool (b : Bool) : Reads bool (.bool b) b := fun _ => rfl

theorem reads_ofText {read? : String → Option α} {s : String} (h : read? s = some a) :
    Reads (ofText read?) (.string s) a := by
  intro l
  simp only [ofText, h]

/-- What is there must not be written as null, which is read as nothing. -/
theorem reads_nullable {encode : α → Json} (hnull : ∀ a, encode a ≠ .null)
    (h : ∀ a, d.Reads (encode a) a) (a : Option α) : d.nullable.Reads (.ofOption encode a) a := by
  intro l
  cases a with
  | none => rfl
  | some a =>
    have hread : d.nullable l (encode a) = (d l (encode a)).map some := by
      rw [nullable]
      exact fun hj => hnull a hj
    rw [Json.ofOption, hread, h a l]
    rfl

theorem reads_list {encode : β → Json} {decode : β → α} (h : ∀ b, d.Reads (encode b) (decode b))
    (bs : List β) : (list d).Reads (.array (bs.map encode)) (bs.map decode) := by
  intro l
  rw [list]
  induction bs with
  | nil => rfl
  | cons b bs ih =>
    rw [List.map_cons, List.mapM_cons, h b l, ih]
    rfl

theorem reads_oneOf {shapes : List (String × α)} {s : String} (h : named shapes s = .ok a) :
    (oneOf shapes).Reads (.string s) a :=
  fun _ => h

end Decoder

namespace Members

variable {α β : Type} {m : Members α} {fields : List (String × Json)} {d : Decoder α}
  {j : Json} {a : α} {l : Leniency}

/-- The members that are there are those of the record, and it is read from them. -/
structure Reads (m : Members α) (fields : List (String × Json)) (a : α) : Prop where
  names_eq : m.names = fields.map Prod.fst
  check : m.names.Nodup → ∀ l, ∀ f ∈ fields, m.check l f.1 f.2 = .ok ()
  build : ∀ l byName find?, (∀ f ∈ fields, find? f.1 = some f.2) → m.build l byName find? = .ok a

theorem Reads.mem_names (h : m.Reads fields a) {f : String × Json} (hf : f ∈ fields) :
    f.1 ∈ m.names := by
  rw [h.names_eq]
  exact List.mem_map_of_mem hf

theorem reads_field (name : String) (h : d.Reads j a) (byName byPosition : Option α) :
    (field name d byName byPosition).Reads [(name, j)] a where
  names_eq := rfl
  check := by
    intro _ l f hf
    rw [List.mem_singleton.mp hf]
    change (d l j).map _ = .ok ()
    rw [h l]
    rfl
  build := by
    intro l byName find? hfind
    simp only [field, hfind _ (List.mem_singleton_self _), h l]

theorem reads_required (name : String) (h : d.Reads j a) :
    (required name d).Reads [(name, j)] a :=
  reads_field name h none none

theorem reads_optional (name : String) {b : Option α} (h : d.nullable.Reads j b) :
    (optional name d).Reads [(name, j)] b :=
  reads_field name h (some none) none

theorem reads_withDefault (name : String) (h : d.Reads j a) (default : α) :
    (withDefault name d default).Reads [(name, j)] a :=
  reads_field name h (some default) (some default)

theorem Reads.map (h : m.Reads fields a) (f : α → β) : (f <$> m).Reads fields (f a) where
  names_eq := h.names_eq
  check := by
    intro hnodup l field hfield
    exact h.check hnodup l field hfield
  build := by
    intro l byName find? hfind
    change (m.build l byName find?).bind _ = _
    rw [h.build l byName find? hfind]
    rfl

/-- A field more is read from one more member, which must have a name of its own. -/
theorem Reads.seq {mf : Members (α → β)} {g : α → β} {fs xs : List (String × Json)}
    (hf : mf.Reads fs g) (hx : m.Reads xs a) : (mf <*> m).Reads (fs ++ xs) (g a) where
  names_eq := by
    rw [List.map_append, ← hf.names_eq, ← hx.names_eq]
    rfl
  check := by
    intro hnodup l field hfield
    obtain ⟨hfs, hxs, hdisjoint⟩ := List.nodup_append.mp hnodup
    change (if field.1 ∈ mf.names then _ else _) = _
    rcases List.mem_append.mp hfield with hmem | hmem
    · rw [if_pos (hf.mem_names hmem)]
      exact hf.check hfs l field hmem
    · rw [if_neg fun h => hdisjoint _ h _ (hx.mem_names hmem) rfl]
      exact hx.check hxs l field hmem
  build := by
    intro l byName find? hfind
    obtain ⟨hfs, hxs⟩ := List.forall_mem_append.mp hfind
    change (mf.build l byName find?).bind _ = _
    rw [hf.build l byName find? hfs]
    change (m.build l byName find?).bind _ = _
    rw [hx.build l byName find? hxs]
    rfl

theorem scan_eq_ok {seen : List String} (hnames : ∀ f ∈ fields, f.1 ∈ m.names)
    (hcheck : ∀ f ∈ fields, m.check l f.1 f.2 = .ok ()) (hnodup : (fields.map Prod.fst).Nodup)
    (hseen : ∀ f ∈ fields, f.1 ∉ seen) : m.scan l seen fields = .ok () := by
  induction fields generalizing seen with
  | nil => rfl
  | cons f fields ih =>
    obtain ⟨hname, hnames⟩ := List.forall_mem_cons.mp hnames
    obtain ⟨hf, hcheck⟩ := List.forall_mem_cons.mp hcheck
    obtain ⟨hfirst, hseen⟩ := List.forall_mem_cons.mp hseen
    rw [List.map_cons, List.nodup_cons] at hnodup
    rw [scan, if_pos hname, if_neg hfirst, hf]
    refine ih hnames hcheck hnodup.2 fun g hg => ?_
    rw [List.mem_cons, not_or]
    refine ⟨fun heq => hnodup.1 ?_, hseen g hg⟩
    rw [← heq]
    exact List.mem_map_of_mem hg

theorem find?_of_mem (hnodup : (fields.map Prod.fst).Nodup) {f : String × Json}
    (hf : f ∈ fields) : fields.find? (·.1 = f.1) = some f := by
  induction fields with
  | nil => cases hf
  | cons g fields ih =>
    rw [List.map_cons, List.nodup_cons] at hnodup
    rcases List.mem_cons.mp hf with rfl | hf
    · exact List.find?_cons_of_pos (decide_eq_true rfl)
    · have hne : g.1 ≠ f.1 := fun heq => hnodup.1 (heq ▸ List.mem_map_of_mem hf)
      rw [List.find?_cons_of_neg (by simpa using hne)]
      exact ih hnodup.2 hf

theorem Reads.ofMembers (h : m.Reads fields a) (hnodup : m.names.Nodup) :
    m.ofMembers l fields = .ok a := by
  have hfields := h.names_eq ▸ hnodup
  have hscan : m.scan l [] fields = .ok () :=
    scan_eq_ok (fun _ => h.mem_names) (h.check hnodup l) hfields fun _ _ => List.not_mem_nil
  rw [Members.ofMembers, hscan]
  refine h.build l true _ fun f hf => ?_
  rw [find?_of_mem hfields hf]
  rfl

theorem Reads.object (h : m.Reads fields a) (hnodup : m.names.Nodup) :
    m.decoder.Reads (.object fields) a :=
  fun _ => h.ofMembers hnodup

end Members

namespace Tagged

variable {α : Type} {t : Tagged α} {name : String} {m : Members α} {fields : List (String × Json)}
  {a : α} {l : Leniency}

theorem findShape_of_not_mem (found : Option (Members α)) (h : t.tag ∉ fields.map Prod.fst) :
    t.findShape l found fields = .ok found := by
  induction fields with
  | nil => rfl
  | cons f fields ih =>
    obtain ⟨name, j⟩ := f
    rw [List.map_cons, List.mem_cons, not_or] at h
    change (if name = t.tag then _ else t.findShape l found fields) = _
    rw [if_neg (Ne.symm h.1)]
    exact ih h.2

theorem reads_object (hshape : Decoder.named t.shapes name = .ok m) (hm : m.Reads fields a)
    (hnodup : (t.tag :: m.names).Nodup) :
    t.decoder.Reads (.object ((t.tag, .string name) :: fields)) a := by
  intro l
  obtain ⟨htag, hnodup⟩ := List.nodup_cons.mp hnodup
  rw [hm.names_eq] at htag
  have hfound : t.findShape l none ((t.tag, .string name) :: fields) = .ok (some m) := by
    rw [findShape, if_pos rfl]
    change (Decoder.named t.shapes name).bind _ = _
    rw [hshape]
    exact findShape_of_not_mem (some m) htag
  have hrest : ((t.tag, .string name) :: fields).filter (·.1 ≠ t.tag) = fields := by
    rw [List.filter_cons_of_neg (by simp), List.filter_eq_self]
    intro f hf
    refine decide_eq_true fun heq => htag ?_
    rw [← heq]
    exact List.mem_map_of_mem hf
  rw [decoder, hfound]
  change m.ofMembers .lenient _ = _
  rw [hrest]
  exact hm.ofMembers hnodup

end Tagged

end Fortnight
