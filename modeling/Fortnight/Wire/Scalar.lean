import Fortnight.Calendar.DateText
import Fortnight.Calendar.InstantText
import Fortnight.Hours.Text
import Fortnight.Identifier
import Fortnight.Json.Decoder
import Fortnight.Json.Text
import Fortnight.Number.Shortest
import Fortnight.Vocabulary

/-!
# Scalars as JSON

Identifiers, dates, instants and hours are strings. Hours are also read from
numbers, of which a fraction counts as the shortest decimals that tell it from
others. Kinds and states have names, and an actor is tagged with its kind.
-/

namespace Fortnight

def Id.toJson (id : Id) : Json := .string id.text

def Id.decoder : Decoder Id := Decoder.ofText Id.ofText?

def Date.toJson (d : Date) : Json := .string d.text

def Date.decoder : Decoder Date := Decoder.ofText Date.ofText?

def Instant.toJson (t : Instant) : Json := .string t.text

def Instant.decoder : Decoder Instant := Decoder.ofText Instant.ofText?

def Hours.toJson (h : Hours) : Json := .string h.text

def Hours.decoder : Decoder Hours
  | _, .string s =>
    match Hours.ofText? s with
    | some h => .ok h
    | none => .error (.wrongText s)
  | _, .integer n =>
    match Hours.ofParts? n 0 with
    | some h => .ok h
    | none => .error (.outOfRange n)
  | _, .fraction x =>
    match Hours.ofPlainChars? x.plainChars with
    | some h => .ok h
    | none => .error (.wrongType (.fraction x))
  | _, j => .error (.wrongType j)

namespace ActivityType

def names : List (String × ActivityType) :=
  [("work", work), ("sick", sick), ("vacation", vacation)]

def toJson (t : ActivityType) : Json := .string t.name

def decoder : Decoder ActivityType := Decoder.oneOf names

end ActivityType

namespace ActivityState

def name : ActivityState → String
  | unlocked => "open"
  | locked => "locked"
  | deleted => "deleted"

def names : List (String × ActivityState) :=
  [("open", unlocked), ("locked", locked), ("deleted", deleted)]

def toJson (s : ActivityState) : Json := .string s.name

def decoder : Decoder ActivityState := Decoder.oneOf names

end ActivityState

namespace DayPolicy

def name : DayPolicy → String
  | singleActivityAllowed => "single_activity_allowed"
  | nothingAllowed => "nothing_allowed"

def names : List (String × DayPolicy) :=
  [("single_activity_allowed", singleActivityAllowed), ("nothing_allowed", nothingAllowed)]

def toJson (p : DayPolicy) : Json := .string p.name

def decoder : Decoder DayPolicy := Decoder.oneOf names

end DayPolicy

namespace PeriodState

def name : PeriodState → String
  | toBeFilled => "to_be_filled"
  | approved => "approved"
  | submitted => "submitted"

def names : List (String × PeriodState) :=
  [("to_be_filled", toBeFilled), ("approved", approved), ("submitted", submitted)]

def toJson (s : PeriodState) : Json := .string s.name

def decoder : Decoder PeriodState := Decoder.oneOf names

end PeriodState

namespace Actor

def toJson : Actor → Json
  | endUser ident => .object [("kind", .string "end_user"), ("ident", .string ident)]
  | caseWorker id => .object [("kind", .string "case_worker"), ("id", .string id)]

def shapes : Tagged Actor where
  tag := "kind"
  shapes := [
    ("end_user", endUser <$> .required "ident" .string),
    ("case_worker", caseWorker <$> .required "id" .string)]

def decoder : Decoder Actor := shapes.decoder

end Actor

end Fortnight
