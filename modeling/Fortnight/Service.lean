import Fortnight.Json.Parser
import Fortnight.Service.MediaType
import Fortnight.Service.Target
import Fortnight.Store
import Fortnight.Wire.Event

/-!
# The service

Events are posted for a person; the periods of a person and the newest
correction of a period can be read. Every answer is a status with or without a
JSON body, and a request that is turned down gets a code and a message.
-/

namespace Fortnight

structure Request where
  method : String
  path : List Char
  contentType : Option String
  body : String

namespace Request

def isMethod (s : String) : Bool :=
  !s.isEmpty && s.toList.all isTokenChar

/-- Holds for texts that a header can carry. -/
def isHeaderText (s : String) : Bool :=
  s.toList.all fun c => c = '\t' || ' ' ≤ c && c ≠ '\x7f'

/-- The request with a target as it is written, if all its parts are well formed. -/
def ofParts? (method target : String) (contentType : Option String) (body : String) :
    Option Request := do
  let path ← Target.path? target
  if isMethod method && contentType.all isHeaderText then
    pure ⟨method, path, contentType, body⟩
  else none

end Request

structure Response where
  status : Nat
  body : Option Json

/-- Why a request is turned down. -/
structure Problem where
  status : Nat
  code : String
  message : String
  details : Option String

namespace Problem

def badRequest (code message : String) : Problem :=
  ⟨400, code, message, none⟩

def validation (message : String) : Problem :=
  badRequest "VALIDATION_ERROR" message

def malformedJson (message : String) : Problem :=
  badRequest "MALFORMED_JSON" message

def missingContentType : Problem :=
  badRequest "MISSING_CONTENT_TYPE" "Content-Type must be application/json"

/-- A body of the wrong shape: what is missing is told apart from the rest. -/
def ofDecodeError (e : DecodeError) : Problem :=
  if e.namesMissingField then validation e.message else malformedJson e.message

def ofError (e : Error) : Problem :=
  match e with
  | .notFound _ => ⟨404, "NOT_FOUND", e.message, none⟩
  | .gateTooEarly approvableFrom _ =>
    ⟨422, "GATE_TOO_EARLY", e.message,
      some ("The period can be approved from " ++ toString approvableFrom)⟩
  | .illegalState _ => ⟨409, "ILLEGAL_STATE", e.message, none⟩
  | .unauthorized _ _ => ⟨403, "UNAUTHORIZED", e.message, none⟩
  | .settingsNotFound _ | .settingsMalformed _ _ =>
    ⟨500, "CONFIG_ERROR", "Configuration error", some e.message⟩
  | .overflow => ⟨500, "INTERNAL_ERROR", e.message, none⟩

def toJson (p : Problem) : Json :=
  .object ([("code", .string p.code), ("message", .string p.message)] ++
    match p.details with
    | some details => [("details", .string details)]
    | none => [])

def response (p : Problem) : Response :=
  ⟨p.status, some p.toJson⟩

end Problem

namespace Service

/-- The longest body that is read, in bytes. -/
def bodyLimit : Nat := 2097152

def pathIdent (part : String) : Except Problem String :=
  match percentDecoded? part with
  | some ident => .ok ident
  | none => .error (.validation "the path is not text")

def pathId (part : String) : Except Problem Id := do
  match Id.ofText? (← pathIdent part) with
  | some id => pure id
  | none => throw (.validation "the path has no identifier")

/-- Reads the first value of the body; what follows it is not looked at. A tag
that is no name of an event is noticed even if the text breaks off after it. -/
def readEvent (body : String) : Except Problem Event :=
  match Json.readFront body.toList with
  | .ok (j, _) => (Event.decoder .strict j).mapError Problem.ofDecodeError
  | .error read =>
    match Event.shapes.earlyFault? read with
    | some e => .error (.ofDecodeError e)
    | none => .error (.malformedJson "the body is not JSON")

def eventOf (request : Request) : Except Problem Event :=
  if !(request.contentType.bind MediaType.ofText?).any MediaType.isJson then
    .error .missingContentType
  else if bodyLimit < request.body.utf8ByteSize then
    .error (.malformedJson "the body is too long")
  else readEvent request.body

/-- Applies the event of a request. The answer carries an identifier of its own. -/
def postEvent (fresh : Nat → Id) (rule : FinalizeRule) (ident : String) (request : Request)
    (s : Store) : Except Problem Response × Store :=
  match do
    let ident ← pathIdent ident
    let event ← eventOf request
    pure (ident, event) with
  | .error problem => (.error problem, s)
  | .ok (ident, event) =>
    match Store.dispatch (fun n => fresh (n + 1)) rule ident event s with
    | (.error e, s) => (.error (.ofError e), s)
    | (.ok notifications, s) =>
      (.ok ⟨200, some (.object [("correlation_id", (fresh 0).toJson),
        ("notifications", .array (notifications.map Notification.toJson))])⟩, s)

def summary (p : Period) : Json :=
  .object [("id", p.id.toJson), ("start", p.start.toJson), ("end", p.finish.toJson),
    ("state", p.state.toJson), ("approvable_from", p.approvableFrom.toJson),
    ("finalize_after", p.finalizeAfter.toJson), ("approved", .bool p.approvals.isApproved),
    ("corrects", .ofOption Id.toJson p.corrects),
    ("corrected_by", .ofOption Id.toJson p.correctedBy), ("case_id", .ofOption .string p.caseId)]

/-- Periods are listed by start, roots before corrections. -/
def listedBefore (p q : Period) : Bool :=
  if p.start = q.start then p.corrects.isNone || q.corrects.isSome else p.start < q.start

def listPeriods (fresh : Nat → Id) (ident : String) (s : Store) : Except Problem Response := do
  let ident ← pathIdent ident
  let p ← (s.person (fresh 0) ident).mapError Problem.ofError
  let periods := p.periods.toList.mergeSort listedBefore
  pure ⟨200, some (.object [("ident", .string ident), ("periods", .array (periods.map summary))])⟩

def latestCorrection (fresh : Nat → Id) (ident period : String) (s : Store) :
    Except Problem Response := do
  let ident ← pathIdent ident
  let id ← pathId period
  let p ← (s.person (fresh 0) ident).mapError Problem.ofError
  let tip ← (p.periods.tip id).mapError Problem.ofError
  pure ⟨200, some tip.toJson⟩

def answered : Except Problem Response → Response
  | .ok response => response
  | .error problem => problem.response

/-- Answers a request to read, where `HEAD` asks for the answer without its body. -/
def answerRead (method : String) (read : Except Problem Response) : Response :=
  if method = "GET" then answered read
  else if method = "HEAD" then { answered read with body := none }
  else ⟨405, none⟩

def handle (fresh : Nat → Id) (rule : FinalizeRule) (request : Request) (s : Store) :
    Response × Store :=
  match Resource.ofPath? request.path with
  | none => (⟨404, none⟩, s)
  | some (.events ident) =>
    if request.method = "POST" then
      let (r, s) := postEvent fresh rule ident request s
      (answered r, s)
    else (⟨405, none⟩, s)
  | some (.periods ident) => (answerRead request.method (listPeriods fresh ident s), s)
  | some (.latestCorrection ident period) =>
    (answerRead request.method (latestCorrection fresh ident period s), s)

end Service

end Fortnight
