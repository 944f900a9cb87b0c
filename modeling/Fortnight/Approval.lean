import Fortnight.Step

/-!
# Approvals

The approvals of a period, with those that were taken back, in the order in
which they were given. At most the latest one is live.
-/

namespace Fortnight

/-- The act of taking an approval back. -/
structure Revocation where
  id : Id
  actor : Actor
  moment : Instant
  justification : Option String
  deriving DecidableEq

structure Approval where
  id : Id
  actor : Actor
  moment : Instant
  justification : Option String
  revokedBy : Option Revocation
  deriving DecidableEq

namespace Approval

def create (id : Id) (actor : Actor) (moment : Instant) (justification : Option String) :
    Approval :=
  ⟨id, actor, moment, justification, none⟩

def isLive (a : Approval) : Bool :=
  a.revokedBy.isNone

end Approval

structure ApprovalLog where
  entries : List Approval
  deriving DecidableEq

namespace ApprovalLog

def empty : ApprovalLog := ⟨[]⟩

/-- Takes over entries of which none but the last may be live. -/
def ofEntries (entries : List Approval) : Except Error ApprovalLog :=
  if entries.dropLast.any Approval.isLive then .error (.illegalState .earlierLiveApproval)
  else .ok ⟨entries⟩

/-- The last entry, if it is live. -/
def live? (log : ApprovalLog) : Option Approval :=
  log.entries.getLast?.filter Approval.isLive

def isApproved (log : ApprovalLog) : Bool :=
  log.live?.isSome

def add (a : Approval) : Step ApprovalLog Unit := fun log =>
  if log.isApproved then (.error (.illegalState .alreadyApproved), log)
  else (.ok (), ⟨log.entries ++ [a]⟩)

/-- A case worker may take any approval back, an end user only their own. -/
def ensureRevocableBy (actor : Actor) (log : ApprovalLog) : Except Error Unit :=
  match log.live? with
  | none => .error (.illegalState .notApproved)
  | some live =>
    match actor with
    | .caseWorker _ => .ok ()
    | .endUser _ =>
      if actor = live.actor then .ok ()
      else
        .error (.unauthorized (toString actor)
          ("may not revoke an approval made by " ++ toString live.actor))

/-- Changes the last element of a list. -/
def modifyLast (f : α → α) : List α → List α
  | [] => []
  | [a] => [f a]
  | a :: rest => a :: modifyLast f rest

def revoke (r : Revocation) : Step ApprovalLog Unit := do
  Step.look (ensureRevocableBy r.actor)
  Step.modify fun log => ⟨modifyLast (fun a => { a with revokedBy := some r }) log.entries⟩

end ApprovalLog

end Fortnight
