import Fortnight.Period
import Fortnight.Register

/-!
# The periods of a person

All periods of a person by their identifiers. A correction and the period that
it corrects point to each other, so that a period that corrects nothing, the
root, and its corrections form a chain; a draft that was replaced by a new one
points to the new one. Whatever is addressed to a period of a chain goes to the
newest one, the tip.

Links may be wrong in a table that comes from outside. Walks along them are
limited by the number of periods, and a walk that does not end by then is a
cycle.
-/

namespace Fortnight

instance : Ranked Id where
  rank id := id.value
  eq_of_rank h := Id.ext_value (Int.ofNat.inj h)

abbrev PeriodTable := Register Period.id

namespace PeriodTable

def get (t : PeriodTable) (id : Id) : Except Error Period :=
  match t.find? id with
  | some p => .ok p
  | none => .error (.notFound (.period id))

/-- The table with one more period, unless it has one with this identifier. -/
def extend (t : PeriodTable) (p : Period) : Except Error PeriodTable :=
  if t.contains p.id then .error (.illegalState (.periodExists p.id)) else .ok (t.insert p)

def cycleError (id : Id) : Error :=
  .illegalState (.cycle id)

/-- Follows links from `p` on, of which the walk that began at `start` may still see `steps`. -/
def follow (t : PeriodTable) (link : Period → Option Id) (start : Id) :
    (steps : Nat) → (p : Period) → Except Error Period
  | 0, _ => .error (cycleError start)
  | steps + 1, p =>
    match link p with
    | none => .ok p
    | some next => do follow t link start steps (← t.get next)

/-- The newest period of the chain. -/
def tip (t : PeriodTable) (id : Id) : Except Error Period := do
  t.follow Period.correctedBy id (t.size + 1) (← t.get id)

/-- The first period of the chain, which corrects nothing. -/
def root (t : PeriodTable) (id : Id) : Except Error Period := do
  t.follow Period.corrects id (t.size + 1) (← t.get id)

def chainFrom (t : PeriodTable) (start : Id) :
    (steps : Nat) → (p : Period) → Except Error (List Period)
  | 0, _ => .error (cycleError start)
  | steps + 1, p =>
    match p.correctedBy with
    | none => .ok [p]
    | some next => do
      let q ← t.get next
      let rest ← chainFrom t start steps q
      pure (p :: rest)

/-- The periods from the given one to the tip. -/
def chain (t : PeriodTable) (id : Id) : Except Error (List Period) := do
  t.chainFrom id t.size (← t.get id)

/-- The periods that correct nothing, by start. -/
def roots (t : PeriodTable) : List Period :=
  (t.toList.filter fun p => p.corrects.isNone).mergeSort fun p q => p.start ≤ q.start

def checkLink (t : PeriodTable) (p : Period) : Option Id → Except Error Unit
  | none => .ok ()
  | some link =>
    if t.contains link then .ok () else .error (.illegalState (.unknownLink p.id link))

def checkPeriod (t : PeriodTable) (p : Period) : Except Error Unit := do
  t.checkLink p p.corrects
  t.checkLink p p.correctedBy
  if p.corrects = some p.id ∨ p.correctedBy = some p.id then throw (cycleError p.id)
  let _ ← t.tip p.id
  let _ ← t.root p.id

/-- Requires each period of a chain to correct the one before it. -/
def checkChain : List Period → Except Error Unit
  | p :: q :: rest =>
    if q.corrects = some p.id then checkChain (q :: rest)
    else .error (.illegalState (.oneSidedLink p.id q.id))
  | _ => .ok ()

/-- Accepts a table whose links lead to periods of it, in no circle, and back. -/
def validate (t : PeriodTable) : Except Error Unit := do
  t.toList.forM t.checkPeriod
  t.roots.forM fun p => do checkChain (← t.chain p.id)

def insertNew (p : Period) : Step PeriodTable Unit := fun t =>
  match t.extend p with
  | .ok t => (.ok (), t)
  | .error e => (.error e, t)

def onPeriod (id : Id) (f : Step Period α) : Step PeriodTable α := fun t =>
  match t.get id with
  | .error e => (.error e, t)
  | .ok p =>
    match f p with
    | (r, p) => (r, t.insert p)

def onTip (id : Id) (f : Step Period α) : Step PeriodTable α := do
  let tip ← Step.look fun t => t.tip id
  onPeriod tip.id f

/-- Opens a period in which the days before `obligatedSince` are exempt. -/
def openPeriod (id : Id) (start obligatedSince : Date) (rule : FinalizeRule) :
    Step PeriodTable (List Notification) := do
  let p ← Step.ofExcept (Period.starting id start rule)
  let p := { p with timeline := p.timeline.markExemptBefore obligatedSince }
  insertNew p
  pure [p.stateChanged none]

/-- Opens the period of the week in which an obligation starts, unless a root
ends in that week or later. -/
def openFirst (id : Id) (obligationStart : Date) (rule : FinalizeRule) :
    Step PeriodTable (List Notification) := do
  let start ← Step.ofExcept obligationStart.mondayOnOrBefore
  let t ← Step.get
  if t.roots.any fun p => start ≤ p.finish then pure []
  else openPeriod id start obligationStart rule

/-- Where the next root starts: after the last one, or in the week in which the
obligation started. -/
def nextStart (t : PeriodTable) (obligatedSince : Date) : Except Error Date :=
  match t.roots.getLast? with
  | some last => last.finish.shift 1
  | none => obligatedSince.mondayOnOrBefore

/-- Opens the next root if it has started by `date`. -/
def openNext (id : Id) (obligatedSince date : Date) (rule : FinalizeRule) :
    Step PeriodTable (List Notification) := do
  let start ← Step.look fun t => t.nextStart obligatedSince
  if date < start then pure [] else openPeriod id start obligatedSince rule

def add (id : Id) (a : Activity) : Step PeriodTable Unit :=
  onTip id (Period.add a)

def delete (id activity : Id) : Step PeriodTable Unit :=
  onTip id (Period.delete activity)

/-- The timeline of the period that `p` corrects. -/
def corrected (t : PeriodTable) (p : Period) : Except Error (Option Timeline) :=
  match p.corrects with
  | none => .ok none
  | some id => do
    let q ← t.get id
    pure (some q.timeline)

def approve (id : Id) (approval : Approval) (reference : Date) :
    Step PeriodTable (List Notification) := do
  let tip ← Step.look fun t => t.tip id
  let corrected ← Step.look fun t => t.corrected tip
  onPeriod tip.id (Period.approve approval reference corrected)

def unapprove (id : Id) (revocation : Revocation) : Step PeriodTable (List Notification) :=
  onTip id (Period.unapprove revocation)

def submitManually (id : Id) (caseId : Option String) :
    Step PeriodTable (List Notification) :=
  onTip id (Period.submitManually caseId)

def setCorrectedBy (id correction : Id) : Step PeriodTable Unit :=
  onPeriod id (Step.modify fun p => { p with correctedBy := some correction })

/-- The period that a new correction in place of `tip` would correct: `tip`
itself once it is submitted, and what it corrects while it is a draft. -/
def correctable (t : PeriodTable) (tip : Period) : Except Error Period :=
  match tip.state, tip.corrects with
  | .submitted, _ => .ok tip
  | .toBeFilled, some id => t.get id
  | _, _ => .error (tip.unsupported .correction)

/-- Starts a correction. A correction that is still a draft is replaced. -/
def correct (fresh : Nat → Id) (id : Id) : Step PeriodTable (List Notification) := do
  let tip ← Step.look fun t => t.tip id
  let corrected ← Step.look fun t => t.correctable tip
  let correction := corrected.correctionOf fresh
  insertNew correction
  setCorrectedBy corrected.id correction.id
  if tip.state ≠ .submitted then setCorrectedBy tip.id correction.id
  pure [correction.stateChanged none]

/-- Submits the tip of a chain if it is approved and due. -/
def submitTip (date : Date) (caseId : Option String) (root : Id) :
    Step PeriodTable (List Notification) := do
  let tip ← Step.look fun t => t.tip root
  if tip.state = .approved then onPeriod tip.id (Period.submitByDeadline date caseId)
  else pure []

def submitTips (date : Date) (caseId : Option String) :
    List Id → Step PeriodTable (List Notification)
  | [] => pure []
  | root :: rest => do
    let first ← submitTip date caseId root
    let others ← submitTips date caseId rest
    pure (first ++ others)

/-- Submits what is approved and due on `date`, chain by chain. -/
def submitDue (date : Date) (caseId : Option String) : Step PeriodTable (List Notification) := do
  let t ← Step.get
  submitTips date caseId ((t.roots.filter fun p => p.start ≤ date).map Period.id)

end PeriodTable

end Fortnight
