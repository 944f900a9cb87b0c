import Fortnight.Proofs.Person.Announcement
import Fortnight.Proofs.Person.Correction
import Fortnight.Proofs.Person.Enabling
import Fortnight.Proofs.Person.Opening
import Fortnight.Proofs.Store.Refinement
import Fortnight.Service
import Fortnight.Settings
import Fortnight.Wire.Event
import Fortnight.Wire.Record
import Fortnight.Proofs.Period.Lineage
import Fortnight.Proofs.Period.Deadline
import Fortnight.Proofs.Person.Deadline
import Fortnight.Proofs.Person.Response
import Fortnight.Proofs.Person.Routing
import Fortnight.Proofs.Person.Independence
import Fortnight.Proofs.Person.Redelivery
import Fortnight.Proofs.Period.Growth
import Fortnight.Proofs.Person.Growth
import Fortnight.Proofs.Person.Authorization
import Fortnight.Proofs.Person.Loading
import Fortnight.Proofs.Person.Rows
import Fortnight.Proofs.Person.Identifiers
import Fortnight.Proofs.Person.Fitting
import Fortnight.Proofs.Person.Obligated
import Fortnight.Proofs.Person.Cycle
import Fortnight.Proofs.Calendar.Civil
import Fortnight.Proofs.Calendar.Text
import Fortnight.Proofs.Identifier
import Fortnight.Proofs.Hours.Text
import Fortnight.Proofs.Json.Text
import Fortnight.Proofs.Json.Decoder
import Fortnight.Proofs.Wire.Period
import Fortnight.Proofs.Wire.Event
import Fortnight.Proofs.Calendar.Year
import Fortnight.Proofs.Calendar.Easter
import Fortnight.Proofs.Calendar.Holiday
import Fortnight.Proofs.Person.Atomic
import Fortnight.Proofs.Person.Reversal
import Fortnight.Proofs.History
import Fortnight.Proofs.Timeline.Ordering
import Fortnight.Proofs.Timeline.SameContent
import Fortnight.Proofs.Timeline.Total
import Fortnight.Proofs.Period.Destination
