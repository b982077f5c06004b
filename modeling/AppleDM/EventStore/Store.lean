import AppleDM.Shared.Checked
import AppleDM.Shared.Process
import AppleDM.Shared.Rows
import AppleDM.Shared.Table
import AppleDM.Mdm.Identity
import Mathlib.Data.Prod.Lex
import Mathlib.Data.String.Basic

set_option autoImplicit false

-- The outbox of events. Database times are microseconds, as the tables hold them; durations are
-- nanoseconds. The tables are changed by transactions that run one after the other.
namespace AppleDM.EventStore

open Checked Mdm Process

inductive State where
  | pending | delivered | paused | expired | cancelled | blocked
  deriving DecidableEq

structure Record where
  eventID : String
  type : String
  time : Time
  fields : String := ""

structure Row where
  state : State := .pending
  attempts : Nat := 0
  nextAttempt : Int := 0
  leaseToken : String := ""
  leaseUntil : Int := 0
  lastCode : String := ""

structure Delivery where
  record : Record
  destination : String
  token : String
  attempts : Nat

inductive Failure where
  | invalid
  | lease
  | empty
  | paused
  | expired
  | cancelled
  | duplicate
  | database
  | sender
  | source
  | resolve
  | context

abbrev Key := String × String

structure Lease where
  key : Key
  token : String
  expires : Int

/-- The tables, and what else the transactions have done: the tokens drawn, the leases that were
handed out and not finished, the effects of transactional senders and the acknowledgements that
came without one. -/
structure World where
  clock : Int := 0
  records : Table String Record := ∅
  deliveries : Table Key Row := ∅
  used : List String := []
  leases : List Lease := []
  effects : List Key := []
  acknowledged : List Key := []

def second : Int := 1000000000
def hour : Int := 3600 * second

section Transactions

variable (encoded : Record → Option Nat)

def validRecord (rec : Record) : Prop :=
  0 < rec.eventID.utf8ByteSize ∧ rec.eventID.utf8ByteSize ≤ 64 ∧ 0 < rec.type.utf8ByteSize ∧
    rec.type.utf8ByteSize ≤ 128 ∧ rec.time ≠ 0

instance (rec : Record) : Decidable (validRecord rec) :=
  inferInstanceAs (Decidable (_ ∧ _ ∧ _ ∧ _ ∧ _))

def insertDelivery (id : String) (w : World) (dest : String) : Except Failure World := do
  reject ((w.deliveries[(id, dest)]?).isSome) .duplicate
  pure { w with deliveries := w.deliveries.insert (id, dest) {} }

def capture (rec : Record) (destinations : List String) (w : World) : Except Failure World := do
  reject (¬ validRecord rec) .invalid
  let destinations := (destinations.insertionSort (· ≤ ·)).dedup
  reject (∃ dest ∈ destinations, dest.utf8ByteSize = 0 ∨ 128 < dest.utf8ByteSize) .invalid
  reject ((encoded rec).all fun size => 1048576 < size) .invalid
  reject ((w.records[rec.eventID]?).isSome) .duplicate
  destinations.foldlM (insertDelivery rec.eventID)
    { w with records := w.records.insert rec.eventID rec }

def ready (w : World) (locked : List Key) : List (Key × Row × Record) :=
  (w.deliveries.toList.filterMap fun entry =>
    (w.records[entry.1.1]?).map fun rec => (entry.1, entry.2, rec)).filter fun entry =>
      entry.2.1.state = .pending ∧ entry.2.1.nextAttempt ≤ w.clock ∧
        entry.2.1.leaseUntil ≤ w.clock ∧ entry.1 ∉ locked

def position (entry : Key × Row × Record) : Int ×ₗ Int ×ₗ String ×ₗ String :=
  toLex (entry.2.1.nextAttempt, toLex (entry.2.2.time / 1000, toLex (entry.1.1, entry.1.2)))

def updateRow (key : Key) (change : Row → Row) (table : Table Key Row) : Table Key Row :=
  match table[key]? with
  | some row => table.insert key (change row)
  | none => table

def claim (lease : Int) (token : String) (locked : List Key) (w : World) :
    Except Failure (Delivery × World) := do
  reject (lease ≤ 0 ∨ hour < lease) .invalid
  match (Rows.orderBy position (ready w locked)).head? with
  | none => .error .empty
  | some (key, row, rec) =>
    let expires := (w.clock * 1000 + lease) / 1000
    let target : Key := (rec.eventID, key.2)
    .ok ({ record := rec, destination := key.2, token, attempts := row.attempts + 1 },
      { w with
        deliveries := updateRow target (fun row =>
          { row with leaseToken := token, leaseUntil := expires, attempts := row.attempts + 1 })
          w.deliveries
        leases := { key := target, token, expires } :: w.leases })

def stateOf (code : String) : Option State :=
  if code = "" then some .delivered
  else if code = "paused" then some .paused
  else if code = "expired" then some .expired
  else if code = "cancelled" then some .cancelled
  else if code ∈ ["transport", "timeout", "http-408", "http-429", "http-5xx"] then some .pending
  else if code ∈ ["http-rejected", "destination-unavailable"] then some .blocked
  else none

def finishRow (d : Delivery) (state : State) (code : String) (retryAfter : Int) (w : World) :
    Except Failure World :=
  let key : Key := (d.record.eventID, d.destination)
  match w.deliveries[key]? with
  | none => .error .lease
  | some row =>
    if row.leaseToken = d.token ∧ w.clock < row.leaseUntil ∧ row.state = .pending then
      .ok { w with
        deliveries := w.deliveries.insert key { row with
          state
          nextAttempt := (w.clock * 1000 + retryAfter) / 1000
          leaseToken := ""
          leaseUntil := 0
          lastCode := code }
        leases := w.leases.filter fun lease => ¬ (lease.key = key ∧ lease.token = d.token) }
    else .error .lease

def finish (d : Delivery) (code : String) (retryAfter : Int) (w : World) : Except Failure World :=
  match stateOf code with
  | none => .error .invalid
  | some state => do
    reject (d.token = "" ∨ retryAfter < 0 ∨ 24 * hour < retryAfter) .invalid
    finishRow d state code retryAfter w

def retry (eventID destination : String) (w : World) : Except Failure World := do
  reject (eventID = "" ∨ destination = "") .invalid
  match w.deliveries[(eventID, destination)]? with
  | none => .error .lease
  | some row =>
    if (row.state = .pending ∨ row.state = .blocked) ∧ row.leaseUntil ≤ w.clock then
      .ok { w with
        deliveries := w.deliveries.insert (eventID, destination) { row with
          state := .pending, nextAttempt := 0, leaseToken := "", leaseUntil := 0, lastCode := "" } }
    else .error .lease

end Transactions

section Steps

inductive SendError where
  | none
  | paused | expired | cancelled
  | http (status : Int) (retryAfter : Int)
  | deadline
  | source
  | other
  deriving DecidableEq

inductive Action where
  | capture (rec : Record) (destinations : List String)
  | claim (lease : Int)
  | finish (d : Delivery) (code : String) (retryAfter : Int)
  | apply (d : Delivery)
  | retry (eventID destination : String)
  | resolve (destination : String)
  | send (d : Delivery)
  | jitter (bound : Int)
  | stopping

def Answer : Action → Type
  | .claim _ => Except Failure Delivery
  | .capture .. | .finish .. | .apply _ | .retry .. => Except Failure Unit
  | .resolve _ => Except Failure Bool
  | .send _ => SendError
  | .jitter _ => Int
  | .stopping => Bool

/-- What can go wrong with a transaction: it is lost, or only the reply that it was committed. -/
inductive Fault where
  | none | lost | unanswered
  deriving DecidableEq

structure Choice where
  clock : Int
  token : String := ""
  locked : List Key := []
  fault : Fault := .none
  sends : Bool := true
  resolved : Except Failure Bool := .ok true
  sent : SendError := .none
  jitter : Int := 0
  stopping : Bool := false

def transact {A : Type} (choice : Choice) (w : World)
    (tx : World → Except Failure (A × World)) : Except Failure A × World :=
  let w := { w with clock := choice.clock }
  if choice.fault = .lost then (.error .database, w)
  else
    match tx w with
    | .error failure => (.error failure, w)
    | .ok (value, after) =>
      (if choice.fault = .unanswered then .error .database else .ok value, after)

def quiet (r : Except Failure World) : Except Failure (Unit × World) := r.map fun w => ((), w)

def acknowledge (d : Delivery) (code : String) (retryAfter : Int) (w : World) :
    Except Failure World := do
  let after ← finish d code retryAfter w
  pure { after with acknowledged :=
    if code = "" then (d.record.eventID, d.destination) :: w.acknowledged else w.acknowledged }

def applyEffect (sends : Bool) (d : Delivery) (w : World) : Except Failure World := do
  reject (sends = false) .sender
  finish d "" 0 { w with effects := (d.record.eventID, d.destination) :: w.effects }

variable (encoded : Record → Option Nat)

def perform : (action : Action) → Choice → World → Option (Answer action × World)
  | .capture rec destinations, choice, w =>
    some (transact choice w fun w => quiet (capture encoded rec destinations w))
  | .claim lease, choice, w =>
    if choice.token = "" ∨ choice.token ∈ w.used then none
    else some (transact choice { w with used := choice.token :: w.used }
      (claim lease choice.token choice.locked))
  | .finish d code retryAfter, choice, w =>
    some (transact choice w fun w => quiet (acknowledge d code retryAfter w))
  | .apply d, choice, w => some (transact choice w fun w => quiet (applyEffect choice.sends d w))
  | .retry eventID destination, choice, w =>
    some (transact choice w fun w => quiet (retry eventID destination w))
  | .resolve _, choice, w => some (choice.resolved, w)
  | .send _, choice, w => some (choice.sent, w)
  | .jitter bound, choice, w =>
    if 0 ≤ choice.jitter ∧ choice.jitter < bound then some (choice.jitter, w) else none
  | .stopping, choice, w => some (choice.stopping, w)

/-- The database's time does not go back, and no token is drawn twice. -/
def exec (action : Action) (choice : Choice) (w : World) : Option (Answer action × World) :=
  if choice.clock < w.clock then none else perform encoded action choice w

end Steps

abbrev Handler (A : Type) := ExceptT Failure (Proc Action Answer) A

abbrev ask (action : Action) : Handler (Answer action) := invoke action

structure Worker where
  destinations : List String := []
  transactional : List String := []
  resolves : Bool := false
  timeout : Int := 0

def backoff (attempt : Nat) : Int :=
  let rec double : Nat → Int → Int
    | 0, delay => delay
    | n + 1, delay => if delay < hour then double n (delay * 2) else delay
  min (double (attempt - 1) second) hour

def classify (err : SendError) (attempt : Nat) : String × Int :=
  match err with
  | .paused => ("paused", 0)
  | .expired => ("expired", 0)
  | .cancelled => ("cancelled", 0)
  | .none => ("", 0)
  | .http status retryAfter =>
    let delay := backoff attempt
    let delay := if delay < retryAfter then min retryAfter (24 * hour) else delay
    if status = 408 then ("http-408", delay)
    else if status = 429 then ("http-429", delay)
    else if 500 ≤ status ∧ status < 600 then ("http-5xx", delay)
    else ("http-rejected", 0)
  | .deadline => ("timeout", backoff attempt)
  | .source | .other => ("transport", backoff attempt)

def isNative (destination : String) : Bool :=
  "native-webhook:".toList.isPrefixOf destination.toList

variable (w : Worker) (d : Delivery)

def spread (delay : Int) : Handler Int :=
  if 0 < delay ∧ isNative d.destination then do
    let extra : Int ← ask (.jitter (delay / 4 + 1))
    pure (min (24 * hour) (delay + extra))
  else pure delay

def attempt : Handler (String × Int) := do
  let err : SendError ← ask (.send d)
  if err = .source then early (.error .source)
  else do
    let delay ← spread d (classify err d.attempts).2
    pure ((classify err d.attempts).1, delay)

def Worker.hasSender (destination : String) : Handler Bool :=
  if destination ∈ w.destinations then pure true
  else if w.resolves then do
    let found ← ask (.resolve destination)
    early found
  else pure false

def Worker.tryDelivery : Handler (String × Int) := do
  let known ← w.hasSender d.destination
  if known then attempt d else pure ("destination-unavailable", 0)

def Worker.network : Handler Unit := do
  let (code, delay) ← w.tryDelivery d
  let stopping : Bool ← ask .stopping
  early (reject (stopping = true) .context)
  let result ← ask (.finish d code delay)
  early result

def Worker.lease : Int :=
  (if w.timeout ≤ 0 then 10 * second else w.timeout) * 2 + second

def Worker.step : Handler Unit := do
  early (reject (∃ dest ∈ w.transactional, dest ∈ w.destinations) .invalid)
  early (reject (20 * 60 * second < w.timeout) .invalid)
  let claimed ← ask (.claim w.lease)
  let d ← early claimed
  if d.destination ∈ w.transactional then do
    let result ← ask (.apply d)
    early result
  else w.network d

inductive Request where
  | capture (rec : Record) (destinations : List String)
  | claim (lease : Int)
  | finish (d : Delivery) (code : String) (retryAfter : Int)
  | retry (eventID destination : String)
  | step (w : Worker)

def handle : Request → Handler Unit
  | .capture rec destinations => do
    let result ← ask (.capture rec destinations)
    early result
  | .claim lease => do
    let result ← ask (.claim lease)
    early (result.map fun _ => ())
  | .finish d code retryAfter => do
    let result ← ask (.finish d code retryAfter)
    early result
  | .retry eventID destination => do
    let result ← ask (.retry eventID destination)
    early result
  | .step w => w.step

abbrev System := Process.Config Action Answer (Except Failure Unit) World

end AppleDM.EventStore
