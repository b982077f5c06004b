import AppleDM.State.Memory
import AppleDM.Shared.Wire

set_option autoImplicit false

namespace AppleDM.RateLimit

open Checked Mdm State Wire

-- Times are nanoseconds, as everywhere; they are written as `Int` where they are reckoned with.
def microsecond : Int := 1000
def hour : Int := 3600000000000

def maxInt64 : Nat := 9223372036854775807

def unixEpoch : Int := 62135596800000000000

def unixMicro (time : Int) : Int := (time - unixEpoch) / microsecond

def ofUnixMicro (n : Int) : Int := unixEpoch + n * microsecond

def truncate (time : Int) : Int := time - time % microsecond

def sub (t u : Int) : Int := max (-maxInt64 - 1) (min maxInt64 (t - u))

def encode (time : Int) : Bytes := bigEndian 8 (unixMicro time % 2 ^ 64).toNat

structure Bucket where
  key : String
  interval : Int
  burst : Int

inductive Cause where
  | store (error : StateError)
  | corruptState
  | corruptTimestamp
  | capacity
  | context
  deriving DecidableEq

inductive CheckError where
  | invalid
  | unavailable (cause : Cause)
  deriving DecidableEq

structure Decision where
  allowed : Bool := false
  retryAfter : Int := 0
  deriving DecidableEq

structure Limiter where
  maxEntries : Int := 0
  space : String

structure Digest where
  text : String → String
  width : ∀ name, (text name).length = 64
  hex : ∀ name, ∀ c ∈ (text name).toList, c ∈ "0123456789abcdef".toList

section Check

def Bucket.Invalid (b : Bucket) : Prop :=
  b.key = "" ∨ b.interval < microsecond ∨ b.interval % microsecond ≠ 0 ∨ 24 * hour < b.interval ∨
    b.burst < 1 ∨ 1000000 < b.burst ∨ 30 * 24 * hour / b.interval < b.burst

instance (b : Bucket) : Decidable b.Invalid :=
  inferInstanceAs (Decidable (_ ∨ _ ∨ _ ∨ _ ∨ _ ∨ _ ∨ _))

def Bucket.validate (b : Bucket) : Except CheckError Unit := reject b.Invalid .invalid

def stamp (value : Bytes) : Except Cause Int := do
  reject (value.length ≠ 8) .corruptState
  reject (maxInt64 < number value) .corruptTimestamp
  pure (ofUnixMicro (number value))

def lookup (m : Memory Bytes) (key : String) : Except Cause (Option Int) :=
  match m.get key with
  | .error .notFound => .ok none
  | .error error => .error (.store error)
  | .ok record => do
    let tat ← stamp record.value
    pure (some tat)

structure Tally where
  decision : Decision := { allowed := true }
  newKeys : Nat := 0
  pending : List (String × Record Bytes) := []

def tally (m : Memory Bytes) (now : Int) (t : Tally) (entry : Bucket × String) :
    Except Cause Tally := do
  let (b, k) := entry
  let found ← lookup m k
  let tat := found.getD now
  let allowAt := tat + -(b.burst - 1) * b.interval
  let next := (if tat < now then now else tat) + b.interval
  pure
    { decision :=
        if now < allowAt then
          { allowed := false, retryAfter := max t.decision.retryAfter (sub allowAt now) }
        else t.decision
      newKeys := if found.isNone then t.newKeys + 1 else t.newKeys
      pending := t.pending ++ [(k, { value := encode next, expiresAt := next })] }

def Stale (now : Int) (seen : List String) (r : String × Record Bytes) : Prop :=
  r.2.expiresAt ≠ 0 ∧ r.2.expiresAt ≤ now ∧ r.1 ∉ seen

instance (now : Int) (seen : List String) (r : String × Record Bytes) :
    Decidable (Stale now seen r) :=
  inferInstanceAs (Decidable (_ ∧ _ ∧ _))

def sweep (now : Int) (seen : List String) :
    List (String × Record Bytes) → Memory Bytes → Nat → Memory Bytes × Nat
  | [], m, live => (m, live)
  | r :: records, m, live =>
    if Stale now seen r then sweep now seen records (m.erase r.1) live
    else sweep now seen records m (live + 1)

def reclaim (now : Int) (space : String) (limit : Int) (seen : List String) (newKeys : Nat)
    (m : Memory Bytes) : Except Cause (Memory Bytes) := do
  match m.list space "" limit with
  | .error error => .error (.store error)
  | .ok records =>
    let (m, live) := sweep now seen records m 0
    reject (limit < live + newKeys) .capacity
    pure m

def makeRoom (now : Int) (space : String) (limit : Int) (seen : List String) (newKeys : Nat)
    (m : Memory Bytes) : Except Cause (Memory Bytes) :=
  if 0 < newKeys then reclaim now space limit seen newKeys m else .ok m

def putAll (m : Memory Bytes) (pending : List (String × Record Bytes)) :
    Except Cause (Memory Bytes) :=
  pending.foldlM (fun m r =>
    match m.put r.1 r.2 with
    | .error error => .error (.store error)
    | .ok m => .ok m) m

def consume (now : Int) (space : String) (limit : Int) (entries : List (Bucket × String))
    (m : Memory Bytes) : Except Cause (Decision × Memory Bytes) := do
  let t ← entries.foldlM (tally m now) {}
  if t.decision.allowed = false then pure (t.decision, m)
  else do
    let m ← makeRoom now space limit (entries.map (·.2)) t.newKeys m
    let m ← putAll m t.pending
    pure (t.decision, m)

variable (digest : Digest)

def Limiter.pre (l : Limiter) : String := "rate/" ++ digest.text l.space ++ "/"

def Limiter.limit (l : Limiter) : Int := if l.maxEntries = 0 then 4096 else l.maxEntries

def Limiter.storeKey (l : Limiter) (name : String) : String := l.pre digest ++ digest.text name

def Limiter.addEntry (l : Limiter) (seen : List (Bucket × String)) (b : Bucket) :
    Except CheckError (List (Bucket × String)) := do
  b.validate
  let k := l.storeKey digest b.key
  reject (k ∈ seen.map (·.2)) .invalid
  pure (seen ++ [(b, k)])

def Limiter.entries (l : Limiter) (buckets : List Bucket) :
    Except CheckError (List (Bucket × String)) :=
  buckets.foldlM (l.addEntry digest) []

def Limiter.check (l : Limiter) (time : Int) (cancelled : Bool) (buckets : List Bucket)
    (m : Memory Bytes) : Except CheckError Decision × Memory Bytes :=
  if buckets = [] ∨ 32 < buckets.length then (.error .invalid, m)
  else if l.limit < 1 ∨ 10000 < l.limit then (.error .invalid, m)
  else
    match l.entries digest buckets with
    | .error error => (.error error, m)
    | .ok entries =>
      let (result, after) := m.update (.store .invalid)
        ((l.pre digest ++ "capacity") :: entries.map (·.2)) fun m => do
          let done ← consume (truncate time) (l.pre digest) l.limit entries m
          reject (cancelled = true) Cause.context
          pure done
      match result with
      | .error cause => (.error (.unavailable cause), after)
      | .ok decision => (.ok decision, after)

end Check

section Calls

inductive Call where
  | check (space : String) (buckets : List Bucket) (cancelled : Bool)
  | prune (limit : Int) (order : List String)

structure Event where
  time : Int
  call : Call

variable (digest : Digest) (maxEntries : Int)

def perform (m : Memory Bytes) (event : Event) :
    Option (Except CheckError Decision) × Memory Bytes :=
  match event.call with
  | .check space buckets cancelled =>
    let (result, after) := Limiter.check digest { maxEntries, space } event.time cancelled buckets m
    (some result, after)
  | .prune limit order => (none, (m.prune event.time limit order).2)

def step (m : Memory Bytes) (event : Event) : Memory Bytes := (perform digest maxEntries m event).2

def answers (m : Memory Bytes) : List Event → List (Option (Except CheckError Decision))
  | [] => []
  | event :: rest =>
    (perform digest maxEntries m event).1 :: answers (step digest maxEntries m event) rest

end Calls

end AppleDM.RateLimit
