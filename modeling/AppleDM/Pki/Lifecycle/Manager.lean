import AppleDM.Shared.Paging
import AppleDM.Shared.Path
import AppleDM.Shared.Process
import AppleDM.Pki.X509
import AppleDM.State.Memory

set_option autoImplicit false

-- The certificate manager: identities with their revisions, and the rollovers of enrollment
-- issuers. Each transaction holds the locks of all it reads and writes; the one that does not,
-- the retirement of an issuer, is in two actions.
namespace AppleDM.Pki.Lifecycle

open Checked Mdm Process
open State (Memory StateError)

inductive Failure where
  | invalid (detail : String := "")
  | conflict (detail : String := "")
  | notFound
  | state (cause : StateError)
  | decode
  | crash
  | other (text : String)
  deriving DecidableEq

inductive Kind where
  | vendorSigning | mdmPush | serverHTTPS | enrollmentCA
  | other (name : String)
  deriving DecidableEq

structure Name where
  commonName : String
  others : List (String × List String) := []
  deriving DecidableEq

structure Request where
  id : String
  kind : Kind
  subject : Name
  dnsNames : List String := []
  account : String := ""
  deriving DecidableEq

inductive Phase where
  | awaitingCertificate | ready | active | retained | retired | cancelled
  deriving DecidableEq

structure Revision where
  id : String
  phase : Phase
  fingerprint : String := ""
  notBefore : Time := 0
  notAfter : Time := 0
  createdAt : Time
  activatedAt : Time := 0
  deriving DecidableEq

structure Material where
  key : Bytes := []
  csr : Bytes := []
  certificate : Bytes := []
  signedRequest : Bytes := []
  deriving DecidableEq

structure StoredRevision extends Revision where
  material : Material
  deriving DecidableEq

structure Record extends Request where
  active : String := ""
  pending : String := ""
  topic : String := ""
  generation : Int := 0
  revisions : List StoredRevision := []
  deriving DecidableEq

structure Identity extends Request where
  active : String
  pending : String
  topic : String
  revisions : List Revision
  generation : Int

inductive RolloverPhase where
  | prepared | migrating | complete
  deriving DecidableEq

structure Rollover where
  issuerID : String
  fromRevision : String
  toRevision : String
  phase : RolloverPhase
  createdAt : Time
  activatedAt : Time := 0
  deriving DecidableEq

inductive MigrationPhase where
  | queued | trustPending | identityPending | confirmed | blocked | disabled
  | other (text : String)
  deriving DecidableEq

structure Migration where
  retry : Int := 0
  device : String
  phase : MigrationPhase
  trustCommand : String := ""
  attempt : String := ""
  candidate : String := ""
  reason : String := ""
  nextAttempt : Time := 0
  updatedAt : Time := 0
  generation : Int := 0
  deriving DecidableEq

inductive Value where
  | identity (r : Record)
  | rollover (job : Rollover)
  | migration (v : Migration)
  deriving DecidableEq

/-- What the manager rests on: the hash, the parser and the checks of certificates. -/
structure Library where
  fingerprint : Bytes → String
  plain : ∀ bytes, Path.Plain (fingerprint bytes)
  certificates : Bytes → Except Failure (X509 × List X509)
  validate : Record → Material → Time → Except Failure (Material × X509 × String)
  selfSign : Record → Material → Time → Time → Bytes → Except Failure Bytes

def validID (id : String) : Bool :=
  match id.toList with
  | [] => false
  | first :: rest => first.isAlphanum && rest.length ≤ 127 &&
    rest.all fun c => c.isAlphanum || c == '_' || c == '.' || c == '-'

def identityKey (id : String) : String := "pki/lifecycle/identity/" ++ id

def rolloverKey (id rev : String) : String := "pki/lifecycle/rollover/" ++ id ++ "/" ++ rev

def migrationPrefix (id rev : String) : String :=
  "pki/lifecycle/migration/" ++ id ++ "/" ++ rev ++ "/"

def migrationKey (lib : Library) (id rev device : String) : String :=
  migrationPrefix id rev ++ lib.fingerprint device.toUTF8.toList

def key (id : String) : Except Failure String := do
  reject (¬ validID id) (.invalid "identity ID")
  pure (identityKey id)

def stateFailure : StateError → Failure
  | .notFound => .notFound
  | cause => .state cause

section Records

variable (m : Memory Value)

def read (id : String) : Except Failure Record := do
  let k ← key id
  match (m.get k).mapError stateFailure with
  | .ok ⟨.identity r, _⟩ => .ok r
  | .ok _ => .error .decode
  | .error failure => .error failure

def getRollover (k : String) : Except Failure Rollover :=
  match (m.get k).mapError stateFailure with
  | .ok ⟨.rollover job, _⟩ => .ok job
  | .ok _ => .error .decode
  | .error failure => .error failure

def getMigration (k : String) : Except Failure Migration :=
  match (m.get k).mapError stateFailure with
  | .ok ⟨.migration v, _⟩ => .ok v
  | .ok _ => .error .decode
  | .error failure => .error failure

def putJSON (k : String) (value : Value) : Except Failure (Memory Value) :=
  (m.put k ⟨value, 0⟩).mapError stateFailure

def write (r : Record) : Except Failure (Memory Value) := do
  let k ← key r.id
  putJSON m k (.identity { r with generation := r.generation + 1 })

end Records

namespace Record

variable (r : Record)

def revision (id : String) : Except Failure StoredRevision :=
  match r.revisions.find? (·.id = id) with
  | some v => .ok v
  | none => .error .notFound

def edit (id : String) (f : StoredRevision → StoredRevision) : Record :=
  { r with revisions := go r.revisions }
where
  go : List StoredRevision → List StoredRevision
    | [] => []
    | v :: rest => if v.id = id then f v :: rest else v :: go rest

def view : Identity where
  toRequest := r.toRequest
  active := r.active
  pending := r.pending
  topic := r.topic
  revisions := r.revisions.map (·.toRevision)
  generation := r.generation

def extends_ (leaf : X509) : Except Failure Unit :=
  if r.active = "" then .ok ()
  else
    match r.revision r.active with
    | .ok active =>
      reject (¬ active.notAfter < leaf.notAfter) (.invalid "renewal must extend validity")
    | .error _ => .error .crash

def switch (rev : String) (now : Time) : Except Failure Record :=
  let activated := fun r : Record => { r with active := rev, pending := "" }.edit rev
    fun v => { v with phase := .active, activatedAt := now }
  if r.active = "" then .ok (activated r)
  else
    match r.revision r.active with
    | .ok _ => .ok (activated (r.edit r.active fun v => { v with phase := .retained }))
    | .error _ => .error .crash

def succeed (rev : String) (now : Time) : Except Failure Record :=
  match r.revision r.active with
  | .ok _ => r.switch rev now
  | .error _ => .error .crash

end Record

section Transitions

variable (lib : Library) (now : Time) (rev : String) (r : Record)

def importCertificate (certificate : Bytes) : Except Failure Record := do
  let v ← r.revision rev
  if r.pending ≠ rev then
    match lib.certificates certificate with
    | .ok (leaf, _) =>
      if v.fingerprint = lib.fingerprint leaf.raw ∧ r.active = rev then .ok r else .error .conflict
    | .error _ => .error .conflict
  else do
    let (material, leaf, topic) ← lib.validate r { v.material with certificate } now
    r.extends_ leaf
    pure ({ r with topic := if topic = "" then r.topic else topic }.edit rev fun v =>
      { v with
        material
        fingerprint := lib.fingerprint leaf.raw
        notBefore := leaf.notBefore
        notAfter := leaf.notAfter
        phase := .ready })

def createIssuer (validity : Time) (random : Bytes) : Except Failure Record := do
  reject (r.kind ≠ .enrollmentCA ∨ r.pending ≠ rev) .conflict
  let v ← r.revision rev
  if v.phase = .ready then .ok r
  else do
    let certificate ← lib.selfSign r v.material now validity random
    let (material, leaf, _) ← lib.validate r { v.material with certificate } now
    r.extends_ leaf
    pure (r.edit rev fun v =>
      { v with
        material
        fingerprint := lib.fingerprint leaf.raw
        notBefore := leaf.notBefore
        notAfter := leaf.notAfter
        phase := .ready })

def activate (published : Except Failure Unit) : Except Failure Record :=
  if r.active = rev then .ok r
  else do
    let v ← r.revision rev
    reject (r.pending ≠ rev ∨ v.phase ≠ .ready) .conflict
    let _ ← lib.validate r v.material now
    let switched ← r.switch rev now
    published
    pure switched

def cancel : Except Failure Record := do
  let v ← r.revision rev
  if v.phase = .cancelled then .ok r
  else do
    reject (r.pending ≠ rev) .conflict
    pure ({ r with pending := "" }.edit rev fun v => { v with phase := .cancelled })

def retireIssuer (seen : Except Failure Rollover) : Except Failure Record := do
  reject (r.kind ≠ .enrollmentCA ∨ r.active = rev ∨ r.pending = rev) .conflict
  let job ← seen
  reject (job.fromRevision ≠ rev ∨ job.phase ≠ .complete) .conflict
  let _ ← r.revision rev
  pure (r.edit rev fun v => { v with phase := .retired })

end Transitions

section Transactions

variable (lib : Library) (now : Time) (id rev : String)

abbrev Outcome (A : Type) := Except Failure A × Memory Value

def change (fn : Record → Except Failure Record) (m : Memory Value) : Outcome Identity :=
  match key id with
  | .error failure => (.error failure, m)
  | .ok k => m.update (.state .invalid) [k] fun m => do
    let r ← read m id
    let r ← fn r
    let m ← write m r
    pure ({ r with generation := r.generation + 1 }.view, m)

def beginRevision (req : Request) (material : Material) (m : Memory Value) : Outcome Identity :=
  match key req.id with
  | .error failure => (.error failure, m)
  | .ok k => m.update (.state .invalid) [k] fun m =>
    let found : Except Failure Record := match read m req.id with
      | .error .notFound => .ok { toRequest := req }
      | other => other
    do
      let r ← found
      reject (r.toRequest ≠ req) .conflict
      if r.pending = "" then do
        let pending := (r.revisions.length + 1).repr
        let r := { r with
          pending
          revisions := r.revisions ++
            [{ id := pending, phase := .awaitingCertificate, createdAt := now, material }] }
        let m ← write m r
        pure ({ r with generation := r.generation + 1 }.view, m)
      else pure (r.view, m)

variable (m : Memory Value)

def get : Outcome Identity :=
  match key id with
  | .error failure => (.error failure, m)
  | .ok k => m.update (.state .invalid) [k] fun m => do
    let r ← read m id
    pure (r.view, m)

def queueDevice (device : String) : Except Failure (Memory Value) := do
  reject (device = "") .invalid
  putJSON m (migrationKey lib id rev device)
    (.migration { device, phase := .queued, updatedAt := now })

def prepareRollover (devices : List String) (m : Memory Value) : Outcome Rollover :=
  match key id with
  | .error failure => (.error failure, m)
  | .ok k => m.update (.state .invalid) [k, rolloverKey id rev] fun m =>
    match getRollover m (rolloverKey id rev) with
    | .ok job => .ok (job, m)
    | .error .notFound => do
      let r ← read m id
      let v ← r.revision rev
      reject (r.kind ≠ .enrollmentCA ∨ r.active = "" ∨ r.pending ≠ rev ∨ v.phase ≠ .ready) .conflict
      reject (r.revisions.any (·.phase = .retained))
        (.conflict "retire the preceding issuer before another rollover")
      let job : Rollover :=
        { issuerID := id, fromRevision := r.active, toRevision := rev, phase := .prepared,
          createdAt := now }
      let m ← devices.foldlM (queueDevice lib now id rev) m
      let m ← putJSON m (rolloverKey id rev) (.rollover job)
      pure (job, m)
    | .error failure => .error failure

def activateRollover : Outcome Rollover :=
  match key id with
  | .error failure => (.error failure, m)
  | .ok k => m.update (.state .invalid) [k, rolloverKey id rev] fun m => do
    let job ← getRollover m (rolloverKey id rev)
    if job.phase = .migrating ∨ job.phase = .complete then .ok (job, m)
    else do
      let r ← read m id
      reject (r.pending ≠ rev ∨ r.active ≠ job.fromRevision) .conflict
      let v ← r.revision rev
      let _ ← lib.validate r v.material now
      let r ← r.succeed rev now
      let m ← write m r
      let job := { job with phase := .migrating, activatedAt := now }
      let m ← putJSON m (rolloverKey id rev) (.rollover job)
      pure (job, m)

def currentMigration (k : String) : Except Failure Migration :=
  match getMigration m k with
  | .error .notFound => .ok { device := "", phase := .other "" }
  | other => other

def saveMigration (v : Migration) (m : Memory Value) : Outcome Unit :=
  match key id with
  | .error failure => (.error failure, m)
  | .ok _ =>
    if validID rev = false ∨ v.device = "" ∨ 1024 < v.device.utf8ByteSize then (.error .invalid, m)
    else m.update (.state .invalid) [rolloverKey id rev] fun m => do
      let job ← getRollover m (rolloverKey id rev)
      reject (job.phase = .complete) .conflict
      let current ← currentMigration m (migrationKey lib id rev v.device)
      reject (current.generation ≠ v.generation) .conflict
      reject (current.phase = .confirmed ∧ v.phase ≠ .confirmed) .conflict
      reject (v.phase matches .other _) .invalid
      let m ← putJSON m (migrationKey lib id rev v.device)
        (.migration { v with generation := v.generation + 1, updatedAt := now })
      pure ((), m)

def MigrationPhase.settled : MigrationPhase → Bool
  | .confirmed | .disabled => true
  | _ => false

def checkSettled (row : String × State.Record Value) : Except Failure Unit :=
  match row.2.value with
  | .migration v => reject (¬ v.phase.settled) (.conflict "device migration outstanding")
  | _ => .error .decode

def migrationPage (after : String) : List (String × State.Record Value) :=
  match m.list (migrationPrefix id rev) after 100 with
  | .ok rows => rows
  | .error _ => []

def migrationRows : Except Failure (List (String × State.Record Value)) :=
  match Paging.scan Prod.fst 100 (migrationPage id rev m) (m.size + 1) "" with
  | some rows => .ok rows
  | none => .error (.other "the scan did not end")

def completeRollover : Outcome Unit :=
  m.update (.state .invalid) [rolloverKey id rev] fun m => do
    let job ← getRollover m (rolloverKey id rev)
    if job.phase = .complete then .ok ((), m)
    else do
      reject (job.phase ≠ .migrating) .conflict
      let rows ← migrationRows id rev m
      rows.forM checkSettled
      let m ← putJSON m (rolloverKey id rev) (.rollover { job with phase := .complete })
      pure ((), m)

end Transactions

section Calls

abbrev Observed := Except Failure Record × Except Failure Rollover

/-- What `RetireIssuer` reads: the identity it holds the lock of, and a rollover whose lock it does
not hold. -/
def observe (id : String) (m : Memory Value) : Observed :=
  match read m id with
  | .ok r => (.ok r, getRollover m (rolloverKey id r.active))
  | .error failure => (.error failure, .error failure)

inductive Action where
  | read (id : String)
  | get (id : String)
  | generate (req : Request)
  | begin (req : Request) (material : Material)
  | createIssuer (id rev : String) (validity : Time)
  | importCertificate (id rev : String) (certificate : Bytes)
  | activate (id rev : String)
  | cancel (id rev : String)
  | prepareRollover (id rev : String) (devices : List String)
  | activateRollover (id rev : String)
  | saveMigration (id rev : String) (v : Migration)
  | completeRollover (id rev : String)
  | observe (id : String)
  | retireIssuer (id rev : String) (seen : Observed)

abbrev Answer : Action → Type
  | .read _ => Except Failure Record
  | .get _ | .begin .. | .createIssuer .. | .importCertificate .. | .activate .. | .cancel ..
  | .retireIssuer .. => Except Failure Identity
  | .generate _ => Except Failure Material
  | .prepareRollover .. | .activateRollover .. => Except Failure Rollover
  | .saveMigration .. | .completeRollover .. => Except Failure Unit
  | .observe _ => Observed

structure Choice where
  now : Time := 0
  material : Except Failure Material := .ok {}
  random : Bytes := []
  published : Except Failure Unit := .ok ()

def activates (id rev : String) (m : Memory Value) : Bool :=
  match m[identityKey id]? with
  | some ⟨.identity r, _⟩ =>
    r.kind ≠ .enrollmentCA || rev = "1" || r.active = "" || r.pending ≠ rev
  | _ => true

variable (lib : Library)

def exec : (action : Action) → Choice → Memory Value → Option (Answer action × Memory Value)
  | .read id, _, m => some (read m id, m)
  | .get id, _, m => some (get id m)
  | .generate _, choice, m => some (choice.material, m)
  | .begin req material, choice, m => some (beginRevision choice.now req material m)
  | .createIssuer id rev validity, choice, m =>
    some (change id (fun r => createIssuer lib choice.now rev r validity choice.random) m)
  | .importCertificate id rev certificate, choice, m =>
    some (change id (fun r => importCertificate lib choice.now rev r certificate) m)
  | .activate id rev, choice, m =>
    if activates id rev m then
      some (change id (fun r => activate lib choice.now rev r choice.published) m)
    else none
  | .cancel id rev, _, m => some (change id (cancel rev) m)
  | .prepareRollover id rev devices, choice, m =>
    some (prepareRollover lib choice.now id rev devices m)
  | .activateRollover id rev, choice, m => some (activateRollover lib choice.now id rev m)
  | .saveMigration id rev v, choice, m => some (saveMigration lib choice.now id rev v m)
  | .completeRollover id rev, _, m => some (completeRollover id rev m)
  | .observe id, _, m => some (observe id m, m)
  | .retireIssuer id rev seen, _, m =>
    -- The lock is held since the identity was read.
    if read m id = seen.1 then some (change id (fun r => retireIssuer rev r seen.2) m) else none

abbrev Handler (A : Type) := ExceptT Failure (Proc Action Answer) A

abbrev ask (action : Action) : Handler (Answer action) := invoke action

def begin (req : Request) : Handler Identity := do
  let _ ← early (key req.id)
  early (reject (req.kind matches .other _) (.invalid "certificate kind"))
  early (reject (req.subject.commonName = "") (.invalid "subject common name"))
  let seen : Except Failure Record ← ask (.read req.id)
  match seen with
  | .ok r =>
    early (reject (r.toRequest ≠ req) .conflict)
    if r.pending ≠ "" then
      let current : Except Failure Identity ← ask (.get req.id)
      early current
    else start
  | .error .notFound => start
  | .error failure => early (.error failure)
where
  start : Handler Identity := do
    let material : Except Failure Material ← ask (.generate req)
    let material ← early material
    let begun : Except Failure Identity ← ask (.begin req material)
    early begun

def issue (id rev : String) (validity : Time) : Handler Identity := do
  let validity := if validity = 0 then 10 * 365 * 24 * 3600 * 1000000000 else validity
  early (reject (validity ≤ 0) .invalid)
  let issued : Except Failure Identity ← ask (.createIssuer id rev validity)
  early issued

def retire (id rev : String) : Handler Identity := do
  let seen : Observed ← ask (.observe id)
  let retired : Except Failure Identity ← ask (.retireIssuer id rev seen)
  early retired

inductive Call where
  | begin (req : Request)
  | createIssuer (id rev : String) (validity : Time)
  | importCertificate (id rev : String) (certificate : Bytes)
  | activate (id rev : String)
  | cancel (id rev : String)
  | prepareRollover (id rev : String) (devices : List String)
  | activateRollover (id rev : String)
  | saveMigration (id rev : String) (v : Migration)
  | completeRollover (id rev : String)
  | retireIssuer (id rev : String)

def handle : Call → Handler Unit
  | .begin req => begin req >>= fun _ => pure ()
  | .createIssuer id rev validity => issue id rev validity >>= fun _ => pure ()
  | .importCertificate id rev certificate => single (.importCertificate id rev certificate)
  | .activate id rev => single (.activate id rev)
  | .cancel id rev => single (.cancel id rev)
  | .prepareRollover id rev devices => single (.prepareRollover id rev devices)
  | .activateRollover id rev => single (.activateRollover id rev)
  | .saveMigration id rev v => single (.saveMigration id rev v)
  | .completeRollover id rev => single (.completeRollover id rev)
  | .retireIssuer id rev => retire id rev >>= fun _ => pure ()
where
  single (action : Action) : Handler Unit := ask action >>= fun _ => pure ()

abbrev System := Config Action Answer (Except Failure Unit) (Memory Value)

def step (c : System) (m : Move Call Choice) : System :=
  move (exec lib) (fun call => (handle call).run) c m

def start : System := { world := ∅ }

def Performs (c : System) (mv : Move Call Choice) (action : Action) (answer : Answer action) : Prop :=
  ∃ n choice next, mv = .advance n choice ∧ c.pool[n]? = some (.act action next) ∧
    exec lib action choice c.world = some (answer, (step lib c mv).world)

end Calls

end AppleDM.Pki.Lifecycle
