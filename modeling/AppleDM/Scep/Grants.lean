import AppleDM.Shared.Process
import AppleDM.Shared.Base64
import AppleDM.Pki.X509
import AppleDM.State.Memory

set_option autoImplicit false

namespace AppleDM.Scep

open Mdm Pki Checked Process State

inductive Failure where
  | challenge
  | issue
  | state (cause : StateError)
  | other (text : String)
  | wrapped (text : String) (cause : Failure)

structure Grant where
  binding : Bytes
  admission : Bytes
  expiresAt : Time
  csrHash : String := ""
  deriving DecidableEq

inductive Value where
  | grant (g : Grant)
  | certificate (raw : Bytes)
  deriving DecidableEq

/-- SHA-256 in hexadecimal; that no two inputs share a hash stands for its collision
resistance. -/
structure Hash where
  hash : Bytes → String
  injective : Function.Injective hash
  nonempty : ∀ bytes, hash bytes ≠ ""
  plain : ∀ bytes, '/' ∉ (hash bytes).toList

/-- The issuer's configuration. `compact` is what the JSON encoder makes of a raw message. -/
structure Config (Ext Policy : Type) where
  sha256 : Hash
  compact : Bytes → Except Failure Bytes
  policy : Policy
  validateCSR : Policy → Csr → Except Failure Unit
  authorize : Ext → Grant → Csr → Except Failure Unit
  sign : Ext → Csr → Policy → Except Failure X509
  parseCertificate : Bytes → Except Failure X509
  parsed_raw : ∀ raw cert, parseCertificate raw = .ok cert → cert.raw = raw
  register : Ext → X509 → Except Failure Unit

inductive Action (Policy : Type) where
  | putGrant (g : Grant)
  | get (key : String)
  | authorize (g : Grant) (csr : Csr)
  | reserve (password : String) (authorized : Grant) (csr : Csr)
  | receipt (password : String) (csr : Csr) (policy : Policy)
  | register (cert : X509)
  | prune (limit : Int)

def Answer {Policy : Type} : Action Policy → Type
  | .putGrant _ => Except Failure String
  | .get _ => Except StateError (Record Value)
  | .authorize .. | .reserve .. | .register _ => Except Failure Unit
  | .receipt .. => Except Failure X509
  | .prune _ => Except StateError Nat

inductive Response where
  | password (password : String)
  | verified
  -- The call is kept with the certificate that was returned for it.
  | certificate (password : String) (csr : Csr) (cert : X509)
  | pruned (n : Nat)
  deriving DecidableEq

abbrev Handler (Policy A : Type) := ExceptT Failure (Proc (Action Policy) Answer) A

section Calls

variable {Ext Policy A : Type} (s : Config Ext Policy)

def ask (a : Action Policy) : Handler Policy (Answer a) := ExceptT.lift (Proc.perform a)

def raise (r : Except Failure A) : Handler Policy A := ExceptT.mk (pure r)

def refuseIf (failed : Prop) [Decidable failed] (failure : Failure) : Handler Policy Unit :=
  raise (reject failed failure)

def grantHash (bytes : Bytes) : String := s.sha256.hash bytes

variable (now : Time) (password : String)

def passwordHash : String := grantHash s password.toUTF8.data.toList

def grantKey : String := "scep/grant/" ++ passwordHash s password

def certificateKey (csr : Csr) : String :=
  "scep/certificate/" ++ (passwordHash s password ++ "/" ++ grantHash s csr.raw)

def marshal (g : Grant) : Except Failure Grant := do
  let binding ← s.compact g.binding
  let admission ← s.compact g.admission
  pure { g with binding, admission }

def stateError (r : Except StateError A) : Except Failure A := r.mapError .state

def wrapError (text : String) (r : Except Failure A) : Except Failure A :=
  r.mapError (.wrapped text)

def challenged : Except StateError A → Except Failure A
  | .ok value => .ok value
  | .error .notFound => .error .challenge
  | .error cause => .error (.state cause)

def unmarshal : Value → Except Failure Grant
  | .grant g => .ok g
  | .certificate _ => .error (.other "the value is not a grant")

def hour : Time := 3600 * 1000000000

def putGrant (key : String) (g : Grant) (m : Memory Value) :
    Except Failure (Grant × Memory Value) := do
  reject (¬ now < g.expiresAt) .challenge
  let limit := now + hour
  let g := if limit < g.expiresAt then { g with expiresAt := limit } else g
  let g ← wrapError "scep: encode grant: " (marshal s g)
  let m ← stateError (m.put key ⟨.grant g, g.expiresAt⟩)
  pure (g, m)

def reserve (key : String) (authorized : Grant) (csr : Csr) (m : Memory Value) :
    Except Failure (Unit × Memory Value) := do
  let record ← challenged (m.get key)
  let current ← unmarshal record.value
  reject (¬ now < current.expiresAt ∨ current.expiresAt ≠ authorized.expiresAt ∨
    current.binding ≠ authorized.binding ∨ current.admission ≠ authorized.admission) .challenge
  let hash := grantHash s csr.raw
  reject (current.csrHash ≠ "" ∧ current.csrHash ≠ hash) .challenge
  let current ← marshal s { current with csrHash := hash }
  let m ← stateError (m.put key { record with value := .grant current })
  pure ((), m)

def certificateOf (ext : Ext) (key : String) (csr : Csr) (policy : Policy) (m : Memory Value) :
    Except Failure X509 :=
  match m.get key with
  | .ok ⟨.certificate raw, _⟩ => s.parseCertificate raw
  | .ok ⟨.grant _, _⟩ => .error (.other "the value is not a certificate")
  | .error .notFound => s.sign ext csr policy
  | .error cause => .error (.state cause)

def receipt (ext : Ext) (key : String) (csr : Csr) (policy : Policy)
    (m : Memory Value) : Except Failure (X509 × Memory Value) := do
  let cert ← certificateOf s ext key csr policy m
  reject (cert.isCA ∨ now < cert.notBefore ∨ ¬ now < cert.notAfter)
    (.wrapped "invalid issued certificate" .issue)
  reject (cert.publicKey ≠ csr.publicKey) (.wrapped "issued key does not match CSR" .issue)
  let m ← stateError (m.put key ⟨.certificate cert.raw, cert.notAfter⟩)
  pure (cert, m)

namespace Grants

def issue (g : Grant) : Handler Policy Response := do
  refuseIf (g.csrHash ≠ "" ∨ g.expiresAt = 0) (.wrapped "invalid new grant" .challenge)
  let password ← raise (wrapError "scep: persist grant: " (← ask (.putGrant g)))
  raise (.ok (.password password))

def verify (password : String) (csr : Csr) : Handler Policy Unit := do
  refuseIf (password = "") .challenge
  raise (s.validateCSR s.policy csr)
  let record ← raise (challenged (← ask (.get (grantKey s password))))
  let authorized ← raise (wrapError "scep: decode grant: " (unmarshal record.value))
  raise (← ask (.authorize authorized csr))
  raise (wrapError "scep: reserve grant: " (← ask (.reserve password authorized csr)))

end Grants

def CertificateIssuer.issue (csr : Csr) (policy : Policy) : Handler Policy Response := do
  refuseIf (password = "")
    (.wrapped "store, signer, authorization, registration and challenge are required" .issue)
  raise (s.validateCSR policy csr)
  Grants.verify s password csr
  let cert ← raise (wrapError "scep: persist certificate: " (← ask (.receipt password csr policy)))
  raise (wrapError "scep: register certificate: " (← ask (.register cert)))
  raise (.ok (.certificate password csr cert))

end Calls

section Steps

inductive Event where
  | granted (key : String) (now expiresAt : Time)
  | verified (password : String) (csr : Bytes) (now : Time)
  | issued (password : String) (csr : Csr) (cert : X509)

structure World where
  records : Memory Value := ∅
  used : List String := []
  log : List Event := []

/-- What a step takes from outside: the store's time, a random secret, what the callbacks look up
and the order in which the store meets its records. -/
structure Choice (Ext : Type) where
  now : Time := 0
  secret : Bytes := []
  ext : Ext
  order : List String := []

def World.after {A : Type} (w : World) (result : Except Failure A × Memory Value)
    (event : A → Event) : World :=
  { w with
    records := result.2
    log := match result.1 with
      | .ok value => event value :: w.log
      | .error _ => w.log }

variable {Ext Policy : Type} (s : Config Ext Policy)

def exec : (a : Action Policy) → Choice Ext → World → Option (Answer a × World)
  | .putGrant g, choice, w =>
    let password := Base64.encodeToString choice.secret
    let key := grantKey s password
    if key ∈ w.used then none
    else
      let result := w.records.update (.state .invalid) [key] (putGrant s choice.now key g)
      some (result.1.map fun _ => password,
        { w with used := key :: w.used }.after result fun g =>
          .granted key choice.now g.expiresAt)
  | .get key, _, w => some (w.records.get key, w)
  | .authorize g csr, choice, w => some (s.authorize choice.ext g csr, w)
  | .reserve password authorized csr, choice, w =>
    let key := grantKey s password
    let result := w.records.update (.state .invalid) [key]
      (reserve s choice.now key authorized csr)
    some (result.1, w.after result fun _ => .verified password csr.raw choice.now)
  | .receipt password csr policy, choice, w =>
    let key := certificateKey s password csr
    let result := w.records.update (.state .invalid) [key]
      (receipt s choice.now choice.ext key csr policy)
    some (result.1, w.after result fun cert => .issued password csr cert)
  | .register cert, choice, w => some (s.register choice.ext cert, w)
  | .prune limit, choice, w =>
    let result := w.records.prune choice.now limit choice.order
    some (result.1, { w with records := result.2 })

inductive Request (Policy : Type) where
  | grant (g : Grant)
  | verify (password : String) (csr : Csr)
  | issue (password : String) (csr : Csr) (policy : Policy)
  | prune (limit : Int)

def handle : Request Policy → Handler Policy Response
  | .grant g => Grants.issue g
  | .verify password csr => do
    Grants.verify s password csr
    raise (.ok .verified)
  | .issue password csr policy => CertificateIssuer.issue s password csr policy
  | .prune limit => do
    let n ← raise (stateError (← ask (.prune limit)))
    raise (.ok (.pruned n))

abbrev System (Policy : Type) :=
  Process.Config (Action Policy) Answer (Except Failure Response) World

def step (c : System Policy) (m : Move (Request Policy) (Choice Ext)) : System Policy :=
  move (exec s) (fun request => (handle s request).run) c m

def start : System Policy := { world := {} }

def returned (c : System Policy) : List Response :=
  c.pool.filterMap fun p => match p with
    | .done (.ok response) => some response
    | _ => none

end Steps

end AppleDM.Scep
