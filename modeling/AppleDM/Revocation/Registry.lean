import Mathlib.Algebra.Group.Nat.Defs
import Mathlib.Algebra.Group.Int.Defs
import AppleDM.Shared.Process
import AppleDM.Shared.Hex
import AppleDM.Shared.Paging
import AppleDM.Pki.X509
import AppleDM.State.Memory

set_option autoImplicit false

namespace AppleDM.Revocation

open Mdm Pki Checked Process State

inductive Failure where
  | unknown
  | revoked
  | expired
  | invalid
  | state (cause : StateError)
  | other (text : String)

inductive Status where
  | issued
  | revoked
  | unknown
  deriving DecidableEq

structure Certificate where
  issuer : String
  serial : String
  fingerprint : String
  der : Bytes
  notBefore : Time
  notAfter : Time
  status : Status
  issuedAt : Time
  revokedAt : Time := 0
  reason : Int := 0
  provenance : Provenance
  deriving DecidableEq

structure Publication where
  der : Bytes := []
  number : Int := 0
  refreshAt : Time := 0
  dirty : Bool := false
  deriving DecidableEq

inductive Value where
  | certificate (c : Certificate)
  | publication (p : Publication)
  | key (key : String)
  deriving DecidableEq

structure RevocationListEntry where
  serialNumber : Nat
  revocationTime : Time
  reasonCode : Int
  deriving DecidableEq

structure RevocationList where
  number : Int
  thisUpdate : Time
  nextUpdate : Time
  revoked : List RevocationListEntry
  deriving DecidableEq

def second : Time := 1000000000

def wholeSecond (t : Time) : Time := t / second * second

def RevocationListEntry.encoded (entry : RevocationListEntry) : RevocationListEntry :=
  { entry with revocationTime := wholeSecond entry.revocationTime }

-- The times of a DER-encoded list are whole seconds.
def RevocationList.encoded (list : RevocationList) : RevocationList :=
  { list with
    thisUpdate := wholeSecond list.thisUpdate
    nextUpdate := wholeSecond list.nextUpdate
    revoked := list.revoked.map (·.encoded) }

inductive OcspStatus where
  | good
  | revoked
  | unknown

structure OcspRequest where
  serialNumber : Int
  hashAlgorithm : Nat
  issuerKeyHash : Bytes
  issuerNameHash : Bytes

structure OcspResponse where
  status : OcspStatus
  serialNumber : Int
  thisUpdate : Time
  nextUpdate : Time
  revokedAt : Time := 0
  revocationReason : Int := 0

structure IssuerConfig where
  certificate : X509
  crlSign : Bool
  subjectKeyId : Bytes
  signerKey : Bytes
  crlTTL : Time
  crlRefresh : Time
  ocspTTL : Time

structure Issuer extends IssuerConfig where
  isCA : certificate.isCA = true
  refreshes : 0 < crlRefresh
  refreshed : crlRefresh < crlTTL
  answers : 0 < ocspTTL

/-- The libraries the registry rests on: the certificate hash, signatures, and the encodings of
CRLs and OCSP messages. -/
structure Library (Ext : Type) where
  fingerprint : Bytes → String
  plain : ∀ der, '/' ∉ (fingerprint der).toList
  checkSignatureFrom : X509 → X509 → Bool
  createRevocationList : Ext → IssuerConfig → RevocationList → Except Failure Bytes
  parseRevocationList : Bytes → Option RevocationList
  parse_create : ∀ ext i list der, createRevocationList ext i list = .ok der →
    parseRevocationList der = some list.encoded
  parseRequest : Bytes → Option OcspRequest
  issuerHashes : X509 → Nat → Option (Bytes × Bytes)
  createResponse : Ext → IssuerConfig → OcspResponse → Except Failure Bytes

structure Registry (Ext : Type) where
  lib : Library Ext
  issuers : Table String Issuer := ∅
  named : ∀ (id : String) (i : Issuer), issuers[id]? = some i →
    id = lib.fingerprint i.certificate.raw

section Configuration

variable {Ext : Type} (lib : Library Ext)

def checkIssuer (i : IssuerConfig) : Except Failure Issuer :=
  if checked : i.certificate.isCA = true ∧ i.crlSign = true ∧ i.subjectKeyId ≠ [] ∧
      0 < i.crlTTL ∧ 0 < i.crlRefresh ∧ i.crlRefresh < i.crlTTL ∧ 0 < i.ocspTTL ∧
      i.signerKey = i.certificate.publicKey then
    .ok { i with
      isCA := checked.1
      refreshes := checked.2.2.2.2.1
      refreshed := checked.2.2.2.2.2.1
      answers := checked.2.2.2.2.2.2.1 }
  else .error .invalid

def addIssuer (r : Registry Ext) (config : IssuerConfig) : Except Failure (Registry Ext) := do
  let i ← checkIssuer config
  let id := r.lib.fingerprint i.certificate.raw
  reject (id ∈ r.issuers) .invalid
  pure
    { r with
      issuers := r.issuers.insert id i
      named := fun other j there => by
        rw [Std.ExtTreeMap.getElem?_insert] at there
        split at there
        · next same =>
          obtain rfl := Option.some.inj there
          exact (Std.compare_eq_iff_eq.1 same).symm
        · exact r.named other j there }

def newRegistry (configs : List IssuerConfig) : Except Failure (Registry Ext) := do
  reject (configs = []) .invalid
  configs.foldlM addIssuer { lib, named := by simp }

end Configuration

def issuerKey (id : String) : String := "pki/issuer/" ++ id

def certificatePrefix (issuer : String) : String := "pki/cert/" ++ (issuer ++ "/")

def certKey (issuer serial : String) : String := certificatePrefix issuer ++ serial

def fingerprintKey (hash : String) : String := "pki/fingerprint/" ++ hash

def crlKey (issuer : String) : String := "pki/crl/" ++ issuer

section Transactions

variable {Ext : Type} (r : Registry Ext)

def stateError {A : Type} (result : Except StateError A) : Except Failure A :=
  result.mapError .state

def decodeCertificate : Except StateError (Record Value) → Except Failure Certificate
  | .ok ⟨.certificate c, _⟩ => .ok c
  | .ok _ => .error (.other "the value is not a certificate")
  | .error .notFound => .error .unknown
  | .error cause => .error (.state cause)

variable (now : Time) (issuer : String) (m : Memory Value)

def readCertificate (key : String) : Except Failure Certificate :=
  decodeCertificate (m.get key)

def readPublication (issuer : String) : Except Failure Publication :=
  match m.get (crlKey issuer) with
  | .ok ⟨.publication p, _⟩ => .ok p
  | .ok _ => .error (.other "the value is not a publication")
  | .error .notFound => .ok {}
  | .error cause => .error (.state cause)

def checkFingerprint (hash key : String) : Except Failure Unit :=
  match m.get (fingerprintKey hash) with
  | .ok prior => reject (prior.value ≠ .key key) .invalid
  | .error .notFound => .ok ()
  | .error cause => .error (.state cause)

def register (cert : X509) (p : Provenance) (m : Memory Value) :
    Except Failure (Unit × Memory Value) :=
  let serial := Hex.text cert.serialNumber.toNat
  let hash := r.lib.fingerprint cert.raw
  let key := certKey issuer serial
  match readCertificate m key with
  | .ok old => do
    reject (old.fingerprint ≠ hash) .invalid
    pure ((), m)
  | .error .unknown => do
    checkFingerprint m hash key
    let m ← stateError (m.put key ⟨.certificate
      { issuer, serial, fingerprint := hash, der := cert.raw, notBefore := cert.notBefore,
        notAfter := cert.notAfter, status := .issued, issuedAt := now, provenance := p }, 0⟩)
    let m ← stateError (m.put (fingerprintKey hash) ⟨.key key, 0⟩)
    pure ((), m)
  | .error failure => .error failure

def revoke (serial : Nat) (reason : Int) (m : Memory Value) :
    Except Failure (Unit × Memory Value) := do
  let key := certKey issuer (Hex.text serial)
  let c ← readCertificate m key
  reject (c.status = .revoked) .revoked
  let m ← stateError (m.put key
    ⟨.certificate { c with status := .revoked, revokedAt := now, reason }, 0⟩)
  let crl ← readPublication m issuer
  let m ← stateError (m.put (crlKey issuer) ⟨.publication { crl with dirty := true }, 0⟩)
  pure ((), m)

def entryOf (record : Record Value) : Except Failure (Option RevocationListEntry) :=
  match record.value with
  | .certificate c =>
    if c.status = .revoked ∧ ¬ c.notAfter < now then
      match Hex.parse c.serial with
      | some serial => .ok (some ⟨serial, c.revokedAt, c.reason⟩)
      | none => .error .invalid
    else .ok none
  | _ => .error (.other "the value is not a certificate")

def certificatePage (after : String) : List (String × Record Value) :=
  match m.list (certificatePrefix issuer) after 1000 with
  | .ok records => records
  | .error _ => []

def listCertificates : Except Failure (List (String × Record Value)) :=
  match Paging.scan Prod.fst 1000 (certificatePage issuer m) (m.size + 1) "" with
  | some records => .ok records
  | none => .error (.other "the scan did not end")

def nextNumber (number : Int) : Int :=
  if number = 9223372036854775807 then -9223372036854775808 else number + 1

inductive Outcome where
  | cached (der : Bytes)
  | fresh (list : RevocationList) (der : Bytes)

def Outcome.der : Outcome → Bytes
  | cached der => der
  | fresh _ der => der

def crl (ext : Ext) (issuer : String) (i : Issuer) (m : Memory Value) :
    Except Failure (Outcome × Memory Value) := do
  let p ← readPublication m issuer
  reject (now < i.certificate.notBefore ∨ ¬ now < i.certificate.notAfter) .expired
  if p.der ≠ [] ∧ p.dirty = false ∧ now < p.refreshAt then
    pure (.cached p.der, m)
  else do
    let records ← listCertificates issuer m
    let revoked ← records.mapM fun entry => entryOf now entry.2
    let number := nextNumber p.number
    reject (number ≤ 0) .invalid
    let list : RevocationList :=
      { number
        thisUpdate := now
        nextUpdate :=
          if i.certificate.notAfter < now + i.crlTTL then i.certificate.notAfter
          else now + i.crlTTL
        revoked := revoked.filterMap id }
    let der ← r.lib.createRevocationList ext i.toIssuerConfig list
    let m ← stateError (m.put (crlKey issuer)
      ⟨.publication { der, number, refreshAt := now + i.crlRefresh }, 0⟩)
    pure (.fresh list der, m)

end Transactions

inductive Action where
  | now
  | get (key : String)
  | register (issuer : String) (cert : X509) (p : Provenance)
  | revoke (issuer : String) (serial : Nat) (reason : Int)
  | crl (issuer : String) (i : Issuer)
  | signResponse (i : Issuer) (response : OcspResponse)
  | prune (limit : Int)

def Answer : Action → Type
  | .now => Time
  | .get _ => Except StateError (Record Value)
  | .register .. | .revoke .. => Except Failure Unit
  | .crl .. | .signResponse .. => Except Failure Bytes
  | .prune _ => Except StateError Nat

inductive Response where
  | done
  | crl (der : Bytes)
  | ocsp (response : OcspResponse) (der : Bytes)
  | accepted
  | pruned (n : Nat)

abbrev Handler (A : Type) := ExceptT Failure (Proc Action Answer) A

def ask (a : Action) : Handler (Answer a) := ExceptT.lift (Proc.perform a)

def clock : Handler Time := ask .now

def raise {A : Type} (result : Except Failure A) : Handler A := ExceptT.mk (pure result)

def refuseIf (failed : Prop) [Decidable failed] (failure : Failure) : Handler Unit :=
  raise (reject failed failure)

def validSerial (serial : Int) : Bool := 0 < serial && serial < 2 ^ 160

def validReason (reason : Int) : Bool := reason ∈ [0, 1, 2, 3, 4, 5, 9, 10]

namespace Registry

variable {Ext : Type} (r : Registry Ext) (issuer : String) (cert : X509)

def issuerOf : Except Failure Issuer :=
  match r.issuers[issuer]? with
  | some i => .ok i
  | none => .error .unknown

def register (p : Provenance) : Handler Response := do
  let i ← raise (r.issuerOf issuer)
  refuseIf (¬ validSerial cert.serialNumber ∨ cert.isCA = true) .invalid
  refuseIf (r.lib.checkSignatureFrom cert i.certificate = false) .invalid
  raise (← ask (.register issuer cert p))
  raise (.ok .done)

def lookup (serial : Int) : Handler Certificate := do
  let _ ← raise (r.issuerOf issuer)
  refuseIf (¬ validSerial serial) .unknown
  raise (decodeCertificate (← ask (.get (certKey issuer (Hex.text serial.toNat)))))

def revoke (serial : Int) (reason : Int) : Handler Response := do
  refuseIf (¬ validReason reason) .invalid
  let _ ← r.lookup issuer serial
  raise (← ask (.revoke issuer serial.toNat reason))
  raise (.ok .done)

def crl : Handler Response := do
  let i ← raise (r.issuerOf issuer)
  let der ← raise (← ask (.crl issuer i))
  raise (.ok (.crl der))

def storedKey : Except StateError (Record Value) → Except Failure String
  | .ok ⟨.key key, _⟩ => .ok key
  | .ok _ => .error (.other "the value is not a key")
  | .error .notFound => .error .unknown
  | .error cause => .error (.state cause)

def byCertificate : Handler Certificate := do
  let key ← raise (storedKey (← ask (.get (fingerprintKey (r.lib.fingerprint cert.raw)))))
  let c ← raise (decodeCertificate (← ask (.get key)))
  refuseIf (c.der ≠ cert.raw) .invalid
  raise (.ok c)

def check : Handler Response := do
  let c ← r.byCertificate cert
  refuseIf (c.status = .revoked) .revoked
  refuseIf (c.status ≠ .issued) .unknown
  let now ← clock
  refuseIf (now < c.notBefore ∨ ¬ now < c.notAfter) .expired
  raise (.ok .accepted)

def statusOf (base : OcspResponse) : Except Failure Certificate → Except Failure OcspResponse
  | .ok c =>
    match c.status with
    | .issued => .ok { base with status := .good }
    | .revoked =>
      .ok { base with status := .revoked, revokedAt := c.revokedAt, revocationReason := c.reason }
    | .unknown => .ok base
  | .error .unknown => .ok base
  | .error failure => .error failure

def ocspRequest (i : Issuer) (request : Bytes) : Except Failure OcspRequest :=
  match r.lib.parseRequest request with
  | none => .error .invalid
  | some req =>
    match r.lib.issuerHashes i.certificate req.hashAlgorithm with
    | none => .error .invalid
    | some (keyHash, nameHash) => do
      reject (keyHash ≠ req.issuerKeyHash ∨ nameHash ≠ req.issuerNameHash) .unknown
      pure req

def ocsp (request : Bytes) : Handler Response := do
  let i ← raise (r.issuerOf issuer)
  let req ← raise (r.ocspRequest i request)
  let now ← clock
  refuseIf (now < i.certificate.notBefore ∨ ¬ now < i.certificate.notAfter) .expired
  let base : OcspResponse :=
    { status := .unknown
      serialNumber := req.serialNumber
      thisUpdate := now
      nextUpdate :=
        if i.certificate.notAfter < now + i.ocspTTL then i.certificate.notAfter
        else now + i.ocspTTL }
  let found ← ExceptT.lift (r.lookup issuer req.serialNumber).run
  let response ← raise (statusOf base found)
  let der ← raise (← ask (.signResponse i response))
  raise (.ok (.ocsp response der))

end Registry

section Steps

/-- What has been committed so far, newest first. A CRL that was returned is logged with the list
it was signed from. -/
inductive Event where
  | revoked (issuer : String) (serial : Nat) (now : Time) (reason : Int)
  | returned (issuer : String) (list : RevocationList) (der : Bytes) (now : Time)
  deriving DecidableEq

structure World where
  records : Memory Value := ∅
  signed : Table String RevocationList := ∅
  log : List Event := []

structure Choice (Ext : Type) where
  now : Time := 0
  ext : Ext
  order : List String := []

def World.publish (w : World) (issuer : String) (now : Time) : Outcome → World
  | .cached der =>
    match w.signed[issuer]? with
    | some list => { w with log := .returned issuer list der now :: w.log }
    | none => w
  | .fresh list der =>
    { w with
      signed := w.signed.insert issuer list
      log := .returned issuer list der now :: w.log }

variable {Ext : Type} (r : Registry Ext)

def exec : (a : Action) → Choice Ext → World → Option (Answer a × World)
  | .now, choice, w => some (choice.now, w)
  | .get key, _, w => some (w.records.get key, w)
  | .register issuer cert p, choice, w =>
    let serial := Hex.text cert.serialNumber.toNat
    let result := w.records.update (.state .invalid)
      [issuerKey issuer, certKey issuer serial, fingerprintKey (r.lib.fingerprint cert.raw)]
      (Revocation.register r choice.now issuer cert p)
    some (result.1, { w with records := result.2 })
  | .revoke issuer serial reason, choice, w =>
    let result := w.records.update (.state .invalid)
      [issuerKey issuer, certKey issuer (Hex.text serial)]
      (Revocation.revoke choice.now issuer serial reason)
    match result.1 with
    | .ok _ =>
      some (result.1, { w with
        records := result.2, log := .revoked issuer serial choice.now reason :: w.log })
    | .error _ => some (result.1, { w with records := result.2 })
  | .crl issuer i, choice, w =>
    let result := w.records.update (.state .invalid) [issuerKey issuer]
      (Revocation.crl r choice.now choice.ext issuer i)
    match result.1 with
    | .ok outcome =>
      some (.ok outcome.der, { w with records := result.2 }.publish issuer choice.now outcome)
    | .error failure => some (.error failure, { w with records := result.2 })
  | .signResponse i response, choice, w =>
    some (r.lib.createResponse choice.ext i.toIssuerConfig response, w)
  | .prune limit, choice, w =>
    let result := w.records.prune choice.now limit choice.order
    some (result.1, { w with records := result.2 })

inductive Request where
  | register (issuer : String) (cert : X509) (p : Provenance)
  | revoke (issuer : String) (serial : Int) (reason : Int)
  | crl (issuer : String)
  | ocsp (issuer : String) (request : Bytes)
  | check (cert : X509)
  | prune (limit : Int)

def handle : Request → Handler Response
  | .register issuer cert p => r.register issuer cert p
  | .revoke issuer serial reason => r.revoke issuer serial reason
  | .crl issuer => r.crl issuer
  | .ocsp issuer request => r.ocsp issuer request
  | .check cert => r.check cert
  | .prune limit => do
    let n ← raise (stateError (← ask (.prune limit)))
    raise (.ok (.pruned n))

abbrev System := Process.Config Action Answer (Except Failure Response) World

def step (c : System) (m : Move Request (Choice Ext)) : System :=
  move (exec r) (fun request => (handle r request).run) c m

def start : System := { world := {} }

end Steps

end AppleDM.Revocation
