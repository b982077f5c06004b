import AppleDM.Shared.Process
import AppleDM.Shared.Base64
import AppleDM.Acme.Store
import AppleDM.Acme.Attest

set_option autoImplicit false

namespace AppleDM.Acme

open Mdm Pki Checked Process

inductive SignError where
  | policy
  | csr
  | other (text : String)

structure SigningPolicy where
  permanentIdentifier : Bytes
  commonName : String
  organization : List String
  notAfter : Time

/-- The configuration of a server. `Ext` is what the callbacks answer from: whatever their own
databases hold at the time. -/
structure Config (Ext : Type) where
  baseURL : String := ""
  mount : String := "/acme"
  identifiers : Ext → Time → String → Except Failure Binding
  authorize : Ext → Decision → Except Failure Unit
  allowUnattested : Bool := false
  authorizeUnattested : Option (Ext → Decision → Except Failure Unit) := none
  anchors : List X509 := []
  attest : Attest
  parseRequest : Bytes → Except Failure Csr
  checkSignature : Csr → Except Failure Unit
  hashCSR : Bytes → String
  permanentIdentifier : String → Except Failure Bytes
  sign : Ext → Csr → SigningPolicy → Except SignError X509
  encodeChain : X509 → Bytes
  decodeChain : Bytes → Except Failure X509
  register : Option (Ext → X509 → Provenance → Except Failure Unit) := none
  revocations : Option (Ext → X509 → Provenance → Except Failure Unit) := none
  orderTTL : Time
  nonceTTL : Time

inductive Payload (A : Type) where
  | empty
  | unreadable
  | read (value : A)

structure AccountRequest where
  contact : List String := []
  onlyReturnExisting : Bool := false

structure OrderRequest where
  identifiers : List Identifier
  notBefore : String := ""
  notAfter : String := ""

structure ChallengeRequest where
  attObj : String := ""

structure FinalizeRequest where
  csr : String := ""

structure AccountBody where
  status : Status
  contact : List String
  orders : String

structure OrderBody where
  status : Status
  expires : Time
  identifiers : List Identifier
  authorizations : List String
  finalize : String
  certificate : String := ""
  error : Option Problem

structure ChallengeBody where
  type : String
  url : String
  status : Status
  token : String
  validated : Time
  error : Option Problem

structure AuthorizationBody where
  status : Status
  expires : Time
  identifier : Identifier
  challenges : List ChallengeBody

inductive Response where
  | account (location : String) (body : AccountBody)
  | order (location : String) (body : OrderBody)
  | authorization (body : AuthorizationBody)
  | challenge (body : ChallengeBody)
  -- The path is kept with the chain that was served for it.
  | certificate (id : String) (chain : Bytes)
  | pruned

/-- A signed request as far as it was checked before its nonce was taken, the account its key id
names, and whether the signature verifies under that account's key. -/
structure Signed where
  wellFormed : Except Failure Unit := .ok ()
  nonce : String
  keyID : String
  verified : Except Failure Unit := .ok ()

inductive Action where
  | now
  | mintNonce
  | takeNonce (value : String)
  | verifyIdentifier (value : String)
  | authorize (d : Decision)
  | authorizeUnattested (d : Decision)
  | register (cert : X509) (provenance : Provenance)
  | registerRevocation (cert : X509) (provenance : Provenance)
  | getAccount (id : String)
  | accountByThumbprint (thumbprint : String)
  | createAccount (thumbprint : String) (key : Bytes) (contact : List String) (now : Time)
  | getOrder (id : String)
  | getAuthorization (id : String)
  | getChallenge (id : String)
  | getCertificate (id : String)
  | createOrder (accountID : String) (id : Identifier) (binding : Binding) (now expires : Time)
  | saveTriple (captured : Bool) (c : Challenge) (a : Authorization) (o : Order)
  | settleOrder (o : Order) (p : Problem)
  | commitReceipt (o : Order) (csr : Csr) (challenge : Challenge)
  | storeReceipt (o : Order) (cert : Certificate)
  | prune (before : Time)

def Answer : Action → Type
  | .now => Time
  | .mintNonce => Unit
  | .takeNonce _ => Except Failure Nonce
  | .verifyIdentifier _ => Except Failure Binding
  | .authorize _ | .authorizeUnattested _ | .register .. | .registerRevocation .. =>
    Except Failure Unit
  | .getAccount _ | .accountByThumbprint _ | .createAccount .. => Except Failure Account
  | .getOrder _ | .createOrder .. => Except Failure Order
  | .getAuthorization _ => Except Failure Authorization
  | .getChallenge _ => Except Failure Challenge
  | .getCertificate _ => Except Failure Certificate
  | .saveTriple .. => Except Failure (Bool × Challenge × Authorization × Order)
  | .settleOrder .. => Except Failure Unit
  | .commitReceipt .. => Except Failure (Order × Certificate)
  | .storeReceipt .. => Except Failure (Bool × Order)
  | .prune _ => Unit

abbrev Handler (A : Type) := ExceptT Failure (Proc Action Answer) A

def ask (a : Action) : Handler (Answer a) := ExceptT.lift (Proc.perform a)

def clock : Handler Time := ask .now

def raise {A : Type} (r : Except Failure A) : Handler A := ExceptT.mk (pure r)

def fail {A : Type} (p : Problem) : Handler A := raise (.error (.problem p))

def refuseIf (failed : Prop) [Decidable failed] (p : Problem) : Handler Unit :=
  if failed then fail p else raise (.ok ())

def readable {A : Type} (detail : String) : Except Failure A → Handler A
  | .ok value => raise (.ok value)
  | .error failure => fail (wrapProblem .serverInternal failure detail)

def found {A : Type} (missing : Problem) (detail : String) : Except Failure A → Handler A
  | .ok value => raise (.ok value)
  | .error failure =>
    if failure.isNotFound then fail missing
    else fail (wrapProblem .serverInternal failure detail)

def decode {A : Type} : Payload A → Handler A
  | .empty => fail (newProblem .malformed "the request carries no payload")
  | .unreadable => fail (newProblem .malformed "the payload could not be read")
  | .read value => raise (.ok value)

def issuanceProvenance (o : Order) : Provenance :=
  { source := "acme", enrollmentID := o.binding.enrollmentID, accountID := o.accountID,
    udid := o.binding.enrollmentUDID, serial := o.binding.serial,
    identifiers := [o.identifier.type ++ ":" ++ o.identifier.value] }

def commonName (o : Order) : String :=
  if o.binding.commonName ≠ "" then o.binding.commonName
  else if o.binding.serial ≠ "" then o.binding.serial
  else o.identifier.value

def matchBinding (o : Order) (a : Attestation) : Except Failure Unit := do
  let p := a.properties
  let b := o.binding
  let mismatch := fun what want got : String =>
    Failure.problem ((newProblem .badAttestationStatement
      ("the identifier was issued for " ++ what ++ " " ++ want ++
        ", and the attestation describes " ++ got.quote)).withSubproblem
          .rejectedIdentifier "wrong device" o.identifier)
  reject (b.serial ≠ "" ∧ b.serial ≠ p.serialNumber)
    (mismatch "serial number" b.serial p.serialNumber)
  reject (b.udid ≠ "" ∧ b.udid ≠ p.udid) (mismatch "UDID" b.udid p.udid)
  reject (¬ b.identified ∧ ¬ p.identified ∧ ¬ b.allowUnidentified)
    (.problem (newProblem .badAttestationStatement
      "the attestation names no device, and this identifier requires one"))

namespace Server

variable {Ext : Type} (s : Config Ext)

def url (parts : List String) : String := s.baseURL ++ s.mount ++ String.join parts

def accountBody (a : Account) : AccountBody :=
  { status := a.status, contact := a.contact, orders := url s ["/account/", a.id, "/orders"] }

variable (account : Account) (c : Challenge) (o : Order)

def orderBody : OrderBody :=
  { status := o.status
    expires := o.expires
    identifiers := [o.identifier]
    authorizations := [url s ["/authz/", o.authzID]]
    finalize := url s ["/order/", o.id, "/finalize"]
    certificate :=
      if o.status = .valid ∧ o.certificateID ≠ "" then url s ["/cert/", o.certificateID] else ""
    error := o.error }

def challengeBody : ChallengeBody :=
  { type := c.type, url := url s ["/challenge/", c.id], status := c.status, token := c.token,
    validated := c.validatedAt, error := c.error }

def orderURL : String := url s ["/order/", o.id]

def authzStatus (now : Time) (a : Authorization) : Status :=
  if a.status = .pending ∧ a.expires < now then .expired else a.status

def consumeNonce (value : String) : Handler Unit := do
  refuseIf (value = "") (newProblem .badNonce "the request carries no nonce")
  let n ← found
    (newProblem .badNonce "the nonce is not one this server issued, or was already used")
    "the nonce could not be read" (← ask (.takeNonce value))
  let now ← clock
  refuseIf (s.nonceTTL < now - n.issuedAt) (newProblem .badNonce "the nonce has expired")

def authenticate (r : Signed) : Handler Account := do
  let _ ← ask .mintNonce
  raise r.wellFormed
  consumeNonce s r.nonce
  let account ← found (newProblem .accountDoesNotExist "no such account")
    "the account could not be read" (← ask (.getAccount r.keyID))
  refuseIf (account.status ≠ .valid)
    (newProblem .unauthorized ("the account is " ++ account.status.text))
  raise r.verified
  raise (.ok account)

def newAccount (r : Signed) (thumbprint : String) (key : Bytes)
    (payload : Payload AccountRequest) : Handler Response := do
  let _ ← ask .mintNonce
  raise r.wellFormed
  consumeNonce s r.nonce
  raise r.verified
  let req ← decode payload
  let answer := fun a : Account => Response.account (url s ["/account/", a.id]) (accountBody s a)
  match ← ask (.accountByThumbprint thumbprint) with
  | .ok existing => raise (.ok (answer existing))
  | .error failure => do
    refuseIf (¬ failure.isNotFound)
      (wrapProblem .serverInternal failure "the account could not be read")
    refuseIf (req.onlyReturnExisting)
      (newProblem .accountDoesNotExist "no account exists for this key")
    let now ← clock
    match ← ask (.createAccount thumbprint key req.contact now) with
    | .ok account => raise (.ok (answer account))
    | .error failure => do
      refuseIf (¬ failure.isConflict)
        (wrapProblem .serverInternal failure "the account could not be stored")
      let existing ← readable "the account could not be read"
        (← ask (.accountByThumbprint thumbprint))
      raise (.ok (answer existing))

def newOrder (payload : Payload OrderRequest) : Handler Response := do
  let req ← decode payload
  match req.identifiers with
  | [id] => do
    refuseIf (id.type ≠ identifierPermanent)
      ((newProblem .unsupportedIdentifier
        ("identifiers of type " ++ id.type.quote ++ " are not issued for")).withSubproblem
          .unsupportedIdentifier "unsupported type" id)
    refuseIf (id.value = "") (newProblem .malformed "the identifier has no value")
    refuseIf (req.notBefore ≠ "" ∨ req.notAfter ≠ "")
      (newProblem .malformed "notBefore and notAfter are not accepted")
    let binding ← raise (← ask (.verifyIdentifier id.value))
    let now ← clock
    match ← ask (.createOrder account.id id binding now (now + s.orderTTL)) with
    | .ok order => raise (.ok (.order (orderURL s order) (orderBody s order)))
    | .error failure =>
      if failure.isConflict then
        fail ((wrapProblem .rejectedIdentifier failure
          "the identifier has already been used").withSubproblem
            .rejectedIdentifier "already used" id)
      else fail (wrapProblem .serverInternal failure "the order could not be stored")
  | others =>
    fail (newProblem .malformed
      ("an order must carry exactly one identifier, got " ++ toString others.length))

def loadOrder (id : String) : Handler Order := do
  let o ← found (newProblem .malformed "no such order") "the order could not be read" (← ask (.getOrder id))
  refuseIf (o.accountID ≠ account.id)
    (newProblem .unauthorized "the order belongs to another account")
  raise (.ok o)

def authorization (account : Account) (id : String) : Handler Response := do
  let authz ← found (newProblem .malformed "no such authorization") "the authorization could not be read"
    (← ask (.getAuthorization id))
  refuseIf (authz.accountID ≠ account.id)
    (newProblem .unauthorized "the authorization belongs to another account")
  let challenge ← readable "the challenge could not be read"
    (← ask (.getChallenge authz.challengeID))
  let now ← clock
  raise (.ok (.authorization
    { status := authzStatus now authz, expires := authz.expires, identifier := authz.identifier,
      challenges := [challengeBody s challenge] }))

def attestationFrom (payload : Payload (Option ChallengeRequest)) : Except Failure Bytes :=
  match payload with
  | .empty => .error (.problem (newProblem .malformed "the request carries no payload"))
  | .unreadable => .error (.problem (newProblem .malformed "the payload could not be read"))
  | .read none =>
    .error (.problem (newProblem .malformed "the challenge response must be an object"))
  | .read (some req) =>
    if req.attObj = "" then
      if s.allowUnattested ∨ s.authorizeUnattested.isSome then .ok []
      else
        .error (.problem
          (newProblem .malformed "the challenge response carries no attestation object"))
    else
      match Base64.decodeString req.attObj with
      | some raw => .ok raw
      | none =>
        .error (.problem (newProblem .malformed "the attestation object is not base64url"))

def authorize (a : Option Attestation) : Handler Unit := do
  refuseIf (o.binding.requireAttestation ∧ a = none)
    (newProblem .badAttestationStatement "this identifier requires attestation")
  match ← ask (.authorize ⟨account, o, o.binding, o.identifier, a⟩) with
  | .ok () => raise (.ok ())
  | .error failure => fail (asProblem failure)

def authorizeUnattested (account : Account) (o : Order) : Handler Unit := do
  if s.allowUnattested then authorize account o none
  else do
    refuseIf (s.authorizeUnattested.isNone)
      (newProblem .badAttestationStatement
        "this server requires an attestation, and the device sent none")
    match ← ask (.authorizeUnattested ⟨account, o, o.binding, o.identifier, none⟩) with
    | .ok () => authorize account o none
    | .error failure => fail (asProblem failure)

def validate (raw : Bytes) : Handler Unit :=
  if s.attest.absent raw then authorizeUnattested s account o
  else
    match s.attest.parseObject raw with
    | .error _ =>
      fail (newProblem .badAttestationStatement "the attestation object could not be read")
    | .ok a => do
      let now ← clock
      match s.attest.verify a s.anchors now (s.attest.freshnessForToken c.token) none with
      | .error _ =>
        fail (newProblem .badAttestationStatement "the attestation does not verify")
      | .ok () => do
        raise (matchBinding o a)
        authorize account o (some a)

def settleChallenge (a : Authorization) (o : Order) (cause : Failure) : Handler Response := do
  let p := asProblem cause
  refuseIf (¬ p.terminal) p
  let _ ← raise (← ask (.saveTriple false { c with status := .invalid, error := some p }
    { a with status := .invalid } { o with status := .invalid, error := some p }))
  fail p

def challenge (account : Account) (id : String) (payload : Payload (Option ChallengeRequest)) :
    Handler Response := do
  let challenge ← found (newProblem .malformed "no such challenge") "the challenge could not be read"
    (← ask (.getChallenge id))
  refuseIf (challenge.accountID ≠ account.id)
    (newProblem .unauthorized "the challenge belongs to another account")
  -- A repeated post, or a POST-as-GET, reports where things stand.
  if payload matches .empty ∨ challenge.status ≠ .pending then
    raise (.ok (.challenge (challengeBody s challenge)))
  else do
    let authz ← readable "the authorization could not be read"
      (← ask (.getAuthorization challenge.authzID))
    let order ← readable "the order could not be read" (← ask (.getOrder authz.orderID))
    let now ← clock
    refuseIf (authz.expires < now) (newProblem .malformed "the authorization has expired")
    match attestationFrom s payload with
    | .error cause => settleChallenge challenge authz order cause
    | .ok raw => do
      match ← ExceptT.lift (validate s account challenge order raw).run with
      | .error cause => settleChallenge challenge authz order cause
      | .ok () => do
        let now ← clock
        let saved ← raise (← ask (.saveTriple true
          { challenge with status := .valid, validatedAt := now, attestation := raw, error := none }
          { authz with status := .valid } { order with status := .ready }))
        raise (.ok (.challenge (challengeBody s saved.2.1)))

def parseCSR (encoded : String) : Except Failure Csr :=
  if encoded = "" then
    .error (.problem (newProblem .badCSR "the request carries no certificate request"))
  else
    match Base64.decodeString encoded with
    | none => .error (.problem (newProblem .badCSR "the certificate request is not base64url"))
    | some der =>
      match s.parseRequest der with
      | .error failure =>
        .error (.problem
          (wrapProblem .badCSR failure "the certificate request could not be parsed"))
      | .ok csr =>
        match s.checkSignature csr with
        | .error failure =>
          .error (.problem (wrapProblem .badCSR failure
            "the certificate request is not signed by its own key"))
        | .ok () => .ok csr

def challengeOf : Handler Challenge := do
  let authz ← readable "the authorization could not be read" (← ask (.getAuthorization o.authzID))
  readable "the challenge could not be read" (← ask (.getChallenge authz.challengeID))

def checkKey (key : Bytes) : Handler Unit := do
  let challenge ← challengeOf o
  if s.attest.absent challenge.attestation then do
    refuseIf (¬ s.allowUnattested ∧ s.authorizeUnattested.isNone)
      (newProblem .unauthorized "the order was authorized without an attestation")
    authorizeUnattested s account o
  else
    match s.attest.parseObject challenge.attestation with
    | .error _ =>
      fail (newProblem .serverInternal "the stored attestation could not be read")
    | .ok a => do
      let now ← clock
      match s.attest.verify a s.anchors now (s.attest.freshnessForToken challenge.token)
          (some key) with
      | .error .keyMismatch =>
        fail (newProblem .badCSR
          "the certificate request is for a different key than the one attested")
      | .error _ =>
        fail (newProblem .badAttestationStatement "the attestation no longer verifies")
      | .ok () => authorize account o (some a)

def settleOrder (cause : Failure) : Handler Response := do
  let p := asProblem cause
  refuseIf (¬ p.terminal ∨ p.is .badCSR) p
  let _ ← readable "the order could not be stored" (← ask (.settleOrder o p))
  fail p

def registerWith (configured : Bool) (detail : String) (callback : Handler (Except Failure Unit)) :
    Handler Unit :=
  if configured then do readable detail (← callback) else raise (.ok ())

def storeReceipt (record : Certificate) (cert : X509) : Handler Order := do
  let provenance := issuanceProvenance o
  registerWith s.register.isSome "certificate registration unavailable"
    (ask (.register cert provenance))
  registerWith s.revocations.isSome "certificate registry unavailable"
    (ask (.registerRevocation cert provenance))
  match ← ask (.storeReceipt o record) with
  | .ok (_, order) => raise (.ok order)
  | .error failure => fail (asProblem failure)

def completeReceipt (record : Certificate) : Handler Order := do
  refuseIf (record.orderID ≠ o.id ∨ record.accountID ≠ o.accountID)
    (newProblem .serverInternal "the issuance receipt does not match the order")
  let now ← clock
  let late := newProblem .orderNotReady "the issuance receipt has expired"
  refuseIf (¬ now < o.expires) late
  let now ← clock
  refuseIf (¬ now < record.notAfter) late
  match s.decodeChain record.chainPEM with
  | .error _ => fail (newProblem .serverInternal "the issuance receipt is malformed")
  | .ok cert => do
    checkKey s account o cert.publicKey
    storeReceipt s o record cert

def issue (csr : Csr) : Handler Order := do
  let challenge ← challengeOf o
  match ← ask (.commitReceipt o csr challenge) with
  | .error failure => fail (asProblem failure)
  | .ok (order, record) =>
    if ¬ record.pendingRegistration then raise (.ok order)
    else completeReceipt s account order record

def finalizeOpen (payload : Payload FinalizeRequest) : Handler Response := do
  let now ← clock
  refuseIf (o.expires < now) (newProblem .orderNotReady "the order has expired")
  let req ← decode payload
  match parseCSR s req.csr with
  | .error cause => settleOrder o cause
  | .ok csr => do
    match ← ExceptT.lift (checkKey s account o csr.publicKey).run with
    | .error cause => settleOrder o cause
    | .ok () => do
      match ← ExceptT.lift (issue s account o csr).run with
      | .error cause => settleOrder o cause
      | .ok order => raise (.ok (.order (orderURL s o) (orderBody s order)))

def finalize (id : String) (payload : Payload FinalizeRequest) : Handler Response := do
  let o ← loadOrder account id
  match o.status with
  | .valid => raise (.ok (.order "" (orderBody s o)))
  | .invalid =>
    fail (newProblem .orderNotReady "the order failed and cannot be finalized")
  | .pending => fail (newProblem .orderNotReady "the authorization is not yet valid")
  | .ready => finalizeOpen s account o payload
  | .processing =>
    if o.certificateID = "" ∨ o.csrHash = "" then
      fail (newProblem .orderNotReady "the order is processing")
    else finalizeOpen s account o payload
  | other => fail (newProblem .orderNotReady ("the order is " ++ other.text))

def order (account : Account) (id : String) : Handler Response := do
  let o ← loadOrder account id
  if o.status = .processing ∧ o.certificateID ≠ "" then do
    let record ← readable "the issuance receipt could not be read"
      (← ask (.getCertificate o.certificateID))
    let order ← completeReceipt s account o record
    raise (.ok (.order "" (orderBody s order)))
  else raise (.ok (.order "" (orderBody s o)))

def certificate (account : Account) (id : String) : Handler Response := do
  let record ← found (newProblem .malformed "no such certificate") "the certificate could not be read"
    (← ask (.getCertificate id))
  refuseIf (record.accountID ≠ account.id)
    (newProblem .unauthorized "the certificate belongs to another account")
  refuseIf (record.pendingRegistration)
    (newProblem .orderNotReady "certificate registration is incomplete")
  raise (.ok (.certificate id record.chainPEM))

end Server

end AppleDM.Acme
