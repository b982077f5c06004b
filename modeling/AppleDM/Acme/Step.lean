import AppleDM.Acme.Server

set_option autoImplicit false

namespace AppleDM.Acme

open Mdm Pki Checked Process

inductive Entry where
  | clock (now : Time)
  | identified (value : String) (binding : Binding)
  | created (o : Order)
  | authorized (d : Decision)
  | unattested (d : Decision)
  | registered (cert : X509)
  | recorded (cert : X509)

structure World where
  store : State := {}
  used : List String := []
  log : List Entry := []

/-- What a step takes from outside: the clock, random values, what the callbacks look up, and
whether the event of the step could be captured. -/
structure Choice (Ext : Type) where
  now : Time := 0
  first : String := ""
  second : String := ""
  third : String := ""
  token : String := ""
  ext : Ext
  capture : Except Failure Unit := .ok ()

def Fresh (used ids : List String) : Prop :=
  "" ∉ ids ∧ ids.Nodup ∧ ∀ id ∈ ids, id ∉ used

instance (used ids : List String) : Decidable (Fresh used ids) :=
  inferInstanceAs (Decidable (_ ∧ _))

namespace State

def createOrder (order : Order) (authz : Authorization) (challenge : Challenge) (st : State) :
    Except Failure (Order × State) := do
  let st ← st.claimIdentifier order.identifier.value order.id
  let st ← st.putChallenge challenge
  let st ← st.putAuthorization authz
  let st ← st.putOrder order
  pure (order, st)

def saveTriple (c : Challenge) (a : Authorization) (o : Order) (st : State) :
    Except Failure ((Bool × Challenge × Authorization × Order) × State) := do
  let current ← st.getOrder o.id
  let currentAuthz ← st.getAuthorization current.authzID
  let currentChallenge ← st.getChallenge currentAuthz.challengeID
  if current.status ≠ .pending ∨ currentAuthz.status ≠ .pending ∨
      currentChallenge.status ≠ .pending then
    pure ((false, currentChallenge, currentAuthz, current), st)
  else do
    let st ← st.putChallenge c
    let st ← st.putAuthorization a
    let st ← st.putOrder o
    pure ((true, c, a, o), st)

def settleOrder (o : Order) (p : Problem) (st : State) : Except Failure (Unit × State) := do
  let current ← st.getOrder o.id
  if current.status ≠ o.status ∨ current.certificateID ≠ "" then pure ((), st)
  else do
    let st ← st.putOrder { current with status := .invalid, error := some p }
    pure ((), st)

variable {Ext : Type} (s : Config Ext) (choice : Choice Ext)

def otherName (value : String) : Except Failure Bytes :=
  match s.permanentIdentifier value with
  | .ok name => .ok name
  | .error failure =>
    .error (.problem (wrapProblem .serverInternal failure "the identifier could not be encoded"))

def signed (csr : Csr) (policy : SigningPolicy) : Except Failure X509 :=
  match s.sign choice.ext csr policy with
  | .ok cert => .ok cert
  | .error (.other _) =>
    .error (.problem (newProblem .serverInternal "the certificate could not be signed"))
  | .error _ => .error (.problem (newProblem .badCSR "the certificate request was refused"))

def signReceipt (o : Order) (csr : Csr) (c : Challenge) : Except Failure Certificate := do
  let name ← otherName s o.identifier.value
  reject (o.binding.notAfter ≠ 0 ∧ ¬ choice.now < o.binding.notAfter)
    (.problem (newProblem .rejectedIdentifier "the certificate deadline has passed"))
  let cert ← signed s choice csr
    ⟨name, commonName o, o.binding.organization, o.binding.notAfter⟩
  let device := match s.attest.parseObject c.attestation with
    | .ok a => a.properties
    | .error _ => {}
  pure
    { id := choice.first, orderID := o.id, accountID := o.accountID,
      serial := toString cert.serialNumber, chainPEM := s.encodeChain cert, device,
      binding := o.binding, notAfter := cert.notAfter, issuedAt := choice.now,
      pendingRegistration := true }

def commitReceipt (o : Order) (csr : Csr) (challenge : Challenge) (st : State) :
    Except Failure ((Order × Certificate) × State) := do
  let current ← st.getOrder o.id
  reject (current.accountID ≠ o.accountID ∨ current.identifier ≠ o.identifier ∨
    current.authzID ≠ o.authzID ∨ current.binding ≠ o.binding) (.conflict "")
  let csrHash := s.hashCSR csr.raw
  if current.status = .valid ∨ current.status = .processing then do
    reject (current.certificateID = "")
      (.problem (newProblem .orderNotReady "the order is processing"))
    reject (current.status = .processing ∧ current.csrHash ≠ csrHash)
      (.problem (newProblem .badCSR "the order already has a receipt for another CSR"))
    let cert ← st.getCertificate current.certificateID
    pure ((current, cert), st)
  else do
    reject (current.status ≠ .ready ∨ ¬ choice.now < current.expires)
      (.problem (newProblem .orderNotReady "the order is no longer ready"))
    let authz ← st.getAuthorization current.authzID
    let stored ← st.getChallenge authz.challengeID
    reject (authz.status ≠ .valid ∨ stored.status ≠ .valid ∨
      stored.attestation ≠ challenge.attestation ∨ stored.token ≠ challenge.token)
      (.problem (newProblem .orderNotReady "the authorization changed"))
    let record ← signReceipt s choice current csr stored
    let order := { current with
      status := .processing, csrHash := csrHash, certificateID := record.id, error := none }
    let st ← st.putCertificate record
    let st ← st.putOrder order
    pure ((order, record), st)

def storeReceipt (o : Order) (cert : Certificate) (st : State) :
    Except Failure ((Bool × Order) × State) := do
  let current ← st.getOrder o.id
  reject (current.certificateID ≠ cert.id ∨ current.csrHash ≠ o.csrHash) (.conflict "")
  if current.status = .valid then pure ((false, current), st)
  else do
    reject (current.status ≠ .processing ∨ ¬ choice.now < current.expires ∨
      ¬ choice.now < cert.notAfter)
      (.problem (newProblem .orderNotReady "the order is no longer processing"))
    let st ← st.putCertificate { cert with pendingRegistration := false }
    let order := { current with status := .valid }
    let st ← st.putOrder order
    pure ((true, order), st)

end State

namespace World

def note (w : World) (entry : Entry) : World := { w with log := entry :: w.log }

def heard {A : Type} (w : World) (answer : Except Failure A) (entry : A → Entry) : World :=
  match answer with
  | .ok value => w.note (entry value)
  | .error _ => w

def after {A : Type} (w : World) (result : Except Failure A × State) :
    Except Failure A × World :=
  (result.1, { w with store := result.2 })

end World

def unstored {A : Type} : Except Failure A → Except Failure A
  | .ok value => .ok value
  | .error failure =>
    .error (.problem (wrapProblem .serverInternal failure "the challenge could not be stored"))

variable {Ext : Type} (s : Config Ext)

/-- One step of a request. It does not happen with random values that were used before. -/
def exec : (a : Action) → Choice Ext → World → Option (Answer a × World)
  | .now, choice, w => some (choice.now, w.note (.clock choice.now))
  | .mintNonce, choice, w =>
    some ((), { w with store := settle w.store (w.store.putNonce ⟨choice.first, choice.now⟩) })
  | .takeNonce value, _, w => some (w.after (w.store.takeNonce value))
  | .verifyIdentifier value, choice, w =>
    let answer := s.identifiers choice.ext choice.now value
    some (answer, w.heard answer (.identified value))
  | .authorize d, choice, w =>
    let answer := s.authorize choice.ext d
    some (answer, w.heard answer fun _ => .authorized d)
  | .authorizeUnattested d, choice, w =>
    match s.authorizeUnattested with
    | none => none
    | some policy =>
      let answer := policy choice.ext d
      some (answer, w.heard answer fun _ => .unattested d)
  | .register cert provenance, choice, w =>
    match s.register with
    | none => none
    | some callback =>
      let answer := callback choice.ext cert provenance
      some (answer, w.heard answer fun _ => .registered cert)
  | .registerRevocation cert provenance, choice, w =>
    match s.revocations with
    | none => none
    | some callback =>
      let answer := callback choice.ext cert provenance
      some (answer, w.heard answer fun _ => .recorded cert)
  | .getAccount id, _, w => some (w.store.getAccount id, w)
  | .accountByThumbprint thumbprint, _, w => some (w.store.accountByThumbprint thumbprint, w)
  | .createAccount thumbprint key contact now, choice, w =>
    if Fresh w.used [choice.first] then
      let account : Account := ⟨choice.first, thumbprint, key, .valid, contact, now⟩
      some ({ w with used := choice.first :: w.used }.after
        (w.store.update fun st => do
          let st ← st.putAccount account
          pure (account, st)))
    else none
  | .getOrder id, _, w => some (w.store.getOrder id, w)
  | .getAuthorization id, _, w => some (w.store.getAuthorization id, w)
  | .getChallenge id, _, w => some (w.store.getChallenge id, w)
  | .getCertificate id, _, w => some (w.store.getCertificate id, w)
  | .createOrder accountID id binding now expires, choice, w =>
    let ids := [choice.first, choice.second, choice.third]
    if Fresh w.used ids then
      let order : Order :=
        { id := choice.first, accountID, identifier := id, binding, status := .pending,
          authzID := choice.second, expires, createdAt := now }
      let authz : Authorization :=
        { id := choice.second, orderID := choice.first, accountID, identifier := id,
          status := .pending, challengeID := choice.third, expires }
      let challenge : Challenge :=
        { id := choice.third, authzID := choice.second, accountID,
          type := challengeDeviceAttest, token := choice.token, status := .pending }
      let (answer, w) := { w with used := ids ++ w.used }.after
        (w.store.update (State.createOrder order authz challenge))
      some (answer, w.heard answer .created)
    else none
  | .saveTriple captured c a o, choice, w =>
    match captured, choice.capture with
    | true, .error failure => some (.error failure, w)
    | _, _ =>
      let (answer, w) := w.after (w.store.updateOrder o.id (State.saveTriple c a o))
      some (unstored answer, w)
  | .settleOrder o p, _, w => some (w.after (w.store.updateOrder o.id (State.settleOrder o p)))
  | .commitReceipt o csr challenge, choice, w =>
    if Fresh w.used [choice.first] then
      some ({ w with used := choice.first :: w.used }.after
        (w.store.updateOrder o.id (State.commitReceipt s choice o csr challenge)))
    else none
  | .storeReceipt o cert, choice, w =>
    match choice.capture with
    | .error failure => some (.error failure, w)
    | .ok () => some (w.after (w.store.updateOrder o.id (State.storeReceipt choice o cert)))
  | .prune before, _, w => some ((), { w with store := w.store.prune before })

inductive Request where
  | newAccount (r : Signed) (thumbprint : String) (key : Bytes) (payload : Payload AccountRequest)
  | newOrder (r : Signed) (payload : Payload OrderRequest)
  | order (r : Signed) (id : String)
  | authorization (r : Signed) (id : String)
  | challenge (r : Signed) (id : String) (payload : Payload (Option ChallengeRequest))
  | finalize (r : Signed) (id : String) (payload : Payload FinalizeRequest)
  | certificate (r : Signed) (id : String)
  | prune (before : Time)

def handle : Request → Handler Response
  | .newAccount r thumbprint key payload => Server.newAccount s r thumbprint key payload
  | .newOrder r payload => do Server.newOrder s (← Server.authenticate s r) payload
  | .order r id => do Server.order s (← Server.authenticate s r) id
  | .authorization r id => do Server.authorization s (← Server.authenticate s r) id
  | .challenge r id payload => do Server.challenge s (← Server.authenticate s r) id payload
  | .finalize r id payload => do Server.finalize s (← Server.authenticate s r) id payload
  | .certificate r id => do Server.certificate (← Server.authenticate s r) id
  | .prune before => do
    let _ ← ask (.prune before)
    raise (.ok .pruned)

abbrev System := Process.Config Action Answer (Except Failure Response) World

def step (c : System) (m : Move Request (Choice Ext)) : System :=
  move (exec s) (fun request => (handle s request).run) c m

end AppleDM.Acme
