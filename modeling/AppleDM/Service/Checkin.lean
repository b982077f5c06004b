import AppleDM.Service.Replacement

set_option autoImplicit false

namespace AppleDM.Service.Core

open Mdm Storage Effect

variable (c : Core) (r : Request)

def invalidMessage (detail : String) : Failure :=
  { code := some .badRequest, causes := [.invalidMessage], detail := detail }

def findEnrollment (id : EnrollmentID) : Action (Option Enrollment) := do
  match ← query fun s => s.get id with
  | .ok row => pure (some row.enrollment)
  | .error error =>
    if error.sentinel = .notFound then pure none else throw (internalFailure error)

def checkChild (checkout : Bool) : Action Unit :=
  if r.id.channel.isUser then do
    let child ← findEnrollment r.id
    refuseIf (checkout = false ∧ child.any (·.disabledAt ≠ 0)) (forbidden (.storage .disabled))
  else pure ()

def comparePin (pinned : Except StoreError String) (hash : String) : Action Unit :=
  match pinned with
  | .error error =>
    if error.sentinel = .notFound then
      throw { code := some .unknownEnrollment, causes := [.unknownEnrollment], detail := r.id.id }
    else throw (internalFailure error)
  | .ok pinned =>
    if (pinned = "" ∨ pinned ≠ hash) ∧ c.pinning ≠ .warn then do
      c.publish .identityRejected r.id "device"
      throw (forbidden .certMismatch)
    else pure ()

def checkPin : Action Unit :=
  if c.pinning = .off then pure ()
  else
    match r.certificate with
    | none => refuseIf (c.pinning = .enforce) (forbidden .certRequired)
    | some cert => do
      let pinned ← query fun s => s.certHash r.id
      c.comparePin r pinned (c.fingerprint cert)

def authorizeRequest (checkout : Bool) : Action Unit := do
  let found ← query fun s => s.get r.id.device
  let device ← orFail found
  refuseIf (checkout = false ∧ device.enrollment.disabledAt ≠ 0) (forbidden (.storage .disabled))
  checkChild r checkout
  c.checkPin r

def authorize : Action Unit := c.authorizeRequest r false

def otherHolders (id : EnrollmentID) (hash : String) : Action (List CertAssociation) := do
  match ← query fun s => s.certHashHistory hash with
  | .ok history => pure (history.filter fun a => a.id.id ≠ id.device.id)
  | .error error =>
    throw { code := some .internal, causes := [.other "certificate history", .storage error] }

def presented : String :=
  match r.certificate with
  | none => ""
  | some cert => c.fingerprint cert

structure Observation where
  existing : Option Enrollment
  hash : String
  rotated : Bool
  deriving DecidableEq

def Observation.expected (seen : Observation) : String :=
  match seen.existing with
  | none => ""
  | some e => e.certHash

def rotating (existing : Option Enrollment) (hash : String) : Option Enrollment :=
  existing.filter fun e =>
    e.certHash ≠ "" && hash ≠ "" && e.certHash ≠ hash && c.pinning ≠ .off

def observe : Action Observation := do
  refuseIf (r.id.channel.isUser = true) (invalidMessage "Authenticate on a user channel")
  refuseIf (r.certificate = none ∧ c.pinning = .enforce) (forbidden .certRequired)
  let existing ← findEnrollment r.id
  match c.rotating existing (c.presented r) with
  | none => pure ⟨existing, c.presented r, false⟩
  | some e => do
    raise ((c.reenroll r e).map fun f => wrapCode .forbidden (f.behind .reenrollDenied))
    pure ⟨existing, c.presented r, true⟩

def judgeReuse (hash : String) : Action Bool :=
  if hash = "" ∨ c.pinning = .off then pure false
  else do
    let others ← otherHolders r.id hash
    if others = [] then pure false
    else
      match c.reuse r others with
      | none => pure true
      | some f => do
        c.publish .certReuseDenied r.id "device"
        throw (wrapCode .forbidden (if f.is .certReused then f else f.behind .certReused))

def authenticateChange (m : Authenticate) (raw : Bytes) (seen : Observation) (allowReuse : Bool) :
    AuthenticateChange :=
  { expectedHash := seen.expected
    hash := seen.hash
    allowReuse := allowReuse
    allowReenroll := seen.rotated
    message := some m
    raw := raw
    atTime := c.now }

def authenticateFailure (error : StoreError) : Failure :=
  if error.sentinel = .conflict then
    { code := some .forbidden, causes := [.certMismatch, .storage error] }
  else storageFailure error

def classify (seen : Observation) (result : AuthenticateResult) : AuthenticateResult :=
  if result.known then result
  else
    { result with
      reset := seen.existing = none || seen.hash = "" ||
        seen.existing.any (·.certHash ≠ seen.hash) }

def announce (seen : Observation) (result : AuthenticateResult) : Action Unit := do
  if seen.rotated && result.reset then c.publish .certRotated r.id "device"
  if seen.existing = none ∧ result.reset = true then c.publish .enrolled r.id "device"
  else c.publish .reenrolled r.id "device"

def commitAuthenticate (m : Authenticate) (raw : Bytes) (seen : Observation)
    (allowReuse : Bool) : Action AuthenticateResult := do
  let outcome ← perform fun s =>
    s.authenticateEnrollment r.id (c.authenticateChange m raw seen allowReuse)
  match outcome with
  | .error error => throw (authenticateFailure error)
  | .ok result => do
    let result := classify seen result
    c.announce r seen result
    pure result

def authenticate (m : Authenticate) (raw : Bytes) : Action AuthenticateResult := do
  let seen ← c.observe r
  let allowReuse ← c.judgeReuse r seen.hash
  c.commitAuthenticate r m raw seen allowReuse

def requireToken : Action Unit :=
  if c.requireUserAuth = true ∧ r.id.channel = .user then do
    let missing : Failure :=
      { code := some .forbidden, causes := [.userAuthRequired], detail := r.id.id }
    match ← query fun s => s.userAuthOf r.id with
    | .ok state => refuseIf (state.authToken = "") missing
    | .error error =>
      if error.sentinel = .notFound then throw missing else throw (internalFailure error)
  else pure ()

def openUserChannel (raw : Bytes) : Action Unit := do
  c.requireToken r
  match ← findEnrollment r.id with
  | some _ => pure ()
  | none => do
    let opened ← change fun s => s.upsertAuthenticate r.id none raw c.now
    orFail opened

def tokenUpdate (m : TokenUpdate) (raw : Bytes) : Action Unit := do
  let push ← match pushFromTokenUpdate (some m) with
    | .ok push => pure push
    | .error text => throw { code := some .badRequest, causes := [.other text] }
  c.authorize r
  if r.id.channel.isUser then c.openUserChannel r raw else pure ()
  let stored ← change fun s => s.storeTokenUpdate r.id push (some m) raw c.now
  orFail stored
  c.publish .tokenUpdated r.id "device"

def checkOut : Action Unit := do
  c.authorizeRequest r true
  let disabled ← change fun s => s.disable r.id c.now
  orFail disabled
  c.publish .checkedOut r.id "device"

def setBootstrapToken (token : Bytes) : Action Unit := do
  c.authorize r
  let stored ← change fun s => s.storeBootstrapToken r.id token c.now
  orFail stored
  c.publish .bootstrapTokenSet r.id "device"

def escrowed : Action Bytes := do
  match ← query fun s => s.bootstrapToken r.id with
  | .ok token => pure token
  | .error error =>
    if error.sentinel = .notFound then pure [] else throw (storageFailure error)

def getBootstrapToken : Action CheckinResult := do
  c.authorize r
  let token ← escrowed r
  c.plistResult (.bootstrapToken token)

def completeReturn (response : ReturnToServiceResponse) : Action ReturnToServiceResponse :=
  if response.enabled = true ∧ response.bootstrapToken.length = 0 then do
    let token ← escrowed r
    pure (if token.length > 0 then { response with bootstrapToken := token } else response)
  else pure response

def recoded {A : Type} (action : Action A) : Action A :=
  tryCatch action fun f => throw (wrapCode (codeOf f) f)

def noHandler (name : String) : Failure :=
  { code := some .notImplemented, causes := [.noHandler], detail := name }

def handleReturnToService (ck : Checkin) : Action CheckinResult := do
  c.authorize r
  match c.returnToService with
  | none => c.plistResult (.returnToService {})
  | some policy => do
    match ← recoded (policy r ck) with
    | none => c.plistResult (.returnToService {})
    | some response => do
      let response ← completeReturn r response
      c.plistResult (.returnToService response)

def handleGetToken (ck : Checkin) : Action CheckinResult := do
  c.authorize r
  match c.getToken with
  | none => throw (noHandler "GetToken")
  | some handler => do
    let data ← recoded (handler r ck)
    c.plistResult (.token data)

def handleUserAuthenticate (ck : Checkin) : Action CheckinResult := do
  c.authorize r
  let reply ← tryCatch (c.userAuth r ck) fun f =>
    throw (wrapCode (if f.is .userNotManaged then .gone else codeOf f) f)
  c.plistResult (.userAuthenticate reply.1 reply.2)

def handleDeclarativeManagement (ck : Checkin) : Action CheckinResult := do
  c.authorize r
  match c.dm with
  | none => throw (noHandler "DeclarativeManagement")
  | some handler => recoded (handler r ck)

abbrev Dispatched := CheckinResult × Option AuthenticateResult

def silent (action : Action Unit) : Action Dispatched := do
  action
  pure ({}, none)

def answering (action : Action CheckinResult) : Action Dispatched := do
  let result ← action
  pure (result, none)

def dispatchCheckin (ck : Checkin) : Message → Action Dispatched
  | .authenticate m => do
    let result ← c.authenticate r m ck.raw
    pure ({}, some result)
  | .tokenUpdate m => silent (c.tokenUpdate r m ck.raw)
  | .checkOut => silent (c.checkOut r)
  | .setBootstrapToken token => silent (c.setBootstrapToken r token)
  | .getBootstrapToken => answering (c.getBootstrapToken r)
  | .getToken => answering (c.handleGetToken r ck)
  | .userAuthenticate => answering (c.handleUserAuthenticate r ck)
  | .declarativeManagement => answering (c.handleDeclarativeManagement r ck)
  | .returnToService => answering (c.handleReturnToService r ck)
  | .unsupported => throw (invalidMessage ("unsupported message " ++ ck.type))

def complete (call : Call) : Action Unit :=
  c.hooks.forM fun h =>
    match h.complete with
    | none => pure ()
    | some finish => tryCatch (finish call) fun f => throw (wrapCode .internal f)

def checkin (request : Option Request) (ck : Option Checkin) : Action CheckinResult :=
  match request, ck with
  | some request, some ck =>
    match ck.message with
    | none => throw (invalidMessage "nil request or message")
    | some m => do
      let r := { request with id := ck.id }
      c.checkStatus r
      c.runHooks { op := "checkin:" ++ ck.type, request := r }
      let handled ← c.replacementCheckin r ck
      if handled then do
        c.complete { op := "replacement:" ++ ck.type, request := r }
        pure {}
      else do
        let done ← c.dispatchCheckin r ck m
        c.complete { op := "checkin:" ++ ck.type, request := r, authenticate := done.2 }
        pure done.1
  | _, _ => throw (invalidMessage "nil request or message")

end AppleDM.Service.Core
