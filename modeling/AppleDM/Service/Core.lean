import AppleDM.Shared.Effect
import AppleDM.Inmem.Step

set_option autoImplicit false

namespace AppleDM.Service

open Mdm Storage Effect

inductive Code where
  | internal
  | badRequest
  | forbidden
  | unknownEnrollment
  | notImplemented
  | gone
  | unavailable
  deriving DecidableEq

inductive Cause where
  | unknownEnrollment
  | certRequired
  | certMismatch
  | reenrollDenied
  | noHandler
  | invalidMessage
  | hookVeto
  | certReused
  | unsupportedTarget
  | userNotManaged
  | userAuthRequired
  | capture
  | storage (error : StoreError)
  | other (text : String)
  deriving DecidableEq

structure Failure where
  code : Option Code := none
  causes : List Cause
  detail : String := ""
  deriving DecidableEq

namespace Failure

def is (f : Failure) (cause : Cause) : Bool := f.causes.contains cause

def behind (cause : Cause) (f : Failure) : Failure := { f with causes := cause :: f.causes }

end Failure

def codeOf (f : Failure) : Code :=
  if f.is .capture then .unavailable else f.code.getD .internal

def wrapCode (code : Code) (f : Failure) : Failure := { f with code := some code }

def forbidden (cause : Cause) : Failure := { code := some .forbidden, causes := [cause] }

def codeForStorage (error : StoreError) : Code :=
  match error.sentinel with
  | .notFound => .unknownEnrollment
  | .invalid => .badRequest
  | .conflict | .disabled => .forbidden

def storageFailure (error : StoreError) : Failure :=
  { code := some (codeForStorage error), causes := [.storage error] }

def internalFailure (error : StoreError) : Failure :=
  { code := some .internal, causes := [.storage error] }

inductive PinMode where
  | enforce
  | warn
  | off
  deriving DecidableEq

structure Certificate where
  raw : Bytes
  deriving DecidableEq

structure Request where
  id : EnrollmentID
  certificate : Option Certificate
  deriving DecidableEq

inductive Message where
  | authenticate (m : Authenticate)
  | tokenUpdate (m : TokenUpdate)
  | checkOut
  | setBootstrapToken (token : Bytes)
  | getBootstrapToken
  | getToken
  | userAuthenticate
  | declarativeManagement
  | returnToService
  | unsupported

structure Checkin where
  type : String
  message : Option Message
  id : EnrollmentID
  raw : Bytes

structure CheckinResult where
  body : Bytes := []
  contentType : String := ""
  status : Nat := 0

def contentTypePlist : String := "application/xml; charset=utf-8"

structure ReturnToServiceResponse where
  enabled : Bool := false
  bootstrapToken : Bytes := []

inductive Reply where
  | bootstrapToken (token : Bytes)
  | returnToService (response : ReturnToServiceResponse)
  | token (data : Bytes)
  | userAuthenticate (digestChallenge authToken : Option String)

inductive EventType where
  | certificateStatusRejected
  | identityRejected
  | certReuseDenied
  | certRotated
  | enrolled
  | reenrolled
  | tokenUpdated
  | checkedOut
  | bootstrapTokenSet
  | commandResult
  | commandSent
  | commandRejected

structure Event where
  type : EventType
  enrollment : EnrollmentID
  actor : String

structure World where
  store : Inmem.Store
  published : List Event := []

abbrev Action (A : Type) := EStateM Failure World A

structure Call where
  op : String
  request : Request
  authenticate : Option AuthenticateResult := none

structure Hook where
  before : Call → Option Failure
  complete : Option (Call → Action Unit) := none

structure Core where
  sum256 : Bytes → Vector UInt8 32
  decodeResponse : DecodeResponse
  marshal : Reply → Except Failure Bytes
  validatedCommand : Command → Option Failure
  checkTarget : Inmem.Store → EnrollmentID → Command → Except StoreError (Option Failure)
  now : Time
  pinning : PinMode
  reenroll : Request → Enrollment → Option Failure
  reuse : Request → List CertAssociation → Option Failure
  replacements : Bool
  requireUserAuth : Bool
  bus : Bool
  hooks : List Hook
  certificateStatus : Option (Option Certificate → Option Failure)
  observeResult : Option (EnrollmentID → Response → Time → Action Unit)
  observeEnrollment : Option (EnrollmentID → Action Unit)
  observeCertificate : Option (EnrollmentID → Certificate → Time → Action Unit)
  dm : Option (Request → Checkin → Action CheckinResult)
  getToken : Option (Request → Checkin → Action Bytes)
  userAuth : Request → Checkin → Action (Option String × Option String)
  returnToService : Option (Request → Checkin → Action (Option ReturnToServiceResponse))

def denyReenroll (_ : Request) (_ : Enrollment) : Option Failure :=
  some { causes := [.reenrollDenied] }

def denyCertReuse (_ : Request) (_ : List CertAssociation) : Option Failure :=
  some { causes := [.certReused] }

def acceptAllUsers (_ : Request) (_ : Checkin) : Action (Option String × Option String) :=
  pure (some "", none)

def hexDigit (n : Nat) : Char := "0123456789abcdef".toList.getD n '0'

def encodeHex (bytes : Bytes) : String :=
  String.ofList (bytes.flatMap fun b => [hexDigit (b.toNat / 16), hexDigit (b.toNat % 16)])

def query {A : Type} (read : Inmem.Store → A) : Action A := fun w => .ok (read w.store) w

def perform {A : Type} (call : Inmem.Store → Except StoreError (Inmem.Store × A)) :
    Action (Except StoreError A) := fun w =>
  match call w.store with
  | .ok (store, value) => .ok (.ok value) { w with store := store }
  | .error error => .ok (.error error) w

def change (call : Inmem.Store → Except StoreError Inmem.Store) : Action (Except StoreError Unit) :=
  perform fun s => (fun s => (s, ())) <$> call s

def orFail {A : Type} (outcome : Except StoreError A) : Action A :=
  match outcome with
  | .ok value => pure value
  | .error error => throw (storageFailure error)

def raise (failure : Option Failure) : Action Unit :=
  match failure with
  | some f => throw f
  | none => pure ()

namespace Core

variable (c : Core)

def fingerprint (cert : Certificate) : String := encodeHex (c.sum256 cert.raw).toList

def publish (type : EventType) (id : EnrollmentID) (actor : String) : Action Unit := fun w =>
  .ok () (if c.bus then { w with published := w.published ++ [⟨type, id, actor⟩] } else w)

def runHooks (call : Call) : Action Unit :=
  raise ((c.hooks.findSome? fun h => h.before call).map fun f =>
    wrapCode .forbidden (f.behind .hookVeto))

def checkStatus (r : Request) : Action Unit :=
  match c.certificateStatus with
  | none => pure ()
  | some status =>
    match status r.certificate with
    | none => pure ()
    | some f => do
      c.publish .certificateStatusRejected r.id "device"
      throw (wrapCode .forbidden f)

def plistResult (reply : Reply) : Action CheckinResult :=
  match c.marshal reply with
  | .ok body => pure { body := body, contentType := contentTypePlist }
  | .error f => throw (wrapCode .internal f)

theorem fingerprint_named (cert : Certificate) : c.fingerprint cert ≠ "" := by
  intro empty
  have letters := congrArg (fun text => text.toList.length) empty
  simp [fingerprint, encodeHex] at letters

end Core

end AppleDM.Service
