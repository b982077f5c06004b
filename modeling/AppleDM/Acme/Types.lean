import AppleDM.Pki.X509

set_option autoImplicit false

namespace AppleDM.Acme

open Mdm Pki

inductive Status where
  | pending
  | processing
  | ready
  | valid
  | invalid
  | deactivated
  | expired
  deriving DecidableEq

def Status.text : Status → String
  | pending => "pending"
  | processing => "processing"
  | ready => "ready"
  | valid => "valid"
  | invalid => "invalid"
  | deactivated => "deactivated"
  | expired => "expired"

structure Identifier where
  type : String
  value : String
  deriving DecidableEq

def identifierPermanent : String := "permanent-identifier"

def challengeDeviceAttest : String := "device-attest-01"

structure Binding where
  requireAttestation : Bool := false
  serial : String := ""
  udid : String := ""
  mdmUDID : String := ""
  enrollmentID : String := ""
  commonName : String := ""
  organization : List String := []
  allowUnidentified : Bool := false
  notAfter : Time := 0
  deriving DecidableEq

namespace Binding

def identified (b : Binding) : Bool := b.serial ≠ "" || b.udid ≠ ""

def enrollmentUDID (b : Binding) : String := if b.mdmUDID ≠ "" then b.mdmUDID else b.udid

end Binding

inductive Kind where
  | accountDoesNotExist
  | badCSR
  | badNonce
  | badPublicKey
  | badSignatureAlgorithm
  | badAttestationStatement
  | malformed
  | orderNotReady
  | rejectedIdentifier
  | unauthorized
  | unsupportedIdentifier
  | serverInternal
  | badRevocationReason
  | alreadyRevoked
  | rateLimited
  | other (name : String)
  deriving DecidableEq

namespace Kind

def name : Kind → String
  | accountDoesNotExist => "accountDoesNotExist"
  | badCSR => "badCSR"
  | badNonce => "badNonce"
  | badPublicKey => "badPublicKey"
  | badSignatureAlgorithm => "badSignatureAlgorithm"
  | badAttestationStatement => "badAttestationStatement"
  | malformed => "malformed"
  | orderNotReady => "orderNotReady"
  | rejectedIdentifier => "rejectedIdentifier"
  | unauthorized => "unauthorized"
  | unsupportedIdentifier => "unsupportedIdentifier"
  | serverInternal => "serverInternal"
  | badRevocationReason => "badRevocationReason"
  | alreadyRevoked => "alreadyRevoked"
  | rateLimited => "rateLimited"
  | other name => name

def status : Kind → Int
  | rateLimited => 429
  | orderNotReady => 403
  | unauthorized => 401
  | serverInternal => 500
  | _ => 400

end Kind

def problemPrefix : String := "urn:ietf:params:acme:error:"

structure Subproblem where
  type : String
  detail : String := ""
  identifier : Option Identifier := none
  deriving DecidableEq

/-- A problem document. Of the cause it wraps only the kinds of the problems in it are kept. -/
structure Problem where
  kind : Kind
  detail : String := ""
  status : Int
  subproblems : List Subproblem := []
  wrapped : List Kind := []
  deriving DecidableEq

namespace Problem

def terminal (p : Problem) : Bool := p.status < 500

def is (p : Problem) (kind : Kind) : Bool := p.kind = kind || p.wrapped.contains kind

def withSubproblem (p : Problem) (kind : Kind) (detail : String) (id : Identifier) : Problem :=
  { p with subproblems := p.subproblems ++ [⟨problemPrefix ++ kind.name, detail, some id⟩] }

end Problem

def newProblem (kind : Kind) (detail : String) : Problem :=
  { kind, detail, status := kind.status }

inductive Failure where
  | problem (p : Problem)
  | notFound (what id : String)
  | conflict (detail : String)
  | invalid (detail : String)
  | other (text : String)
  deriving DecidableEq

namespace Failure

def isNotFound : Failure → Bool
  | notFound .. => true
  | _ => false

def isConflict : Failure → Bool
  | conflict _ => true
  | _ => false

def kinds : Failure → List Kind
  | problem p => p.kind :: p.wrapped
  | _ => []

end Failure

def asProblem : Failure → Problem
  | .problem p => p
  | _ => newProblem .serverInternal "the server could not complete the request"

def wrapProblem (kind : Kind) (cause : Failure) (detail : String) : Problem :=
  { newProblem kind detail with wrapped := cause.kinds }

structure Account where
  id : String
  thumbprint : String
  key : Bytes := []
  status : Status := .valid
  contact : List String := []
  createdAt : Time := 0

structure Order where
  csrHash : String := ""
  id : String
  accountID : String
  identifier : Identifier
  binding : Binding
  status : Status
  authzID : String
  certificateID : String := ""
  expires : Time
  error : Option Problem := none
  createdAt : Time
  deriving DecidableEq

structure Authorization where
  id : String
  orderID : String
  accountID : String
  identifier : Identifier
  status : Status
  challengeID : String
  expires : Time

structure Challenge where
  id : String
  authzID : String
  accountID : String
  type : String
  token : String
  status : Status
  attestation : Bytes := []
  validatedAt : Time := 0
  error : Option Problem := none

structure Properties where
  serialNumber : String := ""
  udid : String := ""
  softwareUpdateDeviceID : String := ""
  osVersion : String := ""
  sepOSVersion : String := ""
  llbVersion : String := ""
  secureBoot : String := ""
  sipEnabled : Option Bool := none
  kextsAllowed : Option Bool := none
  freshness : Bytes := []
  deriving DecidableEq

def Properties.identified (p : Properties) : Bool := p.serialNumber ≠ "" || p.udid ≠ ""

structure Attestation where
  chain : List X509
  properties : Properties
  deriving DecidableEq

structure Certificate where
  pendingRegistration : Bool
  id : String
  orderID : String
  accountID : String
  serial : String
  chainPEM : Bytes
  device : Properties
  binding : Binding
  notAfter : Time
  issuedAt : Time

structure Nonce where
  value : String
  issuedAt : Time

structure Decision where
  account : Account
  order : Order
  binding : Binding
  identifier : Identifier
  attestation : Option Attestation := none

end AppleDM.Acme
