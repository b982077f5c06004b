import AppleDM.Mdm.Identity

set_option autoImplicit false

namespace AppleDM.Pki

open Mdm

/-- What the servers read of a parsed certificate. The public key is its marshalled
SubjectPublicKeyInfo. -/
structure X509 where
  raw : Bytes
  publicKey : Bytes
  serialNumber : Int := 0
  notBefore : Time := 0
  notAfter : Time := 0
  isCA : Bool := false
  deriving DecidableEq

structure Csr where
  raw : Bytes
  publicKey : Bytes
  deriving DecidableEq

structure Provenance where
  udid : String := ""
  serial : String := ""
  enrollmentID : String := ""
  source : String := ""
  accountID : String := ""
  identifiers : List String := []
  enrollmentReference : String := ""
  deriving DecidableEq

end AppleDM.Pki
