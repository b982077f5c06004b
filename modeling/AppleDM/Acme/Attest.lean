import AppleDM.Shared.Checked
import AppleDM.Acme.Types

set_option autoImplicit false

namespace AppleDM.Acme

open Mdm Pki Checked

inductive AttestError where
  | format
  | noAttestation
  | chain
  | freshness
  | keyMismatch
  | extension
  | options
  deriving DecidableEq

/-- What reading and verifying an attestation rests on: the CBOR and certificate parsers, path
building to the anchors, and the hash. -/
structure Attest where
  parseObject : Bytes → Except AttestError Attestation
  verifyChain : List X509 → List X509 → Time → Bool
  appleAnchors : List X509
  sha256 : Bytes → Bytes

namespace Attest

variable (t : Attest)

def freshnessForToken (token : String) : Bytes := t.sha256 token.toUTF8.toList

def verify (a : Attestation) (anchors : List X509) (now : Time) (freshness : Bytes)
    (publicKey : Option Bytes) : Except AttestError Unit := do
  reject (freshness = []) .options
  let roots := if anchors = [] then t.appleAnchors else anchors
  reject (¬ t.verifyChain a.chain roots now) .chain
  reject (a.properties.freshness ≠ freshness) .freshness
  match publicKey with
  | none => pure ()
  | some key => reject ((a.chain.head?).map (·.publicKey) ≠ some key) .keyMismatch

def absent (raw : Bytes) : Prop := raw = [] ∨ t.parseObject raw = .error .noAttestation

instance (raw : Bytes) : Decidable (t.absent raw) := inferInstanceAs (Decidable (_ ∨ _))

end Attest

end AppleDM.Acme
