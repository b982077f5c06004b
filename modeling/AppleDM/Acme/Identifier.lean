import AppleDM.Acme.Issuance

set_option autoImplicit false

namespace AppleDM.Acme

open Mdm Pki Checked Process Run

structure Sealed where
  binding : Binding
  expires : Int
  unique : Bytes

structure Sealing where
  hmac : Bytes → Bytes → Bytes
  marshal : Sealed → Except Failure Bytes
  unmarshal : Bytes → Except Failure Sealed

def minIdentifierKey : Nat := 16

structure HMACIdentifiers where
  key : Bytes
  ttl : Time
  long : minIdentifierKey ≤ key.length
  lasting : 0 < ttl

def newHMACIdentifiers (key : Bytes) (ttl : Time) : Except Failure HMACIdentifiers :=
  if long : minIdentifierKey ≤ key.length then
    if lasting : 0 < ttl then .ok ⟨key, ttl, long, lasting⟩
    else .ok ⟨key, 24 * 3600 * 1000000000, long, by decide⟩
  else
    .error (.other ("acme: identifier key must be at least 16 bytes: got " ++
      toString key.length))

namespace HMACIdentifiers

variable (t : Sealing) (h : HMACIdentifiers)

def mac (payload : Bytes) : Bytes := t.hmac h.key payload

def text (payload : Bytes) : String :=
  Base64.encodeToString payload ++ "." ++ Base64.encodeToString (h.mac t payload)

def issue (now : Time) (unique : Bytes) (b : Binding) : Except Failure String := do
  let payload ← t.marshal ⟨b, (now + h.ttl) / 1000000000, unique⟩
  pure (h.text t payload)

def cut (identifier : String) : Option (String × String) :=
  match identifier.toList.span (· ≠ '.') with
  | (enc, _ :: sig) => some (String.ofList enc, String.ofList sig)
  | (_, []) => none

def unrecognised : Failure :=
  .problem (newProblem .rejectedIdentifier "the identifier is not recognised")

/-- The authentication code is compared with the decoded bytes, not with the text. -/
def verify (now : Time) (identifier : String) : Except Failure Binding := do
  let (enc, sig) ← (cut identifier).elim (.error unrecognised) .ok
  let payload ← (Base64.decodeString enc).elim (.error unrecognised) .ok
  let got ← (Base64.decodeString sig).elim (.error unrecognised) .ok
  reject (got ≠ h.mac t payload) unrecognised
  match t.unmarshal payload with
  | .error failure =>
    .error (.problem
      (wrapProblem .rejectedIdentifier failure "the identifier is not recognised"))
  | .ok content => do
    reject (content.expires * 1000000000 < now)
      (.problem (newProblem .rejectedIdentifier "the identifier has expired"))
    pure content.binding

def payloadOf (identifier : String) : Option Bytes := do
  let (enc, _) ← cut identifier
  Base64.decodeString enc

def Canonical (identifier : String) : Prop :=
  (payloadOf identifier).map (h.text t) = some identifier

instance (identifier : String) : Decidable (h.Canonical t identifier) :=
  inferInstanceAs (Decidable (_ = _))

def configure {Ext : Type} (s : Config Ext) : Config Ext :=
  { s with identifiers := fun _ now identifier => h.verify t now identifier }

end HMACIdentifiers

section Once

def Entry.accepted : Entry → Option String
  | .identified value _ => some value
  | _ => none

open HMACIdentifiers

theorem identifier_once {Ext : Type} (t : Sealing) (h : HMACIdentifiers) (s : Config Ext)
    (moves : List (Move Request (Choice Ext)))
    (canonical : ∀ identifier ∈ (run (step (h.configure t s)) start moves).world.log.filterMap
      Entry.accepted, h.Canonical t identifier)
    (payload : Bytes) {o o' : Order}
    (made : .created o ∈ (run (step (h.configure t s)) start moves).world.log)
    (made' : .created o' ∈ (run (step (h.configure t s)) start moves).world.log)
    (carries : payloadOf o.identifier.value = some payload)
    (carries' : payloadOf o'.identifier.value = some payload) : o = o' := by
  have good := run_good (h.configure t s) moves
  have first := canonical _ (List.mem_filterMap.2 ⟨_, good.identified o made, rfl⟩)
  have second := canonical _ (List.mem_filterMap.2 ⟨_, good.identified o' made', rfl⟩)
  unfold Canonical at first second
  rw [carries] at first
  rw [carries', first] at second
  exact List.inj_on_of_nodup_map good.once (mem_created.1 made) (mem_created.1 made')
    (Option.some.inj second)

def sampleSealing : Sealing where
  hmac := fun key payload => key ++ payload
  marshal := fun _ => .ok [3]
  unmarshal := fun _ => .ok ⟨{ serial := "C02" }, 10, []⟩

def sampleMinter : HMACIdentifiers := ⟨List.replicate 16 0, 10000000000, by decide, by decide⟩

def sampleIdentifier : String := "Aw.AAAAAAAAAAAAAAAAAAAAAAM"

def sampleVariant : String := "Aw.AAAAAAAAAAAAAAAAAAAAAAN"

def firstIds : Choice Unit :=
  { first := "o", second := "z", third := "c", token := "k", ext := () }

def secondIds : Choice Unit :=
  { first := "p", second := "y", third := "d", token := "l", ext := () }

def ordering (i : Nat) (identifier : String) (ids : Choice Unit) :
    List (Move Request (Choice Unit)) :=
  serve i (.newOrder { nonce := ids.first, keyID := "a" }
    (.read { identifiers := [⟨identifierPermanent, identifier⟩] })) ids 7

def sampleOrder : Order :=
  { id := "o", accountID := "a", identifier := ⟨identifierPermanent, sampleIdentifier⟩,
    binding := { serial := "C02" }, status := .pending, authzID := "z", expires := 100,
    createdAt := 0 }

def twiceTheSame : List (Move Request (Choice Unit)) :=
  registration ++
  ordering 1 sampleIdentifier firstIds ++
  ordering 2 sampleIdentifier secondIds ++
  ordering 3 sampleVariant.toUpper secondIds

theorem identifier_once_sample :
    let log := (run (step (sampleMinter.configure sampleSealing sample)) start
      twiceTheSame).world.log
    log.filterMap Entry.accepted = [sampleIdentifier, sampleIdentifier] ∧
      sampleOrder ∈ log.filterMap Entry.order ∧
      ∀ o ∈ log.filterMap Entry.order, o = sampleOrder := by
  intro log
  have there : sampleOrder ∈ log.filterMap Entry.order := by decide +kernel
  have carry : ∀ o ∈ log.filterMap Entry.order, payloadOf o.identifier.value = some [3] := by
    decide +kernel
  refine ⟨by decide +kernel, there, fun o made => ?_⟩
  exact identifier_once sampleSealing sampleMinter sample twiceTheSame (by decide +kernel) [3]
    (mem_created.2 made) (mem_created.2 there) (carry o made) (carry _ there)

def twoOrders : List (Move Request (Choice Unit)) :=
  registration ++
  ordering 1 sampleIdentifier firstIds ++
  ordering 2 sampleVariant secondIds

theorem identifier_reused :
    ¬ ∀ (t : Sealing) (h : HMACIdentifiers) (s : Config Unit) (now : Time) (unique : Bytes)
      (b : Binding) (minted : String) (moves : List (Move Request (Choice Unit))) (o o' : Order),
      h.issue t now unique b = .ok minted →
      .created o ∈ (run (step (h.configure t s)) start moves).world.log →
      .created o' ∈ (run (step (h.configure t s)) start moves).world.log →
      payloadOf o.identifier.value = payloadOf minted →
      payloadOf o'.identifier.value = payloadOf minted → o = o' := by
  intro once
  have orders : (run (step (sampleMinter.configure sampleSealing sample)) start
      twoOrders).world.log.filterMap Entry.order = [
        { id := "p", accountID := "a", identifier := ⟨identifierPermanent, sampleVariant⟩,
          binding := { serial := "C02" }, status := .pending, authzID := "y", expires := 100,
          createdAt := 0 },
        sampleOrder] := by decide +kernel
  have same := once sampleSealing sampleMinter sample 0 [] {} sampleIdentifier twoOrders _ _
    (by decide +kernel) (mem_created.2 (orders ▸ List.mem_cons_self ..))
    (mem_created.2 (orders ▸ List.mem_cons_of_mem _ (List.mem_cons_self ..)))
    (by decide +kernel) (by decide +kernel)
  exact absurd same (by decide)

end Once

end AppleDM.Acme
