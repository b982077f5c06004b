import Mathlib.Tactic.Tauto
import AppleDM.Shared.Checked
import AppleDM.Storage.Types

set_option autoImplicit false

namespace AppleDM.Storage

open Mdm Checked

inductive Method where
  | scep
  | acme
  | other (name : String)
  deriving DecidableEq

/-- `unset` is the empty string of a zero record. -/
inductive ReplacementState where
  | unset
  | pending
  | committed
  | failed
  | cancelled
  | expired
  deriving DecidableEq

inductive ReplacementOp where
  | begin
  | read
  | cancel
  | claim
  | issue
  | authenticate
  | token
  | deliver
  | result
  | other (name : String)

structure ReplacementToken where
  id : EnrollmentID
  message : Option TokenUpdate
  raw : Bytes
  deriving DecidableEq

structure Replacement where
  issuer : String := ""
  reconcileUntil : Time := 0
  csrHash : String := ""
  id : String := ""
  method : Method := .other ""
  oldHash : String := ""
  candidateHash : String := ""
  secretHash : String := ""
  publicKeyHash : String := ""
  state : ReplacementState := .unset
  expiresAt : Time := 0
  completedAt : Time := 0
  command : Command := ⟨"", "", []⟩
  delivered : Bool := false
  acknowledged : Bool := false
  authenticated : Bool := false
  authenticateRaw : Bytes := []
  tokens : List ReplacementToken := []
  deriving DecidableEq

structure ReplacementChange where
  issuer : String := ""
  reconcileUntil : Time := 0
  csrHash : String := ""
  op : ReplacementOp
  id : String := ""
  hash : String := ""
  method : Method := .other ""
  secretHash : String := ""
  publicKeyHash : String := ""
  atTime : Time
  begin : Option Replacement := none
  raw : Bytes := []
  token : Option ReplacementToken := none
  response : Option Response := none

def day : Time := 24 * hour

def jsonTime (t : Time) : Bool := -366 * day ≤ t && t < 3652059 * day

def Replacement.marshals (r : Replacement) : Bool :=
  jsonTime r.reconcileUntil && jsonTime r.expiresAt && jsonTime r.completedAt

/-- The JSON round trip; both of its errors are dropped, which leaves a zero record. -/
def cloneReplacement (r : Option Replacement) : Option Replacement :=
  r.map fun r => if r.marshals then r else {}

def bad (reason : String) : StoreError := .conflict ("replacement " ++ reason)

def expiry (r : Replacement) : Time :=
  if r.candidateHash ≠ "" ∧ r.expiresAt < r.reconcileUntil then r.reconcileUntil else r.expiresAt

def Replacement.expire (r : Replacement) (atTime : Time) : Replacement :=
  if r.state = .pending ∧ ¬ atTime < expiry r then
    { r with state := .expired, completedAt := atTime }
  else r

def CanStart (n : Replacement) (e : Enrollment) (atTime : Time) : Prop :=
  n.id ≠ "" ∧ n.command.uuid = n.id ∧ n.command.requestType = "InstallProfile" ∧
    (n.method = .scep ∨ n.method = .acme) ∧ n.oldHash ≠ "" ∧ n.oldHash = e.certHash ∧
    e.enabled = true ∧ atTime < n.expiresAt ∧ ¬ atTime + 30 * minute < n.expiresAt

instance (n : Replacement) (e : Enrollment) (atTime : Time) : Decidable (CanStart n e atTime) :=
  inferInstanceAs (Decidable (_ ∧ _))

def storeToken : List ReplacementToken → ReplacementToken → List ReplacementToken
  | [], token => [token]
  | head :: rest, token =>
    if head.id = token.id then token :: rest else head :: storeToken rest token

variable (current : Replacement)

def applyClaim (c : ReplacementChange) : Except StoreError Replacement := do
  reject (¬ c.atTime < current.expiresAt ∨ current.method ≠ .scep ∨ c.publicKeyHash = "" ∨
      c.csrHash = "" ∨
      (current.publicKeyHash ≠ "" ∧ current.publicKeyHash ≠ c.publicKeyHash) ∨
      (current.csrHash ≠ "" ∧ current.csrHash ≠ c.csrHash) ∨
      current.secretHash = "" ∨ current.secretHash ≠ c.secretHash)
    (bad "issuance authorization refused")
  pure { current with publicKeyHash := c.publicKeyHash, csrHash := c.csrHash }

def applyIssue (c : ReplacementChange) : Except StoreError Replacement := do
  reject ((current.issuer ≠ "" ∧ current.issuer ≠ c.issuer) ∨
      (¬ c.atTime < current.expiresAt ∧ current.candidateHash ≠ c.hash) ∨
      current.method ≠ c.method ∨ c.hash = "" ∨
      (current.candidateHash ≠ "" ∧ current.candidateHash ≠ c.hash) ∨
      (current.method = .scep ∧
        (current.publicKeyHash = "" ∨ current.publicKeyHash ≠ c.publicKeyHash)))
    (bad "certificate issuance refused")
  pure { current with candidateHash := c.hash, reconcileUntil := c.reconcileUntil }

def applyAuthenticate (c : ReplacementChange) : Except StoreError Replacement := do
  reject (current.candidateHash = "" ∨ current.candidateHash ≠ c.hash) (bad "identity refused")
  pure { current with authenticated := true, authenticateRaw := c.raw }

def applyToken (e : Enrollment) (c : ReplacementChange) : Except StoreError Replacement :=
  match c.token with
  | none => .error (bad "token before authentication")
  | some token => do
    reject (current.authenticated = false ∨ c.hash ≠ current.candidateHash ∨ token.message = none)
      (bad "token before authentication")
    reject ((pushFromTokenUpdate token.message).toBool = false) (bad "invalid token")
    reject (token.id.device ≠ e.id.device) (bad "token belongs to another device")
    pure { current with tokens := storeToken current.tokens token }

def commandIdentity (c : ReplacementChange) : Except StoreError Unit :=
  reject (c.hash ≠ current.oldHash ∧
      (current.candidateHash = "" ∨ c.hash ≠ current.candidateHash))
    (bad "command identity refused")

def applyDeliver (c : ReplacementChange) : Except StoreError Replacement := do
  commandIdentity current c
  reject (c.hash ≠ current.oldHash) (bad "candidate cannot fetch profile")
  pure { current with delivered := true }

def applyResult (c : ReplacementChange) : Except StoreError Replacement := do
  commandIdentity current c
  match c.response with
  | none => .error (bad "command result does not match")
  | some response =>
    reject (current.delivered = false ∨ response.commandUUID ≠ current.command.uuid)
      (bad "command result does not match")
    match response.status with
    | .acknowledged => pure { current with acknowledged := true }
    | .notNow => pure current
    | .error | .commandFormatError =>
      pure { current with state := .failed, completedAt := c.atTime }
    | .idle | .other _ => .error (bad "invalid command result")

def applyChange (e : Enrollment) (c : ReplacementChange) : Except StoreError Replacement :=
  match c.op with
  | .cancel => .ok { current with state := .cancelled, completedAt := c.atTime }
  | .claim => applyClaim current c
  | .issue => applyIssue current c
  | .authenticate => applyAuthenticate current c
  | .token => applyToken current e c
  | .deliver => applyDeliver current c
  | .result => applyResult current c
  | .begin | .read | .other _ => .error (.invalid "unknown replacement operation")

def completes (r : Replacement) (e : Enrollment) : Bool :=
  r.state = .pending && r.authenticated && r.acknowledged && r.tokens.any (·.id = e.id)

def Replacement.commit (r : Replacement) (atTime : Time) : Replacement :=
  { r with state := .committed, completedAt := atTime }

def actOn (current : Option Replacement) (e : Enrollment) (c : ReplacementChange) :
    Option Replacement × Except StoreError Bool :=
  match current with
  | none => (none, .error (bad "attempt does not match"))
  | some current =>
    if current.id ≠ c.id then (some current, .error (bad "attempt does not match"))
    else if current.state ≠ .pending ∨ current.oldHash ≠ e.certHash ∨ e.enabled = false then
      (some current, .error (bad "is no longer active"))
    else
      match applyChange current e c with
      | .error error => (some current, .error error)
      | .ok changed =>
        if completes changed e then (some (changed.commit c.atTime), .ok true)
        else (some changed, .ok false)

def advanceReplacement (r : Option Replacement) (e : Enrollment) (c : ReplacementChange) :
    Option Replacement × Except StoreError Bool :=
  if c.atTime = 0 then (r, .error (.invalid "replacement time is required"))
  else
    let current := r.map (·.expire c.atTime)
    match c.op with
    | .begin =>
      if current.any (·.state = .pending) then (current, .error (bad "already pending"))
      else
        match cloneReplacement c.begin with
        | none => (current, .error (bad "cannot start"))
        | some n =>
          if CanStart n e c.atTime then (some { n with state := .pending }, .ok false)
          else (current, .error (bad "cannot start"))
    | .read => (current, .ok false)
    | _ => actOn current e c

def applyReplacementToken (e : Enrollment) (t : ReplacementToken) (atTime : Time) : Enrollment :=
  let push := match pushFromTokenUpdate t.message with
    | .ok push => push
    | .error _ => .empty
  let e := { e with
    push := push, tokenUpdateRaw := t.raw, enabled := true, tokenUpdatedAt := atTime,
    lastSeenAt := atTime, disabledAt := 0 }
  match t.message with
  | none => e
  | some m =>
    { e with
      unlockToken := if m.unlockToken.length > 0 then m.unlockToken else e.unlockToken
      userShortName := m.userShortName.getD e.userShortName
      userLongName := if m.userLongName ≠ "" then m.userLongName else e.userLongName
      enrollmentUserID :=
        if m.enrollmentUserID ≠ "" then m.enrollmentUserID else e.enrollmentUserID
      notOnConsole := m.notOnConsole }

theorem applyReplacementToken_pin (e : Enrollment) (t : ReplacementToken) (atTime : Time) :
    (applyReplacementToken e t atTime).id = e.id ∧
      (applyReplacementToken e t atTime).certHash = e.certHash := by
  rcases t with ⟨id, _ | message, raw⟩ <;> exact ⟨rfl, rfl⟩

@[simp] theorem expire_pending (r : Replacement) (atTime : Time) :
    (r.expire atTime).state = .pending ↔ r.state = .pending ∧ atTime < expiry r := by
  unfold Replacement.expire
  split <;> simp_all

theorem expire_unexpired {r : Replacement} {atTime : Time} (pending : (r.expire atTime).state = .pending) :
    r.expire atTime = r := by
  unfold Replacement.expire at *
  split <;> simp_all

theorem mem_storeToken {tokens : List ReplacementToken} {token found : ReplacementToken}
    (member : found ∈ storeToken tokens token) : found = token ∨ found ∈ tokens := by
  induction tokens with
  | nil => simpa [storeToken] using member
  | cons head rest ih =>
    unfold storeToken at member
    split at member <;> simp only [List.mem_cons] at member ⊢
    · tauto
    · rcases member with rfl | later
      · exact .inr (.inl rfl)
      · exact (ih later).imp_right .inr

structure Active (r : Replacement) (e : Enrollment) (c : ReplacementChange) : Prop where
  pending : r.state = .pending
  unexpired : c.atTime < expiry r
  matching : r.id = c.id
  pinned : r.oldHash = e.certHash
  enabled : e.enabled = true

inductive Advanced (r : Option Replacement) (e : Enrollment) (c : ReplacementChange) :
    Option Replacement → Bool → Prop where
  | read (op : c.op = .read) : Advanced r e c (r.map (·.expire c.atTime)) false
  | begin (n : Replacement) (op : c.op = .begin) (cloned : cloneReplacement c.begin = some n)
      (start : CanStart n e c.atTime) : Advanced r e c (some { n with state := .pending }) false
  | change (current changed : Replacement) (found : r = some current) (active : Active current e c)
      (applied : applyChange current e c = .ok changed) (open_ : completes changed e = false) :
      Advanced r e c (some changed) false
  | commit (current changed : Replacement) (found : r = some current)
      (active : Active current e c) (applied : applyChange current e c = .ok changed)
      (complete : completes changed e = true) :
      Advanced r e c (some (changed.commit c.atTime)) true

variable {c : ReplacementChange} {e : Enrollment} {next : Option Replacement}
  {r : Option Replacement}

theorem actOn_ok {commit : Bool}
    (accepted : actOn (r.map (·.expire c.atTime)) e c = (next, .ok commit)) :
    Advanced r e c next commit := by
  cases r with
  | none => simp [actOn] at accepted
  | some current =>
    simp only [actOn, Option.map_some] at accepted
    split at accepted
    · simp at accepted
    next matching =>
    split at accepted
    · simp at accepted
    next inactive =>
    simp only [not_or, not_not, Bool.not_eq_false] at inactive
    have same := expire_unexpired inactive.1
    rw [same] at accepted matching inactive
    have active : Active current e c :=
      ⟨inactive.1, ((expire_pending current c.atTime).1 (same.symm ▸ inactive.1)).2,
        not_not.1 matching, inactive.2.1, inactive.2.2⟩
    split at accepted
    · simp at accepted
    next changed applied =>
    split at accepted
    · next complete =>
      simp only [Prod.mk.injEq, Except.ok.injEq] at accepted
      obtain ⟨rfl, rfl⟩ := accepted
      exact .commit current changed rfl active applied complete
    · next incomplete =>
      simp only [Prod.mk.injEq, Except.ok.injEq] at accepted
      obtain ⟨rfl, rfl⟩ := accepted
      exact .change current changed rfl active applied (by simpa using incomplete)

theorem advanceReplacement_ok {commit : Bool}
    (accepted : advanceReplacement r e c = (next, .ok commit)) : Advanced r e c next commit := by
  unfold advanceReplacement at accepted
  split at accepted
  · simp at accepted
  dsimp only at accepted
  split at accepted
  · next op =>
    split at accepted
    · simp at accepted
    split at accepted
    · simp at accepted
    next n cloned =>
    split at accepted
    · next start =>
      simp only [Prod.mk.injEq, Except.ok.injEq] at accepted
      obtain ⟨rfl, rfl⟩ := accepted
      exact .begin n op cloned start
    · simp at accepted
  · next op =>
    simp only [Prod.mk.injEq, Except.ok.injEq] at accepted
    obtain ⟨rfl, rfl⟩ := accepted
    exact .read op
  · exact actOn_ok accepted

theorem actOn_error {current : Option Replacement} {error : StoreError}
    (refused : actOn current e c = (next, .error error)) : next = current := by
  unfold actOn at refused
  split at refused
  · simp_all
  split at refused
  · simp_all
  split at refused
  · simp_all
  split at refused
  · simp_all
  · split at refused <;> simp_all

theorem advanceReplacement_error {error : StoreError}
    (refused : advanceReplacement r e c = (next, .error error)) :
    next = r ∨ next = r.map (·.expire c.atTime) := by
  unfold advanceReplacement at refused
  split at refused
  · exact .inl (by simp_all)
  right
  dsimp only at refused
  split at refused
  · split at refused
    · simp_all
    split at refused
    · simp_all
    · split at refused <;> simp_all
  · simp at refused
  · exact actOn_error refused

end AppleDM.Storage
