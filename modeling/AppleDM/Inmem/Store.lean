import Mathlib.Data.List.Dedup
import AppleDM.Shared.Table
import AppleDM.Storage.Replacement

set_option autoImplicit false

namespace AppleDM.Inmem

open Mdm Storage Checked

structure Record where
  enrollment : Enrollment
  queue : List QueuedCommand := []
  deriving DecidableEq

structure Store where
  enrollments : Table String Record := ∅
  certs : Table String EnrollmentID := ∅
  bootstrap : Table String Bytes := ∅
  history : List CertAssociation := []
  userAuth : Table String UserAuthState := ∅
  replacements : Table String Replacement := ∅

def clearPending (queue : List QueuedCommand) (atTime : Time) : List QueuedCommand :=
  queue.map fun q =>
    if q.state.terminal then q else { q with state := .cleared, completedAt := atTime }

namespace Record

def clearPendingLocked (r : Record) (atTime : Time) : Record :=
  { r with queue := clearPending r.queue atTime }

def disable (r : Record) (atTime : Time) : Record :=
  { r.clearPendingLocked atTime with
    enrollment := { r.enrollment with enabled := false, disabledAt := atTime } }

def resetChild (r : Record) (atTime : Time) : Record :=
  { r.clearPendingLocked atTime with
    enrollment := { id := r.enrollment.id, enrolledAt := atTime, lastSeenAt := atTime } }

def promote (e : Record) (r : Replacement) (atTime : Time) : Record :=
  { e with
    enrollment := { e.enrollment with
      certHash := r.candidateHash, certHashAt := atTime, authenticateRaw := r.authenticateRaw } }

end Record

namespace Store

variable (s : Store) (id : EnrollmentID)

def putAt (key : String) (r : Record) : Store :=
  { s with enrollments := s.enrollments.insert key r }

def put (r : Record) : Store := s.putAt r.enrollment.id.id r

def get : Except StoreError Record :=
  match id.validate with
  | .error error => .error (.invalid error)
  | .ok _ =>
    match s.enrollments[id.id]? with
    | none => .error (.notFound ("enrollment " ++ id.id))
    | some r =>
      if r.enrollment.id = id then .ok r else .error (.notFound ("enrollment " ++ id.id))

def deviceRecordLocked : Except StoreError Record :=
  match id.validate with
  | .error _ => .error .invalid
  | .ok _ =>
    match s.enrollments[id.id]? with
    | some r => if r.enrollment.id = id then s.get id.device else .error .notFound
    | none => s.get id.device

def dropCertLocked (deviceID : String) : Store :=
  { s with certs := s.certs.filter fun _ owner => owner.id ≠ deviceID }

def disableChildrenLocked (deviceID : String) (atTime : Time) : Store :=
  { s with
    enrollments := s.enrollments.map fun _ child =>
      if child.enrollment.id.parentID = deviceID then child.disable atTime else child }

def clearUserAuthOfDeviceLocked (deviceID : String) : Store :=
  { s with userAuth := s.userAuth.filter fun _ st => st.id.parentID ≠ deviceID }

def recordAssociationLocked (dev : EnrollmentID) (hash : String) (atTime : Time) : Store :=
  if s.history.any fun a => a.id.id = dev.id && a.hash = hash then s
  else { s with history := s.history ++ [⟨dev, hash, atTime⟩] }

def resetChildrenLocked (deviceID : String) (atTime : Time) : Store :=
  { s with
    enrollments := s.enrollments.map fun _ child =>
      if child.enrollment.id.parentID = deviceID then child.resetChild atTime else child
    bootstrap := s.bootstrap.erase deviceID }

def freshRecord (queue : List QueuedCommand) (id : EnrollmentID) (msg : Option Authenticate)
    (raw : Bytes) (atTime : Time) : Record :=
  { enrollment :=
      { id := id
        device := deviceInfoFromAuthenticate msg
        authenticateRaw := raw
        enrolledAt := atTime
        lastSeenAt := atTime }
    queue := clearPending queue atTime }

def resetOwned (atTime : Time) : Store :=
  if id.channel.isUser then s
  else ((s.dropCertLocked id.id).resetChildrenLocked id.id atTime).clearUserAuthOfDeviceLocked id.id

def resetAuthenticateLocked (r : Record) (atTime : Time) : Store :=
  (s.resetOwned r.enrollment.id atTime).put r

def queueAt (id : String) : List QueuedCommand :=
  match s.enrollments[id]? with
  | some r => r.queue
  | none => []

def occupied : Prop :=
  (s.enrollments[id.id]?).any (fun r => r.enrollment.id ≠ id) = true

instance : Decidable (s.occupied id) :=
  inferInstanceAs (Decidable (_ = true))

def validated (id : EnrollmentID) : Except StoreError Unit :=
  match id.validate with
  | .error error => .error (.invalid error)
  | .ok _ => .ok ()

def upsertAuthenticate (msg : Option Authenticate) (raw : Bytes)
    (atTime : Time) : Except StoreError Store := do
  validated id
  reject (s.occupied id) .conflict
  onlyIf (id.channel.isUser = true) do
    let parent ← s.deviceRecordLocked id
    reject (parent.enrollment.disabledAt ≠ 0) .disabled
  pure (s.resetAuthenticateLocked (freshRecord (s.queueAt id.id) id msg raw atTime) atTime)

def pin (r : Record) (dev : EnrollmentID) (hash : String) (atTime : Time) : Store :=
  let s := { s with certs := s.certs.insert hash dev }
  let s := s.put { r with enrollment := { r.enrollment with certHash := hash, certHashAt := atTime } }
  s.recordAssociationLocked dev hash atTime

def authenticateEnrollment (c : AuthenticateChange) :
    Except StoreError (Store × AuthenticateResult) := do
  let retry ← checkAuthenticate id ((s.enrollments[id.id]?).map (·.enrollment)) c
  if retry then pure (s, ⟨true, false⟩)
  else
    reject (c.hash ≠ "" ∧ (s.certs[c.hash]?).any (· ≠ id)) .conflict
    reject (c.hash ≠ "" ∧ !c.allowReuse ∧ s.history.any fun h => h.hash = c.hash && h.id ≠ id)
      .conflict
    let r := freshRecord (s.queueAt id.id) id c.message c.raw c.atTime
    let s := s.resetAuthenticateLocked r c.atTime
    pure (if c.hash ≠ "" then s.pin r id c.hash c.atTime else s, ⟨true, true⟩)

def tokenUpdate (e : Enrollment) (push : Push) (msg : Option TokenUpdate) (raw : Bytes)
    (atTime : Time) : Enrollment :=
  let e := { e with
    push := push
    tokenUpdateRaw := if raw.length > 0 then raw else e.tokenUpdateRaw
    enabled := true
    tokenUpdatedAt := atTime
    lastSeenAt := atTime
    disabledAt := 0 }
  match msg with
  | none => e
  | some msg =>
    { e with
      unlockToken := if msg.unlockToken.length > 0 then msg.unlockToken else e.unlockToken
      userShortName := msg.userShortName.getD e.userShortName
      userLongName := if msg.userLongName ≠ "" then msg.userLongName else e.userLongName
      enrollmentUserID :=
        if msg.enrollmentUserID ≠ "" then msg.enrollmentUserID else e.enrollmentUserID
      notOnConsole := msg.notOnConsole }

theorem tokenUpdate_pin (e : Enrollment) (push : Push) (msg : Option TokenUpdate) (raw : Bytes)
    (atTime : Time) :
    (tokenUpdate e push msg raw atTime).id = e.id ∧
      (tokenUpdate e push msg raw atTime).certHash = e.certHash := by
  cases msg <;> exact ⟨rfl, rfl⟩

def storeTokenUpdate (push : Push) (msg : Option TokenUpdate)
    (raw : Bytes) (atTime : Time) : Except StoreError Store := do
  reject (push.valid = false) (.invalid "incomplete push info")
  let r ← s.get id
  reject (r.enrollment.disabledAt ≠ 0) .disabled
  onlyIf (id.channel.isUser = true) do
    let parent ← s.deviceRecordLocked id
    reject (parent.enrollment.disabledAt ≠ 0) .disabled
  pure (s.put { r with enrollment := tokenUpdate r.enrollment push msg raw atTime })

def disable (atTime : Time) : Except StoreError Store := do
  let r ← s.get id
  let s := s.put (r.disable atTime)
  pure (if id.channel.isUser then s else s.disableChildrenLocked id.id atTime)

def touchLastSeen (atTime : Time) : Except StoreError Store := do
  let r ← s.get id
  pure (if r.enrollment.lastSeenAt < atTime then
    s.put { r with enrollment := { r.enrollment with lastSeenAt := atTime } } else s)

def pushInfo (ids : List EnrollmentID) : List (EnrollmentID × Push) :=
  ids.dedup.filterMap fun id =>
    match s.enrollments[id.id]? with
    | none => none
    | some r =>
      if r.enrollment.id ≠ id ∨ r.enrollment.enabled = false ∨ r.enrollment.push.valid = false then
        none
      else some (id, r.enrollment.push)

def associateCert (hash : String) (atTime : Time) : Except StoreError Store := do
  reject (hash = "") (.invalid "empty certificate hash")
  let r ← s.deviceRecordLocked id
  reject ((s.certs[hash]?).any (fun owner => owner.id ≠ id.device.id))
    (.conflict ("certificate already associated with " ++ ((s.certs[hash]?).map (·.id)).getD ""))
  pure ((s.dropCertLocked id.device.id).pin r id.device hash atTime)

def certHash : Except StoreError String := do
  let r ← s.deviceRecordLocked id
  pure r.enrollment.certHash

def enrollmentByCertHash (hash : String) : Except StoreError EnrollmentID :=
  match s.certs[hash]? with
  | none => .error (.notFound "certificate hash")
  | some id => .ok id

def storeBootstrapToken (token : Bytes) (atTime : Time) : Except StoreError Store := do
  let r ← s.deviceRecordLocked id
  reject (r.enrollment.disabledAt ≠ 0) .disabled
  let s := { s with
    bootstrap := if token.length = 0 then s.bootstrap.erase id.device.id
      else s.bootstrap.insert id.device.id token }
  pure (s.put { r with enrollment := { r.enrollment with bootstrapTokenAt := atTime } })

def bootstrapToken : Except StoreError Bytes := do
  let r ← s.deviceRecordLocked id
  reject (r.enrollment.disabledAt ≠ 0) .disabled
  match s.bootstrap[id.device.id]? with
  | none => .error (.notFound ("bootstrap token for " ++ id.device.id))
  | some token => pure token

def userAuthTargetLocked : Except StoreError Unit := do
  validated id
  reject (id.channel.isUser = false)
    (.invalid ("storage: user channel required: " ++ id.id))
  reject ((s.enrollments[id.id]?).any (fun child => child.enrollment.disabledAt ≠ 0)) .disabled
  reject ((s.userAuth[id.id]?).any (fun existing => existing.id ≠ id)) .notFound
  let parent ← s.deviceRecordLocked id
  reject (parent.enrollment.disabledAt ≠ 0) .disabled

def storeUserAuthChallenge (challenge : String) (raw : Bytes)
    (atTime : Time) : Except StoreError Store := do
  reject (challenge = "") (.invalid "empty challenge")
  s.userAuthTargetLocked id
  let s := if (s.enrollments[id.id]?).isSome then s
    else s.put { enrollment := { id := id, enrolledAt := atTime, lastSeenAt := atTime } }
  pure { s with
    userAuth := s.userAuth.insert id.id
      { id := id, challenge := challenge, challengeAt := atTime, authenticateRaw := raw } }

def storeUserAuthToken (token : String) (raw : Bytes)
    (atTime : Time) : Except StoreError Store := do
  reject (token = "") (.invalid "empty token")
  s.userAuthTargetLocked id
  match s.userAuth[id.id]? with
  | none => .error (.notFound ("no challenge issued for " ++ id.id))
  | some st =>
    pure { s with
      userAuth := s.userAuth.insert id.id
        { st with
          authToken := token, tokenAt := atTime, challenge := "", challengeAt := 0
          digestRaw := raw } }

def userAuthOf : Except StoreError UserAuthState := do
  s.userAuthTargetLocked id
  match s.userAuth[id.id]? with
  | none => .error (.notFound ("user auth state for " ++ id.id))
  | some st => pure st

def clearUserAuth : Except StoreError Store := do
  s.userAuthTargetLocked id
  pure { s with userAuth := s.userAuth.erase id.id }

def tokenRow (t : ReplacementToken) (atTime : Time) : Record :=
  match s.enrollments[t.id.id]? with
  | some row => row
  | none => { enrollment := { id := t.id, enrolledAt := atTime } }

def applyTokenLocked (atTime : Time) (s : Store) (t : ReplacementToken) : Store :=
  let row := s.tokenRow t atTime
  s.putAt t.id.id { row with enrollment := applyReplacementToken row.enrollment t atTime }

def promote (e : Record) (r : Replacement) (atTime : Time) : Store :=
  let s := s.dropCertLocked id.id
  let s := { s with
    certs := s.certs.insert r.candidateHash id
    history := s.history ++ [CertAssociation.mk id r.candidateHash atTime] }
  s.put (e.promote r atTime)

def commitReplacement (e : Record) (r : Replacement) (atTime : Time) : Except StoreError Store := do
  reject (∃ t ∈ r.tokens, s.occupied t.id) .conflict
  reject (s.history.any fun h => h.hash = r.candidateHash && h.id ≠ id)
    (.conflict "candidate certificate reused")
  pure (r.tokens.foldl (applyTokenLocked atTime) (s.promote id e r atTime))

def putReplacement (id : String) (r : Option Replacement) : Store :=
  match r with
  | none => s
  | some r => { s with replacements := s.replacements.insert id r }

def transitionReplacement (change : ReplacementChange) :
    Except StoreError (Store × Option Replacement) := do
  reject (id.channel.isUser = true) (.invalid "replacement requires a device channel")
  let e ← s.get id
  match advanceReplacement (cloneReplacement s.replacements[id.id]?) e.enrollment change with
  | (_, .error error) => .error error
  | (some r, .ok true) =>
    let s ← s.commitReplacement id e r change.atTime
    pure (s.putReplacement id.id (cloneReplacement (some r)), cloneReplacement (some r))
  | (r, .ok _) => pure (s.putReplacement id.id (cloneReplacement r), cloneReplacement r)

variable {s id} {r : Record}

@[simp] theorem validated_ok (id : EnrollmentID) (done : Unit) :
    validated id = .ok done ↔ id.Valid := by
  rw [← EnrollmentID.validate_ok id ()]
  unfold validated
  split <;> simp_all

theorem get_ok : s.get id = .ok r ↔
    id.Valid ∧ s.enrollments[id.id]? = some r ∧ r.enrollment.id = id := by
  rw [← EnrollmentID.validate_ok id ()]
  unfold get
  split
  · simp_all
  · split
    · simp_all
    · split <;> simp_all <;> rintro rfl <;> assumption

theorem occupied_iff : s.occupied id ↔
    ∃ row, s.enrollments[id.id]? = some row ∧ row.enrollment.id ≠ id := by
  unfold occupied
  cases s.enrollments[id.id]? <;> simp

theorem deviceRecordLocked_ok : s.deviceRecordLocked id = .ok r ↔
    id.Valid ∧ ¬ s.occupied id ∧ s.get id.device = .ok r := by
  rw [← EnrollmentID.validate_ok id ()]
  unfold deviceRecordLocked occupied
  split
  · simp_all
  · split
    · split <;> simp_all
    · simp_all

theorem get_unoccupied (found : s.get id = .ok r) : ¬ s.occupied id := by
  obtain ⟨-, row, same⟩ := get_ok.1 found
  simp [occupied, row, same]

def ParentOpen (s : Store) (id : EnrollmentID) : Prop :=
  id.channel.isUser = true → ∃ parent, s.get id.device = .ok parent ∧
    parent.enrollment.disabledAt = 0

variable {s' : Store} {atTime : Time} {raw : Bytes}

theorem upsertAuthenticate_ok {msg : Option Authenticate}
    (accepted : s.upsertAuthenticate id msg raw atTime = .ok s') :
    id.Valid ∧ ¬ s.occupied id ∧ s.ParentOpen id ∧
      s' = s.resetAuthenticateLocked (freshRecord (s.queueAt id.id) id msg raw atTime) atTime := by
  simp only [upsertAuthenticate, bind_ok, validated_ok, reject_ok, onlyIf_ok, pure_ok, not_not,
    deviceRecordLocked_ok] at accepted
  obtain ⟨-, valid, -, free, -, parent, rfl⟩ := accepted
  refine ⟨valid, free, fun user => ?_, rfl⟩
  obtain ⟨parent, ⟨-, -, found⟩, enabled⟩ := parent user
  exact ⟨parent, found, enabled⟩

variable {c : AuthenticateChange}

theorem authenticateEnrollment_ok {result : AuthenticateResult}
    (accepted : s.authenticateEnrollment id c = .ok (s', result)) :
    ∃ retry, checkAuthenticate id ((s.enrollments[id.id]?).map (·.enrollment)) c = .ok retry ∧
      result = ⟨true, !retry⟩ ∧ (retry = true → s' = s) ∧
      (retry = false →
        (c.hash ≠ "" → ∀ owner, s.certs[c.hash]? = some owner → owner = id) ∧
        s' = (let r := freshRecord (s.queueAt id.id) id c.message c.raw c.atTime
          let reset := s.resetAuthenticateLocked r c.atTime
          if c.hash ≠ "" then reset.pin r id c.hash c.atTime else reset)) := by
  simp only [authenticateEnrollment, bind_ok] at accepted
  obtain ⟨retry, checked, accepted⟩ := accepted
  refine ⟨retry, checked, ?_⟩
  cases retry with
  | true =>
    simp only [if_true, pure_ok, Prod.mk.injEq] at accepted
    simp [accepted.1, ← accepted.2]
  | false =>
    simp only [Bool.false_eq_true, if_false, bind_ok, reject_ok, pure_ok, Prod.mk.injEq, not_and,
      ne_eq] at accepted
    obtain ⟨-, free, -, -, same, rfl⟩ := accepted
    refine ⟨rfl, by simp, fun _ => ⟨fun named owner found => ?_, same.symm⟩⟩
    simpa [found] using free named

theorem checkAuthenticate_new {e : Option Enrollment} {retry : Bool}
    (checked : checkAuthenticate id e c = .ok retry) :
    id.Valid ∧ id.channel.isUser = false ∧ c.atTime ≠ 0 ∧ ∀ found, e = some found →
      found.id = id ∧ (found.disabledAt = 0 ∨
        (c.allowReenroll = true ∧ c.hash ≠ "" ∧ c.hash ≠ found.certHash)) ∧
      (retry = true ↔ c.hash ≠ "" ∧ found.certHash = c.hash) := by
  unfold checkAuthenticate at checked
  split at checked
  · simp at checked
  next shape =>
  simp only [not_or, not_not, Bool.not_eq_true] at shape
  refine ⟨shape.1, shape.2.1, shape.2.2, ?_⟩
  rintro found rfl
  dsimp only at checked
  split at checked
  · simp at checked
  next same =>
  split at checked
  · simp at checked
  next enabled =>
  have open_ : found.disabledAt = 0 ∨
      (c.allowReenroll = true ∧ c.hash ≠ "" ∧ c.hash ≠ found.certHash) := by
    by_cases now : found.disabledAt = 0
    · exact .inl now
    · simp only [now, not_false_eq_true, true_and, not_or, ne_eq,
        Bool.not_eq_true', Bool.not_eq_false] at enabled
      exact .inr enabled
  refine ⟨not_not.1 same, open_, ?_⟩
  split at checked
  · next retried =>
    simp only [Except.ok.injEq] at checked
    simp [← checked, retried]
  · next fresh =>
    split at checked
    · simp at checked
    · simp only [Except.ok.injEq] at checked
      simp only [← checked, Bool.false_eq_true, false_iff]
      exact fresh

theorem checkAuthenticate_unoccupied {retry : Bool}
    (checked : checkAuthenticate id ((s.enrollments[id.id]?).map (·.enrollment)) c = .ok retry) :
    ¬ s.occupied id := by
  intro occupied
  obtain ⟨row, found, different⟩ := occupied_iff.1 occupied
  exact different ((checkAuthenticate_new checked).2.2.2 row.enrollment (by simp [found])).1

theorem storeTokenUpdate_ok {push : Push} {msg : Option TokenUpdate}
    (accepted : s.storeTokenUpdate id push msg raw atTime = .ok s') :
    ∃ r, s.get id = .ok r ∧ r.enrollment.disabledAt = 0 ∧ s.ParentOpen id ∧
      s' = s.put { r with enrollment := tokenUpdate r.enrollment push msg raw atTime } := by
  simp only [storeTokenUpdate, bind_ok, reject_ok, onlyIf_ok, pure_ok, not_not,
    deviceRecordLocked_ok] at accepted
  obtain ⟨-, -, r, found, -, enabled, -, parent, rfl⟩ := accepted
  refine ⟨r, found, enabled, fun user => ?_, rfl⟩
  obtain ⟨parent, ⟨-, -, found⟩, enabled⟩ := parent user
  exact ⟨parent, found, enabled⟩

theorem disable_ok (accepted : s.disable id atTime = .ok s') :
    ∃ r, s.get id = .ok r ∧
      s' = (let s := s.put (r.disable atTime)
        if id.channel.isUser then s else s.disableChildrenLocked id.id atTime) := by
  simp only [disable, bind_ok, pure_ok] at accepted
  obtain ⟨r, found, rfl⟩ := accepted
  exact ⟨r, found, rfl⟩

theorem associateCert_ok {hash : String} (accepted : s.associateCert id hash atTime = .ok s') :
    ∃ r, hash ≠ "" ∧ s.get id.device = .ok r ∧
      (∀ owner, s.certs[hash]? = some owner → owner.id = id.device.id) ∧
      s' = (s.dropCertLocked id.device.id).pin r id.device hash atTime := by
  simp only [associateCert, bind_ok, reject_ok, pure_ok, deviceRecordLocked_ok] at accepted
  obtain ⟨-, named, r, ⟨-, -, found⟩, -, free, rfl⟩ := accepted
  exact ⟨r, named, found, fun owner owned => by simpa [owned] using free, rfl⟩

theorem storeBootstrapToken_ok {token : Bytes}
    (accepted : s.storeBootstrapToken id token atTime = .ok s') :
    ∃ r bootstrap, s.get id.device = .ok r ∧
      s' = { s with bootstrap := bootstrap }.put
        { r with enrollment := { r.enrollment with bootstrapTokenAt := atTime } } := by
  simp only [storeBootstrapToken, bind_ok, pure_ok, deviceRecordLocked_ok] at accepted
  obtain ⟨r, ⟨-, -, found⟩, -, -, rfl⟩ := accepted
  exact ⟨r, _, found, rfl⟩

theorem storeUserAuthChallenge_ok {challenge : String}
    (accepted : s.storeUserAuthChallenge id challenge raw atTime = .ok s') :
    s.userAuthTargetLocked id = .ok () ∧ s'.certs = s.certs ∧
      (s'.enrollments = s.enrollments ∨ s.enrollments[id.id]? = none ∧
        s'.enrollments = (s.put
          { enrollment := { id := id, enrolledAt := atTime, lastSeenAt := atTime } }).enrollments) := by
  simp only [storeUserAuthChallenge, bind_ok, pure_ok] at accepted
  obtain ⟨-, -, _, target, rfl⟩ := accepted
  refine ⟨target, ?_⟩
  split
  · exact ⟨rfl, .inl rfl⟩
  · next absent => exact ⟨rfl, .inr ⟨by simpa using absent, rfl⟩⟩

theorem applyTokens_frame (s : Store) (atTime : Time) (tokens : List ReplacementToken) :
    ∃ rows, tokens.foldl (applyTokenLocked atTime) s = { s with enrollments := rows } := by
  induction tokens generalizing s with
  | nil => exact ⟨s.enrollments, rfl⟩
  | cons t rest ih => exact ih (applyTokenLocked atTime s t)

theorem commitReplacement_ok {e : Record} {replacement : Replacement}
    (accepted : s.commitReplacement id e replacement atTime = .ok s') :
    (∀ t ∈ replacement.tokens, ¬ s.occupied t.id) ∧
      (∀ h ∈ s.history, h.hash = replacement.candidateHash → h.id = id) ∧
      s' = replacement.tokens.foldl (applyTokenLocked atTime) (s.promote id e replacement atTime) := by
  simp only [commitReplacement, bind_ok, reject_ok, pure_ok] at accepted
  obtain ⟨-, free, -, unused, rfl⟩ := accepted
  refine ⟨fun t member occupied => free ⟨t, member, occupied⟩, ?_, rfl⟩
  simpa using unused

theorem put_unoccupied (s : Store) (r : Record) : ¬ (s.put r).occupied r.enrollment.id := by
  simp [occupied, put, putAt]

theorem recordAssociationLocked_enrollments (s : Store) (dev : EnrollmentID) (hash : String)
    (atTime : Time) : (s.recordAssociationLocked dev hash atTime).enrollments = s.enrollments := by
  unfold recordAssociationLocked
  split <;> rfl

theorem promote_enrollments (s : Store) (id : EnrollmentID) (e : Record) (r : Replacement)
    (atTime : Time) :
    (s.promote id e r atTime).enrollments = (s.put (e.promote r atTime)).enrollments := rfl

theorem pin_certs (s : Store) (r : Record) (dev : EnrollmentID) (hash : String) (atTime : Time) :
    (s.pin r dev hash atTime).certs = s.certs.insert hash dev := by
  unfold pin recordAssociationLocked
  dsimp only
  split <;> rfl

theorem pin_enrollments (s : Store) (r : Record) (dev : EnrollmentID) (hash : String)
    (atTime : Time) :
    (s.pin r dev hash atTime).enrollments = (s.put { r with
      enrollment := { r.enrollment with certHash := hash, certHashAt := atTime } }).enrollments := by
  unfold pin recordAssociationLocked
  dsimp only
  split <;> rfl

theorem putReplacement_enrollments (s : Store) (key : String) (r : Option Replacement) :
    (s.putReplacement key r).enrollments = s.enrollments := by
  cases r <;> rfl

theorem putReplacement_certs (s : Store) (key : String) (r : Option Replacement) :
    (s.putReplacement key r).certs = s.certs := by
  cases r <;> rfl

def attemptOf (s : Store) (id : EnrollmentID) : Option Replacement :=
  cloneReplacement s.replacements[id.id]?

theorem transitionReplacement_ok {change : ReplacementChange} {out : Option Replacement}
    (accepted : s.transitionReplacement id change = .ok (s', out)) :
    ∃ e, id.channel.isUser = false ∧ s.get id = .ok e ∧
      ((∃ r, advanceReplacement (s.attemptOf id) e.enrollment change = (r, .ok false) ∧
          s' = s.putReplacement id.id (cloneReplacement r)) ∨
        ∃ r mid, advanceReplacement (s.attemptOf id) e.enrollment change = (some r, .ok true) ∧
          s.commitReplacement id e r change.atTime = .ok mid ∧
          s' = mid.putReplacement id.id (cloneReplacement (some r))) := by
  simp only [transitionReplacement, bind_ok, reject_ok, Bool.not_eq_true] at accepted
  obtain ⟨-, device, e, found, accepted⟩ := accepted
  refine ⟨e, device, found, ?_⟩
  unfold attemptOf
  split at accepted
  · simp at accepted
  · next r advanced =>
    simp only [bind_ok, pure_ok, Prod.mk.injEq] at accepted
    obtain ⟨mid, committed, rfl, -⟩ := accepted
    exact .inr ⟨r, mid, advanced, committed, rfl⟩
  · next r commit other advanced =>
    simp only [pure_ok, Prod.mk.injEq] at accepted
    cases commit with
    | false => exact .inl ⟨r, advanced, accepted.1.symm⟩
    | true =>
      cases advanceReplacement_ok advanced with
      | commit current changed _ _ _ _ => exact absurd rfl (other _ rfl)

end Store

end AppleDM.Inmem
