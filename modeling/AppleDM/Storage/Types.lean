import AppleDM.Mdm.Identity

set_option autoImplicit false

namespace AppleDM.Storage

open Mdm

inductive Sentinel where
  | notFound
  | disabled
  | conflict
  | invalid
  deriving DecidableEq

structure StoreError where
  sentinel : Sentinel
  detail : String := ""
  deriving DecidableEq

namespace StoreError

def notFound (detail : String := "") : StoreError := ⟨.notFound, detail⟩

def disabled (detail : String := "") : StoreError := ⟨.disabled, detail⟩

def conflict (detail : String := "") : StoreError := ⟨.conflict, detail⟩

def invalid (detail : String := "") : StoreError := ⟨.invalid, detail⟩

end StoreError

structure DeviceInfo where
  serialNumber : String := ""
  model : String := ""
  modelName : String := ""
  deviceName : String := ""
  productName : String := ""
  osVersion : String := ""
  buildVersion : String := ""
  imei : String := ""
  meid : String := ""
  topic : String := ""
  deriving DecidableEq

inductive Capability where
  | unknown
  | false
  | true
  deriving DecidableEq

structure Capabilities where
  supervised : Capability := .unknown
  dep : Capability := .unknown
  userApproved : Capability := .unknown
  appleSilicon : Capability := .unknown
  source : String := ""
  observedAt : Time := 0
  deriving DecidableEq

structure Enrollment where
  capabilities : Capabilities := {}
  id : EnrollmentID
  enabled : Bool := false
  push : Push := .empty
  device : DeviceInfo := {}
  userShortName : String := ""
  userLongName : String := ""
  notOnConsole : Bool := false
  enrollmentUserID : String := ""
  unlockToken : Bytes := []
  authenticateRaw : Bytes := []
  tokenUpdateRaw : Bytes := []
  enrolledAt : Time := 0
  tokenUpdatedAt : Time := 0
  lastSeenAt : Time := 0
  disabledAt : Time := 0
  certHash : String := ""
  certHashAt : Time := 0
  bootstrapTokenAt : Time := 0
  deriving DecidableEq

inductive State where
  | pending
  | sent
  | notNow
  | acknowledged
  | error
  | cleared
  deriving DecidableEq

def State.terminal (s : State) : Bool := s = .acknowledged || s = .error || s = .cleared

structure QueuedCommand where
  command : Command
  state : State := .pending
  dedupeKey : String := ""
  enqueuedAt : Time := 0
  lastSentAt : Time := 0
  notNowUntil : Time := 0
  attempts : Nat := 0
  notNowCount : Nat := 0
  completedAt : Time := 0
  result : Option Response := none
  deriving DecidableEq

structure EnqueueOptions where
  dedupeKey : String := ""
  now : Time := 0

structure EnqueueResult where
  queued : List EnrollmentID := []
  skipped : List (EnrollmentID × StoreError) := []

def EnqueueResult.skip (res : EnqueueResult) (id : EnrollmentID) (error : StoreError) :
    EnqueueResult :=
  { res with skipped := res.skipped.filter (·.1 ≠ id) ++ [(id, error)] }

def EnqueueResult.queue (res : EnqueueResult) (id : EnrollmentID) : EnqueueResult :=
  { res with queued := res.queued ++ [id] }

structure ClearFilter where
  commandUUID : String := ""
  states : List State := []
  requestType : String := ""
  before : Time := 0

structure CertAssociation where
  id : EnrollmentID
  hash : String
  atTime : Time
  deriving DecidableEq

structure UserAuthState where
  id : EnrollmentID
  challenge : String := ""
  challengeAt : Time := 0
  authToken : String := ""
  tokenAt : Time := 0
  authenticateRaw : Bytes := []
  digestRaw : Bytes := []
  deriving DecidableEq

structure EnrollmentExport where
  enrollment : Enrollment
  bootstrapToken : Bytes
  certHistory : List CertAssociation

structure Page where
  cursor : String := ""
  limit : Int := 0

structure PageResult (Item : Type) where
  items : List Item
  nextCursor : String

def defaultPageSize : Nat := 100

def maxPageSize : Nat := 1000

def Page.size (p : Page) : Nat :=
  if p.limit ≤ 0 then defaultPageSize
  else if p.limit > maxPageSize then maxPageSize
  else p.limit.toNat

theorem Page.size_pos (p : Page) : 0 < p.size := by
  unfold size
  split
  · decide
  · split
    · decide
    · omega

def second : Time := 1000000000

def minute : Time := 60 * second

def hour : Time := 60 * minute

def notNowBackoffFrom : Nat → Time → Time
  | 0, d => d
  | n + 1, d => if d < hour then notNowBackoffFrom n (d * 2) else d

def notNowBackoff (attempt : Nat) : Time :=
  min (notNowBackoffFrom (attempt - 1) (30 * second)) hour

theorem notNowBackoff_pos (attempt : Nat) : 0 < notNowBackoff attempt := by
  have grows (n : Nat) (d : Time) (positive : 0 < d) : 0 < notNowBackoffFrom n d := by
    induction n generalizing d with
    | zero => exact positive
    | succ n ih =>
      unfold notNowBackoffFrom
      split
      · exact ih (d * 2) (Int.mul_pos positive (by decide))
      · exact positive
  exact Int.lt_min.2 ⟨grows _ _ (by decide), by decide⟩

def deviceInfoFromAuthenticate (m : Option Authenticate) : DeviceInfo :=
  match m with
  | none => {}
  | some m =>
    { topic := m.topic
      model := m.model
      modelName := m.modelName
      deviceName := m.deviceName
      serialNumber := m.serialNumber.getD ""
      productName := m.productName.getD ""
      osVersion := m.osVersion.getD ""
      buildVersion := m.buildVersion.getD ""
      imei := m.imei.getD ""
      meid := m.meid.getD "" }

structure AuthenticateChange where
  expectedHash : String := ""
  hash : String := ""
  allowReuse : Bool := false
  allowReenroll : Bool := false
  message : Option Authenticate := none
  raw : Bytes := []
  atTime : Time

structure AuthenticateResult where
  known : Bool
  reset : Bool
  deriving DecidableEq

def checkAuthenticate (id : EnrollmentID) (e : Option Enrollment) (c : AuthenticateChange) :
    Except StoreError Bool :=
  if ¬ id.Valid ∨ id.channel.isUser ∨ c.atTime = 0 then
    .error (.invalid "authentication requires a device identity and timestamp")
  else
    match e with
    | none => if c.expectedHash ≠ "" then .error .conflict else .ok false
    | some e =>
      if e.id ≠ id then .error .conflict
      else if e.disabledAt ≠ 0 ∧ (!c.allowReenroll ∨ c.hash = "" ∨ c.hash = e.certHash) then
        .error .disabled
      else if c.hash ≠ "" ∧ e.certHash = c.hash then .ok true
      else if e.certHash ≠ c.expectedHash then .error .conflict
      else .ok false

end AppleDM.Storage
