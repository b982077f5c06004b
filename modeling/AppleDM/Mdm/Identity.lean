import Mathlib.Logic.Basic

set_option autoImplicit false

namespace AppleDM.Mdm

abbrev Bytes := List UInt8

abbrev Time := Int

inductive Channel where
  | unknown
  | device
  | user
  | sharedIPadUser
  | userEnrollmentDevice
  | userEnrollmentUser
  deriving DecidableEq

namespace Channel

def number : Channel → Nat
  | unknown => 0
  | device => 1
  | user => 2
  | sharedIPadUser => 3
  | userEnrollmentDevice => 4
  | userEnrollmentUser => 5

def isUser (channel : Channel) : Bool :=
  channel = user || channel = sharedIPadUser || channel = userEnrollmentUser

def valid (channel : Channel) : Bool :=
  unknown.number < channel.number && channel.number ≤ userEnrollmentUser.number

end Channel

structure EnrollmentID where
  channel : Channel
  id : String
  parentID : String
  deriving DecidableEq

namespace EnrollmentID

def device (e : EnrollmentID) : EnrollmentID :=
  if !e.channel.isUser then e
  else
    { channel := if e.channel = .userEnrollmentUser then .userEnrollmentDevice else .device
      id := e.parentID
      parentID := "" }

def invalidEnrollment (reason : String) : String :=
  "mdm: invalid enrollment identity: " ++ reason

def validate (e : EnrollmentID) : Except String Unit :=
  if !e.channel.valid then .error (invalidEnrollment ("channel " ++ toString e.channel.number))
  else if e.id = "" then .error (invalidEnrollment "empty id")
  else if e.channel.isUser ∧ e.parentID = "" then
    .error (invalidEnrollment "user channel without parent")
  else if !e.channel.isUser ∧ e.parentID ≠ "" then
    .error (invalidEnrollment "device channel with parent")
  else .ok ()

structure Valid (e : EnrollmentID) : Prop where
  channel : e.channel.valid = true
  named : e.id ≠ ""
  parent : e.channel.isUser = true ↔ e.parentID ≠ ""

theorem validate_ok (e : EnrollmentID) (done : Unit) : e.validate = .ok done ↔ e.Valid := by
  have assembled : e.Valid ↔ e.channel.valid = true ∧ e.id ≠ "" ∧
      (e.channel.isUser = true ↔ e.parentID ≠ "") :=
    ⟨fun valid => ⟨valid.channel, valid.named, valid.parent⟩,
      fun ⟨channel, named, parent⟩ => ⟨channel, named, parent⟩⟩
  rw [assembled]
  unfold validate
  cases e.channel.valid <;> cases e.channel.isUser <;>
    by_cases named : e.id = "" <;> by_cases parent : e.parentID = "" <;> simp_all

instance (e : EnrollmentID) : Decidable e.Valid :=
  decidable_of_iff (e.validate.toBool = true) (by
    rw [← validate_ok e ()]
    cases e.validate <;> simp [Except.toBool])

variable {e : EnrollmentID}

theorem device_of_device (device : e.channel.isUser = false) : e.device = e := by
  simp [EnrollmentID.device, device]

theorem device_of_user (user : e.channel.isUser = true) :
    e.device.id = e.parentID ∧ e.device.parentID = "" := by
  simp [EnrollmentID.device, user]

@[simp] theorem device_isUser (e : EnrollmentID) : e.device.channel.isUser = false := by
  unfold device
  split
  · simp_all
  · dsimp only
    split <;> rfl

theorem Valid.device (valid : e.Valid) : e.device.Valid := by
  cases user : e.channel.isUser with
  | false => rwa [device_of_device user]
  | true =>
    have parent : e.parentID ≠ "" := valid.parent.1 user
    have names := device_of_user user
    refine ⟨?_, by simpa [names.1] using parent, by simp [names.2]⟩
    unfold EnrollmentID.device
    simp only [user, Bool.not_true, Bool.false_eq_true, if_false]
    split <;> rfl

theorem Valid.device_parent (valid : e.Valid)
    (device : e.channel.isUser = false) : e.parentID = "" := by
  by_cases parent : e.parentID = ""
  · exact parent
  · simp [valid.parent.2 parent] at device

end EnrollmentID

structure Push where
  topic : String
  token : Bytes
  magic : String
  deriving DecidableEq

namespace Push

def empty : Push := ⟨"", [], ""⟩

def valid (p : Push) : Bool := p.topic ≠ "" && p.token.length > 0 && p.magic ≠ ""

end Push

structure TokenUpdate where
  topic : String
  token : Bytes
  pushMagic : String
  unlockToken : Bytes
  userShortName : Option String
  userLongName : String
  enrollmentUserID : String
  notOnConsole : Bool
  deriving DecidableEq

def pushFromTokenUpdate (m : Option TokenUpdate) : Except String Push :=
  match m with
  | none => .error (EnrollmentID.invalidEnrollment "nil TokenUpdate")
  | some m =>
    let p : Push := ⟨m.topic, m.token, m.pushMagic⟩
    if !p.valid then
      .error (EnrollmentID.invalidEnrollment "TokenUpdate missing Topic, Token, or PushMagic")
    else .ok p

structure Authenticate where
  topic : String
  model : String
  modelName : String
  deviceName : String
  serialNumber : Option String
  productName : Option String
  osVersion : Option String
  buildVersion : Option String
  imei : Option String
  meid : Option String

structure Command where
  uuid : String
  requestType : String
  raw : Bytes
  deriving DecidableEq

inductive Status where
  | acknowledged
  | error
  | commandFormatError
  | idle
  | notNow
  | other (text : String)
  deriving DecidableEq

structure Response where
  id : EnrollmentID
  commandUUID : String
  status : Status
  raw : Bytes
  deriving DecidableEq

def Response.isIdle (r : Response) : Bool := r.status = .idle

end AppleDM.Mdm
