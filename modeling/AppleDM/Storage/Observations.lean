import Mathlib.Algebra.Group.Nat.Defs
import Mathlib.Algebra.Group.Int.Defs
import AppleDM.Storage.Types

set_option autoImplicit false

namespace AppleDM.Storage

open Mdm

namespace OSVersion

structure Version where
  major : Nat := 0
  minor : Nat := 0
  patch : Nat := 0
  deriving DecidableEq

def isSpace (c : Char) : Bool :=
  ['\t', '\n', '\x0b', '\x0c', '\r', ' '].contains c ||
    [0x85, 0xA0, 0x1680, 0x2028, 0x2029, 0x202F, 0x205F, 0x3000].contains c.toNat ||
    (0x2000 ≤ c.toNat && c.toNat ≤ 0x200A)

def trimSpace (s : List Char) : List Char :=
  ((s.dropWhile isSpace).reverse.dropWhile isSpace).reverse

def digits : List Char → Option Nat
  | [] => none
  | c :: rest => (c :: rest).foldl
      (fun value c => value.bind fun value =>
        if c.isDigit then some (10 * value + (c.toNat - '0'.toNat)) else none) (some 0)

def atoi (s : List Char) : Option Nat :=
  let value := match s with
    | '+' :: rest => digits rest
    | '-' :: rest => (digits rest).filter (· = 0)
    | s => digits s
  value.filter (· < 2 ^ 63)

def parse (s : String) : Option Version :=
  let s := trimSpace s.toList
  if s = [] then none
  else
    match (s.splitOn '.').mapM atoi with
    | some [major] => some { major := major }
    | some [major, minor] => some { major := major, minor := minor }
    | some [major, minor, patch] => some ⟨major, minor, patch⟩
    | _ => none

def isZero (v : Version) : Bool := v = {}

end OSVersion

structure DeviceInformation where
  isSupervised : Option Bool
  isAppleSilicon : Option Bool
  osVersion : Option String
  productName : Option String
  buildVersion : Option String

structure ManagementStatus where
  enrolledViaDEP : Option Bool
  userApprovedEnrollment : Option Bool

inductive ResponsePayload where
  | deviceInformation (queryResponses : DeviceInformation)
  | securityInfo (managementStatus : Option ManagementStatus)
  | other

structure DecodedResponse where
  commandUUID : String
  status : Status
  payload : ResponsePayload

/-- `mdm.DecodeResponse`: the property list decoder, which may refuse its input. -/
abbrev DecodeResponse := Bytes → String → Option DecodedResponse

def observed (p : Bool) : Capability := if p then .true else .false

variable (decodeResponse : DecodeResponse)

def capabilitiesFromResult (old : Capabilities) (id : EnrollmentID) (requestType : String)
    (r : Response) (atTime : Time) : Capabilities :=
  if id.channel.isUser ∨ r.status ≠ .acknowledged ∨
      (requestType ≠ "DeviceInformation" ∧ requestType ≠ "SecurityInfo") then old
  else
    let stamped (changed : Bool) (new : Capabilities) : Capabilities :=
      if changed then { new with source := "device:" ++ requestType, observedAt := atTime } else new
    match (decodeResponse r.raw requestType).map DecodedResponse.payload with
    | some (.deviceInformation p) =>
      stamped (p.isSupervised.isSome || p.isAppleSilicon.isSome)
        { old with
          supervised := (p.isSupervised.map observed).getD old.supervised
          appleSilicon := (p.isAppleSilicon.map observed).getD old.appleSilicon }
    | some (.securityInfo (some m)) =>
      stamped (m.enrolledViaDEP.isSome || m.userApprovedEnrollment.isSome)
        { old with
          dep := (m.enrolledViaDEP.map observed).getD old.dep
          userApproved := (m.userApprovedEnrollment.map observed).getD old.userApproved }
    | _ => old

def deviceInfoFromResult (old : DeviceInfo) (id : EnrollmentID) (requestType : String)
    (response : Response) : DeviceInfo :=
  if id.channel.isUser ∨ response.status ≠ .acknowledged ∨ requestType ≠ "DeviceInformation" then
    old
  else
    match decodeResponse response.raw requestType with
    | some ⟨commandUUID, status, .deviceInformation observed⟩ =>
      if status ≠ .acknowledged ∨ commandUUID ≠ response.commandUUID then old
      else
        { old with
          osVersion := (observed.osVersion.filter fun v =>
            (OSVersion.parse v).any fun v => !OSVersion.isZero v).getD old.osVersion
          productName := (observed.productName.filter (· ≠ "")).getD old.productName
          buildVersion := (observed.buildVersion.filter (· ≠ "")).getD old.buildVersion }
    | _ => old

end AppleDM.Storage
