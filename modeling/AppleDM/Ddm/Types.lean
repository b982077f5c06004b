import AppleDM.Shared.Members
import AppleDM.Mdm.Identity

set_option autoImplicit false

namespace AppleDM.Ddm

open Mdm

inductive Sentinel where
  | notFound
  | conflict
  | invalid
  | unknownType
  | invalidDeclaration
  | resolver
  | expander
  deriving DecidableEq

structure Error where
  sentinel : Sentinel
  detail : String := ""
  deriving DecidableEq

namespace Error

def invalid (detail : String) : Error := ⟨.invalid, detail⟩

def notFound (what name : String) : Error := ⟨.notFound, what ++ " " ++ name.quote⟩

end Error

inductive Kind where
  | activation
  | asset
  | base
  | configuration
  | credential
  | management
  deriving DecidableEq

namespace Kind

def text : Kind → String
  | activation => "activation"
  | asset => "asset"
  | base => "base"
  | configuration => "configuration"
  | credential => "credential"
  | management => "management"

instance : Ord Kind := ⟨compareOn text⟩

instance : Std.TransOrd Kind := inferInstanceAs (Std.TransCmp (compareOn text))

instance : Std.LawfulEqOrd Kind where
  eq_of_compare {a b} same := by
    have names : a.text = b.text := Std.compare_eq_iff_eq.1 same
    revert names
    cases a <;> cases b <;> decide

end Kind

structure Declaration where
  identifier : String
  type : String
  kind : Kind
  serverToken : String
  canonical : Bytes
  createdAt : Time := 0
  updatedAt : Time := 0

structure DeclarationVersion where
  identifier : String
  type : String
  serverToken : String
  canonical : Bytes
  createdAt : Time

structure DeclarationSet where
  name : String
  createdAt : Time
  updatedAt : Time

structure DeclarationRef where
  kind : Kind
  identifier : String
  serverToken : String
  deriving DecidableEq

structure SnapshotItem extends DeclarationRef where
  baseToken : String := ""
  expanded : Option Bytes := none

structure Snapshot where
  id : EnrollmentID
  declarationsToken : String
  items : List SnapshotItem
  tokenChangedAt : Time
  refreshedAt : Time

structure DeclarationStatus where
  kind : Kind
  identifier : String
  serverToken : String
  active : Bool
  valid : String
  reasons : Bytes := []
  firstSeen : Time := 0
  lastSeen : Time := 0
  deriving DecidableEq

structure StatusValue where
  path : String
  value : Bytes
  firstSeen : Time := 0
  lastSeen : Time := 0

structure StatusError where
  seq : Nat := 0
  statusItem : String
  reasons : Bytes := []
  receivedAt : Time := 0

structure StatusReportRecord where
  seq : Nat
  fullReport : Bool
  raw : Bytes
  receivedAt : Time

structure StatusUpdate where
  raw : Bytes := []
  receivedAt : Time
  fullReport : Bool := false
  hasDeclarations : Bool := false
  declarations : List DeclarationStatus := []
  values : List StatusValue := []
  errors : List StatusError := []
  keepReports : Int := 0

structure StatusOutcome where
  seq : Nat
  removed : List DeclarationRef
  removedValues : List String
  prunedReports : Nat

structure Change where
  seq : Nat
  id : EnrollmentID
  reason : String
  createdAt : Time
  attempts : Nat := 0
  lastError : String := ""
  nextAttemptAt : Time

def compareRefs (a b : DeclarationRef) : Ordering :=
  ((compare a.kind b.kind).then (compare a.identifier b.identifier)).then
    (compare a.serverToken b.serverToken)

def sortRefs (refs : List DeclarationRef) : List DeclarationRef :=
  refs.insertionSort fun a b => compareRefs a b ≠ .gt

end AppleDM.Ddm
