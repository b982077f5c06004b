import AppleDM.Shared.Checked
import AppleDM.Shared.Table
import AppleDM.Json.Value
import Mathlib.Data.List.Destutter

set_option autoImplicit false

-- The administrative principals, and the Cedar policies that grant them authority.
namespace AppleDM.AdminAuth

open Checked Mdm Jsontext

inductive Kind where
  | notFound | conflict | invalid | revoked | expired | denied | lastRoot | unknownAction
  | other
  deriving DecidableEq

def Kind.text : Kind → String
  | .notFound => "adminauth: not found"
  | .conflict => "adminauth: conflict"
  | .invalid => "adminauth: invalid"
  | .revoked => "adminauth: token revoked"
  | .expired => "adminauth: token expired"
  | .denied => "adminauth: denied"
  | .lastRoot => "adminauth: last root principal"
  | .unknownAction => "adminauth: unknown action"
  | .other => ""

structure Fault where
  kind : Kind
  text : String
  deriving DecidableEq

def Kind.fault (kind : Kind) : Fault := ⟨kind, kind.text⟩

def Kind.because (kind : Kind) (detail : String) : Fault := ⟨kind, kind.text ++ ": " ++ detail⟩

structure Principal where
  name : String
  roles : List String := []
  root : Bool := false
  createdAt : Time := 0
  updatedAt : Time := 0
  tokenID : String := ""
  tokenAt : Time := 0
  expiresAt : Time := 0
  deriving DecidableEq

structure Role where
  name : String
  description : String := ""
  createdAt : Time := 0
  updatedAt : Time := 0

structure Policy where
  name : String
  source : String
  description : String := ""
  active : Option Bool := none
  createdAt : Time := 0
  updatedAt : Time := 0
  deriving DecidableEq

def Principal.active (p : Principal) (now : Time) : Except Fault Unit := do
  reject (p.tokenID = "") Kind.revoked.fault
  reject (p.expiresAt ≠ 0 ∧ ¬ now < p.expiresAt) Kind.expired.fault

theorem Principal.active_ok {p : Principal} {now : Time} :
    p.active now = .ok () ↔ p.tokenID ≠ "" ∧ (p.expiresAt = 0 ∨ now < p.expiresAt) := by
  simp only [active, bind_ok, reject_ok]
  constructor
  · rintro ⟨_, held, current⟩
    exact ⟨held, by tauto⟩
  · rintro ⟨held, current⟩
    exact ⟨(), held, by tauto⟩

def nameChar (c : Char) : Bool :=
  ('a' ≤ c && c ≤ 'z') || ('A' ≤ c && c ≤ 'Z') || ('0' ≤ c && c ≤ '9') || c = '-' || c = '_' ||
    c = '.'

def validName (name : String) : Bool :=
  name ≠ "" && name.utf8ByteSize ≤ 64 && name.toList.all nameChar

def sorted (names : List String) : List String := names.insertionSort (· ≤ ·)

def Policy.enabled (p : Policy) : Bool := p.active.getD true

structure EntityUID where
  kind : String := ""
  id : String := ""
  deriving DecidableEq

def entityPrincipal : String := "MDM::Principal"
def entityRole : String := "MDM::Role"
def entityAction : String := "MDM::Action"
def systemResource : EntityUID := ⟨"MDM::System", "any"⟩

structure Request (Context : Type) where
  principal : EntityUID
  parents : List EntityUID
  action : EntityUID
  resource : EntityUID
  context : Context

structure Evaluation where
  allow : Bool
  reasons : List String := []
  errors : List (String × String) := []

/-- The Cedar library, with the schema of the registry it validates against. -/
structure Cedar (Statement Context : Type) where
  parse : String → Except String (List (String × Statement))
  marshalJSON : Statement → Except String Value
  marshalCedar : Statement → List Char
  validatePolicy : String → Statement → Except String Unit
  validateRequest : Request Context → Except String Unit
  authorize : Table String Statement → Request Context → Evaluation

structure Registry where
  ids : List String
  groups : List String := []

variable {Statement Context : Type} (cedar : Cedar Statement Context) (reg : Registry)

def referred (kind : String) (members : List (List Char × Value)) : Option String :=
  match members.lookup "type".toList, members.lookup "id".toList with
  | some (.string type), some (.string id) =>
    if type = kind.toList then some (String.ofList id) else none
  | _, _ => none

def note (out : List String) : Option String → List String
  | some id => if id ∈ out then out else out ++ [id]
  | none => out

mutual

def visit (kind : String) (out : List String) : Value → List String
  | .object members => visitMembers kind (note out (referred kind members)) members
  | .array items => visitItems kind out items
  | _ => out

def visitMembers (kind : String) (out : List String) : List (List Char × Value) → List String
  | [] => out
  | (_, child) :: rest => visitMembers kind (visit kind out child) rest

def visitItems (kind : String) (out : List String) : List Value → List String
  | [] => out
  | child :: rest => visitItems kind (visit kind out child) rest

end

def references (source kind : String) : Except Fault (List String) := do
  let set ← (cedar.parse source).mapError Kind.invalid.because
  let out ← set.foldlM (fun out entry => do
    let value ← (cedar.marshalJSON entry.2).mapError (Fault.mk .other)
    return visit kind out value) []
  return sorted out

def following (marker : List Char) : List Char → Option (List Char)
  | [] => none
  | c :: rest =>
    if marker.isPrefixOf (c :: rest) then some ((c :: rest).drop marker.length)
    else following marker rest

/-- Every action that rendered Cedar names. Each round reads past a marker, so the length of the
text bounds their number. -/
def actionIDs (src : List Char) : List String :=
  loop src.length src []
where
  loop : Nat → List Char → List String → List String
    | 0, _, out => out
    | rounds + 1, rest, out =>
      match following (entityAction ++ "::\"").toList rest with
      | none => out
      | some rest =>
        if '"' ∈ rest then
          loop rounds ((rest.dropWhile (· ≠ '"')).drop 1)
            (note out (some (String.ofList (rest.takeWhile (· ≠ '"')))))
        else out

def checkActions (doc : String) (statement : Statement) : Except Fault Unit :=
  (actionIDs (cedar.marshalCedar statement)).forM fun id =>
    reject (id ∉ reg.ids ∧ id ∉ reg.groups) (Kind.unknownAction.because
      ("policy " ++ doc.quote ++ " names " ++ id.quote ++ "; known actions: " ++
        ", ".intercalate (sorted reg.ids)))

structure PolicySet (Statement : Type) where
  set : Table String Statement
  version : Int

def compileDoc (set : Table String Statement) (doc : Policy) :
    Except Fault (Table String Statement) :=
  if doc.enabled then do
    let parsed ← (cedar.parse doc.source).mapError fun text =>
      Kind.invalid.because ("policy " ++ doc.name.quote ++ ": " ++ text)
    parsed.foldlM (fun set entry => do
      checkActions cedar reg doc.name entry.2
      let id := doc.name ++ "/" ++ entry.1
      (cedar.validatePolicy id entry.2).mapError fun text =>
        Kind.invalid.because ("policy " ++ id ++ ": " ++ text)
      return set.insert id entry.2) set
  else .ok set

def compile (version : Int) (docs : List Policy) : Except Fault (PolicySet Statement) := do
  let set ← docs.foldlM (compileDoc cedar reg) ∅
  return ⟨set, version⟩

theorem compile_version {version : Int} {docs : List Policy} {set : PolicySet Statement}
    (compiled : compile cedar reg version docs = .ok set) : set.version = version := by
  simp only [compile, bind_ok, pure_ok] at compiled
  obtain ⟨_, -, rfl⟩ := compiled
  rfl

def validate (doc : Policy) : Except Fault Unit := do
  reject (validName doc.name = false) (Kind.invalid.because ("policy name " ++ doc.name.quote))
  let _ ← compile cedar reg 0 [{ doc with active := none }]

structure Decision where
  allowed : Bool := false
  policy : String := ""
  policies : List String := []
  version : Int := 0
  errors : List String := []

def request (p : Principal) (action : String) (resource : EntityUID) (context : Context) :
    Request Context where
  principal := ⟨entityPrincipal, p.name⟩
  parents := p.roles.map (⟨entityRole, ·⟩)
  action := ⟨entityAction, action⟩
  resource := if resource = {} then systemResource else resource
  context

def PolicySet.authorize (set : PolicySet Statement) (p : Principal) (action : String)
    (resource : EntityUID) (context : Context) : Decision :=
  let req := request p action resource context
  match cedar.validateRequest req with
  | .error text => { errors := [text], version := set.version }
  | .ok () =>
    let found := cedar.authorize set.set req
    let policies := sorted found.reasons
    { allowed := found.allow && found.errors.isEmpty
      policy := policies.headD ""
      policies
      version := set.version
      errors := found.errors.map fun e => e.1 ++ ": " ++ e.2 }

theorem PolicySet.authorize_version (set : PolicySet Statement) (p : Principal) (action : String)
    (resource : EntityUID) (context : Context) :
    (set.authorize cedar p action resource context).version = set.version := by
  unfold authorize
  dsimp only
  split <;> rfl

end AppleDM.AdminAuth
