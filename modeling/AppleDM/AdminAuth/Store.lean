import AppleDM.AdminAuth.Policy
import AppleDM.Shared.Evolution

set_option autoImplicit false

namespace AppleDM.AdminAuth

open Checked Mdm Jsontext Evolution

inductive PrincipalChange where
  | update (roles : List String) (root : Bool)
  | rotate (digest tokenID : String) (expiresAt : Time)
  | revoke
  | delete
  deriving DecidableEq

def compact (names : List String) : List String := names.destutter (· ≠ ·)

def PrincipalChange.apply (change : PrincipalChange) (p : Principal) (now : Time) :
    Except Fault Principal :=
  match change with
  | .update roles root => do
    roles.forM fun role => reject (validName role = false) (Kind.invalid.because "role name")
    return { p with updatedAt := now, roles := compact (sorted roles), root }
  | .rotate digest tokenID expiresAt => do
    reject (digest = "" ∨ tokenID = "") (Kind.invalid.because "missing credential digest or id")
    return { p with updatedAt := now, tokenID, tokenAt := now, expiresAt }
  | .revoke | .delete =>
    return { p with updatedAt := now, tokenID := "", tokenAt := 0, expiresAt := 0 }

theorem PrincipalChange.apply_name {change : PrincipalChange} {p p' : Principal} {now : Time}
    (done : change.apply p now = .ok p') : p'.name = p.name := by
  cases change <;> simp only [apply, bind_ok, pure_ok] at done
  case update =>
    obtain ⟨_, -, rfl⟩ := done
    rfl
  case rotate =>
    obtain ⟨_, -, rfl⟩ := done
    rfl
  all_goals exact done ▸ rfl

structure Record where
  p : Principal
  digest : String
  deriving DecidableEq

def Record.Usable (r : Record) (now : Time) : Prop :=
  r.p.root = true ∧ r.p.active now = .ok () ∧ r.digest ≠ ""

instance (r : Record) (now : Time) : Decidable (r.Usable now) :=
  inferInstanceAs (Decidable (_ ∧ _ ∧ _))

def PrincipalChange.digest (change : PrincipalChange) (old : String) : String :=
  match change with
  | .rotate digest _ _ => digest
  | .revoke => ""
  | _ => old

structure Store where
  principals : Table String Record := ∅
  policies : Table String Policy := ∅
  version : Int := 0
  roles : Table String Role := ∅
  initialized : Bool := false

namespace Store

variable (s : Store)

def validateRoles (names : List String) : Except Fault Unit :=
  names.forM fun name =>
    reject (name ∉ s.roles) (Kind.invalid.because ("unknown role " ++ name.quote))

def survivor (name : String) (now : Time) : Bool :=
  s.principals.toList.any fun entry => entry.1 ≠ name ∧ entry.2.Usable now

def checkRoles : PrincipalChange → Except Fault Unit
  | .update roles _ => s.validateRoles roles
  | _ => .ok ()

def applyPrincipal (name : String) (change : PrincipalChange) (now : Time) :
    Except Fault (Principal × Store) :=
  match s.principals[name]? with
  | none => .error Kind.notFound.fault
  | some r => do
    s.checkRoles change
    let p ← change.apply r.p now
    reject ((r.p.root = true ∧ r.p.active now = .ok ()) ∧
      (p.root = false ∨ p.active now ≠ .ok ()) ∧ s.survivor name now = false) Kind.lastRoot.fault
    match change with
    | .delete => return (p, { s with principals := s.principals.erase name })
    | _ => return (p, { s with
        principals := s.principals.insert name ⟨p, change.digest r.digest⟩ })

def createPrincipal (p : Principal) (digest : String) (now : Time) :
    Except Fault (Principal × Store) := do
  reject (validName p.name = false) Kind.invalid.fault
  s.validateRoles p.roles
  reject (p.name ∈ s.principals) (Kind.conflict.because ("principal " ++ p.name.quote))
  let p := { p with roles := sorted p.roles, createdAt := now, updatedAt := now, tokenAt := now }
  return (p, { s with principals := s.principals.insert p.name ⟨p, digest⟩, initialized := true })

def principal (name : String) : Except Fault Principal :=
  match s.principals[name]? with
  | none => .error (Kind.notFound.because ("principal " ++ name.quote))
  | some r => .ok r.p

def principalByDigest (digest : String) : Except Fault Principal := do
  reject (digest = "") (Kind.notFound.because "token")
  match s.principals.values.find? fun r => r.digest = digest with
  | none => .error (Kind.notFound.because "token")
  | some r => return r.p

def bootstrapPrincipal (p : Principal) (digest : String) (now : Time) :
    Except Fault (Principal × Store) := do
  reject (s.initialized = true ∨ s.principals.size ≠ 0) Kind.conflict.fault
  reject (p.root = false ∨ p.tokenID = "" ∨ digest = "" ∨ p.active now ≠ .ok ())
    Kind.invalid.fault
  s.createPrincipal p digest now

section Written

variable {s} {s' : Store} {name : String} {change : PrincipalChange} {now : Time}
  {p given : Principal} {digest : String}

theorem validateRoles_ok {names : List String} (done : Unit) :
    s.validateRoles names = .ok done ↔ ∀ name ∈ names, name ∈ s.roles := by
  unfold validateRoles
  rw [forM_ok]
  simp

theorem survivor_iff :
    s.survivor name now = true ↔
      ∃ key r, key ≠ name ∧ s.principals[key]? = some r ∧ r.Usable now := by
  simp only [survivor, List.any_eq_true, Prod.exists, decide_eq_true_eq,
    Std.ExtTreeMap.mem_toList_iff_getElem?_eq_some]
  exact ⟨fun ⟨key, r, there, other, usable⟩ => ⟨key, r, other, there, usable⟩,
    fun ⟨key, r, other, there, usable⟩ => ⟨key, r, there, other, usable⟩⟩

structure Applied (s : Store) (name : String) (change : PrincipalChange) (now : Time)
    (p : Principal) (s' : Store) (r : Record) : Prop where
  found : s.principals[name]? = some r
  roles : s.checkRoles change = .ok ()
  applied : change.apply r.p now = .ok p
  guarded : r.p.root = true → r.p.active now = .ok () → p.root = false ∨ p.active now ≠ .ok () →
    s.survivor name now = true
  wrote : ∀ key, s'.principals[key]? =
    if key = name then (if change = .delete then none else some ⟨p, change.digest r.digest⟩)
    else s.principals[key]?
  policies : s'.policies = s.policies
  version : s'.version = s.version
  catalogue : s'.roles = s.roles
  initialized : s'.initialized = s.initialized

theorem applyPrincipal_ok (ran : s.applyPrincipal name change now = .ok (p, s')) :
    ∃ r, Applied s name change now p s' r := by
  unfold applyPrincipal at ran
  split at ran
  · cases ran
  · next r found =>
    simp only [bind_ok, reject_ok] at ran
    obtain ⟨_, roles, out, applied, _, guarded, ran⟩ := ran
    have survives : r.p.root = true → r.p.active now = .ok () →
        out.root = false ∨ out.active now ≠ .ok () → s.survivor name now = true := by
      intro root active lost
      by_contra none
      exact guarded ⟨⟨root, active⟩, lost, by simpa using none⟩
    refine ⟨r, ?_⟩
    cases change with
    | delete =>
      simp only [pure_ok, Prod.mk.injEq] at ran
      obtain ⟨rfl, rfl⟩ := ran
      exact ⟨found, roles, applied, survives, fun key => by simp [getElem?_erase_eq], rfl, rfl, rfl,
        rfl⟩
    | _ =>
      simp only [pure_ok, Prod.mk.injEq] at ran
      obtain ⟨rfl, rfl⟩ := ran
      exact ⟨found, roles, applied, survives, fun key => by simp [getElem?_insert_eq], rfl, rfl, rfl,
        rfl⟩

structure Created (s : Store) (given : Principal) (digest : String) (now : Time) (p : Principal)
    (s' : Store) : Prop where
  absent : s.principals[given.name]? = none
  known : ∀ role ∈ given.roles, role ∈ s.roles
  record : p = { given with
    roles := sorted given.roles, createdAt := now, updatedAt := now, tokenAt := now }
  wrote : ∀ key, s'.principals[key]? =
    if key = given.name then some ⟨p, digest⟩ else s.principals[key]?
  policies : s'.policies = s.policies
  version : s'.version = s.version
  catalogue : s'.roles = s.roles
  initialized : s'.initialized = true

theorem createPrincipal_ok (ran : s.createPrincipal given digest now = .ok (p, s')) :
    Created s given digest now p s' := by
  simp only [createPrincipal, bind_ok, reject_ok, pure_ok, Prod.mk.injEq] at ran
  obtain ⟨_, -, _, known, _, absent, rfl, rfl⟩ := ran
  exact ⟨by simpa using absent, (validateRoles_ok ()).1 known, rfl, fun key => by
    simp [getElem?_insert_eq], rfl, rfl, rfl, rfl⟩

theorem bootstrapPrincipal_ok (ran : s.bootstrapPrincipal given digest now = .ok (p, s')) :
    s.initialized = false ∧ Created s given digest now p s' := by
  simp only [bootstrapPrincipal, bind_ok, reject_ok, not_or, Bool.not_eq_true] at ran
  obtain ⟨_, ⟨fresh, -⟩, _, -, created⟩ := ran
  exact ⟨fresh, createPrincipal_ok created⟩

end Written

section Policies

variable {Statement Context : Type} (cedar : Cedar Statement Context)

def validateReferences (s : Store) (p : Policy) : Except Fault Unit := do
  let names ← references cedar p.source entityRole
  s.validateRoles names
  let names ← references cedar p.source entityPrincipal
  names.forM fun name =>
    reject (name ∉ s.principals) (Kind.invalid.because ("unknown principal " ++ name.quote))

def putPolicy (s : Store) (p : Policy) (now : Time) : Except Fault (Policy × Store) := do
  s.validateReferences cedar p
  let createdAt := match s.policies[p.name]? with
    | some old => old.createdAt
    | none => now
  let p := { p with createdAt, updatedAt := now }
  return (p, { s with policies := s.policies.insert p.name p, version := s.version + 1 })

def docs (s : Store) : List Policy := s.policies.values

def deletePolicy (s : Store) (name : String) : Except Fault Store := do
  reject (name ∉ s.policies) (Kind.notFound.because ("policy " ++ name.quote))
  return { s with policies := s.policies.erase name, version := s.version + 1 }

def putRole (s : Store) (role : Role) (now : Time) : Except Fault (Role × Store) := do
  reject (validName role.name = false) Kind.invalid.fault
  let createdAt := match s.roles[role.name]? with
    | some old => old.createdAt
    | none => now
  let role := { role with createdAt, updatedAt := now }
  return (role, { s with roles := s.roles.insert role.name role, version := s.version + 1 })

def role (s : Store) (name : String) : Except Fault Role :=
  match s.roles[name]? with
  | none => .error Kind.notFound.fault
  | some role => .ok role

def deleteRole (s : Store) (name : String) : Except Fault Store := do
  reject (name ∉ s.roles) Kind.notFound.fault
  s.principals.values.forM fun r => reject (name ∈ r.p.roles) Kind.conflict.fault
  s.policies.values.forM fun p => do
    let refs ← references cedar p.source entityRole
    reject (name ∈ refs) Kind.conflict.fault
  return { s with roles := s.roles.erase name, version := s.version + 1 }

def SamePrincipals (s s' : Store) : Prop :=
  s'.principals = s.principals ∧ s'.initialized = s.initialized

variable {cedar} {s s' : Store} {name : String} {now : Time}

theorem putPolicy_same {p out : Policy} (ran : s.putPolicy cedar p now = .ok (out, s')) :
    SamePrincipals s s' ∧ s'.version = s.version + 1 := by
  simp only [putPolicy, bind_ok, pure_ok, Prod.mk.injEq] at ran
  obtain ⟨_, -, -, rfl⟩ := ran
  exact ⟨⟨rfl, rfl⟩, rfl⟩

theorem deletePolicy_same (ran : s.deletePolicy name = .ok s') :
    SamePrincipals s s' ∧ s'.version = s.version + 1 := by
  simp only [deletePolicy, bind_ok, pure_ok] at ran
  obtain ⟨_, -, rfl⟩ := ran
  exact ⟨⟨rfl, rfl⟩, rfl⟩

theorem putRole_same {role out : Role} (ran : s.putRole role now = .ok (out, s')) :
    SamePrincipals s s' ∧ s'.version = s.version + 1 := by
  simp only [putRole, bind_ok, pure_ok, Prod.mk.injEq] at ran
  obtain ⟨_, -, -, rfl⟩ := ran
  exact ⟨⟨rfl, rfl⟩, rfl⟩

theorem deleteRole_same (ran : s.deleteRole cedar name = .ok s') :
    SamePrincipals s s' ∧ s'.version = s.version + 1 := by
  simp only [deleteRole, bind_ok, pure_ok] at ran
  obtain ⟨_, -, _, -, _, -, rfl⟩ := ran
  exact ⟨⟨rfl, rfl⟩, rfl⟩

end Policies

end Store

end AppleDM.AdminAuth
