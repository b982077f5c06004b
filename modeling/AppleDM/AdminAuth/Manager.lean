import AppleDM.AdminAuth.Store
import AppleDM.Shared.Run

set_option autoImplicit false

namespace AppleDM.AdminAuth

open Checked Mdm Jsontext Evolution Run

section Tokens

abbrev Token := List Char

def tokenPrefix : List Char := "mdmt_".toList
def bodyLen : Nat := 30
def checksumLen : Nat := 6
def tokenLen : Nat := tokenPrefix.length + bodyLen + checksumLen

def alphabet : List Char :=
  "0123456789ABCDEFGHIJKLMNOPQRSTUVWXYZabcdefghijklmnopqrstuvwxyz".toList

def rejectAbove : UInt8 := 248

def letter (n : Nat) : Char := alphabet.getD (n % 62) '0'

/-- The checksum and the digest of a token, SHA-256 in hexadecimal. -/
structure Hashes where
  crc32 : List Char → Nat
  digest : Token → String
  nonempty : ∀ token, digest token ≠ ""

def base62 : Nat → Nat → List Char
  | 0, _ => []
  | count + 1, n => base62 count (n / 62) ++ [letter n]

def randomBase62 (n : Nat) (random : Bytes) : Except Fault (List Char) :=
  let out := ((random.filter (· < rejectAbove)).map fun b => letter b.toNat).take n
  if out.length < n then .error ⟨.other, "adminauth: read random"⟩ else .ok out

variable (hashes : Hashes)

def checksum (head : List Char) : List Char := base62 checksumLen (hashes.crc32 head)

def mint (random : Bytes) : Except Fault (Token × String) := do
  let body ← randomBase62 bodyLen random
  let head := tokenPrefix ++ body
  return (head ++ checksum hashes head, String.ofList (body.take 8))

def validToken (token : Token) : Bool :=
  token.length = tokenLen && tokenPrefix.isPrefixOf token &&
    (token.drop tokenPrefix.length).all (· ∈ alphabet) &&
    checksum hashes (token.take (tokenPrefix.length + bodyLen)) =
      token.drop (tokenPrefix.length + bodyLen)

end Tokens

inductive Event where
  | issued (name : String) (token : Token) (expires : Time)
  | revoked (name : String)
  | deleted (name : String)

-- `minted` and `log` are bookkeeping: every token drawn so far, and what became of the credentials.
structure World where
  store : Store := {}
  minted : List Token := []
  log : List Event := []

inductive Reply where
  | issued (p : Principal) (token : Token)
  | principal (p : Principal)
  | role (role : Role)
  | policy (p : Policy)
  | done

namespace Manager

variable {Statement Context : Type} (cedar : Cedar Statement Context) (reg : Registry)
  (hashes : Hashes) (w : World) (actor : Principal)

def canAdminister (actor : Principal) : Except Fault Unit :=
  reject (actor.root = false) (Kind.denied.because (actor.name ++ " is not a root principal"))

def mayIssueFor (s : Store) (actor : Principal) (name : String) : Except Fault Principal := do
  canAdminister actor
  s.principal name

def issue (name : String) (expires : Time) (random : Bytes)
    (write : String → String → Except Fault (Principal × Store)) : Except Fault Reply × World :=
  match mint hashes random with
  | .error fault => (.error fault, w)
  | .ok (token, id) =>
    let w := { w with minted := token :: w.minted }
    match write (hashes.digest token) id with
    | .error fault => (.error fault, w)
    | .ok (p, store) =>
      (.ok (.issued p token),
        { w with store, log := w.log ++ [.issued name token expires] })

def commit {A : Type} (w : World) (reply : A → Reply) (events : List Event)
    (outcome : Except Fault (A × Store)) : Except Fault Reply × World :=
  match outcome with
  | .error fault => (.error fault, w)
  | .ok (value, store) => (.ok (reply value), { w with store, log := w.log ++ events })

def bootstrap (name : String) (expires checked now : Time) (random : Bytes) :
    Except Fault Reply × World :=
  if validName name = false ∨ (expires ≠ 0 ∧ ¬ checked < expires) then
    (.error Kind.invalid.fault, w)
  else
    issue hashes w name expires random fun digest id =>
      w.store.bootstrapPrincipal { name, root := true, tokenID := id, expiresAt := expires } digest
        now

def mayCreate (actor p : Principal) : Except Fault Unit := do
  canAdminister actor
  reject (validName p.name = false) (Kind.invalid.because ("principal name " ++ p.name.quote))
  p.roles.forM fun r => reject (validName r = false) (Kind.invalid.because ("role " ++ r.quote))

def createPrincipal (actor p : Principal) (expires now : Time) (random : Bytes) :
    Except Fault Reply × World :=
  match mayCreate actor p with
  | .error fault => (.error fault, w)
  | .ok () =>
    issue hashes w p.name expires random fun digest id =>
      w.store.createPrincipal { p with tokenID := id, expiresAt := expires } digest now

def rotate (name : String) (expires now : Time) (random : Bytes) : Except Fault Reply × World :=
  match mayIssueFor w.store actor name with
  | .error fault => (.error fault, w)
  | .ok target =>
    issue hashes w target.name expires random fun digest id =>
      w.store.applyPrincipal target.name (.rotate digest id expires) now

def updatePrincipal (name : String) (roles : List String)
    (root : Bool) (now : Time) : Except Fault Reply × World :=
  commit w .principal [] do
    let target ← mayIssueFor w.store actor name
    roles.forM fun role => reject (validName role = false) (Kind.invalid.because "role name")
    w.store.applyPrincipal target.name (.update roles root) now

def revoke (name : String) (now : Time) : Except Fault Reply × World :=
  commit w (fun _ => .done) [.revoked name] do
    let target ← mayIssueFor w.store actor name
    w.store.applyPrincipal target.name .revoke now

def deletePrincipal (name : String) (now : Time) : Except Fault Reply × World :=
  commit w (fun _ => .done) [.deleted name] do
    let target ← mayIssueFor w.store actor name
    w.store.applyPrincipal target.name .delete now

def authenticate (s : Store) (token : Token) (now : Time) : Except Fault Principal := do
  reject (validToken hashes token = false) (Kind.invalid.because "malformed token")
  let p ← s.principalByDigest (hashes.digest token)
  p.active now
  return p

def resolve (s : Store) (kind name : String) : Except Fault Unit :=
  if kind = entityRole then (fun _ => ()) <$> s.role name
  else (fun _ => ()) <$> s.principal name

def validateReferences (s : Store) (p : Policy) : Except Fault Unit :=
  [entityRole, entityPrincipal].forM fun kind => do
    let names ← references cedar p.source kind
    names.forM fun name => (resolve s kind name).mapError fun cause =>
      Kind.invalid.because ("unresolved " ++ kind ++ " " ++ name.quote ++ ": " ++ cause.text)

def validatePolicy (s : Store) (p : Policy) : Except Fault Unit := do
  validate cedar reg p
  validateReferences cedar s p

def putPolicy (doc : Policy) (now : Time) : Except Fault Reply × World :=
  commit w .policy [] do
    canAdminister actor
    validatePolicy cedar reg w.store doc
    w.store.putPolicy cedar doc now

def deletePolicy (name : String) : Except Fault Reply × World :=
  commit w (fun _ : Unit => .done) [] do
    canAdminister actor
    let store ← w.store.deletePolicy name
    return ((), store)

def putRole (role : Role) (now : Time) : Except Fault Reply × World :=
  commit w .role [] do
    canAdminister actor
    reject (validName role.name = false) (Kind.invalid.because "role name")
    w.store.putRole role now

def deleteRole (name : String) : Except Fault Reply × World :=
  commit w (fun _ : Unit => .done) [] do
    canAdminister actor
    let store ← w.store.deleteRole cedar name
    return ((), store)

inductive Op where
  | bootstrap (name : String) (expires checked now : Time) (random : Bytes)
  | createPrincipal (actor p : Principal) (expires now : Time) (random : Bytes)
  | rotate (actor : Principal) (name : String) (expires now : Time) (random : Bytes)
  | updatePrincipal (actor : Principal) (name : String) (roles : List String) (root : Bool)
      (now : Time)
  | revoke (actor : Principal) (name : String) (now : Time)
  | deletePrincipal (actor : Principal) (name : String) (now : Time)
  | putPolicy (actor : Principal) (doc : Policy) (now : Time)
  | deletePolicy (actor : Principal) (name : String)
  | putRole (actor : Principal) (role : Role) (now : Time)
  | deleteRole (actor : Principal) (name : String)

def perform : Op → Except Fault Reply × World
  | .bootstrap name expires checked now random =>
    bootstrap hashes w name expires checked now random
  | .createPrincipal actor p expires now random =>
    createPrincipal hashes w actor p expires now random
  | .rotate actor name expires now random => rotate hashes w actor name expires now random
  | .updatePrincipal actor name roles root now => updatePrincipal w actor name roles root now
  | .revoke actor name now => revoke w actor name now
  | .deletePrincipal actor name now => deletePrincipal w actor name now
  | .putPolicy actor doc now => putPolicy cedar reg w actor doc now
  | .deletePolicy actor name => deletePolicy w actor name
  | .putRole actor role now => putRole w actor role now
  | .deleteRole actor name => deleteRole cedar w actor name

def step (op : Op) : World := (perform cedar reg hashes w op).2

section Effects

abbrev Named (s : Store) : Prop := Table.Keyed (fun r : Record => r.p.name) s.principals

section Named

variable {s s' : Store}

theorem named_applied {name : String} {change : PrincipalChange} {now : Time} {p : Principal}
    {r : Record} (named : Named s) (applied : s.Applied name change now p s' r) : Named s' := by
  intro key found there
  rw [applied.wrote] at there
  split_ifs at there with same
  · obtain rfl := Option.some.inj there
    change p.name = key
    rw [same, PrincipalChange.apply_name applied.applied]
    exact named name r applied.found
  · exact named key found there

theorem named_created {given p : Principal} {digest : String} {now : Time} (named : Named s)
    (created : s.Created given digest now p s') : Named s' := by
  intro key found there
  rw [created.wrote] at there
  obtain ⟨same, ⟨⟩⟩ | ⟨-, there⟩ := ite_eq_iff.1 there
  · subst same
    simp only [created.record]
  · exact named key found there

theorem named_same (named : Named s) (same : s.SamePrincipals s') : Named s' := by
  unfold Named
  rw [same.1]
  exact named

theorem empty_named : Named {} := by
  intro name r there
  simp at there

end Named

def Op.At (now : Time) : Op → Prop
  | .bootstrap _ _ _ time _ | .createPrincipal _ _ _ time _ | .rotate _ _ _ time _
  | .updatePrincipal _ _ _ _ time | .revoke _ _ time | .deletePrincipal _ _ time
  | .putPolicy _ _ time | .putRole _ _ time => time = now
  | .deletePolicy _ _ | .deleteRole _ _ => True

inductive Effect (w : World) : Op → World → Prop
  | refused (op : Op) : Effect w op w
  | dropped (op : Op) {random : Bytes} {token : Token} {id : String}
      (drawn : mint hashes random = .ok (token, id)) :
      Effect w op { w with minted := token :: w.minted }
  | bootstrapped {name id : String} {expires checked now : Time} {random : Bytes} {token : Token}
      {p : Principal} {store : Store} (drawn : mint hashes random = .ok (token, id))
      (wrote : w.store.bootstrapPrincipal { name, root := true, tokenID := id, expiresAt := expires }
        (hashes.digest token) now = .ok (p, store)) :
      Effect w (.bootstrap name expires checked now random)
        ⟨store, token :: w.minted, w.log ++ [.issued name token expires]⟩
  | created {actor given p : Principal} {id : String} {expires now : Time} {random : Bytes}
      {token : Token} {store : Store} (drawn : mint hashes random = .ok (token, id))
      (wrote : w.store.createPrincipal { given with tokenID := id, expiresAt := expires }
        (hashes.digest token) now = .ok (p, store)) :
      Effect w (.createPrincipal actor given expires now random)
        ⟨store, token :: w.minted, w.log ++ [.issued given.name token expires]⟩
  | rotated {actor p : Principal} {name id : String} {expires now : Time} {random : Bytes}
      {token : Token} {store : Store} (drawn : mint hashes random = .ok (token, id))
      (wrote : w.store.applyPrincipal name (.rotate (hashes.digest token) id expires) now =
        .ok (p, store)) :
      Effect w (.rotate actor name expires now random)
        ⟨store, token :: w.minted, w.log ++ [.issued name token expires]⟩
  | updated {actor p : Principal} {name : String} {roles : List String} {root : Bool} {now : Time}
      {store : Store} (wrote : w.store.applyPrincipal name (.update roles root) now = .ok (p, store)) :
      Effect w (.updatePrincipal actor name roles root now) { w with store }
  | revoked {actor p : Principal} {name : String} {now : Time} {store : Store}
      (wrote : w.store.applyPrincipal name .revoke now = .ok (p, store)) :
      Effect w (.revoke actor name now) { w with store, log := w.log ++ [.revoked name] }
  | deleted {actor p : Principal} {name : String} {now : Time} {store : Store}
      (wrote : w.store.applyPrincipal name .delete now = .ok (p, store)) :
      Effect w (.deletePrincipal actor name now) { w with store, log := w.log ++ [.deleted name] }
  | putPolicy {actor : Principal} {doc out : Policy} {now : Time} {store : Store}
      (wrote : w.store.putPolicy cedar doc now = .ok (out, store)) :
      Effect w (.putPolicy actor doc now) { w with store }
  | deletePolicy {actor : Principal} {name : String} {store : Store}
      (wrote : w.store.deletePolicy name = .ok store) :
      Effect w (.deletePolicy actor name) { w with store }
  | putRole {actor : Principal} {role out : Role} {now : Time} {store : Store}
      (wrote : w.store.putRole role now = .ok (out, store)) :
      Effect w (.putRole actor role now) { w with store }
  | deleteRole {actor : Principal} {name : String} {store : Store}
      (wrote : w.store.deleteRole cedar name = .ok store) :
      Effect w (.deleteRole actor name) { w with store }

variable {cedar reg hashes w} {w' : World}

theorem mayIssueFor_ok {s : Store} (named : Named s) {actor target : Principal} {name : String}
    (found : mayIssueFor s actor name = .ok target) : target.name = name := by
  simp only [mayIssueFor, bind_ok, Store.principal] at found
  obtain ⟨_, -, found⟩ := found
  split at found
  · cases found
  · next r there =>
    rw [← Except.ok.inj found]
    exact named name r there

variable {op : Op}

theorem issue_effect {name : String} {expires : Time} {random : Bytes}
    {write : String → String → Except Fault (Principal × Store)}
    (wrote : ∀ token id p store, mint hashes random = .ok (token, id) →
      write (hashes.digest token) id = .ok (p, store) →
      Effect cedar hashes w op ⟨store, token :: w.minted, w.log ++ [.issued name token expires]⟩) :
    Effect cedar hashes w op (issue hashes w name expires random write).2 := by
  unfold issue
  split
  · exact .refused op
  · next token id drawn =>
    dsimp only
    split
    · exact .dropped op drawn
    · next p store written => exact wrote token id p store drawn written

theorem commit_effect {A : Type} {reply : A → Reply} {events : List Event}
    {outcome : Except Fault (A × Store)}
    (wrote : ∀ value store, outcome = .ok (value, store) →
      Effect cedar hashes w op { w with store, log := w.log ++ events }) :
    Effect cedar hashes w op (commit w reply events outcome).2 := by
  unfold commit
  split
  · exact .refused op
  · next value store => exact wrote value store rfl

theorem commit_silent {A : Type} {reply : A → Reply} {outcome : Except Fault (A × Store)}
    (wrote : ∀ value store, outcome = .ok (value, store) →
      Effect cedar hashes w op { w with store }) :
    Effect cedar hashes w op (commit w reply [] outcome).2 :=
  commit_effect fun value store written => by simpa using wrote value store written

theorem step_effect (named : Named w.store) (op : Op) :
    Effect cedar hashes w op (step cedar reg hashes w op) := by
  unfold step
  cases op with
  | bootstrap name expires checked now random =>
    dsimp only [perform, bootstrap]
    split
    · exact .refused _
    · exact issue_effect fun token id p store drawn wrote => .bootstrapped drawn wrote
  | createPrincipal actor p expires now random =>
    dsimp only [perform, createPrincipal]
    split
    · exact .refused _
    · exact issue_effect fun token id out store drawn wrote => .created drawn wrote
  | rotate actor name expires now random =>
    dsimp only [perform, rotate]
    split
    · exact .refused _
    · next target found =>
      rw [mayIssueFor_ok named found]
      exact issue_effect fun token id p store drawn wrote => .rotated drawn wrote
  | updatePrincipal actor name roles root now =>
    refine commit_silent fun p store ran => ?_
    simp only [bind_ok] at ran
    obtain ⟨target, found, _, -, wrote⟩ := ran
    exact .updated (mayIssueFor_ok named found ▸ wrote)
  | revoke actor name now =>
    refine commit_effect fun p store ran => ?_
    simp only [bind_ok] at ran
    obtain ⟨target, found, wrote⟩ := ran
    exact .revoked (mayIssueFor_ok named found ▸ wrote)
  | deletePrincipal actor name now =>
    refine commit_effect fun p store ran => ?_
    simp only [bind_ok] at ran
    obtain ⟨target, found, wrote⟩ := ran
    exact .deleted (mayIssueFor_ok named found ▸ wrote)
  | putPolicy actor doc now =>
    refine commit_silent fun out store ran => ?_
    simp only [bind_ok] at ran
    obtain ⟨_, -, _, -, wrote⟩ := ran
    exact .putPolicy wrote
  | deletePolicy actor name =>
    refine commit_silent fun out store ran => ?_
    simp only [bind_ok, pure_ok, Prod.mk.injEq] at ran
    obtain ⟨_, -, _, wrote, -, rfl⟩ := ran
    exact .deletePolicy wrote
  | putRole actor role now =>
    refine commit_silent fun out store ran => ?_
    simp only [bind_ok] at ran
    obtain ⟨_, -, _, -, wrote⟩ := ran
    exact .putRole wrote
  | deleteRole actor name =>
    refine commit_silent fun out store ran => ?_
    simp only [bind_ok, pure_ok, Prod.mk.injEq] at ran
    obtain ⟨_, -, _, wrote, -, rfl⟩ := ran
    exact .deleteRole wrote

theorem effect_principals {P : Store → Prop} (effect : Effect cedar hashes w op w')
    (before : P w.store) (same : ∀ s', w.store.SamePrincipals s' → P s')
    (created : ∀ given digest now p s', w.store.Created given digest now p s' → P s')
    (applied : ∀ name change now p s' r, w.store.Applied name change now p s' r →
      (∀ time, op.At time → now = time) → P s') : P w'.store := by
  cases effect with
  | refused | dropped => exact before
  | bootstrapped drawn wrote => exact created _ _ _ _ _ (Store.bootstrapPrincipal_ok wrote).2
  | created drawn wrote => exact created _ _ _ _ _ (Store.createPrincipal_ok wrote)
  | rotated drawn wrote | updated wrote | revoked wrote | deleted wrote =>
    obtain ⟨r, done⟩ := Store.applyPrincipal_ok wrote
    exact applied _ _ _ _ _ r done fun _ => id
  | putPolicy wrote => exact same _ (Store.putPolicy_same wrote).1
  | deletePolicy wrote => exact same _ (Store.deletePolicy_same wrote).1
  | putRole wrote => exact same _ (Store.putRole_same wrote).1
  | deleteRole wrote => exact same _ (Store.deleteRole_same wrote).1

theorem effect_named (named : Named w.store) (effect : Effect cedar hashes w op w') :
    Named w'.store :=
  effect_principals effect named (fun _ same => named_same named same)
    (fun _ _ _ _ _ created => named_created named created)
    fun _ _ _ _ _ _ applied _ => named_applied named applied

end Effects

end Manager

end AppleDM.AdminAuth
