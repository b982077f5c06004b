import AppleDM.Shared.Checked
import AppleDM.Shared.Table
import AppleDM.Acme.Types

set_option autoImplicit false

namespace AppleDM.Acme

open Mdm Checked

structure State where
  accounts : Table String Account := ∅
  thumbprints : Table String String := ∅
  orders : Table String Order := ∅
  authzs : Table String Authorization := ∅
  challenges : Table String Challenge := ∅
  certs : Table String Certificate := ∅
  claims : Table String String := ∅
  nonces : Table String Nonce := ∅

def validID (what id : String) : Except Failure Unit :=
  reject (id = "") (.invalid ("empty " ++ what))

@[simp] theorem validID_ok (what id : String) (done : Unit) :
    validID what id = .ok done ↔ id ≠ "" := by
  simp [validID]

def lookup {Row : Type} (what : String) (table : Table String Row) (id : String) :
    Except Failure Row := do
  validID (what ++ " id") id
  match table[id]? with
  | none => .error (.notFound what id)
  | some row => pure row

@[simp] theorem lookup_ok {Row : Type} {what : String} {table : Table String Row} {id : String}
    {row : Row} : lookup what table id = .ok row ↔ id ≠ "" ∧ table[id]? = some row := by
  unfold lookup
  cases table[id]? <;> simp

namespace State

variable (st : State) (id : String)

def getAccount : Except Failure Account :=
  lookup "account" st.accounts id

def getOrder : Except Failure Order := lookup "order" st.orders id

def getAuthorization : Except Failure Authorization :=
  lookup "authorization" st.authzs id

def getChallenge : Except Failure Challenge :=
  lookup "challenge" st.challenges id

def getCertificate : Except Failure Certificate :=
  lookup "certificate" st.certs id

def accountByThumbprint (thumbprint : String) : Except Failure Account := do
  validID "account thumbprint" thumbprint
  match st.thumbprints[thumbprint]? with
  | none => .error (.notFound "account for thumbprint" thumbprint)
  | some id => st.getAccount id

def putAccount (a : Account) : Except Failure State := do
  validID "account id" a.id
  validID "account thumbprint" a.thumbprint
  let owner := st.thumbprints[a.thumbprint]?
  reject (owner.any (· ≠ a.id))
    (.conflict ("thumbprint " ++ a.thumbprint.quote ++ " is account " ++ (owner.getD "").quote))
  let thumbprints := match st.accounts[a.id]? with
    | some prev =>
      if prev.thumbprint ≠ a.thumbprint then st.thumbprints.erase prev.thumbprint
      else st.thumbprints
    | none => st.thumbprints
  pure
    { st with
      accounts := st.accounts.insert a.id a
      thumbprints := thumbprints.insert a.thumbprint a.id }

def putOrder (o : Order) : Except Failure State := do
  validID "order id" o.id
  validID "order account id" o.accountID
  pure { st with orders := st.orders.insert o.id o }

def putAuthorization (a : Authorization) : Except Failure State := do
  validID "authorization id" a.id
  pure { st with authzs := st.authzs.insert a.id a }

def putChallenge (c : Challenge) : Except Failure State := do
  validID "challenge id" c.id
  pure { st with challenges := st.challenges.insert c.id c }

def putCertificate (c : Certificate) : Except Failure State := do
  validID "certificate id" c.id
  pure { st with certs := st.certs.insert c.id c }

def claimIdentifier (identifier orderID : String) : Except Failure State := do
  validID "client identifier" identifier
  validID "order id" orderID
  match st.claims[identifier]? with
  | some owner =>
    .error (.conflict ("identifier " ++ identifier.quote ++ " is order " ++ owner.quote))
  | none => pure { st with claims := st.claims.insert identifier orderID }

def update {A : Type} (fn : State → Except Failure (A × State)) : Except Failure A × State :=
  match fn st with
  | .ok (value, after) => (.ok value, after)
  | .error failure => (.error failure, st)

def updateOrder {A : Type} (fn : State → Except Failure (A × State)) : Except Failure A × State :=
  st.update fun st => do
    let _ ← st.getOrder id
    fn st

theorem update_cases {A : Type} (fn : State → Except Failure (A × State)) :
    (∃ value after, fn st = .ok (value, after) ∧ st.update fn = (.ok value, after)) ∨
      ∃ failure, fn st = .error failure ∧ st.update fn = (.error failure, st) := by
  unfold update
  cases result : fn st with
  | ok pair => exact .inl ⟨pair.1, pair.2, rfl, rfl⟩
  | error failure => exact .inr ⟨failure, rfl, rfl⟩

def putNonce (n : Nonce) : Except Failure State := do
  validID "nonce value" n.value
  pure { st with nonces := st.nonces.insert n.value n }

def takeNonce (value : String) : Except Failure Nonce × State :=
  match lookup "nonce" st.nonces value with
  | .error failure => (.error failure, st)
  | .ok n => (.ok n, { st with nonces := st.nonces.erase value })

def expired (exp before : Time) : Bool := exp ≠ 0 && exp < before

def removeAuthorization : State :=
  match st.authzs[id]? with
  | none => st
  | some a => { st with authzs := st.authzs.erase id, challenges := st.challenges.erase a.challengeID }

def prune (before : Time) : State :=
  let st := { st with nonces := st.nonces.filter fun _ n => ¬ n.issuedAt < before }
  let gone := st.orders.toList.filter fun row => expired row.2.expires before
  let st := gone.foldl
    (fun st row => { st with orders := st.orders.erase row.1 }.removeAuthorization row.2.authzID) st
  let stale := st.authzs.toList.filter fun row => expired row.2.expires before
  stale.foldl (fun st row => st.removeAuthorization row.1) st

end State

end AppleDM.Acme
