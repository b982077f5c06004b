import AppleDM.Shared.Process
import AppleDM.Shared.Evolution
import AppleDM.State.Memory

set_option autoImplicit false

-- The tokens of account-driven enrollment: authorization codes, and the refresh and access tokens
-- that follow from them.
namespace AppleDM.AccountDriven

open Checked Mdm Process
open State (Memory StateError)

inductive Failure where
  | tokenNotFound
  | tokenExpired
  | tokenUsed
  | oauth2Request
  | oauth2Grant
  | managedAppleAccount
  | random
  | state (cause : StateError)
  deriving DecidableEq

structure Identity where
  userIdentifier : String := ""
  managedAppleAccount : String
  subject : String := ""
  issuer : String := ""
  claims : Bytes := []

inductive Kind where
  | access | enrollment | refresh | code
  deriving DecidableEq

structure Record where
  kind : Kind
  identity : Identity
  issuedAt : Time
  expiresAt : Time
  usedAt : Time := 0
  data : Table String String

variable (m : Memory Record) (hash : String) (rec prior : Record)

def Record.meta (name : String) : String := rec.data[name]?.getD ""

def minute : Int := 60 * 1000000000

structure Tokens where
  accessTTL : Int := 0
  enrollmentTTL : Int := 0
  refreshTTL : Int := 0
  codeTTL : Int := 0
  deriving DecidableEq

def orDefault (d default : Int) : Int := if 0 < d then d else default

def Tokens.ttl (t : Tokens) : Kind → Int
  | .access => orDefault t.accessTTL (10 * minute)
  | .enrollment => orDefault t.enrollmentTTL (365 * 24 * 60 * minute)
  | .refresh => orDefault t.refreshTTL (30 * 24 * 60 * minute)
  | .code => orDefault t.codeTTL (5 * minute)

structure OAuth2 where
  redirectURL : String
  clientID : String
  scope : String
  tokens : Tokens := {}
  accessTTL : Int := 0

/-- SHA-256 in hexadecimal, without collisions, and whether `url.Parse` accepts a text. -/
structure Library where
  hash : String → String
  injective : Function.Injective hash
  nonempty : ∀ token, hash token ≠ ""
  parses : String → Bool

def tokenKey : String := "account/token/" ++ hash

def stateError {A : Type} (r : Except StateError A) : Except Failure A := r.mapError .state

def readToken : Except Failure Record :=
  match m.get (tokenKey hash) with
  | .ok v => .ok v.value
  | .error .notFound => .error .tokenNotFound
  | .error cause => .error (.state cause)

def putToken : Except Failure (Memory Record) :=
  stateError (m.put (tokenKey hash) ⟨rec, rec.expiresAt⟩)

def unlink : Except Failure (Memory Record) :=
  if rec.meta "access_hash" = "" then .ok m
  else do
    reject (rec.meta "access_hash" ≠ prior.meta "access_hash") .oauth2Grant
    stateError (m.delete (tokenKey (rec.meta "access_hash")))

def exchangeKeys (replacements : List (String × Record)) : List String :=
  tokenKey hash ::
    ((if prior.meta "access_hash" = "" then [] else [tokenKey (prior.meta "access_hash")]) ++
      replacements.map fun entry => tokenKey entry.1)

def exchangeRecord (time : Time)
    (validate : Record → Except Failure Unit) (replacements : List (String × Record))
    (m : Memory Record) : Except Failure (Record × Memory Record) := do
  let rec ← readToken m hash
  reject (¬ time < rec.expiresAt) .tokenExpired
  reject (rec.usedAt ≠ 0) .tokenUsed
  validate rec
  let m ← putToken m hash { rec with usedAt := time }
  let m ← unlink m rec prior
  let m ← replacements.foldlM (fun m entry => putToken m entry.1 entry.2) m
  return (rec, m)

structure Terms where
  o : OAuth2
  kind : Kind
  redirectURI : String
  scope : String

def Terms.validate (t : Terms) (rec : Record) : Except Failure Unit := do
  reject (rec.kind ≠ t.kind ∨ rec.meta "client_id" ≠ t.o.clientID ∨ rec.meta "scope" ≠ t.o.scope)
    .oauth2Grant
  reject (t.kind = .code ∧ (rec.meta "redirect_uri" ≠ t.o.redirectURL ∨
    t.redirectURI ≠ rec.meta "redirect_uri")) .oauth2Grant
  reject (t.scope ≠ "" ∧ t.scope ≠ rec.meta "scope") .oauth2Grant

def OAuth2.ttl (o : OAuth2) : Int := orDefault o.accessTTL (o.tokens.ttl .access)

def inherited : Table String String :=
  (rec.data.erase "access_hash").erase "state"

def accessRecord (o : OAuth2) (rec : Record) (now : Time) : Record where
  kind := .access
  identity := rec.identity
  issuedAt := now
  expiresAt := now + o.ttl
  data := inherited rec

def refreshRecord (o : OAuth2) (rec : Record) (now : Time) (accessHash : String) : Record where
  kind := .refresh
  identity := rec.identity
  issuedAt := now
  expiresAt := now + o.tokens.ttl .refresh
  data := (inherited rec).insert "access_hash" accessHash

section Calls

inductive Action where
  | get (hash : String)
  | now
  | random
  | issue (rec : Record)
  | exchange (value : String) (prior : Record) (time : Time) (terms : Terms) (checked : Record)
  | markUsed (hash : String) (prior : Record) (time : Time)
  | prune (limit : Int)

def Answer : Action → Type
  | .get _ => Except Failure Record
  | .now => Time
  | .random => Except Failure Unit
  | .issue _ => Except Failure String
  | .exchange .. => Except Failure (String × String)
  | .markUsed .. => Except Failure Unit
  | .prune _ => Except StateError Nat

abbrev Handler := ExceptT Failure (Proc Action Answer)

abbrev act (action : Action) : Proc Action Answer (Answer action) := Proc.perform action

abbrev ask (action : Action) : Handler (Answer action) := invoke action

variable (lib : Library)

def check (kind : Kind) (token : String) : Handler Record := do
  early (reject (token = "") .tokenNotFound)
  let rec ← early (← ask (.get (lib.hash token)))
  early (reject (rec.kind ≠ kind) .tokenNotFound)
  let now : Time ← ask .now
  early (reject (¬ now < rec.expiresAt) .tokenExpired)
  early (reject (rec.usedAt ≠ 0) .tokenUsed)
  return rec

def verify (bearer : String) : Handler Identity := do
  let rec ← check lib .access bearer
  return rec.identity

structure AuthorizationRequest where
  state : String
  scope : String

def OAuth2.codeData (o : OAuth2) (req : AuthorizationRequest) : Table String String :=
  ((((∅ : Table String String).insert "redirect_uri" o.redirectURL).insert "client_id"
    o.clientID).insert "state" req.state).insert "scope" req.scope

def grant (o : OAuth2) (req : Option AuthorizationRequest) (id : Identity) :
    Handler (String × String) :=
  match req with
  | none => early (.error .oauth2Request)
  | some req => do
    early (reject (req.state = "" ∨ req.scope ≠ o.scope) .oauth2Request)
    early (reject (id.managedAppleAccount = "") .managedAppleAccount)
    early (← ask .random)
    let now : Time ← ask .now
    let code ← early (← ask (.issue ⟨.code, id, now, now + o.tokens.ttl .code, 0, o.codeData req⟩))
    early (reject (lib.parses o.redirectURL = false) .oauth2Request)
    return (code, req.state)

structure TokenResponse where
  scope : String
  accessToken : String
  expiresIn : Int
  refreshToken : String
  deriving DecidableEq

def exchange (t : Terms) (value : String) : Handler TokenResponse := do
  let checked ← check lib t.kind value
  early (t.validate checked)
  early (← ask .random)
  early (← ask .random)
  let now : Time ← ask .now
  let prior ← early (← ask (.get (lib.hash value)))
  let (access, refresh) ← early (← ask (.exchange value prior now t checked))
  return ⟨t.o.scope, access, t.o.ttl / 1000000000, refresh⟩

def markUsed (hash : String) (time : Time) : Handler Unit := do
  let prior ← early (← ask (.get hash))
  early (← ask (.markUsed hash prior time))

structure Form where
  clientID : String := ""
  grantType : String := ""
  code : String := ""
  refreshToken : String := ""
  redirectURI : String := ""
  scope : String := ""

inductive TokenReply where
  | response (r : TokenResponse)
  | refused (status : Nat) (error description : String)
  deriving DecidableEq

def tokenFault : Failure → TokenReply
  | .oauth2Grant | .tokenNotFound | .tokenExpired | .tokenUsed =>
    .refused 400 "invalid_grant" "grant rejected"
  | _ => .refused 500 "server_error" ""

def answerToken : Except Failure TokenResponse → TokenReply
  | .ok r => .response r
  | .error failure => tokenFault failure

def tokenHandler (o : OAuth2) (method : String) (form : Option Form) : Proc Action Answer TokenReply :=
  if method ≠ "POST" then return .refused 405 "Method Not Allowed" ""
  else
    match form with
    | none => return .refused 400 "invalid_request" "malformed form body"
    | some form =>
      if form.clientID ≠ o.clientID then return .refused 401 "invalid_client" "unknown client_id"
      else if form.grantType = "authorization_code" then
        answerToken <$> (exchange lib ⟨o, .code, form.redirectURI, form.scope⟩ form.code).run
      else if form.grantType = "refresh_token" then
        answerToken <$>
          (exchange lib ⟨o, .refresh, form.redirectURI, form.scope⟩ form.refreshToken).run
      else return .refused 400 "unsupported_grant_type" ""

inductive Request where
  | grant (o : OAuth2) (req : Option AuthorizationRequest) (id : Identity)
  | token (o : OAuth2) (method : String) (form : Option Form)
  | verify (bearer : String)
  | markUsed (hash : String) (time : Time)
  | prune (limit : Int)

inductive Reply where
  | granted (outcome : Except Failure (String × String))
  | token (reply : TokenReply)
  | verified (outcome : Except Failure Identity)
  | marked (outcome : Except Failure Unit)
  | pruned (outcome : Except StateError Nat)

def handle : Request → Proc Action Answer Reply
  | .grant o req id => .granted <$> (grant lib o req id).run
  | .token o method form => .token <$> tokenHandler lib o method form
  | .verify bearer => .verified <$> (verify lib bearer).run
  | .markUsed hash time => .marked <$> (markUsed hash time).run
  | .prune limit => do
    let outcome : Except StateError Nat ← act (.prune limit)
    return .pruned outcome

end Calls

section Steps

-- The time is the clock reading the request hands to the transaction; the transaction itself runs
-- at committedAt, which is later when the request had to wait for the lock.
structure Exchanged where
  spent : String
  record : Record
  time : Time
  committedAt : Time
  access : String
  refresh : String

-- Besides the store there is bookkeeping: the keys of the tokens drawn so far, the codes as they
-- were granted, for every token the code it descends from, and the exchanges.
structure World where
  tokens : Memory Record := ∅
  used : List String := []
  codes : List (String × Record) := []
  root : Table String String := ∅
  log : List Exchanged := []

/-- What a step takes from outside: clock readings, random tokens, whether there is randomness, and
the order in which the store meets its records. -/
structure Choice where
  now : Time := 0
  storeNow : Time := 0
  access : String := ""
  refresh : String := ""
  entropy : Bool := true
  order : List String := []

variable (lib : Library)

def keyOf (token : String) : String := tokenKey (lib.hash token)

def issueStep (rec : Record) (token : String) (w : World) : Except Failure String × World :=
  let key := keyOf lib token
  match w.tokens.update (.state .invalid) [key]
    fun m => ((), ·) <$> putToken m (lib.hash token) rec with
  | (.error failure, _) => (.error failure, { w with used := key :: w.used })
  | (.ok (), tokens) =>
    (.ok token, { w with
      tokens, used := key :: w.used
      codes := w.codes ++ [(key, rec)], root := w.root.insert key key })

def replacements (terms : Terms) (checked : Record) (time : Time) (access refresh : String) :
    List (String × Record) :=
  [(lib.hash access, accessRecord terms.o checked time),
    (lib.hash refresh, refreshRecord terms.o checked time (lib.hash access))]

def exchangeStep (value : String) (prior : Record) (time committedAt : Time) (terms : Terms)
    (checked : Record) (access refresh : String) (w : World) :
    Except Failure (String × String) × World :=
  let pair := replacements lib terms checked time access refresh
  let used := keyOf lib access :: keyOf lib refresh :: w.used
  match w.tokens.update (.state .invalid) (exchangeKeys (lib.hash value) prior pair)
    (exchangeRecord (lib.hash value) prior time terms.validate pair) with
  | (.error failure, _) => (.error failure, { w with used })
  | (.ok rec, tokens) =>
    let spent := keyOf lib value
    let code := w.root[spent]?.getD ""
    (.ok (access, refresh), { w with
      tokens, used
      root := (w.root.insert (keyOf lib access) code).insert (keyOf lib refresh) code
      log := w.log ++ [⟨spent, rec, time, committedAt, keyOf lib access, keyOf lib refresh⟩] })

def markStep (hash : String) (prior : Record) (time : Time) (w : World) :
    Except Failure Unit × World :=
  let result := w.tokens.update (.state .invalid) (exchangeKeys hash prior [])
    (exchangeRecord hash prior time (fun _ => .ok ()) [])
  ((fun _ => ()) <$> result.1, { w with tokens := result.2 })

/-- One step of a call. No token is drawn twice, and the clock never reads the zero time. -/
def exec : (action : Action) → Choice → World → Option (Answer action × World)
  | .get hash, _, w => some (readToken w.tokens hash, w)
  | .now, choice, w => if choice.now = 0 then none else some (choice.now, w)
  | .random, choice, w => some (if choice.entropy then .ok () else .error .random, w)
  | .issue rec, choice, w =>
    if keyOf lib choice.access ∈ w.used then none else some (issueStep lib rec choice.access w)
  | .exchange value prior time terms checked, choice, w =>
    if keyOf lib choice.access ∈ w.used ∨ keyOf lib choice.refresh ∈ w.used ∨
        choice.access = choice.refresh then none
    else some (exchangeStep lib value prior time choice.now terms checked choice.access
      choice.refresh w)
  | .markUsed hash prior time, _, w => some (markStep hash prior time w)
  | .prune limit, choice, w =>
    let result := w.tokens.prune choice.storeNow limit choice.order
    some (result.1, { w with tokens := result.2 })

abbrev System := Process.Config Action Answer Reply World

def step (c : System) (m : Move Request Choice) : System := move (exec lib) (handle lib) c m

def start : System := { world := {} }

end Steps

end AppleDM.AccountDriven
