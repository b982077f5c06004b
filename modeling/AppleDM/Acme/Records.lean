import AppleDM.Shared.Evolution
import AppleDM.Acme.Step

set_option autoImplicit false

namespace AppleDM.Acme

open Mdm Pki Checked Evolution

inductive Status.Leads : Status → Status → Prop where
  | ready : Leads .pending .ready
  | refused : Leads .pending .invalid
  | processing : Leads .ready .processing
  | failed : Leads .ready .invalid
  | valid : Leads .processing .valid

structure Order.Step (o o' : Order) : Prop where
  same : o' = { o with
    status := o'.status, certificateID := o'.certificateID, csrHash := o'.csrHash,
    error := o'.error }
  moved : o' = o ∨ o.status.Leads o'.status
  receipt : o.certificateID ≠ "" →
    o'.certificateID = o.certificateID ∧ o'.csrHash = o.csrHash

structure Order.Path (o o' : Order) : Prop where
  same : o' = { o with
    status := o'.status, certificateID := o'.certificateID, csrHash := o'.csrHash,
    error := o'.error }
  pending : o'.status = .pending → o' = o
  issued : o.status = .processing ∨ o.status = .valid →
    o'.status = .processing ∨ o'.status = .valid
  receipt : o.certificateID ≠ "" →
    o'.certificateID = o.certificateID ∧ o'.csrHash = o.csrHash

def Authorization.Step (a a' : Authorization) : Prop :=
  a' = a ∨ a.status = .pending ∧ a' = { a with status := a'.status } ∧
    (a'.status = .valid ∨ a'.status = .invalid)

def Challenge.Step (c c' : Challenge) : Prop :=
  c' = c ∨ c.status = .pending ∧
    c' = { c with
      status := c'.status, attestation := c'.attestation, validatedAt := c'.validatedAt,
      error := c'.error } ∧
    (c'.status = .valid ∨ c'.status = .invalid)

def Certificate.Step (c c' : Certificate) : Prop :=
  c' = c ∨ c.pendingRegistration = true ∧ c' = { c with pendingRegistration := false }

theorem Status.Leads.left {first next : Status} (leads : first.Leads next) : next ≠ .pending := by
  cases leads <;> simp

theorem Status.Leads.issued {first next : Status} (leads : first.Leads next)
    (issued : first = .processing ∨ first = .valid) : next = .valid := by
  cases leads <;> simp_all

theorem Order.Step.refl (o : Order) : o.Step o := ⟨rfl, .inl rfl, fun _ => ⟨rfl, rfl⟩⟩

theorem Order.Path.refl (o : Order) : o.Path o := ⟨rfl, fun _ => rfl, fun issued => issued, fun _ => ⟨rfl, rfl⟩⟩

theorem Order.Path.extend {o o' o'' : Order} (path : o.Path o') (step : o'.Step o'') :
    o.Path o'' := by
  refine ⟨?_, ?_, ?_, ?_⟩
  · rw [step.same, path.same]
  · intro pending
    obtain same | leads := step.moved
    · rw [same] at pending ⊢
      exact path.pending pending
    · exact absurd pending leads.left
  · intro issued
    obtain same | leads := step.moved
    · rw [same]
      exact path.issued issued
    · exact .inr (leads.issued (path.issued issued))
  · intro given
    have kept := path.receipt given
    have next := step.receipt (kept.1 ▸ given)
    exact ⟨next.1.trans kept.1, next.2.trans kept.2⟩

theorem Authorization.Step.refl (a : Authorization) : a.Step a := .inl rfl

theorem Authorization.Step.trans {a a' a'' : Authorization} (first : a.Step a')
    (second : a'.Step a'') : a.Step a'' := by
  obtain rfl | first := first
  · exact second
  obtain rfl | ⟨still, -⟩ := second
  · exact .inr first
  · simp [still] at first

theorem Challenge.Step.refl (c : Challenge) : c.Step c := .inl rfl

theorem Challenge.Step.trans {c c' c'' : Challenge} (first : c.Step c') (second : c'.Step c'') :
    c.Step c'' := by
  obtain rfl | first := first
  · exact second
  obtain rfl | ⟨still, -⟩ := second
  · exact .inr first
  · simp [still] at first

theorem Certificate.Step.refl (c : Certificate) : c.Step c := .inl rfl

theorem Certificate.Step.trans {c c' c'' : Certificate} (first : c.Step c')
    (second : c'.Step c'') : c.Step c'' := by
  obtain rfl | ⟨waiting, rfl⟩ := first
  · exact second
  · obtain rfl | ⟨still, -⟩ := second
    · exact .inr ⟨waiting, rfl⟩
    · simp at still

theorem Authorization.Step.unless {a a' : Authorization} (step : a.Step a')
    (waiting : a'.status = .pending) : a' = a := by
  obtain same | ⟨-, -, decided⟩ := step
  · exact same
  · simp [waiting] at decided

theorem Challenge.Step.unless {c c' : Challenge} (step : c.Step c')
    (settled : c.status ≠ .pending ∨ c'.status = .pending) : c' = c := by
  obtain same | ⟨waiting, -, decided⟩ := step
  · exact same
  · obtain left | still := settled
    · exact absurd waiting left
    · simp [still] at decided

structure Matches (b : Binding) (p : Properties) : Prop where
  serial : b.serial ≠ "" → b.serial = p.serialNumber
  udid : b.udid ≠ "" → b.udid = p.udid
  identified : b.allowUnidentified = false → b.identified = true ∨ p.identified = true

theorem matchBinding_ok {o : Order} {a : Attestation} (passed : matchBinding o a = .ok ()) :
    Matches o.binding a.properties := by
  simp only [matchBinding, bind_ok, reject_ok] at passed
  obtain ⟨_, serial, _, udid, named⟩ := passed
  refine ⟨fun bound => ?_, fun bound => ?_, fun strict => ?_⟩
  · by_contra other
    exact serial ⟨bound, other⟩
  · by_contra other
    exact udid ⟨bound, other⟩
  · by_contra unnamed
    simp only [not_or] at unnamed
    exact named ⟨unnamed.1, unnamed.2, by simp [strict]⟩

section Evidence

variable {Ext : Type} (s : Config Ext) (log : List Entry)

structure Concerns (d : Decision) (o : Order) (a : Option Attestation) : Prop where
  order : d.order.id = o.id
  account : d.account.id = o.accountID
  binding : d.binding = o.binding
  identifier : d.identifier = o.identifier
  attestation : d.attestation = a

structure Attested (o : Order) (c : Challenge) (key : Option Bytes) (a : Attestation) : Prop where
  sent : ¬ s.attest.absent c.attestation
  parsed : s.attest.parseObject c.attestation = .ok a
  verified : ∃ now, .clock now ∈ log ∧
    s.attest.verify a s.anchors now (s.attest.freshnessForToken c.token) key = .ok ()
  accepted : ∃ d, .authorized d ∈ log ∧ Concerns d o (some a)

structure Unattested (o : Order) (c : Challenge) : Prop where
  absent : s.attest.absent c.attestation
  optional : o.binding.requireAttestation = false
  permitted : s.allowUnattested = true ∨
    ∃ d, .unattested d ∈ log ∧ Concerns d o none
  accepted : ∃ d, .authorized d ∈ log ∧ Concerns d o none

def Rechecked (o : Order) (c : Challenge) (key : Option Bytes) : Prop :=
  (∃ a, Attested s log o c key a) ∨ Unattested s log o c

def Evidence (o : Order) (c : Challenge) (key : Option Bytes) : Prop :=
  (∃ a, Attested s log o c key a ∧ Matches o.binding a.properties) ∨ Unattested s log o c

def Created (o : Order) : Prop :=
  ∃ first, .created first ∈ log ∧ first.Path o ∧
    .identified first.identifier.value first.binding ∈ log

structure Registered (cert : X509) : Prop where
  register : s.register.isSome = true → .registered cert ∈ log
  revocations : s.revocations.isSome = true → .recorded cert ∈ log

def deviceOf (c : Challenge) : Properties :=
  match s.attest.parseObject c.attestation with
  | .ok a => a.properties
  | .error _ => {}

variable {s log}

theorem Evidence.with_key {o : Order} {c : Challenge} {key : Option Bytes}
    (judged : Evidence s log o c none) (rechecked : Rechecked s log o c key) :
    Evidence s log o c key := by
  obtain ⟨a, attested⟩ | unattested := rechecked
  · obtain ⟨a', attested', matched⟩ | unattested := judged
    · have same : a' = a := by
        have both := attested'.parsed.symm.trans attested.parsed
        exact Except.ok.inj both
      exact .inl ⟨a, attested, same ▸ matched⟩
    · exact absurd unattested.absent attested.sent
  · exact .inr unattested

variable {log' : List Entry} {o o' : Order} {c c' : Challenge} {key : Option Bytes}

theorem Concerns.path {d : Decision} {a : Option Attestation} (about : Concerns d o a)
    (path : o.Path o') : Concerns d o' a := by
  rw [path.same]
  exact ⟨about.order, about.account, about.binding, about.identifier, about.attestation⟩

theorem Attested.mono {a : Attestation} (attested : Attested s log o c key a)
    (kept : ∀ entry ∈ log, entry ∈ log') (path : o.Path o')
    (bytes : c'.attestation = c.attestation) (token : c'.token = c.token) :
    Attested s log' o' c' key a := by
  obtain ⟨now, read, verified⟩ := attested.verified
  obtain ⟨d, given, about⟩ := attested.accepted
  exact ⟨bytes ▸ attested.sent, bytes ▸ attested.parsed, ⟨now, kept _ read, token ▸ verified⟩,
    ⟨d, kept _ given, about.path path⟩⟩

theorem Unattested.mono (unattested : Unattested s log o c)
    (kept : ∀ entry ∈ log, entry ∈ log') (path : o.Path o')
    (bytes : c'.attestation = c.attestation) : Unattested s log' o' c' := by
  obtain ⟨d, given, about⟩ := unattested.accepted
  refine ⟨bytes ▸ unattested.absent, ?_, ?_, ⟨d, kept _ given, about.path path⟩⟩
  · rw [path.same]
    exact unattested.optional
  · obtain always | ⟨d, given, about⟩ := unattested.permitted
    · exact .inl always
    · exact .inr ⟨d, kept _ given, about.path path⟩

theorem Rechecked.mono (rechecked : Rechecked s log o c key)
    (kept : ∀ entry ∈ log, entry ∈ log') (path : o.Path o')
    (bytes : c'.attestation = c.attestation) (token : c'.token = c.token) :
    Rechecked s log' o' c' key := by
  obtain ⟨a, attested⟩ | unattested := rechecked
  · exact .inl ⟨a, attested.mono kept path bytes token⟩
  · exact .inr (unattested.mono kept path bytes)

theorem Evidence.mono (evidence : Evidence s log o c key)
    (kept : ∀ entry ∈ log, entry ∈ log') (path : o.Path o')
    (bytes : c'.attestation = c.attestation) (token : c'.token = c.token) :
    Evidence s log' o' c' key := by
  obtain ⟨a, attested, matched⟩ | unattested := evidence
  · refine .inl ⟨a, attested.mono kept path bytes token, ?_⟩
    rw [path.same]
    exact matched
  · exact .inr (unattested.mono kept path bytes)

theorem Created.mono (created : Created log o) (kept : ∀ entry ∈ log, entry ∈ log')
    (step : o.Step o') : Created log' o' := by
  obtain ⟨first, made, path, identified⟩ := created
  exact ⟨first, kept _ made, path.extend step, kept _ identified⟩

theorem Registered.mono {cert : X509} (registered : Registered s log cert)
    (kept : ∀ entry ∈ log, entry ∈ log') : Registered s log' cert :=
  ⟨fun configured => kept _ (registered.register configured),
    fun configured => kept _ (registered.revocations configured)⟩

end Evidence

def Together (order authz challenge : Status) : Prop :=
  (order = .pending ∧ authz = .pending ∧ challenge = .pending) ∨
  (authz = .valid ∧ challenge = .valid ∧
    (order = .ready ∨ order = .processing ∨ order = .valid ∨ order = .invalid)) ∨
  (order = .invalid ∧ authz = .invalid ∧ challenge = .invalid)

structure Linked (o : Order) (a : Authorization) (c : Challenge) : Prop where
  authz : a.id = o.authzID
  order : a.orderID = o.id
  account : a.accountID = o.accountID
  expires : a.expires = o.expires
  challenge : c.id = a.challengeID
  owner : c.authzID = a.id
  holder : c.accountID = o.accountID
  together : Together o.status a.status c.status

structure Receipt {Ext : Type} (s : Config Ext) (o : Order) (c : Challenge)
    (cert : Certificate) : Prop where
  order : cert.orderID = o.id
  account : cert.accountID = o.accountID
  binding : cert.binding = o.binding
  device : cert.device = deviceOf s c
  released : o.status = .valid ↔ cert.pendingRegistration = false

structure Whole {Ext : Type} (s : Config Ext) (w : World) (o : Order) (a : Authorization)
    (c : Challenge) : Prop where
  authz : w.store.authzs[o.authzID]? = some a
  challenge : w.store.challenges[a.challengeID]? = some c
  linked : Linked o a c
  judged : c.status = .valid → Evidence s w.log o c none
  created : Created w.log o
  issued : o.status = .processing ∨ o.status = .valid ↔ o.certificateID ≠ ""
  hashed : o.csrHash ≠ "" → o.certificateID ≠ ""
  receipt : o.certificateID ≠ "" →
    ∃ cert, w.store.certs[o.certificateID]? = some cert ∧ Receipt s o c cert

def Entry.order : Entry → Option Order
  | .created o => some o
  | _ => none

structure Good {Ext : Type} (s : Config Ext) (w : World) : Prop where
  orders : ∀ id o, w.store.orders[id]? = some o →
    o.id = id ∧ id ∈ w.used ∧ id ≠ "" ∧ o.authzID ∈ w.used ∧ ∃ a c, Whole s w o a c
  authzs : ∀ id a, w.store.authzs[id]? = some a →
    id ∈ w.used ∧ ∃ o, w.store.orders[a.orderID]? = some o ∧ o.authzID = id
  challenges : ∀ id c, w.store.challenges[id]? = some c →
    id ∈ w.used ∧ ∃ a, w.store.authzs[c.authzID]? = some a ∧ a.challengeID = id
  certs : ∀ id cert, w.store.certs[id]? = some cert →
    cert.id = id ∧ id ∈ w.used ∧ id ≠ "" ∧ cert.orderID ∈ w.used ∧
      ∀ o, w.store.orders[cert.orderID]? = some o → o.certificateID = id
  single : ∀ (id id' : String) (cert cert' : Certificate), w.store.certs[id]? = some cert →
    w.store.certs[id']? = some cert' → cert.orderID = cert'.orderID → id = id'
  claimed : ∀ o, .created o ∈ w.log → w.store.claims[o.identifier.value]? = some o.id
  once : ((w.log.filterMap Entry.order).map (·.identifier.value)).Nodup
  identified : ∀ o, .created o ∈ w.log → .identified o.identifier.value o.binding ∈ w.log

structure Releasable {Ext : Type} (s : Config Ext) (w : World) (cert : Certificate) : Prop where
  vouched : ∃ o a c x, w.store.orders[cert.orderID]? = some o ∧ Whole s w o a c ∧
    c.status = .valid ∧ s.decodeChain cert.chainPEM = .ok x ∧ Registered s w.log x ∧
    Evidence s w.log o c (some x.publicKey) ∧ Receipt s o c cert

structure Advances {Ext : Type} (s : Config Ext) (w w' : World) : Prop where
  used : ∀ id ∈ w.used, id ∈ w'.used
  log : ∀ entry ∈ w.log, entry ∈ w'.log
  orders : Evolves Order.Step w.used w.store.orders w'.store.orders
  authzs : Evolves Authorization.Step w.used w.store.authzs w'.store.authzs
  challenges : Evolves Challenge.Step w.used w.store.challenges w'.store.challenges
  certs : Evolves Certificate.Step w.used w.store.certs w'.store.certs
  kept : ∀ (id : String) (cert : Certificate), w.store.certs[id]? = some cert →
    ∃ cert' : Certificate, w'.store.certs[id]? = some cert' ∧ cert.Step cert'
  claims : ∀ (value owner : String), w.store.claims[value]? = some owner →
    w'.store.claims[value]? = some owner
  released : ∀ (id : String) (cert' : Certificate), w'.store.certs[id]? = some cert' →
    cert'.pendingRegistration = false → w.store.certs[id]? = some cert' ∨
      ∃ cert : Certificate, w.store.certs[id]? = some cert ∧ cert.pendingRegistration = true ∧
        cert' = { cert with pendingRegistration := false } ∧ Releasable s w cert

end AppleDM.Acme
