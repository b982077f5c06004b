import AppleDM.Acme.Invariant

set_option autoImplicit false

namespace AppleDM.Acme

open Mdm Pki Checked Evolution Process Relation

section Knowledge

variable {Ext : Type} {s : Config Ext} {w w' : World} {o : Order} {a : Authorization}
  {c : Challenge} {cert : Certificate}

structure ReadOrder (w : World) (o : Order) : Prop where
  row : Knows w.used w.store.orders o.id o.Path
  authz : Knows w.used w.store.authzs o.authzID (·.orderID = o.id)

structure ReadAuthz (w : World) (a : Authorization) : Prop where
  row : Knows w.used w.store.authzs a.id a.Step
  order : Knows w.used w.store.orders a.orderID
    fun o => o.authzID = a.id ∧ o.accountID = a.accountID
  challenge : Knows w.used w.store.challenges a.challengeID (·.authzID = a.id)

structure ReadChallenge (w : World) (c : Challenge) : Prop where
  row : Knows w.used w.store.challenges c.id c.Step
  authz : Knows w.used w.store.authzs c.authzID
    fun a => a.challengeID = c.id ∧ a.accountID = c.accountID

def ReadCert (w : World) (cert : Certificate) : Prop :=
  ∃ current : Certificate, w.store.certs[cert.id]? = some current ∧ cert.Step current

variable {key : String}

theorem Good.readOrder (good : Good s w) (there : w.store.orders[key]? = some o) :
    ReadOrder w o := by
  obtain ⟨rfl, member, -, listed, a, c, whole⟩ := good.orders key o there
  exact ⟨knows_of_read member there (.refl o),
    knows_of_read listed whole.authz whole.linked.order⟩

theorem Good.readAuthz (good : Good s w) (there : w.store.authzs[key]? = some a) :
    a.id = key ∧ ReadAuthz w a := by
  obtain ⟨o, c, row, rfl, whole⟩ := good.owner there
  have own := whole.linked.authz
  refine ⟨own, knows_of_read ?_ (own ▸ there) (.refl a),
    knows_of_read (good.orders _ o row).2.1 row ⟨own.symm, whole.linked.account.symm⟩,
    knows_of_read (good.challenges _ c whole.challenge).1 whole.challenge whole.linked.owner⟩
  exact own ▸ (good.authzs _ a there).1

theorem Good.readChallenge (good : Good s w)
    (there : w.store.challenges[key]? = some c) : c.id = key ∧ ReadChallenge w c := by
  obtain ⟨member, a, row, rfl⟩ := good.challenges key c there
  obtain ⟨o, d, -, -, whole⟩ := good.owner row
  have same : d = c := by
    have found := whole.challenge
    rw [there] at found
    exact (Option.some.inj found).symm
  subst same
  have own := whole.linked.challenge
  refine ⟨own, knows_of_read (own ▸ member) (own ▸ there) (.refl d),
    knows_of_read (good.authzs _ a row).1 row ⟨own.symm, ?_⟩⟩
  exact whole.linked.account.trans whole.linked.holder.symm

theorem Good.readCert (good : Good s w) (there : w.store.certs[key]? = some cert) :
    cert.id = key ∧ ReadCert w cert := by
  have own := (good.certs key cert there).1
  exact ⟨own, cert, own ▸ there, .refl cert⟩

theorem Advances.readOrder (step : Advances s w w') (read : ReadOrder w o) : ReadOrder w' o :=
  ⟨read.row.later step.used step.orders fun _ _ path => path.extend,
    read.authz.later step.used step.authzs fun a a' own moved => by rw [moved.same]; exact own⟩

theorem Advances.readAuthz (step : Advances s w w') (read : ReadAuthz w a) : ReadAuthz w' a :=
  ⟨read.row.later step.used step.authzs fun _ _ first => first.trans,
    read.order.later step.used step.orders fun o o' own moved => by
      rw [moved.same]
      exact own,
    read.challenge.later step.used step.challenges fun c c' own moved => by
      rw [moved.same]
      exact own⟩

theorem Advances.readChallenge (step : Advances s w w') (read : ReadChallenge w c) :
    ReadChallenge w' c :=
  ⟨read.row.later step.used step.challenges fun _ _ first => first.trans,
    read.authz.later step.used step.authzs fun a a' own moved => by rw [moved.same]; exact own⟩

theorem Advances.readCert (step : Advances s w w') (read : ReadCert w cert) : ReadCert w' cert := by
  obtain ⟨current, there, moved⟩ := read
  obtain ⟨next, found, advanced⟩ := step.kept _ current there
  exact ⟨next, found, moved.trans advanced⟩

theorem lasting {P : World → Prop} (each : ∀ w w', Advances s w w' → P w → P w')
    (holds : P w) (later : ReflTransGen (Advances s) w w') : P w' := by
  induction later with
  | refl => exact holds
  | tail _ step ih => exact each _ _ step ih

variable (since : ReflTransGen (Advances s) w w')
include since

theorem ReadOrder.later (read : ReadOrder w o) : ReadOrder w' o :=
  lasting (fun _ _ step => step.readOrder) read since

theorem ReadAuthz.later (read : ReadAuthz w a) : ReadAuthz w' a :=
  lasting (fun _ _ step => step.readAuthz) read since

theorem ReadChallenge.later (read : ReadChallenge w c) : ReadChallenge w' c :=
  lasting (fun _ _ step => step.readChallenge) read since

theorem ReadCert.later (read : ReadCert w cert) : ReadCert w' cert :=
  lasting (fun _ _ step => step.readCert) read since

theorem logged_later {entry : Entry} (logged : entry ∈ w.log) : entry ∈ w'.log :=
  lasting (fun _ _ step => step.log entry) logged since

end Knowledge

section Contracts

variable {Ext : Type} (s : Config Ext)

inductive Proposed (w : World) (o : Order) (a : Authorization) (c : Challenge) :
    Challenge → Authorization → Order → Prop where
  | valid {attestation : Bytes} {now : Time}
      (judged : Evidence s w.log o { c with attestation } none) :
      Proposed w o a c
        { c with status := .valid, validatedAt := now, attestation, error := none }
        { a with status := .valid } { o with status := .ready }
  | invalid {p : Problem} :
      Proposed w o a c { c with status := .invalid, error := some p }
        { a with status := .invalid } { o with status := .invalid, error := some p }

def Vetted (w : World) (o : Order) (key : Bytes) : Prop :=
  ∃ a c, ReadAuthz w a ∧ ReadChallenge w c ∧ a.id = o.authzID ∧ c.id = a.challengeID ∧
    c.status = .valid ∧ Rechecked s w.log o c (some key)

structure Completing (w : World) (o : Order) (cert : Certificate) : Prop where
  order : ReadOrder w o
  record : ReadCert w cert
  own : cert.orderID = o.id
  vetted : ∃ x, s.decodeChain cert.chainPEM = .ok x ∧ Registered s w.log x ∧
    Vetted s w o x.publicKey

def Needs (w : World) : Action → Prop
  | .createOrder _ id binding _ _ => .identified id.value binding ∈ w.log
  | .saveTriple _ c' a' o' => ∃ o a c, ReadOrder w o ∧ ReadAuthz w a ∧ ReadChallenge w c ∧
    a.id = c.authzID ∧ o.id = a.orderID ∧ Proposed s w o a c c' a' o'
  | .settleOrder o _ => ReadOrder w o ∧ (o.status = .ready ∨ o.status = .processing)
  | .storeReceipt o cert => Completing s w o cert
  | _ => True

def Tells : (action : Action) → Answer action → World → Prop
  | .now, now, w => .clock now ∈ w.log
  | .verifyIdentifier value, r, w => ∀ binding, r = .ok binding → .identified value binding ∈ w.log
  | .authorize d, r, w => r = .ok () → .authorized d ∈ w.log
  | .authorizeUnattested d, r, w => r = .ok () → .unattested d ∈ w.log
  | .register cert _, r, w => r = .ok () → .registered cert ∈ w.log
  | .registerRevocation cert _, r, w => r = .ok () → .recorded cert ∈ w.log
  | .getOrder id, r, w => ∀ o, r = .ok o → w.store.orders[id]? = some o
  | .getAuthorization id, r, w => ∀ a, r = .ok a → w.store.authzs[id]? = some a
  | .getChallenge id, r, w => ∀ c, r = .ok c → w.store.challenges[id]? = some c
  | .getCertificate id, r, w => ∀ cert, r = .ok cert → w.store.certs[id]? = some cert
  | .commitReceipt o _ _, r, w => ∀ order cert, r = .ok (order, cert) →
    w.store.orders[o.id]? = some order ∧ (order.status = .processing ∨ order.status = .valid) ∧
      w.store.certs[cert.id]? = some cert
  | _, _, _ => True

end Contracts

section Transactions

variable {Ext : Type} {s : Config Ext} {st st' : State}

variable {id : String} {o : Order} {a : Authorization} {c : Challenge} {cert : Certificate}
  {choice : Choice Ext}

theorem getOrder_ok : st.getOrder id = .ok o ↔ id ≠ "" ∧ st.orders[id]? = some o := lookup_ok

theorem getAuthorization_ok :
    st.getAuthorization id = .ok a ↔ id ≠ "" ∧ st.authzs[id]? = some a := lookup_ok

theorem getChallenge_ok :
    st.getChallenge id = .ok c ↔ id ≠ "" ∧ st.challenges[id]? = some c := lookup_ok

theorem getCertificate_ok :
    st.getCertificate id = .ok cert ↔ id ≠ "" ∧ st.certs[id]? = some cert := lookup_ok

theorem createOrder_ok {made : Order} (returned : State.createOrder o a c st = .ok (made, st')) :
    made = o ∧ st.claims[o.identifier.value]? = none ∧
      st' = { st with
        claims := st.claims.insert o.identifier.value o.id
        challenges := st.challenges.insert c.id c
        authzs := st.authzs.insert a.id a
        orders := st.orders.insert o.id o } := by
  simp only [State.createOrder, State.claimIdentifier, State.putChallenge,
    State.putAuthorization, State.putOrder, bind_ok, validID_ok, pure_ok] at returned
  obtain ⟨_, ⟨_, -, _, -, claimed⟩, _, ⟨_, -, rfl⟩, _, ⟨_, -, rfl⟩, _, ⟨_, -, _, -, rfl⟩, same⟩ :=
    returned
  cases free : st.claims[o.identifier.value]? with
  | some owner => simp [free] at claimed
  | none =>
    simp only [free, pure_ok] at claimed
    subst claimed
    simp only [Prod.mk.injEq] at same
    exact ⟨same.1.symm, rfl, same.2.symm⟩

theorem saveTriple_ok {value : Bool × Challenge × Authorization × Order}
    (returned : State.saveTriple c a o st = .ok (value, st')) :
    st' = st ∨ ∃ current authz challenge, st.orders[o.id]? = some current ∧
      st.authzs[current.authzID]? = some authz ∧
      st.challenges[authz.challengeID]? = some challenge ∧ current.status = .pending ∧
      authz.status = .pending ∧ challenge.status = .pending ∧
      st' = { st with
        challenges := st.challenges.insert c.id c
        authzs := st.authzs.insert a.id a
        orders := st.orders.insert o.id o } := by
  simp only [State.saveTriple, bind_ok, getOrder_ok, getAuthorization_ok, getChallenge_ok]
    at returned
  obtain ⟨current, ⟨-, foundOrder⟩, authz, ⟨-, foundAuthz⟩, challenge, ⟨-, foundChallenge⟩,
    rest⟩ := returned
  split at rest
  · simp only [pure_ok, Prod.mk.injEq] at rest
    exact .inl rest.2.symm
  · next waiting =>
    simp only [not_or, not_not] at waiting
    simp only [State.putChallenge, State.putAuthorization, State.putOrder, bind_ok, validID_ok,
      pure_ok, Prod.mk.injEq] at rest
    obtain ⟨_, ⟨_, -, rfl⟩, _, ⟨_, -, rfl⟩, _, ⟨_, -, _, -, rfl⟩, -, same⟩ := rest
    exact .inr ⟨current, authz, challenge, foundOrder, foundAuthz, foundChallenge, waiting.1,
      waiting.2.1, waiting.2.2, same.symm⟩

theorem settleOrder_ok {p : Problem} {done : Unit}
    (returned : State.settleOrder o p st = .ok (done, st')) :
    st' = st ∨ ∃ current, st.orders[o.id]? = some current ∧ current.status = o.status ∧
      current.certificateID = "" ∧
      st' = { st with
        orders := st.orders.insert current.id { current with status := .invalid, error := some p } } := by
  simp only [State.settleOrder, bind_ok, getOrder_ok] at returned
  obtain ⟨current, ⟨-, found⟩, rest⟩ := returned
  split at rest
  · simp only [pure_ok, Prod.mk.injEq] at rest
    exact .inl rest.2.symm
  · next same =>
    simp only [not_or, not_not] at same
    simp only [State.putOrder, bind_ok, validID_ok, pure_ok, Prod.mk.injEq] at rest
    obtain ⟨_, ⟨_, -, _, -, rfl⟩, -, written⟩ := rest
    exact .inr ⟨current, found, same.1, same.2, written.symm⟩

theorem signReceipt_ok {csr : Csr} (signed : State.signReceipt s choice o csr c = .ok cert) :
    cert.id = choice.first ∧ cert.orderID = o.id ∧ cert.accountID = o.accountID ∧
      cert.binding = o.binding ∧ cert.device = deviceOf s c ∧ cert.pendingRegistration = true := by
  simp only [State.signReceipt, bind_ok, pure_ok] at signed
  obtain ⟨_, -, _, -, _, -, rfl⟩ := signed
  exact ⟨rfl, rfl, rfl, rfl, rfl, rfl⟩

theorem commitReceipt_ok {csr : Csr} {order : Order}
    (returned : State.commitReceipt s choice o csr c st = .ok ((order, cert), st')) :
    (st' = st ∧ st.orders[o.id]? = some order ∧
      (order.status = .processing ∨ order.status = .valid) ∧
      st.certs[order.certificateID]? = some cert) ∨
    ∃ current authz stored, st.orders[o.id]? = some current ∧ current.status = .ready ∧
      st.authzs[current.authzID]? = some authz ∧
      st.challenges[authz.challengeID]? = some stored ∧
      State.signReceipt s choice current csr stored = .ok cert ∧
      order = { current with
        status := .processing, csrHash := s.hashCSR csr.raw, certificateID := cert.id,
        error := none } ∧
      st' = { st with
        certs := st.certs.insert cert.id cert
        orders := st.orders.insert order.id order } := by
  simp only [State.commitReceipt, bind_ok, getOrder_ok, reject_ok] at returned
  obtain ⟨current, ⟨-, found⟩, _, -, rest⟩ := returned
  split at rest
  · next issued =>
    simp only [bind_ok, reject_ok, getCertificate_ok, pure_ok, Prod.mk.injEq] at rest
    obtain ⟨_, -, _, -, _, ⟨-, there⟩, ⟨rfl, rfl⟩, rfl⟩ := rest
    exact .inl ⟨rfl, found, issued.symm, there⟩
  · simp only [bind_ok, reject_ok, getAuthorization_ok, getChallenge_ok, State.putCertificate,
      State.putOrder, validID_ok, pure_ok, Prod.mk.injEq] at rest
    obtain ⟨_, ready, authz, ⟨-, foundAuthz⟩, stored, ⟨-, foundChallenge⟩, _, -, record, signed,
      _, ⟨_, -, rfl⟩, _, ⟨_, -, _, -, rfl⟩, ⟨rfl, rfl⟩, same⟩ := rest
    simp only [not_or, not_not] at ready
    exact .inr ⟨current, authz, stored, found, ready.1, foundAuthz, foundChallenge, signed, rfl,
      same.symm⟩

theorem storeReceipt_ok
    {value : Bool × Order} (returned : State.storeReceipt choice o cert st = .ok (value, st')) :
    st' = st ∨ ∃ current, st.orders[o.id]? = some current ∧ current.certificateID = cert.id ∧
      current.status = .processing ∧
      st' = { st with
        certs := st.certs.insert cert.id { cert with pendingRegistration := false }
        orders := st.orders.insert current.id { current with status := .valid } } := by
  simp only [State.storeReceipt, bind_ok, getOrder_ok, reject_ok] at returned
  obtain ⟨current, ⟨-, found⟩, _, receipt, rest⟩ := returned
  simp only [not_or, not_not] at receipt
  split at rest
  · simp only [pure_ok, Prod.mk.injEq] at rest
    exact .inl rest.2.symm
  · simp only [bind_ok, reject_ok, State.putCertificate, State.putOrder, validID_ok, pure_ok,
      Prod.mk.injEq] at rest
    obtain ⟨_, processing, _, ⟨_, -, rfl⟩, _, ⟨_, -, _, -, rfl⟩, -, same⟩ := rest
    simp only [not_or, not_not] at processing
    exact .inr ⟨current, found, receipt.1, processing.1, same.symm⟩

theorem updateOrder_cases {A : Type} (st : State) (id : String)
    (fn : State → Except Failure (A × State)) :
    (∃ value after, fn st = .ok (value, after) ∧ st.updateOrder id fn = (.ok value, after)) ∨
      ∃ failure, st.updateOrder id fn = (.error failure, st) := by
  unfold State.updateOrder
  obtain ⟨value, after, ran, same⟩ | ⟨failure, -, same⟩ :=
    State.update_cases st fun st => do
      let _ ← st.getOrder id
      fn st
  · simp only [bind_ok] at ran
    obtain ⟨_, -, ran⟩ := ran
    exact .inl ⟨value, after, ran, same⟩
  · exact .inr ⟨failure, same⟩

end Transactions

end AppleDM.Acme
