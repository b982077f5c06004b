import AppleDM.Acme.Contract

set_option autoImplicit false

namespace AppleDM.Acme

open Mdm Pki Checked Evolution Process Relation

variable {Ext : Type} {s : Config Ext} {w w' : World}

abbrev Runs {A : Type} (s : Config Ext) (p : Handler A) (post : A → World → Prop) (w : World) :
    Prop :=
  Safe (exec s) (Advances s) (Good s) p post w

variable {detail : String}

section Rules

variable {A B : Type} {post : B → World → Prop} {action : Action}

theorem ask_runs {post : Answer action → World → Prop}
    (needed : ∀ found, ReflTransGen (Advances s) w found → Needs s found action)
    (rest : ∀ answer after, ReflTransGen (Advances s) w after → Good s after →
      Tells action answer after → post answer after) : Runs s (ask action) post w := by
  refine safe_act (fun found choice answer after good needs performed => ?_)
    (fun found since _ => needed found since) rest
  obtain ⟨keeps, tells⟩ := exec_keeps good needs performed
  exact ⟨keeps.1, keeps.2, tells⟩

theorem runs_ask {next : Answer action → Handler B}
    (needed : ∀ found, ReflTransGen (Advances s) w found → Needs s found action)
    (rest : ∀ answer after, ReflTransGen (Advances s) w after → Good s after →
      Tells action answer after → Runs s (next answer) post after) :
    Runs s (ask action >>= next) post w :=
  safe_bind.2 (ask_runs needed rest)

theorem runs_clock {next : Time → Handler B}
    (rest : ∀ now after, ReflTransGen (Advances s) w after → .clock now ∈ after.log →
      Runs s (next now) post after) : Runs s (clock >>= next) post w :=
  runs_ask (fun _ _ => trivial) fun now after since _ told => rest now after since told

theorem runs_fail {p : Problem} : Runs s (fail p : Handler B) post w := trivial

variable {next : A → Handler B} {r : Except Failure A}

theorem runs_raise (rest : ∀ value, r = .ok value → Runs s (next value) post w) :
    Runs s (raise r >>= next) post w := by
  cases r with
  | ok value => exact safe_bind.2 (rest value rfl)
  | error failure => exact safe_bind.2 trivial

theorem runs_refuse {failed : Prop} [Decidable failed] {p : Problem} {next : Unit → Handler B}
    (rest : ¬ failed → Runs s (next ()) post w) : Runs s (refuseIf failed p >>= next) post w := by
  unfold refuseIf
  split
  · exact safe_bind.2 trivial
  · next passed => exact safe_bind.2 (rest passed)

theorem readable_runs {r : Except Failure B}
    (rest : ∀ value, r = .ok value → post value w) : Runs s (readable detail r) post w := by
  cases r with
  | ok value => exact rest value rfl
  | error failure => exact runs_fail

theorem runs_readable (rest : ∀ value, r = .ok value → Runs s (next value) post w) :
    Runs s (readable detail r >>= next) post w :=
  safe_bind.2 (readable_runs rest)

theorem runs_found {missing : Problem} (rest : ∀ value, r = .ok value → Runs s (next value) post w) :
    Runs s (found missing detail r >>= next) post w := by
  cases r with
  | ok value => exact safe_bind.2 (rest value rfl)
  | error failure =>
    refine safe_bind.2 ?_
    dsimp only [found]
    split <;> exact runs_fail

theorem runs_decode {payload : Payload A}
    (rest : ∀ value, Runs s (next value) post w) : Runs s (decode payload >>= next) post w := by
  cases payload with
  | read value => exact safe_bind.2 (rest value)
  | empty | unreadable => exact safe_bind.2 trivial

theorem runs_bind {p : Handler A} {mid : A → World → Prop} (first : Runs s p mid w)
    (rest : ∀ value after, ReflTransGen (Advances s) w after → mid value after →
      Runs s (next value) post after) : Runs s (p >>= next) post w :=
  safe_bind.2 (first.mono rest)

theorem runs_attempt {p : Handler A} {next : Except Failure A → Handler B}
    {mid : A → World → Prop} (first : Runs s p mid w)
    (returned : ∀ value after, ReflTransGen (Advances s) w after → mid value after →
      Runs s (next (.ok value)) post after)
    (failed : ∀ failure after, ReflTransGen (Advances s) w after →
      Runs s (next (.error failure)) post after) :
    Runs s (ExceptT.lift p.run >>= next) post w :=
  safe_bind.2 (safe_lift first returned failed)

end Rules

section Policy

variable {account : Account} {o : Order} {c : Challenge}

theorem Concerns.asked (own : account.id = o.accountID) (a : Option Attestation) :
    Concerns ⟨account, o, o.binding, o.identifier, a⟩ o a :=
  ⟨rfl, own, rfl, rfl, rfl⟩

theorem authorize_runs (own : account.id = o.accountID) (a : Option Attestation) :
    Runs s (Server.authorize account o a)
      (fun _ after => (o.binding.requireAttestation = true → a ≠ none) ∧
        ∃ d, .authorized d ∈ after.log ∧ Concerns d o a) w := by
  refine runs_refuse fun needed => runs_ask (fun _ _ => trivial) fun answer after _ _ told => ?_
  cases answer with
  | error failure => exact runs_fail
  | ok done =>
    refine ⟨fun required absent => needed ⟨required, absent⟩, _, told rfl, Concerns.asked own a⟩

theorem authorizeUnattested_runs (own : account.id = o.accountID)
    (absent : s.attest.absent c.attestation) :
    Runs s (Server.authorizeUnattested s account o)
      (fun _ after => Unattested s after.log o c) w := by
  unfold Server.authorizeUnattested
  split
  · next always =>
    refine (authorize_runs own none).mono fun _ after _ ⟨optional, accepted⟩ => ?_
    exact ⟨absent, by simpa using optional, .inl always, accepted⟩
  · refine runs_refuse fun _ => runs_ask (fun _ _ => trivial) fun answer mid _ _ told => ?_
    cases answer with
    | error failure => exact runs_fail
    | ok done =>
      refine (authorize_runs own none).mono fun _ after since ⟨optional, accepted⟩ => ?_
      exact ⟨absent, by simpa using optional,
        .inr ⟨_, logged_later since (told rfl), Concerns.asked own none⟩, accepted⟩

theorem validate_runs (own : account.id = o.accountID) (c : Challenge) (raw : Bytes) :
    Runs s (Server.validate s account c o raw)
      (fun _ after => Evidence s after.log o { c with attestation := raw } none) w := by
  unfold Server.validate
  split
  · next absent =>
    exact (authorizeUnattested_runs own absent).mono fun _ _ _ unattested => .inr unattested
  · next sent =>
    split
    · exact runs_fail
    · next a parsed =>
      refine runs_clock fun now mid _ read => ?_
      split
      · exact runs_fail
      · next verified =>
        refine runs_raise fun _ matched => ?_
        refine (authorize_runs own (some a)).mono fun _ after since ⟨_, accepted⟩ => ?_
        exact .inl ⟨a, ⟨sent, parsed, ⟨now, logged_later since read, verified⟩, accepted⟩,
          matchBinding_ok matched⟩

theorem challenge_valid (good : Good s w) {a : Authorization} (order : ReadOrder w o)
    (issued : o.status = .processing ∨ o.status = .valid) (authz : ReadAuthz w a)
    (ownOrder : a.orderID = o.id) (there : w.store.challenges[a.challengeID]? = some c) :
    c.status = .valid := by
  have owner := authz.challenge.2 c there
  obtain ⟨-, current, found, -⟩ := good.challenges _ c there
  rw [owner] at found
  have moved := authz.row.2 current found
  obtain ⟨o', c', foundOrder, -, whole⟩ := good.owner found
  have sameOrder : current.orderID = o.id := by rw [moved.same]; exact ownOrder
  have sameChallenge : current.challengeID = a.challengeID := by rw [moved.same]
  have same : c' = c := by
    have row := whole.challenge
    rw [sameChallenge, there] at row
    exact (Option.some.inj row).symm
  subst same
  have issued' := (order.row.2 o' (sameOrder ▸ foundOrder)).issued issued
  obtain ⟨pending, -⟩ | ⟨-, valid, -⟩ | ⟨invalid, -⟩ := whole.linked.together
  · simp [pending] at issued'
  · exact valid
  · simp [invalid] at issued'

theorem challengeOf_runs (known : ReadOrder w o) :
    Runs s (Server.challengeOf o)
      (fun c after => ∃ a, ReadAuthz after a ∧ ReadChallenge after c ∧ a.id = o.authzID ∧
        c.id = a.challengeID ∧
        (o.status = .processing ∨ o.status = .valid → c.status = .valid)) w := by
  refine runs_ask (fun _ _ => trivial) fun answer first since good told => ?_
  refine runs_readable fun a read => ?_
  have there := told a read
  obtain ⟨ownAuthz, authz⟩ := good.readAuthz there
  have ownOrder := (known.later since).authz.2 a there
  refine runs_ask (fun _ _ => trivial) fun answer second later good told => ?_
  refine readable_runs fun c read => ?_
  have row := told c read
  obtain ⟨ownChallenge, challenge⟩ := good.readChallenge row
  have authz := authz.later later
  exact ⟨a, authz, challenge, ownAuthz, ownChallenge, fun issued =>
    challenge_valid good ((known.later since).later later) issued authz ownOrder row⟩

theorem checkKey_runs (known : ReadOrder w o) (own : account.id = o.accountID) (key : Bytes) :
    Runs s (Server.checkKey s account o key)
      (fun _ after => o.status = .processing ∨ o.status = .valid → Vetted s after o key) w := by
  refine runs_bind (challengeOf_runs known) ?_
  intro c read since ⟨a, authz, challenge, ownAuthz, ownChallenge, valid⟩
  have vetted {after : World} (later : ReflTransGen (Advances s) read after)
      (rechecked : Rechecked s after.log o c (some key))
      (issued : o.status = .processing ∨ o.status = .valid) : Vetted s after o key :=
    ⟨a, c, authz.later later, challenge.later later, ownAuthz, ownChallenge, valid issued,
      rechecked⟩
  split
  · next absent =>
    refine runs_refuse fun _ => ?_
    exact (authorizeUnattested_runs own absent).mono fun _ after later unattested =>
      vetted later (.inr unattested)
  · next sent =>
    split
    · exact runs_fail
    · next att parsed =>
      refine runs_clock fun now mid first ticked => ?_
      split
      · exact runs_fail
      · exact runs_fail
      · next verified =>
        refine (authorize_runs own (some att)).mono fun _ after later ⟨_, accepted⟩ => ?_
        exact vetted (first.trans later)
          (.inl ⟨att, sent, parsed, ⟨now, logged_later later ticked, verified⟩, accepted⟩)

end Policy

def Served : Response → World → Prop
  | .certificate id chain, w => ∃ cert : Certificate, w.store.certs[id]? = some cert ∧
    cert.pendingRegistration = false ∧ cert.chainPEM = chain
  | _, _ => True

section Issuing

variable {account : Account} {o : Order} {cert : Certificate}

theorem Vetted.later {key : Bytes} (vetted : Vetted s w o key)
    (since : ReflTransGen (Advances s) w w') : Vetted s w' o key := by
  obtain ⟨a, c, authz, challenge, ownAuthz, ownChallenge, valid, rechecked⟩ := vetted
  exact ⟨a, c, authz.later since, challenge.later since, ownAuthz, ownChallenge, valid,
    rechecked.mono (fun _ => logged_later since) (.refl o) rfl rfl⟩

theorem registerWith_runs {configured : Bool}
    {callback : Handler (Except Failure Unit)} {entry : Entry}
    (told : Runs s callback (fun answer after => answer = .ok () → entry ∈ after.log) w) :
    Runs s (Server.registerWith configured detail callback)
      (fun _ after => configured = true → entry ∈ after.log) w := by
  unfold Server.registerWith
  split
  · exact runs_bind told fun answer after _ logged =>
      readable_runs fun _ accepted _ => logged accepted
  · next off => exact fun on => absurd on off

theorem storeReceipt_runs (order : ReadOrder w o) (record : ReadCert w cert)
    (own : cert.orderID = o.id) {x : X509} (decoded : s.decodeChain cert.chainPEM = .ok x)
    (vetted : Vetted s w o x.publicKey) :
    Runs s (Server.storeReceipt s o cert x) (fun _ _ => True) w := by
  refine runs_bind (registerWith_runs (ask_runs (fun _ _ => trivial) fun _ _ _ _ told => told)) ?_
  intro _ first early registered
  refine runs_bind (registerWith_runs (ask_runs (fun _ _ => trivial) fun _ _ _ _ told => told)) ?_
  intro _ second late recorded
  have since := early.trans late
  refine runs_ask (fun found later => ?_) fun answer after _ _ _ => ?_
  · have whole := since.trans later
    exact ⟨order.later whole, record.later whole, own, x, decoded,
      ⟨fun on => logged_later (late.trans later) (registered on),
        fun on => logged_later later (recorded on)⟩, vetted.later whole⟩
  · cases answer with
    | ok value => trivial
    | error failure => exact runs_fail

theorem completeReceipt_runs (order : ReadOrder w o) (record : ReadCert w cert)
    (own : account.id = o.accountID) (issued : o.status = .processing ∨ o.status = .valid) :
    Runs s (Server.completeReceipt s account o cert) (fun _ _ => True) w := by
  refine runs_refuse fun receipt => runs_clock fun _ first early _ => runs_refuse fun _ => ?_
  refine runs_clock fun _ second late _ => runs_refuse fun _ => ?_
  simp only [not_or, not_not] at receipt
  split
  · exact runs_fail
  · next x decoded =>
    have since := early.trans late
    refine runs_bind (checkKey_runs (order.later since) own x.publicKey) ?_
    intro _ after later vetted
    have whole := since.trans later
    exact storeReceipt_runs (order.later whole) (record.later whole) receipt.1 decoded
      (vetted issued)

theorem issue_runs (known : ReadOrder w o) (own : account.id = o.accountID) (csr : Csr) :
    Runs s (Server.issue s account o csr) (fun _ _ => True) w := by
  refine runs_bind (challengeOf_runs known) fun c read since _ => ?_
  refine runs_ask (fun _ _ => trivial) fun answer after later good told => ?_
  cases answer with
  | error failure => exact runs_fail
  | ok receipt =>
    obtain ⟨order, record⟩ := receipt
    obtain ⟨row, issued, there⟩ := told order record rfl
    dsimp only
    split
    · trivial
    · have path := (known.later (since.trans later)).row.2 order row
      have same : order.accountID = o.accountID := by rw [path.same]
      exact completeReceipt_runs (good.readOrder row) (good.readCert there).2
        (own.trans same.symm) issued

theorem loadOrder_runs (id : String) :
    Runs s (Server.loadOrder account id)
      (fun o after => ReadOrder after o ∧ account.id = o.accountID) w := by
  refine runs_ask (fun _ _ => trivial) fun answer after _ good told => ?_
  refine runs_found fun o read => runs_refuse fun own => ?_
  exact ⟨good.readOrder (told o read), (not_not.1 own).symm⟩

theorem finalizeOpen_runs (known : ReadOrder w o) (own : account.id = o.accountID)
    (waiting : o.status = .ready ∨ o.status = .processing) (payload : Payload FinalizeRequest) :
    Runs s (Server.finalizeOpen s account o payload) Served w := by
  have settles {after : World} (since : ReflTransGen (Advances s) w after) (cause : Failure) :
      Runs s (Server.settleOrder o cause) Served after := by
    refine runs_refuse fun _ => runs_ask (fun _ later => ⟨known.later (since.trans later), waiting⟩) ?_
    exact fun _ _ _ _ _ => runs_readable fun _ _ => runs_fail
  refine runs_clock fun now first early _ => runs_refuse fun _ => runs_decode fun req => ?_
  split
  · exact settles early _
  · next csr parsed =>
    refine runs_attempt (checkKey_runs (known.later early) own csr.publicKey) ?_
      (fun cause after later => settles (early.trans later) cause)
    intro _ second late _
    have since := early.trans late
    refine runs_attempt (issue_runs (known.later since) own csr) ?_
      (fun cause after later => settles (since.trans later) cause)
    exact fun order after _ _ => trivial

theorem finalize_runs (account : Account) (id : String) (payload : Payload FinalizeRequest) :
    Runs s (Server.finalize s account id payload) Served w := by
  refine runs_bind (loadOrder_runs id) fun o read _ ⟨known, own⟩ => ?_
  cases status : o.status with
  | ready => exact finalizeOpen_runs known own (.inl status) payload
  | processing =>
    dsimp only
    split
    · exact runs_fail
    · exact finalizeOpen_runs known own (.inr status) payload
  | valid => trivial
  | _ => exact runs_fail

theorem order_runs (account : Account) (id : String) :
    Runs s (Server.order s account id) Served w := by
  refine runs_bind (loadOrder_runs id) fun o read _ ⟨known, own⟩ => ?_
  split
  · next issued =>
    refine runs_ask (fun _ _ => trivial) fun answer after since good told => ?_
    refine runs_readable fun record there => ?_
    refine runs_bind (completeReceipt_runs (known.later since)
      (good.readCert (told record there)).2 own (.inl issued.1)) ?_
    exact fun _ _ _ _ => trivial
  · trivial

theorem certificate_runs (account : Account) (id : String) :
    Runs s (Server.certificate account id) Served w := by
  refine runs_ask (fun _ _ => trivial) fun answer after _ _ told => ?_
  refine runs_found fun record read => runs_refuse fun _ => runs_refuse fun released => ?_
  exact ⟨record, told record read, by simpa using released, rfl⟩

end Issuing

section Answering

variable {account : Account} {o : Order} {a : Authorization} {c : Challenge}

theorem settleChallenge_runs (order : ReadOrder w o) (authz : ReadAuthz w a)
    (challenge : ReadChallenge w c) (ownAuthz : a.id = c.authzID) (ownOrder : o.id = a.orderID)
    (cause : Failure) : Runs s (Server.settleChallenge c a o cause) Served w := by
  refine runs_refuse fun _ => runs_ask (fun found since => ?_) ?_
  · exact ⟨o, a, c, order.later since, authz.later since, challenge.later since, ownAuthz,
      ownOrder, .invalid⟩
  · exact fun answer after _ _ _ => runs_raise fun _ _ => runs_fail

theorem challenge_runs (account : Account) (id : String)
    (payload : Payload (Option ChallengeRequest)) :
    Runs s (Server.challenge s account id payload) Served w := by
  refine runs_ask (fun _ _ => trivial) fun answer w₁ _ good told => ?_
  refine runs_found fun c read => runs_refuse fun holder => ?_
  have challenge := (good.readChallenge (told c read)).2
  split_ifs
  · trivial
  refine runs_ask (fun _ _ => trivial) fun answer w₂ since₁ good told => ?_
  refine runs_readable fun a read => ?_
  have rowAuthz := told a read
  have challenge := challenge.later since₁
  have account₁ := (challenge.authz.2 a rowAuthz).2
  obtain ⟨ownAuthz, authz⟩ := good.readAuthz rowAuthz
  refine runs_ask (fun _ _ => trivial) fun answer w₃ since₂ good told => ?_
  refine runs_readable fun o read => ?_
  have rowOrder := told o read
  have authz := authz.later since₂
  have account₂ := (authz.order.2 o rowOrder).2
  have ownOrder := (good.orders _ o rowOrder).1
  have order := good.readOrder rowOrder
  have own : account.id = o.accountID :=
    (not_not.1 holder).symm.trans (account₁.symm.trans account₂.symm)
  have challenge := challenge.later since₂
  have settles {after : World} (since : ReflTransGen (Advances s) w₃ after) (cause : Failure) :
      Runs s (Server.settleChallenge c a o cause) Served after :=
    settleChallenge_runs (order.later since) (authz.later since) (challenge.later since) ownAuthz
      ownOrder cause
  refine runs_clock fun now w₄ since₃ _ => runs_refuse fun _ => ?_
  split
  · exact settles since₃ _
  · next raw sent =>
    refine runs_attempt (validate_runs own c raw) ?_
      (fun cause after later => settles (since₃.trans later) cause)
    intro _ w₅ since₄ judged
    refine runs_clock fun now w₆ since₅ _ => runs_ask (fun found later => ?_) ?_
    · have since := ((since₃.trans since₄).trans since₅).trans later
      refine ⟨o, a, c, order.later since, authz.later since, challenge.later since, ownAuthz,
        ownOrder, .valid ?_⟩
      exact judged.mono (fun _ => logged_later (since₅.trans later)) (.refl o) rfl rfl
    · exact fun answer after _ _ _ => runs_raise fun _ _ => trivial

theorem newOrder_runs (account : Account) (payload : Payload OrderRequest) :
    Runs s (Server.newOrder s account payload) Served w := by
  refine runs_decode fun req => ?_
  split
  · refine runs_refuse fun _ => runs_refuse fun _ => runs_refuse fun _ => ?_
    refine runs_ask (fun _ _ => trivial) fun answer first _ _ told => ?_
    refine runs_raise fun binding accepted => runs_clock fun now second since _ => ?_
    refine runs_ask (fun found later => ?_) fun answer after _ _ _ => ?_
    · exact logged_later (since.trans later) (told binding accepted)
    · cases answer with
      | ok order => trivial
      | error failure =>
        dsimp only
        split <;> exact runs_fail
  · exact runs_fail

theorem authorization_runs (account : Account) (id : String) :
    Runs s (Server.authorization s account id) Served w := by
  refine runs_ask (fun _ _ => trivial) fun answer first _ _ _ => ?_
  refine runs_found fun a _ => runs_refuse fun _ => ?_
  refine runs_ask (fun _ _ => trivial) fun answer second _ _ _ => ?_
  exact runs_readable fun c _ => runs_clock fun now after _ _ => trivial

theorem consumeNonce_runs (value : String) :
    Runs s (Server.consumeNonce s value) (fun _ _ => True) w := by
  refine runs_refuse fun _ => runs_ask (fun _ _ => trivial) fun answer after _ _ _ => ?_
  refine runs_found fun n _ => runs_clock fun now later _ _ => ?_
  unfold refuseIf
  split <;> trivial

theorem authenticate_runs (r : Signed) :
    Runs s (Server.authenticate s r) (fun _ _ => True) w := by
  refine runs_ask (fun _ _ => trivial) fun _ first _ _ _ => runs_raise fun _ _ => ?_
  refine runs_bind (consumeNonce_runs r.nonce) fun _ second _ _ => ?_
  refine runs_ask (fun _ _ => trivial) fun answer third _ _ _ => ?_
  exact runs_found fun account _ => runs_refuse fun _ => runs_raise fun _ _ => trivial

theorem newAccount_runs (r : Signed) (thumbprint : String) (key : Bytes)
    (payload : Payload AccountRequest) :
    Runs s (Server.newAccount s r thumbprint key payload) Served w := by
  refine runs_ask (fun _ _ => trivial) fun _ first _ _ _ => runs_raise fun _ _ => ?_
  refine runs_bind (consumeNonce_runs r.nonce) fun _ second _ _ => runs_raise fun _ _ => ?_
  refine runs_decode fun req => runs_ask (fun _ _ => trivial) fun answer third _ _ _ => ?_
  cases answer with
  | ok existing => trivial
  | error failure =>
    refine runs_refuse fun _ => runs_refuse fun _ => runs_clock fun now fourth _ _ => ?_
    refine runs_ask (fun _ _ => trivial) fun answer fifth _ _ _ => ?_
    cases answer with
    | ok account => trivial
    | error failure =>
      refine runs_refuse fun _ => runs_ask (fun _ _ => trivial) fun answer after _ _ _ => ?_
      exact runs_readable fun existing _ => trivial

end Answering

theorem handle_runs (request : Request) : Runs s (handle s request) Served w := by
  have signed {A : Type} {r : Signed} {next : Account → Handler A} {post : A → World → Prop}
      (rest : ∀ account after, Runs s (next account) post after) :
      Runs s (Server.authenticate s r >>= next) post w :=
    runs_bind (authenticate_runs r) fun account after _ _ => rest account after
  cases request with
  | newAccount r thumbprint key payload => exact newAccount_runs r thumbprint key payload
  | newOrder r payload => exact signed fun account _ => newOrder_runs account payload
  | order r id => exact signed fun account _ => order_runs account id
  | authorization r id => exact signed fun account _ => authorization_runs account id
  | challenge r id payload => exact signed fun account _ => challenge_runs account id payload
  | finalize r id payload => exact signed fun account _ => finalize_runs account id payload
  | certificate r id => exact signed fun account _ => certificate_runs account id
  | prune before =>
    exact runs_ask (fun _ _ => trivial) fun _ _ _ _ _ => trivial

theorem Advances.served (step : Advances s w w') {response : Response}
    (served : Served response w) : Served response w' := by
  cases response with
  | certificate id chain =>
    obtain ⟨cert, there, released, same⟩ := served
    obtain ⟨cert', there', moved⟩ := step.kept id cert there
    obtain rfl | ⟨pending, -⟩ := moved
    · exact ⟨cert', there', released, same⟩
    · simp [released] at pending
  | _ => trivial

def Answered (result : Except Failure Response) (w : World) : Prop :=
  ∀ response, result = .ok response → Served response w

theorem disciplined (s : Config Ext) :
    Disciplined (exec s) (Advances s) (Good s) (fun request => (handle s request).run)
      Answered where
  reflexive := fun w _ => (Quiet.refl w).advances
  starts := fun request w _ => by
    have runs : Runs s (handle s request) Served w := handle_runs request
    refine Meets.mono runs fun result after holds => ?_
    rintro response rfl
    exact holds
  stable := fun _ _ _ answered since response same =>
    lasting (fun _ _ step => step.served) (answered response same) since

end AppleDM.Acme
