import AppleDM.Acme.Actions

set_option autoImplicit false

namespace AppleDM.Acme

open Mdm Pki Checked Evolution Process Relation

variable {Ext : Type} {s : Config Ext} {w : World} {o : Order} {a : Authorization}
  {c : Challenge}

def Keeps (s : Config Ext) (w w' : World) : Prop := Advances s w w' ∧ Good s w'

theorem Good.keeps_quiet {w' : World} (good : Good s w) (quiet : Quiet w w') : Keeps s w w' :=
  ⟨quiet.advances, good.quiet quiet⟩

theorem Good.whole_of (good : Good s w) {key : String} (there : w.store.orders[key]? = some o)
    (authz : w.store.authzs[o.authzID]? = some a)
    (challenge : w.store.challenges[a.challengeID]? = some c) : Whole s w o a c := by
  obtain ⟨-, -, -, -, b, d, whole⟩ := good.orders key o there
  have sameAuthz : b = a := Option.some.inj (whole.authz.symm.trans authz)
  subst sameAuthz
  have sameChallenge : d = c := Option.some.inj (whole.challenge.symm.trans challenge)
  exact sameChallenge ▸ whole

variable {o' : Order} {a' : Authorization} {c' : Challenge}

theorem Whole.moved (whole : Whole s w o a c) (w' : World) (log : w'.log = w.log) (step : o.Step o')
    (authz : w'.store.authzs[o'.authzID]? = some a')
    (challenge : w'.store.challenges[a'.challengeID]? = some c') (linked : Linked o' a' c')
    (judged : c'.status = .valid → Evidence s w.log o' c' none)
    (blank : o.certificateID = "" ∧ o'.certificateID = "" ∧ o'.csrHash = o.csrHash)
    (unissued : o'.status ≠ .processing ∧ o'.status ≠ .valid) : Whole s w' o' a' c' := by
  refine ⟨authz, challenge, linked, fun valid => log ▸ judged valid,
    log ▸ whole.created.mono (fun _ member => member) step, ?_, ?_, ?_⟩
  · simp [blank.2.1, unissued.1, unissued.2]
  · intro hashed
    exact absurd blank.1 (whole.hashed (blank.2.2 ▸ hashed))
  · exact fun given => absurd blank.2.1 given

theorem Whole.blank (whole : Whole s w o a c)
    (unissued : o.status ≠ .processing ∧ o.status ≠ .valid) : o.certificateID = "" := by
  by_contra given
  obtain processing | valid := whole.issued.2 given
  · exact unissued.1 processing
  · exact unissued.2 valid

theorem whole_of_pending (good : Good s w) (order : ReadOrder w o) (authz : ReadAuthz w a)
    (challenge : ReadChallenge w c) (ownAuthz : a.id = c.authzID) (ownOrder : o.id = a.orderID)
    {current : Order} {currentAuthz : Authorization} {currentChallenge : Challenge}
    (foundOrder : w.store.orders[o.id]? = some current)
    (foundAuthz : w.store.authzs[current.authzID]? = some currentAuthz)
    (foundChallenge : w.store.challenges[currentAuthz.challengeID]? = some currentChallenge)
    (pendingOrder : current.status = .pending) (pendingAuthz : currentAuthz.status = .pending)
    (pendingChallenge : currentChallenge.status = .pending) :
    w.store.orders[o.id]? = some o ∧ Whole s w o a c ∧ o.status = .pending ∧
      a.status = .pending ∧ c.status = .pending := by
  obtain rfl := (order.row.2 current foundOrder).pending pendingOrder
  have listed : current.authzID = a.id := (authz.order.2 current (ownOrder ▸ foundOrder)).1
  rw [listed] at foundAuthz
  obtain rfl := (authz.row.2 currentAuthz foundAuthz).unless pendingAuthz
  have named := (challenge.authz.2 currentAuthz (ownAuthz ▸ foundAuthz)).1
  rw [named] at foundChallenge
  obtain rfl := (challenge.row.2 currentChallenge foundChallenge).unless (.inr pendingChallenge)
  refine ⟨foundOrder, good.whole_of foundOrder ?_ ?_, pendingOrder, pendingAuthz,
    pendingChallenge⟩
  · rw [listed]
    exact foundAuthz
  · rw [named]
    exact foundChallenge

structure Settles (s : Config Ext) (w : World) (o o' : Order) (a a' : Authorization)
    (c c' : Challenge) : Prop where
  order : o.Step o'
  authz : a.Step a'
  challenge : c.Step c'
  linked : Linked o' a' c'
  judged : c'.status = .valid → Evidence s w.log o' c' none
  receipt : o'.certificateID = o.certificateID ∧ o'.csrHash = o.csrHash
  unissued : o'.status ≠ .processing ∧ o'.status ≠ .valid

theorem Proposed.settles (proposed : Proposed s w o a c c' a' o') (linked : Linked o a c)
    (pendingOrder : o.status = .pending) (pendingAuthz : a.status = .pending)
    (pendingChallenge : c.status = .pending) : Settles s w o o' a a' c c' := by
  cases proposed with
  | valid judged =>
    have step : o.Step { o with status := .ready } :=
      ⟨rfl, .inr (pendingOrder ▸ .ready), fun _ => ⟨rfl, rfl⟩⟩
    exact
      { order := step
        authz := .inr ⟨pendingAuthz, rfl, .inl rfl⟩
        challenge := .inr ⟨pendingChallenge, rfl, .inl rfl⟩
        linked := { linked with together := .inr (.inl ⟨rfl, rfl, .inl rfl⟩) }
        judged := fun _ =>
          Evidence.mono judged (fun _ member => member) ((Order.Path.refl o).extend step) rfl rfl
        receipt := ⟨rfl, rfl⟩
        unissued := by simp }
  | @invalid p =>
    have leads : o.status.Leads .invalid := pendingOrder ▸ .refused
    exact
      { order := ⟨rfl, .inr leads, fun _ => ⟨rfl, rfl⟩⟩
        authz := .inr ⟨pendingAuthz, rfl, .inr rfl⟩
        challenge := .inr ⟨pendingChallenge, rfl, .inr rfl⟩
        linked := { linked with together := .inr (.inr ⟨rfl, rfl, rfl⟩) }
        judged := fun valid => by simp at valid
        receipt := ⟨rfl, rfl⟩
        unissued := by simp }

variable {st : State}

theorem saveTriple_keeps (good : Good s w)
    {captured : Bool} (needed : Needs s w (.saveTriple captured c' a' o'))
    {value : Bool × Challenge × Authorization × Order}
    (returned : State.saveTriple c' a' o' w.store = .ok (value, st)) :
    Keeps s w { w with store := st } := by
  obtain ⟨o, a, c, order, authz, challenge, ownAuthz, ownOrder, proposed⟩ := needed
  obtain rfl | ⟨current, currentAuthz, currentChallenge, foundOrder, foundAuthz, foundChallenge,
    pendingOrder, pendingAuthz, pendingChallenge, rfl⟩ := saveTriple_ok returned
  · exact good.keeps_quiet (.refl w)
  have sameID : o'.id = o.id := by cases proposed <;> rfl
  rw [sameID] at foundOrder
  obtain ⟨there, whole, waitingOrder, waitingAuthz, waitingChallenge⟩ :=
    whole_of_pending good order authz challenge ownAuthz ownOrder foundOrder foundAuthz
      foundChallenge pendingOrder pendingAuthz pendingChallenge
  have blank := whole.blank (by simp [waitingOrder])
  have settles := proposed.settles whole.linked waitingOrder waitingAuthz waitingChallenge
  have wrote : Rewrites s w { w with store := { w.store with
      challenges := w.store.challenges.insert c'.id c'
      authzs := w.store.authzs.insert a'.id a'
      orders := w.store.orders.insert o'.id o' } } o o' a' c' :=
    ⟨getElem?_insert_eq _, getElem?_insert_eq _, getElem?_insert_eq _, rfl, rfl,
      fun _ member => member, fun _ cert found => ⟨cert, found, .refl cert⟩,
      fun _ _ found => .inl found⟩
  refine ⟨wrote.advances there whole settles.order settles.authz settles.challenge,
    good.rewrite there whole settles.order settles.authz settles.challenge wrote ?_⟩
  refine whole.moved _ rfl settles.order ?_ ?_ settles.linked settles.judged
    ⟨blank, settles.receipt.1.trans blank, settles.receipt.2⟩ settles.unissued
  · rw [wrote.authzs, if_pos settles.linked.authz.symm]
  · rw [wrote.challenges, if_pos settles.linked.challenge.symm]

variable {used : List String}

theorem Whole.rewrites (whole : Whole s w o a c) (o' : Order) (certs : Table String Certificate)
    (usedKept : ∀ id ∈ w.used, id ∈ used)
    (kept : ∀ (key : String) (cert : Certificate), w.store.certs[key]? = some cert →
      ∃ cert' : Certificate, certs[key]? = some cert' ∧ cert.Step cert')
    (written : ∀ (key : String) (cert' : Certificate), certs[key]? = some cert' →
      w.store.certs[key]? = some cert' ∨
      (key = o'.certificateID ∧ cert'.id = key ∧ key ∈ used ∧ key ≠ "" ∧
        cert'.orderID = o'.id ∧
        ((key ∉ w.used ∧ o.certificateID = "" ∧ cert'.pendingRegistration = true) ∨
          ∃ cert, w.store.certs[key]? = some cert ∧ cert.Step cert' ∧
            (cert.pendingRegistration = true → cert'.pendingRegistration = false →
              Releasable s w cert)))) :
    Rewrites s w { w with
      used := used
      store := { w.store with certs := certs, orders := w.store.orders.insert o'.id o' } }
      o o' a c := by
  refine ⟨getElem?_insert_eq _, fun key => ?_, fun key => ?_, rfl, rfl, usedKept, kept, written⟩
  · split
    · next same => rw [same, whole.linked.authz]; exact whole.authz
    · rfl
  · split
    · next same => rw [same, whole.linked.challenge]; exact whole.challenge
    · rfl

theorem Together.moved {order authz challenge : Status} (order' : Status)
    (together : Together order authz challenge) (started : order ≠ .pending)
    (live : order ≠ .invalid)
    (next : order' = .ready ∨ order' = .processing ∨ order' = .valid ∨ order' = .invalid) :
    Together order' authz challenge ∧ challenge = .valid := by
  obtain ⟨pending, -⟩ | ⟨authz, challenge, -⟩ | ⟨invalid, -⟩ := together
  · exact absurd pending started
  · exact ⟨.inr (.inl ⟨authz, challenge, next⟩), challenge⟩
  · exact absurd invalid live

theorem settleOrder_keeps (good : Good s w) {p : Problem} (needed : Needs s w (.settleOrder o p))
    {done : Unit} (returned : State.settleOrder o p w.store = .ok (done, st)) :
    Keeps s w { w with store := st } := by
  obtain rfl | ⟨current, found, same, blank, rfl⟩ := settleOrder_ok returned
  · exact good.keeps_quiet (.refl w)
  obtain ⟨own, -, -, -, a, c, whole⟩ := good.orders _ current found
  rw [← own] at found
  have ready : current.status = .ready := by
    obtain ready | processing := needed.2
    · exact same.trans ready
    · exact absurd blank (whole.issued.1 (.inl (same.trans processing)))
  have step : current.Step { current with status := .invalid, error := some p } :=
    ⟨rfl, .inr (ready ▸ .failed), fun _ => ⟨rfl, rfl⟩⟩
  have linked := whole.linked
  obtain ⟨together, -⟩ := linked.together.moved .invalid (by simp [ready]) (by simp [ready])
    (.inr (.inr (.inr rfl)))
  have wrote := whole.rewrites { current with status := .invalid, error := some p }
    w.store.certs (fun _ member => member) (fun _ cert there => ⟨cert, there, .refl cert⟩)
    (fun _ _ there => .inl there)
  refine ⟨wrote.advances found whole step (.refl a) (.refl c),
    good.rewrite found whole step (.refl a) (.refl c) wrote ?_⟩
  exact whole.moved _ rfl step whole.authz whole.challenge { linked with together }
    (fun valid => (whole.judged valid).mono (fun _ member => member)
      ((Order.Path.refl current).extend step) rfl rfl) ⟨blank, blank, rfl⟩ (by simp)

variable {cert : Certificate}

theorem commitReceipt_keeps (good : Good s w) {choice : Choice Ext} {csr : Csr}
    {seen : Challenge} {order : Order}
    (fresh : Fresh w.used [choice.first])
    (returned : State.commitReceipt s choice o csr seen w.store = .ok ((order, cert), st)) :
    Keeps s w { w with used := choice.first :: w.used, store := st } ∧
      st.orders[o.id]? = some order ∧
      (order.status = .processing ∨ order.status = .valid) ∧
      st.certs[cert.id]? = some cert := by
  obtain ⟨rfl, there, issued, record⟩ | ⟨current, a, c, found, ready, foundAuthz, foundChallenge,
    signed, rfl, rfl⟩ := commitReceipt_ok returned
  · refine ⟨good.keeps_quiet ⟨rfl, rfl, rfl, rfl, rfl, fun _ member =>
      List.mem_cons_of_mem _ member, fun _ member => member, rfl⟩, there, issued, ?_⟩
    rw [(good.certs _ cert record).1]
    exact record
  obtain ⟨own, -⟩ := good.orders _ current found
  rw [← own] at found
  obtain ⟨certID, certOrder, certAccount, certBinding, certDevice, pending⟩ := signReceipt_ok signed
  have whole := good.whole_of found foundAuthz foundChallenge
  have blank := whole.blank (by simp [ready])
  have unused : cert.id ∉ w.used := certID ▸ fresh.2.2 _ (by simp)
  have named : cert.id ≠ "" := by
    rw [certID]
    intro empty
    exact fresh.1 (by simp [empty])
  set order := { current with
    status := .processing, csrHash := s.hashCSR csr.raw, certificateID := cert.id,
    error := none } with written
  have step : current.Step order :=
    ⟨rfl, .inr (ready ▸ .processing), fun given => absurd blank given⟩
  have linked := whole.linked
  obtain ⟨together, validated⟩ := linked.together.moved order.status (by simp [ready])
    (by simp [ready]) (.inr (.inl rfl))
  have wrote := whole.rewrites order (w.store.certs.insert cert.id cert)
    (fun _ member => List.mem_cons_of_mem choice.first member)
    (fun key old there => by
      refine ⟨old, ?_, .refl old⟩
      rw [getElem?_insert_eq, if_neg, there]
      exact fun same => unused (same ▸ (good.certs key old there).2.1))
    (fun key cert' there => by
      obtain ⟨same, rfl⟩ | ⟨-, there⟩ := insert_some.1 there
      · exact .inr ⟨same, same.symm, by simp [same, certID], same ▸ named, certOrder,
          .inl ⟨same ▸ unused, blank, pending⟩⟩
      · exact .inl there)
  have after : Whole s { w with
      used := choice.first :: w.used
      store := { w.store with
        certs := w.store.certs.insert cert.id cert
        orders := w.store.orders.insert order.id order } } order a c := by
    refine ⟨whole.authz, whole.challenge,
      { linked with together },
      fun valid => (whole.judged valid).mono (fun _ member => member)
        ((Order.Path.refl current).extend step) rfl rfl,
      whole.created.mono (fun _ member => member) step, ?_, fun _ => named, fun _ => ?_⟩
    · simp [written, named]
    · refine ⟨cert, ?_, certOrder, certAccount, certBinding, certDevice, ?_⟩
      · rw [getElem?_insert_eq, if_pos rfl]
      · simp [written, pending]
  refine ⟨⟨wrote.advances found whole step (.refl a) (.refl c),
    good.rewrite found whole step (.refl a) (.refl c) wrote after⟩, ?_, .inl rfl, ?_⟩
  · rw [getElem?_insert_eq, if_pos own.symm]
  · rw [getElem?_insert_eq, if_pos rfl]

theorem storeReceipt_keeps (good : Good s w) {choice : Choice Ext}
    (needed : Needs s w (.storeReceipt o cert)) {value : Bool × Order}
    (returned : State.storeReceipt choice o cert w.store = .ok (value, st)) :
    Keeps s w { w with store := st } := by
  obtain rfl | ⟨current, found, certID, processing, rfl⟩ := storeReceipt_ok returned
  · exact good.keeps_quiet (.refl w)
  have path := needed.order.row.2 current found
  obtain ⟨own, -, -, -, a, c, whole⟩ := good.orders _ current found
  have linked := whole.linked
  have given : current.certificateID ≠ "" := whole.issued.1 (.inl processing)
  obtain ⟨record, there, receipt⟩ := whole.receipt given
  have waiting : record.pendingRegistration = true := by
    by_contra released
    rw [Bool.not_eq_true] at released
    have valid := receipt.released.2 released
    rw [processing] at valid
    cases valid
  -- The copy of the certificate is the record itself, since that is still pending.
  have same : record = cert := by
    obtain ⟨current', found', moved⟩ := needed.record
    rw [← certID, there] at found'
    obtain rfl := Option.some.inj found'
    obtain rfl | ⟨-, rfl⟩ := moved
    · rfl
    · cases waiting
  subst same
  obtain ⟨together, validated⟩ := linked.together.moved .valid (by simp [processing])
    (by simp [processing]) (.inr (.inr (.inl rfl)))
  have releasable : Releasable s w record := by
    obtain ⟨x, decoded, registered, b, d, authz, challenge, ownAuthz, ownChallenge, valid,
      rechecked⟩ := needed.vetted
    have listed : current.authzID = o.authzID := by rw [path.same]
    have authzRow := authz.row.2 a (by rw [ownAuthz, ← listed]; exact whole.authz)
    have sameChallenge : c = d := by
      refine (challenge.row.2 c ?_).unless (.inl (by simp [valid]))
      rw [ownChallenge]
      have kept : a.challengeID = b.challengeID := by rw [authzRow.same]
      exact kept ▸ whole.challenge
    subst sameChallenge
    refine ⟨current, a, c, x, ?_, whole, validated, decoded, registered, ?_, receipt⟩
    · rw [needed.own]
      exact found
    · exact (whole.judged validated).with_key
        (rechecked.mono (fun _ member => member) path rfl rfl)
  rw [← own] at found
  have step : current.Step { current with status := .valid } :=
    ⟨rfl, .inr (processing ▸ .valid), fun _ => ⟨rfl, rfl⟩⟩
  have wrote := whole.rewrites { current with status := .valid }
    (w.store.certs.insert record.id { record with pendingRegistration := false })
    (fun _ member => member)
    (fun key old row => by
      rw [getElem?_insert_eq]
      split
      · next same =>
        rw [same, ← certID, there] at row
        obtain rfl := Option.some.inj row
        exact ⟨_, rfl, .inr ⟨waiting, rfl⟩⟩
      · exact ⟨old, row, .refl old⟩)
    (fun key cert' row => by
      obtain ⟨same, rfl⟩ | ⟨-, row⟩ := insert_some.1 row
      · refine .inr ⟨same.trans certID.symm, same.symm, ?_, ?_, receipt.order,
          .inr ⟨record, ?_, .inr ⟨waiting, rfl⟩, fun _ _ => releasable⟩⟩
        · rw [same, ← certID]
          exact (good.certs _ record there).2.1
        · rw [same, ← certID]
          exact given
        · rw [same, ← certID]
          exact there
      · exact .inl row)
  have after : Whole s { w with store := { w.store with
      certs := w.store.certs.insert record.id { record with pendingRegistration := false }
      orders := w.store.orders.insert current.id { current with status := .valid } } }
      { current with status := .valid } a c := by
    refine ⟨whole.authz, whole.challenge,
      { linked with together },
      fun valid => (whole.judged valid).mono (fun _ member => member)
        ((Order.Path.refl current).extend step) rfl rfl,
      whole.created.mono (fun _ member => member) step, ?_, whole.hashed, fun _ => ?_⟩
    · simp [given]
    · refine ⟨{ record with pendingRegistration := false }, ?_, receipt.order, receipt.account,
        receipt.binding, receipt.device, by simp⟩
      rw [getElem?_insert_eq, if_pos certID]
  exact ⟨wrote.advances found whole step (.refl a) (.refl c),
    good.rewrite found whole step (.refl a) (.refl c) wrote after⟩

theorem quiet_of (w : World) {store : State} {log : List Entry}
    (orders : store.orders = w.store.orders) (authzs : store.authzs = w.store.authzs)
    (challenges : store.challenges = w.store.challenges) (certs : store.certs = w.store.certs)
    (claims : store.claims = w.store.claims) (usedKept : w.used ⊆ used)
    (logged : log = w.log ∨ ∃ entry : Entry, entry.order = none ∧ log = entry :: w.log) :
    Quiet w ⟨store, used, log⟩ := by
  refine ⟨orders, authzs, challenges, certs, claims, fun _ member => usedKept member, ?_, ?_⟩
  · obtain rfl | ⟨entry, -, rfl⟩ := logged
    · exact fun _ member => member
    · exact fun _ member => List.mem_cons_of_mem _ member
  · obtain rfl | ⟨entry, other, rfl⟩ := logged
    · rfl
    · rw [List.filterMap_cons_none other]

theorem note_quiet (w : World) (entry : Entry) (other : entry.order = none) :
    Quiet w (w.note entry) :=
  quiet_of w rfl rfl rfl rfl rfl (fun _ member => member) (.inr ⟨entry, other, rfl⟩)

theorem heard_quiet {A : Type} (w : World) (answer : Except Failure A) {entry : A → Entry}
    (other : ∀ value, (entry value).order = none) : Quiet w (w.heard answer entry) := by
  cases answer with
  | ok value => exact note_quiet w _ (other value)
  | error failure => exact .refl w

theorem heard_ok {A : Type} (w : World) {answer : Except Failure A} {entry : A → Entry}
    {value : A} (accepted : answer = .ok value) : entry value ∈ (w.heard answer entry).log := by
  subst accepted
  exact List.mem_cons_self ..

theorem updateOrder_keeps {A : Type} (good : Good s w) (id : String)
    {fn : State → Except Failure (A × State)}
    (each : ∀ value st, fn w.store = .ok (value, st) → Keeps s w { w with store := st }) :
    Keeps s w (w.after (w.store.updateOrder id fn)).2 := by
  obtain ⟨value, st, ran, same⟩ | ⟨failure, same⟩ := updateOrder_cases w.store id fn
  · rw [same]
    exact each value st ran
  · rw [same]
    exact good.keeps_quiet (.refl w)

theorem putNonce_quiet (w : World) (n : Nonce) :
    Quiet w { w with store := settle w.store (w.store.putNonce n) } := by
  cases put : w.store.putNonce n with
  | error failure => exact .refl w
  | ok st =>
    simp only [State.putNonce, bind_ok, validID_ok, pure_ok] at put
    obtain ⟨-, -, rfl⟩ := put
    exact quiet_of w rfl rfl rfl rfl rfl (fun _ member => member) (.inl rfl)

theorem takeNonce_quiet (w : World) (value : String) :
    Quiet w (w.after (w.store.takeNonce value)).2 := by
  unfold State.takeNonce
  split
  · exact .refl w
  · exact quiet_of w rfl rfl rfl rfl rfl (fun _ member => member) (.inl rfl)

theorem createAccount_quiet (w : World) (id : String) (account : Account) :
    Quiet w ({ w with used := id :: w.used }.after (w.store.update fun st => do
      let st ← st.putAccount account
      pure (account, st))).2 := by
  obtain ⟨value, st, ran, same⟩ | ⟨failure, -, same⟩ := State.update_cases w.store fun st => do
      let st ← st.putAccount account
      pure (account, st)
  · simp only [State.putAccount, bind_ok, validID_ok, pure_ok, Prod.mk.injEq] at ran
    obtain ⟨_, ⟨_, -, _, -, _, -, rfl⟩, -, rfl⟩ := ran
    rw [same]
    exact quiet_of w rfl rfl rfl rfl rfl (List.subset_cons_self ..) (.inl rfl)
  · rw [same]
    exact quiet_of w rfl rfl rfl rfl rfl (List.subset_cons_self ..) (.inl rfl)

theorem createOrder_keeps (good : Good s w) {ids : List String}
    (named : ids = [o.id, a.id, c.id]) (fresh : Fresh w.used ids) (linked : Linked o a c)
    (pending : o.status = .pending ∧ c.status = .pending)
    (blank : o.certificateID = "" ∧ o.csrHash = "")
    (identified : .identified o.identifier.value o.binding ∈ w.log) :
    Keeps s w (({ w with used := ids ++ w.used }.after
      (w.store.update (State.createOrder o a c))).2.heard
        (w.store.update (State.createOrder o a c)).1 .created) := by
  obtain ⟨made, st, ran, same⟩ | ⟨failure, -, same⟩ :=
    State.update_cases w.store (State.createOrder o a c)
  · obtain ⟨rfl, unclaimed, rfl⟩ := createOrder_ok ran
    rw [same]
    have creates : Creates w
        { store := { w.store with
            claims := w.store.claims.insert made.identifier.value made.id
            challenges := w.store.challenges.insert c.id c
            authzs := w.store.authzs.insert a.id a
            orders := w.store.orders.insert made.id made }
          used := ids ++ w.used, log := .created made :: w.log } made a c :=
      { orders := getElem?_insert_eq _
        authzs := getElem?_insert_eq _
        challenges := getElem?_insert_eq _
        certs := rfl
        claims := getElem?_insert_eq _
        unclaimed, log := rfl
        used := by rw [named]
        fresh := named ▸ fresh
        linked, pending, blank, identified }
    exact ⟨creates.advances, good.create creates⟩
  · rw [same]
    exact good.keeps_quiet
      (quiet_of w rfl rfl rfl rfl rfl (List.subset_append_right ..) (.inl rfl))

theorem exec_keeps {action : Action} {choice : Choice Ext} {answer : Answer action} {w' : World}
    (good : Good s w) (needed : Needs s w action)
    (performed : exec s action choice w = some (answer, w')) :
    Keeps s w w' ∧ Tells action answer w' := by
  cases action with
  | now =>
    obtain ⟨rfl, rfl⟩ := answered performed
    exact ⟨good.keeps_quiet (note_quiet w _ rfl), List.mem_cons_self ..⟩
  | mintNonce =>
    obtain ⟨-, rfl⟩ := answered performed
    exact ⟨good.keeps_quiet (putNonce_quiet w _), trivial⟩
  | takeNonce value =>
    obtain ⟨-, rfl⟩ := answered performed
    exact ⟨good.keeps_quiet (takeNonce_quiet w value), trivial⟩
  | verifyIdentifier value =>
    obtain ⟨rfl, rfl⟩ := answered performed
    exact ⟨good.keeps_quiet (heard_quiet w _ fun _ => rfl), fun _ accepted =>
      heard_ok w accepted⟩
  | authorize d =>
    obtain ⟨rfl, rfl⟩ := answered performed
    exact ⟨good.keeps_quiet (heard_quiet w _ fun _ => rfl), heard_ok w⟩
  | authorizeUnattested | register | registerRevocation =>
    dsimp only [exec] at performed
    split at performed
    · cases performed
    · obtain ⟨rfl, rfl⟩ := answered performed
      exact ⟨good.keeps_quiet (heard_quiet w _ fun _ => rfl), heard_ok w⟩
  | getAccount | accountByThumbprint =>
    obtain ⟨-, rfl⟩ := answered performed
    exact ⟨good.keeps_quiet (.refl w), trivial⟩
  | createAccount thumbprint key contact now =>
    obtain ⟨-, -, rfl⟩ := answered_if performed
    exact ⟨good.keeps_quiet (createAccount_quiet w _ _), trivial⟩
  | getOrder id =>
    obtain ⟨rfl, rfl⟩ := answered performed
    exact ⟨good.keeps_quiet (.refl w), fun _ read => (getOrder_ok.1 read).2⟩
  | getAuthorization id =>
    obtain ⟨rfl, rfl⟩ := answered performed
    exact ⟨good.keeps_quiet (.refl w), fun _ read => (getAuthorization_ok.1 read).2⟩
  | getChallenge id =>
    obtain ⟨rfl, rfl⟩ := answered performed
    exact ⟨good.keeps_quiet (.refl w), fun _ read => (getChallenge_ok.1 read).2⟩
  | getCertificate id =>
    obtain ⟨rfl, rfl⟩ := answered performed
    exact ⟨good.keeps_quiet (.refl w), fun _ read => (getCertificate_ok.1 read).2⟩
  | createOrder accountID id binding now expires =>
    obtain ⟨fresh, -, rfl⟩ := answered_if performed
    refine ⟨createOrder_keeps good rfl fresh ?_ ⟨rfl, rfl⟩ ⟨rfl, rfl⟩ needed, trivial⟩
    exact ⟨rfl, rfl, rfl, rfl, rfl, rfl, rfl, .inl ⟨rfl, rfl, rfl⟩⟩
  | saveTriple captured c a o =>
    dsimp only [exec] at performed
    split at performed
    · obtain ⟨-, rfl⟩ := answered performed
      exact ⟨good.keeps_quiet (.refl w), trivial⟩
    · obtain ⟨-, rfl⟩ := answered performed
      exact ⟨updateOrder_keeps good _ fun _ _ => saveTriple_keeps good needed, trivial⟩
  | settleOrder o p =>
    obtain ⟨-, rfl⟩ := answered performed
    exact ⟨updateOrder_keeps good _ fun _ _ => settleOrder_keeps good needed, trivial⟩
  | commitReceipt o csr challenge =>
    obtain ⟨fresh, rfl, rfl⟩ := answered_if performed
    obtain ⟨value, st, ran, same⟩ | ⟨failure, same⟩ := updateOrder_cases w.store o.id
      (State.commitReceipt s choice o csr challenge)
    · rw [same]
      obtain ⟨keeps, order, issued, record⟩ := commitReceipt_keeps good fresh ran
      refine ⟨keeps, fun _ _ answered => ?_⟩
      obtain rfl := Except.ok.inj answered
      exact ⟨order, issued, record⟩
    · rw [same]
      exact ⟨good.keeps_quiet
        (quiet_of w rfl rfl rfl rfl rfl (List.subset_cons_self ..) (.inl rfl)),
        fun _ _ answered => by cases answered⟩
  | storeReceipt o cert =>
    dsimp only [exec] at performed
    split at performed
    · obtain ⟨-, rfl⟩ := answered performed
      exact ⟨good.keeps_quiet (.refl w), trivial⟩
    · obtain ⟨-, rfl⟩ := answered performed
      exact ⟨updateOrder_keeps good _ fun _ _ => storeReceipt_keeps good needed, trivial⟩
  | prune before =>
    obtain ⟨-, rfl⟩ := answered performed
    have prunes := good.prunes before
    exact ⟨⟨prunes.advances, good.prune prunes⟩, trivial⟩

end AppleDM.Acme
