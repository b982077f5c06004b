import AppleDM.Acme.Requests

set_option autoImplicit false

namespace AppleDM.Acme

open Mdm Pki Checked Evolution Process Relation Run

variable {Ext : Type}

def start : System := { world := {} }

section Runs

variable (s : Config Ext) (moves : List (Move Request (Choice Ext)))

theorem start_kept : Kept (exec s) (Advances s) (Good s) Answered start := by
  refine ⟨⟨?_, ?_, ?_, ?_, ?_, ?_, ?_, ?_⟩, ?_⟩ <;> simp [start]

theorem run_good : Good s (run (step s) start moves).world :=
  (run_kept (disciplined s) (start_kept s) moves).1

theorem step_advances (m : Move Request (Choice Ext)) :
    Advances s (run (step s) start moves).world (step s (run (step s) start moves) m).world :=
  (move_kept (disciplined s) (run_kept (disciplined s) (start_kept s) moves) m).1

theorem run_since (later : List (Move Request (Choice Ext))) :
    ReflTransGen (Advances s) (run (step s) start moves).world
      (run (step s) start (moves ++ later)).world := by
  rw [run_append]
  exact run_later (disciplined s) (run_kept (disciplined s) (start_kept s) moves) later

end Runs

section Single

variable (s : Config Ext)

def RegisteredChain (w : World) (cert : Certificate) : Prop :=
  ∃ x, s.decodeChain cert.chainPEM = .ok x ∧ Registered s w.log x

structure IssuedOnce (c c' : System) : Prop where
  single : ∀ (id id' : String) (cert cert' : Certificate), c.world.store.certs[id]? = some cert →
    c'.world.store.certs[id']? = some cert' → cert.orderID = cert'.orderID → id = id'
  certificateID : ∀ (id : String) (o o' : Order), c.world.store.orders[id]? = some o →
    c'.world.store.orders[id]? = some o' → o.certificateID ≠ "" →
    o'.certificateID = o.certificateID
  csrHash : ∀ (id : String) (o o' : Order), c.world.store.orders[id]? = some o →
    c'.world.store.orders[id]? = some o' → o.csrHash ≠ "" → o'.csrHash = o.csrHash
  chain : ∀ (id : String) (cert : Certificate), c.world.store.certs[id]? = some cert →
    ∃ cert' : Certificate, c'.world.store.certs[id]? = some cert' ∧
      cert'.chainPEM = cert.chainPEM ∧
      (cert.pendingRegistration = false → cert'.pendingRegistration = false)
  released : ∀ (m : Move Request (Choice Ext)) (id : String) (cert' : Certificate),
    (step s c m).world.store.certs[id]? = some cert' → cert'.pendingRegistration = false →
    c.world.store.certs[id]? = some cert' ∨
      ∃ cert : Certificate, c.world.store.certs[id]? = some cert ∧
        cert.pendingRegistration = true ∧ RegisteredChain s c.world cert
  served : ∀ id chain, .done (.ok (.certificate id chain)) ∈ c.pool →
    ∃ cert : Certificate, c.world.store.certs[id]? = some cert ∧ cert.chainPEM = chain ∧
      cert.pendingRegistration = false ∧ RegisteredChain s c.world cert
  claims : ∀ (value owner : String), c.world.store.claims[value]? = some owner →
    c'.world.store.claims[value]? = some owner

variable {s} {w w' : World}

theorem Good.order_unchanged (good : Good s w) (since : ReflTransGen (Advances s) w w')
    {id : String} {o o' : Order} (there : w.store.orders[id]? = some o)
    (there' : w'.store.orders[id]? = some o') : o.Path o' := by
  have own := (good.orders id o there).1
  exact ((good.readOrder there).later since).row.2 o' (own ▸ there')

variable {cert : Certificate}

theorem ReadCert.of_read (good : Good s w) {id : String}
    (there : w.store.certs[id]? = some cert) (since : ReflTransGen (Advances s) w w') :
    ∃ cert' : Certificate, w'.store.certs[id]? = some cert' ∧ cert.Step cert' := by
  obtain ⟨own, read⟩ := good.readCert there
  exact own ▸ read.later since

theorem Certificate.Step.kept {cert cert' : Certificate} (step : cert.Step cert') :
    cert'.orderID = cert.orderID ∧ cert'.chainPEM = cert.chainPEM ∧
      (cert.pendingRegistration = false → cert'.pendingRegistration = false) := by
  obtain rfl | ⟨-, rfl⟩ := step
  · exact ⟨rfl, rfl, fun done => done⟩
  · exact ⟨rfl, rfl, fun _ => rfl⟩

theorem RegisteredChain.later (registered : RegisteredChain s w cert)
    (step : Advances s w w') : RegisteredChain s w' cert := by
  obtain ⟨x, decoded, registered⟩ := registered
  exact ⟨x, decoded, registered.mono step.log⟩

def Vouched (s : Config Ext) (w : World) : Prop :=
  ∀ (id : String) (cert : Certificate), w.store.certs[id]? = some cert →
    cert.pendingRegistration = false → RegisteredChain s w cert

theorem Releasable.registered (releasable : Releasable s w cert) : RegisteredChain s w cert := by
  obtain ⟨_, _, _, x, -, -, -, decoded, registered, -⟩ := releasable.vouched
  exact ⟨x, decoded, registered⟩

theorem Advances.vouched (step : Advances s w w') (vouched : Vouched s w) : Vouched s w' := by
  intro id cert' there released
  obtain old | ⟨cert, -, -, rfl, releasable⟩ := step.released id cert' there released
  · exact (vouched id cert' old released).later step
  · obtain ⟨x, decoded, registered⟩ := releasable.registered.later step
    exact ⟨x, decoded, registered⟩

theorem run_vouched (s : Config Ext) (moves : List (Move Request (Choice Ext))) :
    Vouched s (run (step s) start moves).world := by
  have none : Vouched s start.world := by simp [Vouched, start]
  exact lasting (fun _ _ => Advances.vouched) none
    (run_later (disciplined s) (start_kept s) moves)

theorem issuance_single (s : Config Ext) (earlier later : List (Move Request (Choice Ext))) :
    IssuedOnce s (run (step s) start earlier) (run (step s) start (earlier ++ later)) := by
  have good := run_good s earlier
  have good' := run_good s (earlier ++ later)
  have since := run_since s earlier later
  refine ⟨?_, ?_, ?_, ?_, ?_, ?_, ?_⟩
  · intro id id' cert cert' there there' same
    obtain ⟨now, found, step⟩ := ReadCert.of_read good there since
    exact good'.single id id' now cert' found there' (step.kept.1.trans same)
  · intro id o o' there there' given
    exact ((good.order_unchanged since there there').receipt given).1
  · intro id o o' there there' hashed
    obtain ⟨-, -, -, -, a, c, whole⟩ := good.orders id o there
    exact ((good.order_unchanged since there there').receipt (whole.hashed hashed)).2
  · intro id cert there
    obtain ⟨cert', found, step⟩ := ReadCert.of_read good there since
    exact ⟨cert', found, step.kept.2⟩
  · intro m id cert' there released
    obtain old | ⟨cert, there, pending, -, releasable⟩ :=
      (step_advances s earlier m).released id cert' there released
    · exact .inl old
    · exact .inr ⟨cert, there, pending, releasable.registered⟩
  · intro id chain member
    have answered := (run_kept (disciplined s) (start_kept s) earlier).2 _ member
    obtain ⟨cert, there, released, same⟩ := answered _ rfl
    exact ⟨cert, there, same, released, run_vouched s earlier id cert there released⟩
  · intro value owner claimed
    exact lasting (fun _ _ step => step.claims value owner) claimed since

end Single

section Together

structure Consistent (st : State) (o : Order) : Prop where
  together : ∃ (a : Authorization) (c : Challenge), st.authzs[o.authzID]? = some a ∧
    st.challenges[a.challengeID]? = some c ∧ Together o.status a.status c.status
  issued : o.status = .processing ∨ o.status = .valid ↔
    ∃ (id : String) (cert : Certificate), st.certs[id]? = some cert ∧ cert.orderID = o.id
  released : o.status = .valid ↔
    ∃ (id : String) (cert : Certificate), st.certs[id]? = some cert ∧ cert.orderID = o.id ∧
      cert.pendingRegistration = false

structure StatusMoves (st st' : State) : Prop where
  orders : ∀ (id : String) (o o' : Order), st.orders[id]? = some o → st'.orders[id]? = some o' →
    o'.status = o.status ∨ o.status.Leads o'.status
  authzs : ∀ (id : String) (a a' : Authorization), st.authzs[id]? = some a →
    st'.authzs[id]? = some a' → a'.status = a.status ∨
      a.status = .pending ∧ (a'.status = .valid ∨ a'.status = .invalid)
  challenges : ∀ (id : String) (c c' : Challenge), st.challenges[id]? = some c →
    st'.challenges[id]? = some c' → c'.status = c.status ∨
      c.status = .pending ∧ (c'.status = .valid ∨ c'.status = .invalid)

variable {s : Config Ext} {w w' : World}

theorem Good.consistent (good : Good s w) {id : String} {o : Order}
    (there : w.store.orders[id]? = some o) : Consistent w.store o := by
  obtain ⟨own, -, -, -, a, c, whole⟩ := good.orders id o there
  -- A record that names the order is the one the order names.
  have named {key : String} {cert : Certificate} (row : w.store.certs[key]? = some cert)
      (same : cert.orderID = o.id) : o.certificateID = key := by
    obtain ⟨-, -, -, -, order⟩ := good.certs key cert row
    exact order o (by rw [same, own]; exact there)
  refine ⟨⟨a, c, whole.authz, whole.challenge, whole.linked.together⟩, ?_, ?_⟩
  · constructor
    · intro issued
      obtain ⟨cert, row, receipt⟩ := whole.receipt (whole.issued.1 issued)
      exact ⟨_, cert, row, receipt.order⟩
    · rintro ⟨key, cert, row, same⟩
      refine whole.issued.2 ?_
      rw [named row same]
      exact (good.certs key cert row).2.2.1
  · constructor
    · intro valid
      obtain ⟨cert, row, receipt⟩ := whole.receipt (whole.issued.1 (.inr valid))
      exact ⟨_, cert, row, receipt.order, receipt.released.1 valid⟩
    · rintro ⟨key, cert, row, same, done⟩
      have given : o.certificateID ≠ "" := named row same ▸ (good.certs key cert row).2.2.1
      obtain ⟨cert', row', receipt⟩ := whole.receipt given
      rw [named row same, row] at row'
      obtain rfl := Option.some.inj row'
      exact receipt.released.2 done

theorem Advances.statusMoves (good : Good s w) (step : Advances s w w') :
    StatusMoves w.store w'.store := by
  refine ⟨fun id o o' there there' => ?_, fun id a a' there there' => ?_,
    fun id c c' there there' => ?_⟩
  · obtain rfl | leads := (step.orders.moves (good.orders id o there).2.1 there there').moved
    · exact .inl rfl
    · exact .inr leads
  · obtain rfl | ⟨pending, -, settled⟩ :=
      step.authzs.moves (good.authzs id a there).1 there there'
    · exact .inl rfl
    · exact .inr ⟨pending, settled⟩
  · obtain rfl | ⟨pending, -, settled⟩ :=
      step.challenges.moves (good.challenges id c there).1 there there'
    · exact .inl rfl
    · exact .inr ⟨pending, settled⟩

theorem records_together (s : Config Ext) (moves : List (Move Request (Choice Ext))) :
    (∀ (id : String) (o : Order),
      (run (step s) start moves).world.store.orders[id]? = some o →
        Consistent (run (step s) start moves).world.store o) ∧
    ∀ m, StatusMoves (run (step s) start moves).world.store
      (step s (run (step s) start moves) m).world.store :=
  ⟨fun _ _ there => (run_good s moves).consistent there,
    fun m => (step_advances s moves m).statusMoves (run_good s moves)⟩

end Together

section Evidence

def World.waits (w : World) (id : String) : Option Bool :=
  w.store.certs[id]?.map (·.pendingRegistration)

structure Supported (s : Config Ext) (moves : List (Move Request (Choice Ext)))
    (cert : Certificate) (o : Order) (c : Challenge) : Prop where
  order : (run (step s) start moves).world.store.orders[cert.orderID]? = some o
  challenge : ∃ a : Authorization,
    (run (step s) start moves).world.store.authzs[o.authzID]? = some a ∧
    (run (step s) start moves).world.store.challenges[a.challengeID]? = some c
  created : ∃ first, .created first ∈ (run (step s) start moves).world.log ∧ first.id = o.id ∧
    first.accountID = o.accountID ∧ first.identifier = o.identifier ∧
    .identified o.identifier.value o.binding ∈ (run (step s) start moves).world.log
  valid : c.status = .valid
  evidence : ∃ x, s.decodeChain cert.chainPEM = .ok x ∧
    Evidence s (run (step s) start moves).world.log o c (some x.publicKey)
  signed : cert.accountID = o.accountID ∧ cert.binding = o.binding ∧ cert.device = deviceOf s c
  unchanged : ∀ visited, visited <+: moves →
    (∀ o' : Order, (run (step s) start visited).world.store.orders[o.id]? = some o' →
      o'.binding = o.binding) ∧
    ∀ c' : Challenge, (run (step s) start visited).world.store.challenges[c.id]? = some c' →
      c'.token = c.token ∧ (c'.status = .valid → c'.attestation = c.attestation)

variable {s : Config Ext} {w w' : World}

theorem Good.challenge_unchanged (good : Good s w) (since : ReflTransGen (Advances s) w w')
    {id : String} {c c' : Challenge} (there : w.store.challenges[id]? = some c)
    (there' : w'.store.challenges[id]? = some c') :
    c.token = c'.token ∧ (c.status = .valid → c.attestation = c'.attestation) := by
  obtain ⟨own, read⟩ := good.readChallenge there
  have step := (read.later since).row.2 c' (own ▸ there')
  refine ⟨?_, fun valid => ?_⟩
  · rw [step.same]
  · rw [step.unless (.inl (by simp [valid]))]

theorem release_supported (s : Config Ext) (moves : List (Move Request (Choice Ext)))
    (m : Move Request (Choice Ext)) (id : String)
    (waiting : (run (step s) start moves).world.waits id = some true)
    (released : (step s (run (step s) start moves) m).world.waits id = some false) :
    ∃ cert o c, (run (step s) start moves).world.store.certs[id]? = some cert ∧
      Supported s moves cert o c := by
  obtain ⟨cert', there', done⟩ := Option.map_eq_some_iff.1 released
  obtain ⟨cert, there, pending⟩ := Option.map_eq_some_iff.1 waiting
  obtain old | ⟨prior, found, -, -, releasable⟩ :=
    (step_advances s moves m).released id cert' there' done
  · rw [there] at old
    rw [Option.some.inj old, done] at pending
    cases pending
  rw [there] at found
  obtain rfl := Option.some.inj found
  obtain ⟨o, a, c, x, order, whole, valid, decoded, -, evidence, receipt⟩ := releasable.vouched
  have good := run_good s moves
  obtain ⟨first, made, path, identified⟩ := whole.created
  have own : o.id = cert.orderID := (good.orders _ o order).1
  refine ⟨cert, o, c, there, ?_⟩
  refine
    { order, challenge := ⟨a, whole.authz, whole.challenge⟩, valid
      created := ⟨first, made, ?_⟩
      evidence := ⟨x, decoded, evidence⟩
      signed := ⟨receipt.account, receipt.binding, receipt.device⟩
      unchanged := fun visited early => ?_ }
  · rw [path.same]
    exact ⟨rfl, rfl, rfl, identified⟩
  · obtain ⟨later, rfl⟩ := early
    have since := run_since s visited later
    have before := run_good s visited
    refine ⟨fun o' seen => ?_, fun c' seen => ?_⟩
    · have path := before.order_unchanged since seen (own ▸ order)
      rw [path.same]
    · refine before.challenge_unchanged since seen ?_
      rw [whole.linked.challenge]
      exact whole.challenge

def sample : Config Unit where
  identifiers := fun _ _ _ => .ok { serial := "C02" }
  authorize := fun _ _ => .ok ()
  attest :=
    { parseObject := fun raw =>
        if raw = [7] then
          .ok ⟨[{ raw := [1], publicKey := [9] }], { serialNumber := "C02", freshness := [5] }⟩
        else .error .format
      verifyChain := fun _ _ _ => true
      appleAnchors := []
      sha256 := fun _ => [5] }
  parseRequest := fun raw => .ok ⟨raw, [9]⟩
  checkSignature := fun _ => .ok ()
  hashCSR := fun _ => "hash"
  permanentIdentifier := fun _ => .ok []
  sign := fun _ csr _ => .ok { raw := [1], publicKey := csr.publicKey, notAfter := 50 }
  encodeChain := (·.publicKey)
  decodeChain := fun raw => .ok { raw := [1], publicKey := raw, notAfter := 50 }
  register := some fun _ _ _ => .ok ()
  orderTTL := 100
  nonceTTL := 100

def serve (i : Nat) (request : Request) (choice : Choice Unit) (steps : Nat) :
    List (Move Request (Choice Unit)) :=
  .start request :: List.replicate steps (.advance i choice)

def registration : List (Move Request (Choice Unit)) :=
  serve 0 (.newAccount { nonce := "a", keyID := "" } "t" [] (.read {}))
    { first := "a", ext := () } 6

def enrollment : List (Move Request (Choice Unit)) :=
  registration ++
  serve 1 (.newOrder { nonce := "o", keyID := "a" }
    (.read { identifiers := [⟨identifierPermanent, "x"⟩] }))
    { first := "o", second := "z", third := "c", token := "k", ext := () } 7 ++
  serve 2 (.challenge { nonce := "n", keyID := "a" } "c" (.read (some { attObj := "Bw" })))
    { first := "n", ext := () } 12 ++
  serve 3 (.finalize { nonce := "f", keyID := "a" } "o" (.read { csr := "AQ" }))
    { first := "f", ext := () } 20

theorem release_supported_sample :
    (run (step sample) start enrollment).world.waits "f" = some true ∧
      ∃ cert o c, (run (step sample) start enrollment).world.store.certs["f"]? = some cert ∧
        Supported sample enrollment cert o c :=
  ⟨by decide +kernel,
    release_supported sample enrollment (.advance 3 { first := "f", ext := () }) "f"
      (by decide +kernel) (by decide +kernel)⟩

end Evidence

end AppleDM.Acme
