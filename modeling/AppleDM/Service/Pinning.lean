import AppleDM.Service.Connect
import AppleDM.Inmem.Checkout

set_option autoImplicit false

namespace AppleDM.Service

open Mdm Storage Effect

structure Core.Enforcing (c : Core) : Prop where
  pinning : c.pinning = .enforce
  reenroll : c.reenroll = denyReenroll
  replacements : c.replacements = false

structure Impostor (c : Core) (store : Inmem.Store) (r : Request) : Prop where
  pinned : ∃ row, store.get r.id.device = .ok row ∧ row.enrollment.certHash ≠ "" ∧
    ∀ cert, r.certificate = some cert → c.fingerprint cert ≠ row.enrollment.certHash

section Actions

variable {A B : Type} {w : World}

theorem reads_query (read : Inmem.Store → A) (w : World) : Reads (query read) w (read w.store) :=
  rfl

theorem reads_pure (value : A) (w : World) : Reads (pure value : Action A) w value := rfl

end Actions

namespace Core

variable {c : Core} {w : World} {r : Request}

theorem publish_then_throw (type : EventType) (id : EnrollmentID) (actor : String)
    (failure : Failure) (w : World) {A : Type} :
    Refuses World.store (do c.publish type id actor; throw failure : Action A) w := by
  refine Refuses.after rfl ?_ (refuses_throw World.store failure _)
  split <;> rfl

theorem looks_checkStatus (r : Request) (w : World) : Looks World.store (c.checkStatus r) w := by
  unfold checkStatus
  split
  · exact .inr ⟨(), rfl⟩
  · split
    · exact .inr ⟨(), rfl⟩
    · exact .inl (publish_then_throw _ _ _ _ w)

theorem looks_raise (failure : Option Failure) (w : World) : Looks World.store (raise failure) w := by
  cases failure with
  | none => exact .inr ⟨(), rfl⟩
  | some f => exact .inl (refuses_throw _ f w)

theorem looks_findEnrollment (id : EnrollmentID) (w : World) :
    Looks World.store (findEnrollment id) w := by
  refine Looks.bind (.inr ⟨_, reads_query (fun s => s.get id) w⟩) fun found _ => ?_
  cases found with
  | ok row => exact .inr ⟨some row.enrollment, rfl⟩
  | error error =>
    dsimp only
    split
    · exact .inr ⟨none, rfl⟩
    · exact .inl (refuses_throw _ _ w)

variable {id : EnrollmentID} {row : Inmem.Record}

theorem findEnrollment_reads
    (found : w.store.get id = .ok row) : Reads (findEnrollment id) w (some row.enrollment) := by
  unfold findEnrollment
  rw [Reads, bind_of_ok (reads_query (fun s => s.get id) w), found]
  rfl

theorem looks_checkChild (r : Request) (checkout : Bool) (w : World) :
    Looks World.store (checkChild r checkout) w := by
  unfold checkChild
  split
  · exact (looks_findEnrollment r.id w).bind fun _ _ => looks_refuseIf _ _ _ w
  · exact .inr ⟨(), rfl⟩

theorem checkPin_refuses (enforcing : c.Enforcing) (impostor : Impostor c w.store r) :
    Refuses World.store (c.checkPin r) w := by
  obtain ⟨row, found, pinned, foreign⟩ := impostor.pinned
  unfold checkPin
  rw [if_neg (by simp [enforcing.pinning])]
  cases presented : r.certificate with
  | none => exact refuses_refuseIf enforcing.pinning _ w
  | some cert =>
    refine Reads.refuses (reads_query (fun s => s.certHash r.id) w) ?_
    unfold comparePin
    cases read : w.store.certHash r.id with
    | error error =>
      dsimp only
      split <;> exact refuses_throw _ _ w
    | ok hash =>
      have same : hash = row.enrollment.certHash := by
        simp only [Inmem.Store.certHash, Checked.bind_ok, Checked.pure_ok,
          Inmem.Store.deviceRecordLocked_ok] at read
        obtain ⟨device, ⟨-, -, same⟩, rfl⟩ := read
        rw [found] at same
        rw [Except.ok.inj same]
      have rejected : (hash = "" ∨ hash ≠ c.fingerprint cert) ∧ c.pinning ≠ .warn := by
        refine ⟨.inr ?_, by simp [enforcing.pinning]⟩
        rw [same]
        exact (foreign cert presented).symm
      dsimp only
      rw [if_pos rejected]
      exact publish_then_throw _ _ _ _ w

theorem authorizeRequest_refuses (enforcing : c.Enforcing) (impostor : Impostor c w.store r)
    (checkout : Bool) : Refuses World.store (c.authorizeRequest r checkout) w := by
  obtain ⟨row, found, -⟩ := impostor.pinned
  unfold authorizeRequest
  refine Reads.refuses (reads_query (fun s => s.get r.id.device) w) ?_
  rw [found]
  refine Reads.refuses (reads_pure row w) ?_
  refine (looks_refuseIf World.store _ _ w).refuses fun _ _ => ?_
  refine (looks_checkChild r checkout w).refuses fun _ _ => ?_
  exact checkPin_refuses enforcing impostor

theorem authorize_refuses (enforcing : c.Enforcing) (impostor : Impostor c w.store r) :
    Refuses World.store (c.authorize r) w :=
  authorizeRequest_refuses enforcing impostor false

theorem observe_refuses (enforcing : c.Enforcing) (impostor : Impostor c w.store r) :
    Refuses World.store (c.observe r) w := by
  obtain ⟨row, found, pinned, foreign⟩ := impostor.pinned
  unfold observe
  by_cases user : r.id.channel.isUser = true
  · exact (refuses_refuseIf user _ w).bind
  refine Reads.refuses (reads_refuseIf user _ w) ?_
  have device : r.id.device = r.id := EnrollmentID.device_of_device (by simpa using user)
  rw [device] at found
  cases presented : r.certificate with
  | none => exact (refuses_refuseIf ⟨rfl, enforcing.pinning⟩ _ w).bind
  | some cert =>
    refine Reads.refuses (reads_refuseIf (by simp) _ w) ?_
    refine (findEnrollment_reads found).refuses ?_
    have hash : c.presented r = c.fingerprint cert := by rw [Core.presented, presented]
    have rotated : c.rotating (some row.enrollment) (c.presented r) = some row.enrollment := by
      have named := c.fingerprint_named cert
      have differs := (foreign cert presented).symm
      simp [rotating, hash, pinned, named, differs, enforcing.pinning]
    rw [rotated, enforcing.reenroll]
    exact (refuses_throw _ _ w).bind

theorem tokenUpdate_refuses (enforcing : c.Enforcing) (impostor : Impostor c w.store r)
    (m : TokenUpdate) (raw : Bytes) : Refuses World.store (c.tokenUpdate r m raw) w := by
  unfold tokenUpdate
  cases pushFromTokenUpdate (some m) with
  | error text => exact (refuses_throw _ _ w).bind
  | ok push =>
    exact Reads.refuses (reads_pure push w) (authorize_refuses enforcing impostor).bind

theorem dispatchCheckin_refuses (enforcing : c.Enforcing) (impostor : Impostor c w.store r)
    (ck : Checkin) (m : Message) : Refuses World.store (c.dispatchCheckin r ck m) w := by
  have gate := authorize_refuses enforcing impostor
  cases m with
  | authenticate m => exact (observe_refuses enforcing impostor).bind.bind
  | tokenUpdate m => exact (tokenUpdate_refuses enforcing impostor m ck.raw).bind
  | checkOut => exact (authorizeRequest_refuses enforcing impostor true).bind.bind
  | setBootstrapToken | getBootstrapToken | getToken | userAuthenticate | declarativeManagement
  | returnToService => exact gate.bind.bind
  | unsupported => exact refuses_throw _ _ w

theorem replacement_reads (enforcing : c.Enforcing) (r : Request) (w : World) :
    Reads (c.replacement r) w none := by
  unfold replacement
  rw [enforcing.replacements]
  rfl

theorem checkin_refuses (enforcing : c.Enforcing) (request : Request) (ck : Checkin)
    (impostor : Impostor c w.store { request with id := ck.id }) :
    Refuses World.store (c.checkin (some request) (some ck)) w := by
  unfold checkin
  dsimp only
  cases ck.message with
  | none => exact refuses_throw _ _ w
  | some m =>
    refine (looks_checkStatus _ w).refuses fun _ _ => ?_
    refine (looks_raise _ w).refuses fun _ _ => ?_
    have skipped : Reads (c.replacementCheckin { request with id := ck.id } ck) w false := by
      unfold replacementCheckin
      rw [Reads, bind_of_ok (replacement_reads enforcing _ w)]
      rfl
    refine skipped.refuses ?_
    exact (dispatchCheckin_refuses enforcing impostor ck m).bind

theorem handleConnect_refuses (enforcing : c.Enforcing) (request : Request) (resp : Response)
    (impostor : Impostor c w.store { request with id := resp.id }) :
    Refuses World.store (c.handleConnect (some request) (some resp)) w := by
  unfold handleConnect
  refine (looks_checkStatus _ w).refuses fun _ _ => ?_
  refine (looks_raise _ w).refuses fun _ _ => ?_
  have skipped : Reads (c.replacementConnect { request with id := resp.id } resp) w none := by
    unfold replacementConnect
    rw [Reads, bind_of_ok (replacement_reads enforcing _ w)]
    rfl
  refine skipped.refuses ?_
  exact (authorize_refuses enforcing impostor).bind

end Core

theorem pinned_device_refuses (c : Core) (enforcing : c.Enforcing) (w : World)
    (device : EnrollmentID) (row : Inmem.Record) (found : w.store.get device = .ok row)
    (pinned : row.enrollment.certHash ≠ "") (request : Request)
    (foreign : ∀ cert, request.certificate = some cert →
      c.fingerprint cert ≠ row.enrollment.certHash) :
    (∀ ck : Checkin, ck.id.device = device → ∃ failure after,
      c.checkin (some request) (some ck) w = .error failure after ∧ after.store = w.store) ∧
    ∀ resp : Response, resp.id.device = device → ∃ failure after,
      c.handleConnect (some request) (some resp) w = .error failure after ∧
        after.store = w.store := by
  constructor
  · rintro ck rfl
    exact Core.checkin_refuses enforcing request ck ⟨row, found, pinned, foreign⟩
  · rintro resp rfl
    exact Core.handleConnect_refuses enforcing request resp ⟨row, found, pinned, foreign⟩

def sampleCore : Core where
  sum256 der := Vector.replicate 32 (der.headD 0)
  decodeResponse _ _ := none
  marshal _ := .ok []
  validatedCommand _ := none
  checkTarget _ _ _ := .ok none
  now := 20
  pinning := .enforce
  reenroll := denyReenroll
  reuse := denyCertReuse
  replacements := false
  requireUserAuth := false
  bus := true
  hooks := []
  certificateStatus := none
  observeResult := none
  observeEnrollment := none
  observeCertificate := none
  dm := none
  getToken := none
  userAuth := acceptAllUsers
  returnToService := none

def sampleWorld : World :=
  { store := Run.run (Inmem.Store.step fun _ _ => none) {} Inmem.enrollBoth }

theorem enrollBoth_refuses :
    ∃ failure after, sampleCore.checkin (some ⟨Inmem.sampleDevice, some ⟨[1]⟩⟩)
        (some ⟨"CheckOut", some .checkOut, Inmem.sampleUser, []⟩) sampleWorld =
      .error failure after ∧ after.store = sampleWorld.store := by
  refine (pinned_device_refuses sampleCore ⟨rfl, rfl, rfl⟩ sampleWorld Inmem.sampleDevice
    ((sampleWorld.store.get Inmem.sampleDevice).toOption.getD
      { enrollment := { id := Inmem.sampleDevice } })
    (by decide +kernel) (by decide +kernel) _ ?_).1 _ (by decide)
  rintro cert ⟨⟩
  decide +kernel

end AppleDM.Service
