import AppleDM.Service.Pinning
import AppleDM.Inmem.Pins

set_option autoImplicit false

namespace AppleDM.Service

open Mdm Storage Effect Checked Run

inductive Progress where
  | arrived
  | observed (seen : Core.Observation)
  | judged (seen : Core.Observation) (allowReuse : Bool)
  | finished (result : AuthenticateResult)
  | failed (failure : Failure)
  deriving DecidableEq

def Progress.seen : Progress → Option Core.Observation
  | .observed seen | .judged seen _ => some seen
  | _ => none

structure Pending where
  request : Request
  message : Authenticate
  raw : Bytes
  now : Time
  progress : Progress := .arrived

structure Race where
  world : World
  pending : List Pending := []

inductive Move where
  | arrive (request : Request) (message : Authenticate) (raw : Bytes) (now : Time)
  | advance (n : Nat)
  | other (op : Inmem.Op)

namespace Core

variable (c : Core)

def settleProgress {A : Type} (w : World) (action : Action A) (next : A → Progress) :
    World × Progress :=
  match action w with
  | .ok value after => (after, next value)
  | .error failure after => (after, .failed failure)

def proceed (w : World) (p : Pending) : World × Progress :=
  let c := { c with now := p.now }
  match p.progress with
  | .arrived => settleProgress w (c.observe p.request) .observed
  | .observed seen => settleProgress w (c.judgeReuse p.request seen.hash) (.judged seen)
  | .judged seen allowReuse =>
    settleProgress w (c.commitAuthenticate p.request p.message p.raw seen allowReuse) .finished
  | .finished result => (w, .finished result)
  | .failed failure => (w, .failed failure)

def move (race : Race) : Move → Race
  | .arrive request message raw now =>
    { race with pending := race.pending ++ [⟨request, message, raw, now, .arrived⟩] }
  | .advance n =>
    match race.pending[n]? with
    | none => race
    | some p =>
      let after := c.proceed race.world p
      ⟨after.1, race.pending.set n { p with progress := after.2 }⟩
  | .other op =>
    { race with world := { race.world with store := race.world.store.step c.decodeResponse op } }

theorem settleProgress_bind {A B : Type} (w : World) (action : Action A) (rest : A → Action B)
    (next : B → Progress) :
    settleProgress w (action >>= rest) next =
      match action w with
      | .ok value after => settleProgress after (rest value) next
      | .error failure after => (after, .failed failure) := by
  unfold settleProgress
  change (match EStateM.bind action rest w with
    | .ok value after => (after, next value)
    | .error failure after => (after, Progress.failed failure)) = _
  unfold EStateM.bind
  cases action w <;> rfl

end Core

section Store

variable {s s' : Inmem.Store} {id : EnrollmentID}

def pinAt (s : Inmem.Store) (id : EnrollmentID) : String :=
  match s.get id with
  | .ok row => row.enrollment.certHash
  | .error _ => ""

theorem pinAt_of_get {row : Inmem.Record} (found : s.get id = .ok row) :
    pinAt s id = row.enrollment.certHash := by
  rw [pinAt, found]

theorem pinAt_of_rowPin (valid : id.Valid) {hash : String}
    (pin : s.rowPin id.id = some (id, hash)) : pinAt s id = hash := by
  obtain ⟨row, found, same⟩ := Option.map_eq_some_iff.1 pin
  simp only [Prod.mk.injEq] at same
  rw [pinAt_of_get (Inmem.Store.get_ok.2 ⟨valid, found, same.1⟩), same.2]

theorem get_of_pinAt (pinned : pinAt s id ≠ "") :
    ∃ row, s.get id = .ok row ∧ row.enrollment.certHash = pinAt s id := by
  unfold pinAt at pinned ⊢
  cases found : s.get id with
  | ok row => exact ⟨row, rfl, rfl⟩
  | error error => simp [found] at pinned

variable {change : AuthenticateChange}

theorem pinAt_absent (absent : s.enrollments[id.id]? = none) : pinAt s id = "" := by
  unfold pinAt
  cases found : s.get id with
  | ok row => simp [(Inmem.Store.get_ok.1 found).2.1] at absent
  | error error => rfl

theorem checkAuthenticate_stale (valid : id.Valid) (device : id.channel.isUser = false)
    (clock : change.atTime ≠ 0) (stale : pinAt s id ≠ change.expectedHash) :
    let checked := checkAuthenticate id ((s.enrollments[id.id]?).map (·.enrollment)) change
    checked = .error .conflict ∨
      (change.hash ≠ "" ∧ pinAt s id = change.hash ∧ checked = .ok true) ∨
      ∃ row, s.get id = .ok row ∧ row.enrollment.disabledAt ≠ 0 ∧ checked = .error .disabled := by
  intro checked
  have unfolded : checked = checkAuthenticate id ((s.enrollments[id.id]?).map (·.enrollment)) change :=
    rfl
  unfold checkAuthenticate at unfolded
  rw [if_neg (by simp [valid, device, clock])] at unfolded
  cases here : s.enrollments[id.id]? with
  | none =>
    rw [pinAt_absent here] at stale
    simp only [here, Option.map_none, ne_eq, stale.symm, not_false_eq_true, if_true] at unfolded
    exact .inl unfolded
  | some row =>
    simp only [here, Option.map_some] at unfolded
    by_cases same : row.enrollment.id = id
    · have found : s.get id = .ok row := Inmem.Store.get_ok.2 ⟨valid, here, same⟩
      rw [pinAt_of_get found] at stale ⊢
      rw [if_neg (not_not.2 same)] at unfolded
      split at unfolded
      · next closed => exact .inr (.inr ⟨row, found, closed.1, unfolded⟩)
      · split at unfolded
        · next retry => exact .inr (.inl ⟨retry.1, retry.2, unfolded⟩)
        · exact .inl unfolded
    · rw [if_pos same] at unfolded
      exact .inl unfolded

theorem authenticate_stale (valid : id.Valid) (device : id.channel.isUser = false)
    (clock : change.atTime ≠ 0) (stale : pinAt s id ≠ change.expectedHash) :
    s.authenticateEnrollment id change = .error .conflict ∨
      (change.hash ≠ "" ∧ pinAt s id = change.hash ∧
        s.authenticateEnrollment id change = .ok (s, ⟨true, false⟩)) ∨
      ∃ row, s.get id = .ok row ∧ row.enrollment.disabledAt ≠ 0 ∧
        s.authenticateEnrollment id change = .error .disabled := by
  unfold Inmem.Store.authenticateEnrollment
  rcases checkAuthenticate_stale valid device clock stale with checked | ⟨named, own, checked⟩ |
    ⟨row, found, closed, checked⟩ <;> rw [checked]
  · exact .inl rfl
  · exact .inr (.inl ⟨named, own, rfl⟩)
  · exact .inr (.inr ⟨row, found, closed, rfl⟩)

variable {result : AuthenticateResult}

theorem authenticate_retry (named : change.hash ≠ "") (same : pinAt s id = change.hash)
    (accepted : s.authenticateEnrollment id change = .ok (s', result)) : s' = s := by
  obtain ⟨row, found, pin⟩ := get_of_pinAt (by rwa [same])
  obtain ⟨retry, checked, -, kept, -⟩ := Inmem.Store.authenticateEnrollment_ok accepted
  obtain ⟨-, here, identity⟩ := Inmem.Store.get_ok.1 found
  have known := (Inmem.Store.checkAuthenticate_new checked).2.2.2 row.enrollment (by simp [here])
  exact kept (known.2.2.2 ⟨named, by rw [pin, same]⟩)

theorem authenticate_replaces (replaced : pinAt s' id ≠ pinAt s id)
    (accepted : s.authenticateEnrollment id change = .ok (s', result)) :
    change.expectedHash = pinAt s id ∧ pinAt s' id = change.hash ∧ result = ⟨true, true⟩ := by
  obtain ⟨retry, checked, outcome, kept, -⟩ := Inmem.Store.authenticateEnrollment_ok accepted
  obtain ⟨valid, device, clock, -⟩ := Inmem.Store.checkAuthenticate_new checked
  cases retry with
  | true => exact absurd (by rw [kept rfl]) replaced
  | false =>
    subst outcome
    refine ⟨?_, pinAt_of_rowPin valid (Inmem.Store.reset_pin accepted), rfl⟩
    by_contra stale
    rcases authenticate_stale valid device clock (Ne.symm stale) with no | ⟨-, -, no⟩ | ⟨-, -, -, no⟩
    all_goals rw [accepted] at no; cases no

end Store

namespace Core

variable {c : Core} {w after : World} {r : Request}

theorem findEnrollment_ok {id : EnrollmentID} {found : Option Enrollment}
    (read : findEnrollment id w = .ok found after) : after = w ∧ id.Valid ∧
      ∀ e, found = some e ↔ ∃ row, w.store.get id = .ok row ∧ row.enrollment = e := by
  unfold findEnrollment at read
  rw [bind_of_ok (reads_query (fun s => s.get id) w)] at read
  cases there : w.store.get id with
  | ok row =>
    rw [there] at read
    cases read
    exact ⟨rfl, (Inmem.Store.get_ok.1 there).1, by simp⟩
  | error error =>
    rw [there] at read
    dsimp only at read
    split at read
    · next missing =>
      cases read
      refine ⟨rfl, ?_, by simp⟩
      rw [← EnrollmentID.validate_ok id ()]
      unfold Inmem.Store.get at there
      split at there
      · cases there
        cases missing
      · next done valid => rw [valid]
    · cases read

structure Observed (c : Core) (w : World) (r : Request) (seen : Observation) : Prop where
  valid : r.id.Valid
  device : r.id.channel.isUser = false
  presented : seen.hash = c.presented r
  existing : ∀ e, seen.existing = some e ↔ ∃ row, w.store.get r.id = .ok row ∧ row.enrollment = e
  permitted : ∀ e, c.rotating seen.existing seen.hash = some e → c.reenroll r e = none

theorem raise_result {failure : Option Failure} {done : Unit}
    (returned : raise failure w = .ok done after) : failure = none ∧ after = w := by
  cases failure with
  | none =>
    cases returned
    exact ⟨rfl, rfl⟩
  | some f => cases returned

variable {seen : Observation}

theorem observe_ok (returned : c.observe r w = .ok seen after) :
    after = w ∧ Observed c w r seen := by
  unfold observe at returned
  obtain ⟨_, _, channel, afterChannel⟩ := bind_result returned
  obtain ⟨device, rfl⟩ := refuseIf_result channel
  obtain ⟨_, _, certificate, afterCertificate⟩ := bind_result afterChannel
  obtain ⟨-, rfl⟩ := refuseIf_result certificate
  obtain ⟨existing, _, read, last⟩ := bind_result afterCertificate
  obtain ⟨rfl, valid, found⟩ := findEnrollment_ok read
  cases rotated : c.rotating existing (c.presented r) with
  | none =>
    simp only [rotated] at last
    cases last
    exact ⟨rfl, valid, by simpa using device, rfl, found, by simp [rotated]⟩
  | some e =>
    simp only [rotated] at last
    obtain ⟨_, _, judged, afterPolicy⟩ := bind_result last
    obtain ⟨permitted, rfl⟩ := raise_result judged
    cases afterPolicy
    refine ⟨rfl, valid, by simpa using device, rfl, found, ?_⟩
    intro other same
    rw [rotated] at same
    cases same
    simpa using permitted

theorem looks_observe (r : Request) (w : World) : Looks World.store (c.observe r) w := by
  refine (looks_refuseIf World.store _ _ w).bind fun _ _ => ?_
  refine (looks_refuseIf World.store _ _ w).bind fun _ _ => ?_
  refine (looks_findEnrollment r.id w).bind fun existing _ => ?_
  split
  · exact .inr ⟨_, rfl⟩
  · exact (looks_raise _ w).bind fun _ _ => .inr ⟨_, rfl⟩

theorem looks_otherHolders (id : EnrollmentID) (hash : String) (w : World) :
    Looks World.store (otherHolders id hash) w := by
  refine Looks.bind (.inr ⟨_, reads_query (fun s => s.certHashHistory hash) w⟩) fun found _ => ?_
  cases found with
  | ok history => exact .inr ⟨_, rfl⟩
  | error error => exact .inl (refuses_throw _ _ w)

theorem looks_judgeReuse (r : Request) (hash : String) (w : World) :
    Looks World.store (c.judgeReuse r hash) w := by
  unfold judgeReuse
  split
  · exact .inr ⟨false, rfl⟩
  · refine (looks_otherHolders r.id hash w).bind fun others _ => ?_
    split
    · exact .inr ⟨false, rfl⟩
    · split
      · exact .inr ⟨true, rfl⟩
      · exact .inl (publish_then_throw _ _ _ _ w)

def submitted (c : Core) (p : Pending) (seen : Observation) (allowReuse : Bool) :
    AuthenticateChange :=
  { c with now := p.now }.authenticateChange p.message p.raw seen allowReuse

def outcome (seen : Observation) :
    Except StoreError (Inmem.Store × AuthenticateResult) → Progress
  | .ok (_, result) => .finished (classify seen result)
  | .error error => .failed (authenticateFailure error)

theorem announce_result (r : Request) (seen : Observation) (result : AuthenticateResult)
    (w : World) : ∃ after, c.announce r seen result w = .ok () after ∧ after.store = w.store := by
  have published (type : EventType) (w : World) : ∃ after, c.publish type r.id "device" w = .ok () after ∧
      after.store = w.store := by
    refine ⟨_, rfl, ?_⟩
    split <;> rfl
  have last (w : World) : ∃ after, (if seen.existing = none ∧ result.reset = true
      then c.publish .enrolled r.id "device" else c.publish .reenrolled r.id "device") w =
        .ok () after ∧ after.store = w.store := by
    split
    · exact published .enrolled w
    · exact published .reenrolled w
  unfold announce
  by_cases rotated : (seen.rotated && result.reset) = true
  · obtain ⟨mid, first, kept⟩ := published .certRotated w
    obtain ⟨after, second, same⟩ := last mid
    refine ⟨after, ?_, same.trans kept⟩
    simp only [rotated, if_true]
    exact (bind_of_ok first).trans second
  · simp only [rotated]
    exact last w

variable {called : Except StoreError (Inmem.Store × AuthenticateResult)}

theorem commitAuthenticate_spec (r : Request) (m : Authenticate) (raw : Bytes)
    (seen : Observation) (allowReuse : Bool) (w : World)
    (call : w.store.authenticateEnrollment r.id (c.authenticateChange m raw seen allowReuse) =
      called) :
    (settleProgress w (c.commitAuthenticate r m raw seen allowReuse) .finished).2 =
        outcome seen called ∧
      (settleProgress w (c.commitAuthenticate r m raw seen allowReuse) .finished).1.store =
        settle w.store ((·.1) <$> called) := by
  unfold commitAuthenticate
  rw [settleProgress_bind]
  unfold perform
  dsimp only
  rw [call]
  cases called with
  | error error => exact ⟨rfl, rfl⟩
  | ok next =>
    obtain ⟨store, result⟩ := next
    obtain ⟨after, announced, same⟩ :=
      c.announce_result r seen (classify seen result) { w with store := store }
    dsimp only
    rw [settleProgress_bind, announced]
    exact ⟨rfl, same⟩

theorem looks_settle {A : Type} {action : Action A} {next : A → Progress}
    (looks : Looks World.store action w) : (settleProgress w action next).1.store = w.store := by
  unfold settleProgress
  rcases looks with ⟨failure, mid, failed, same⟩ | ⟨value, read⟩
  · rw [failed]
    exact same
  · rw [show action w = .ok value w from read]

theorem proceed_reads {p : Pending} (reads : ∀ seen allowReuse, p.progress ≠ .judged seen allowReuse) :
    (c.proceed w p).1.store = w.store := by
  unfold proceed
  split
  · exact looks_settle (looks_observe _ w)
  · exact looks_settle (looks_judgeReuse _ _ w)
  · next seen allowReuse judged => exact absurd judged (reads seen allowReuse)
  · rfl
  · rfl

theorem proceed_judged {p : Pending} {allowReuse : Bool}
    (judged : p.progress = .judged seen allowReuse)
    (call : w.store.authenticateEnrollment p.request.id (c.submitted p seen allowReuse) = called) :
    (c.proceed w p).2 = outcome seen called ∧
      (c.proceed w p).1.store = settle w.store ((·.1) <$> called) := by
  unfold proceed
  rw [judged]
  exact commitAuthenticate_spec _ _ _ seen allowReuse w call

def Informed (c : Core) (past : List (Race × Move)) (race : Race) : Prop :=
  ∀ n p seen, race.pending[n]? = some p → p.progress.seen = some seen →
    ∃ entry ∈ past, entry.2 = .advance n ∧ Observed c entry.1.world p.request seen

theorem settleProgress_cases {A : Type} (w : World) (action : Action A) (next : A → Progress) :
    (∃ value after, action w = .ok value after ∧
      settleProgress w action next = (after, next value)) ∨
    ∃ failure after, settleProgress w action next = (after, .failed failure) := by
  unfold settleProgress
  cases returned : action w with
  | ok value after => exact .inl ⟨value, after, rfl, rfl⟩
  | error failure after => exact .inr ⟨failure, after, rfl⟩

theorem proceed_seen {p : Pending} (known : (c.proceed w p).2.seen = some seen) :
    p.progress.seen = some seen ∨ Observed c w p.request seen := by
  unfold proceed at known
  dsimp only at known
  split at known
  · rcases settleProgress_cases w ({ c with now := p.now }.observe p.request) .observed with
      ⟨value, after, returned, same⟩ | ⟨failure, after, same⟩ <;> rw [same] at known
    · obtain rfl : value = seen := by simpa [Progress.seen] using known
      obtain ⟨-, valid, device, presented, existing, permitted⟩ := observe_ok returned
      exact .inr ⟨valid, device, presented, existing, permitted⟩
    · simp [Progress.seen] at known
  · next before observed =>
    rcases settleProgress_cases w ({ c with now := p.now }.judgeReuse p.request before.hash)
      (.judged before) with ⟨value, after, -, same⟩ | ⟨failure, after, same⟩ <;> rw [same] at known
    · exact .inl (by simpa [observed, Progress.seen] using known)
    · simp [Progress.seen] at known
  · next before allowReuse judged =>
    rcases settleProgress_cases w ({ c with now := p.now }.commitAuthenticate p.request p.message
      p.raw before allowReuse) .finished with ⟨value, after, -, same⟩ | ⟨failure, after, same⟩ <;>
      simp [same, Progress.seen] at known
  · simp [Progress.seen] at known
  · simp [Progress.seen] at known

theorem move_informed (past : List (Race × Move)) (race : Race) (move : Move)
    (informed : Informed c past race) : Informed c (past ++ [(race, move)]) (c.move race move) := by
  have earlier {n : Nat} {p : Pending} {seen : Observation} (there : race.pending[n]? = some p)
      (known : p.progress.seen = some seen) : ∃ entry ∈ past ++ [(race, move)],
        entry.2 = .advance n ∧ Observed c entry.1.world p.request seen := by
    obtain ⟨entry, member, facts⟩ := informed n p seen there known
    exact ⟨entry, List.mem_append_left _ member, facts⟩
  intro n p seen there known
  cases move with
  | arrive request message raw now =>
    simp only [move, List.getElem?_append] at there
    split at there
    · exact earlier there known
    · -- A request that has just arrived has read nothing.
      obtain ⟨bound, here⟩ := List.getElem?_eq_some_iff.1 there
      rw [List.getElem_singleton] at here
      rw [← here] at known
      cases known
  | other op => exact earlier there known
  | advance m =>
    simp only [move] at there
    split at there
    · exact earlier there known
    · next q found =>
      rw [List.getElem?_set] at there
      split at there
      · next same =>
        subst same
        split at there
        · obtain rfl := Option.some.inj there
          rcases proceed_seen known with before | now
          · obtain ⟨entry, member, facts⟩ := earlier found before
            exact ⟨entry, member, facts⟩
          · exact ⟨(race, .advance m), by simp, rfl, now⟩
        · cases there
      · exact earlier there known

end Core

def Race.start : Race := { world := { store := {} } }

namespace Core

variable (c : Core)

structure Resets (race : Race) (id : EnrollmentID) (n : Nat) : Prop where
  resets : ∃ p seen allowReuse store, race.pending[n]? = some p ∧
    p.progress = .judged seen allowReuse ∧ p.request.id = id ∧
    race.world.store.authenticateEnrollment id (c.submitted p seen allowReuse) =
      .ok (store, ⟨true, true⟩)

def Repins (race : Race) (id : EnrollmentID) : Move → Prop
  | .arrive .. => False
  | .advance n => c.Resets race id n
  | .other op => Inmem.Store.writesPin id op

variable {c}

theorem move_wellFormed (race : Race) (m : Move) (rows : race.world.store.WellFormed) :
    (c.move race m).world.store.WellFormed := by
  cases m with
  | arrive request message raw now => exact rows
  | other op => exact Inmem.Store.step_wellFormed c.decodeResponse rows op
  | advance n =>
    simp only [move]
    split
    · exact rows
    · next p found =>
      by_cases reads : ∀ seen allowReuse, p.progress ≠ .judged seen allowReuse
      · rwa [proceed_reads reads]
      · simp only [not_forall, not_not] at reads
        obtain ⟨seen, allowReuse, judged⟩ := reads
        rw [(proceed_judged judged rfl).2]
        exact Inmem.Store.step_wellFormed c.decodeResponse rows
          (.authenticateEnrollment p.request.id (c.submitted p seen allowReuse))

theorem move_rowPin {race : Race} {id : EnrollmentID} {hash : String} {m : Move}
    (rows : race.world.store.WellFormed) (pin : race.world.store.rowPin id.id = some (id, hash))
    (kept : ¬ c.Repins race id m) : (c.move race m).world.store.rowPin id.id = some (id, hash) := by
  have step {op : Inmem.Op} (other : ¬ Inmem.Store.writesPin id op) :
      (race.world.store.step c.decodeResponse op).rowPin id.id = some (id, hash) :=
    settle_preserves (fun s => s.rowPin id.id = some (id, hash)) pin fun _ accepted =>
      Inmem.Store.apply_rowPin c.decodeResponse rows pin other accepted
  cases m with
  | arrive request message raw now => exact pin
  | other op => exact step kept
  | advance n =>
    simp only [move]
    split
    · exact pin
    · next p found =>
      by_cases reads : ∀ seen allowReuse, p.progress ≠ .judged seen allowReuse
      · rwa [proceed_reads reads]
      · simp only [not_forall, not_not] at reads
        obtain ⟨seen, allowReuse, judged⟩ := reads
        by_cases own : p.request.id = id
        · -- The request is for this device and does not reset it: a retry or a refusal.
          rw [(proceed_judged judged rfl).2]
          refine settle_preserves (fun s : Inmem.Store => s.rowPin id.id = some (id, hash)) pin
            fun next accepted => ?_
          obtain ⟨⟨store, known, reset⟩, called, rfl⟩ := (map_ok _ _ _).1 accepted
          rw [own] at called
          obtain ⟨retry, -, same, unchanged, -⟩ := Inmem.Store.authenticateEnrollment_ok called
          cases retry with
          | true => rwa [unchanged rfl]
          | false => exact absurd ⟨p, seen, allowReuse, store, found, judged, own, same ▸ called⟩ kept
        · rw [(proceed_judged judged rfl).2]
          have other : ¬ Inmem.Store.writesPin id
              (.authenticateEnrollment p.request.id (c.submitted p seen allowReuse)) := own
          exact step other

theorem Observed.rotates {w : World} {r : Request} {seen : Observation} {old : String}
    (observed : Observed c w r seen)
    (expected : seen.expected = old) (pinned : old ≠ "") (replaced : seen.hash ≠ old)
    (named : seen.hash ≠ "") (pinning : c.pinning ≠ .off) :
    ∃ row, w.store.get r.id = .ok row ∧ row.enrollment.certHash = old ∧
      c.reenroll r row.enrollment = none := by
  unfold Observation.expected at expected
  cases existing : seen.existing with
  | none => exact absurd (by rw [existing] at expected; exact expected.symm) pinned
  | some e =>
    simp only [existing] at expected
    obtain ⟨row, found, rfl⟩ := (observed.existing e).1 existing
    refine ⟨row, found, expected, observed.permitted _ ?_⟩
    have named' : row.enrollment.certHash ≠ "" := by rwa [expected]
    have differs : row.enrollment.certHash ≠ seen.hash := by rw [expected]; exact replaced.symm
    simp [rotating, existing, named', named, differs, pinning]

end Core

theorem authenticate_race (c : Core) (moves : List Move) (before after : List (Race × Move))
    (found : Race) (n : Nat) (p : Pending) (seen : Core.Observation) (allowReuse : Bool)
    (split : history c.move .start moves = before ++ (found, .advance n) :: after)
    (pending : found.pending[n]? = some p) (judged : p.progress = .judged seen allowReuse) :
    let pin := pinAt found.world.store p.request.id
    let next := c.move found (.advance n)
    let progress := (next.pending[n]?).map (·.progress)
    (pin ≠ "" → c.pinning ≠ .off → ∀ new, pinAt next.world.store p.request.id = new → new ≠ pin →
      new ≠ "" → ∃ entry ∈ before, entry.2 = .advance n ∧ c.presented p.request = new ∧
        ∃ row, entry.1.world.store.get p.request.id = .ok row ∧ row.enrollment.certHash = pin ∧
          c.reenroll p.request row.enrollment = none) ∧
    (seen.expected ≠ pin → p.now ≠ 0 → next.world.store = found.world.store ∧
      (progress = some (.failed (Core.authenticateFailure .conflict)) ∨
        (pin = seen.hash ∧ pin ≠ "" ∧ progress = some (.finished ⟨true, false⟩)) ∨
        ∃ row, found.world.store.get p.request.id = .ok row ∧ row.enrollment.disabledAt ≠ 0 ∧
          progress = some (.failed (Core.authenticateFailure .disabled)))) ∧
    (seen.hash ≠ "" → pin = seen.hash → next.world.store = found.world.store) ∧
    (c.Resets found p.request.id n → (∀ entry ∈ after, ¬ c.Repins entry.1 p.request.id entry.2) →
      pinAt (run c.move .start moves).world.store p.request.id = seen.hash) := by
  intro pin next progress
  obtain ⟨earlier, later, rfl, rfl, rfl⟩ := history_split split
  have informed : Core.Informed c (history c.move .start earlier) (run c.move .start earlier) :=
    history_invariant (Core.Informed c)
      (fun past race move => Core.move_informed past race move)
      (by simp [Core.Informed, Race.start]) earlier
  obtain ⟨entry, member, event, observed⟩ := informed n p seen pending (by rw [judged]; rfl)
  have rows : (run c.move .start earlier).world.store.WellFormed :=
    run_invariant (fun race : Race => race.world.store.WellFormed)
      (fun race move => Core.move_wellFormed race move) Inmem.Store.empty_pinned.rows earlier
  obtain ⟨world, progressed⟩ : next.world = (c.proceed (run c.move .start earlier).world p).1 ∧
      progress = some (c.proceed (run c.move .start earlier).world p).2 := by
    obtain ⟨bound, rfl⟩ := List.getElem?_eq_some_iff.1 pending
    simp [next, progress, Core.move, bound]
  -- Everything the step does is decided by the one call it makes.
  generalize call : (run c.move .start earlier).world.store.authenticateEnrollment p.request.id
    (c.submitted p seen allowReuse) = called
  obtain ⟨settled, stored⟩ := Core.proceed_judged judged call
  rw [← world] at stored
  rw [settled] at progressed
  refine ⟨?_, ?_, ?_, ?_⟩
  · rintro pinned pinning new rfl replaced named
    cases called with
    | error error => exact absurd (by rw [stored]; rfl) replaced
    | ok result =>
      obtain ⟨store, result⟩ := result
      have last : next.world.store = store := stored
      rw [last] at replaced named
      obtain ⟨expected, hash, -⟩ := authenticate_replaces replaced call
      have presented : pinAt next.world.store p.request.id = seen.hash := by rw [last]; exact hash
      rw [presented]
      rw [hash] at replaced named
      obtain ⟨row, found, same, permitted⟩ :=
        observed.rotates expected pinned replaced named pinning
      exact ⟨entry, member, event, observed.presented.symm, row, found, same, permitted⟩
  · intro stale clock
    have change : pinAt (run c.move .start earlier).world.store p.request.id ≠
        (c.submitted p seen allowReuse).expectedHash := Ne.symm stale
    rcases authenticate_stale observed.valid observed.device clock change with refused |
      ⟨named, own, retried⟩ | ⟨row, found, closed, refused⟩
    · obtain rfl := call.symm.trans refused
      exact ⟨stored, .inl progressed⟩
    · obtain rfl := call.symm.trans retried
      exact ⟨stored, .inr (.inl ⟨own, by rw [show pin = seen.hash from own]; exact named, progressed⟩)⟩
    · obtain rfl := call.symm.trans refused
      exact ⟨stored, .inr (.inr ⟨row, found, closed, progressed⟩)⟩
  · intro named same
    cases called with
    | error error => exact stored
    | ok result =>
      obtain ⟨store, result⟩ := result
      exact stored.trans (authenticate_retry named same call)
  · rintro ⟨q, seen', allowReuse', store, there, judged', -, reset⟩ kept
    obtain rfl := Option.some.inj (pending.symm.trans there)
    obtain ⟨rfl, rfl⟩ : seen = seen' ∧ allowReuse = allowReuse' := by
      simpa using judged.symm.trans judged'
    obtain rfl := call.symm.trans reset
    have pinned : next.world.store.rowPin p.request.id.id = some (p.request.id, seen.hash) := by
      rw [show next.world.store = store from stored]
      exact Inmem.Store.reset_pin reset
    have rest : after = history c.move next later := by
      rw [history_append, history_cons] at split
      exact (List.cons.inj (List.append_cancel_left split)).2.symm
    have last : (run c.move next later).world.store.WellFormed ∧
        (run c.move next later).world.store.rowPin p.request.id.id =
          some (p.request.id, seen.hash) := by
      refine allowed_invariant (fun race move => ¬ c.Repins race p.request.id move)
        (fun race : Race => race.world.store.WellFormed ∧ race.world.store.rowPin p.request.id.id =
          some (p.request.id, seen.hash)) (fun race move allowed held => ?_)
        ⟨Core.move_wellFormed _ _ rows, pinned⟩ (rest ▸ kept)
      exact ⟨Core.move_wellFormed race move held.1, Core.move_rowPin held.1 held.2 allowed⟩
    rw [run_append, run_cons]
    exact pinAt_of_rowPin observed.valid last.2

def sampleAuthenticate : Authenticate :=
  ⟨"topic", "model", "", "", none, none, none, none, none, none⟩

def arrival (certificate : Option Certificate) : Move :=
  .arrive ⟨Inmem.sampleDevice, certificate⟩ sampleAuthenticate [] 20

def pinned : Move := .other (.authenticateEnrollment Inmem.sampleDevice { hash := "old", atTime := 1 })

def allowing : Core := { sampleCore with reenroll := fun _ _ => none }

def sampleRace : List Move :=
  [pinned, arrival (some ⟨[1]⟩), arrival (some ⟨[2]⟩), .advance 0, .advance 1, .advance 0, .advance 1]

theorem sampleRace_authorised :
    pinAt (run allowing.move .start (sampleRace ++ [.advance 0])).world.store Inmem.sampleDevice =
        allowing.fingerprint ⟨[1]⟩ ∧
      ∃ entry ∈ history allowing.move .start sampleRace, entry.2 = .advance 0 ∧
        ∃ row, entry.1.world.store.get Inmem.sampleDevice = .ok row ∧
          row.enrollment.certHash = "old" ∧
          allowing.reenroll ⟨Inmem.sampleDevice, some ⟨[1]⟩⟩ row.enrollment = none := by
  have state : ((run allowing.move .start sampleRace).pending[0]?).bind (fun p =>
      match p.progress with
      | .judged _ allowReuse => some (p.request, allowReuse)
      | _ => none) = some (⟨Inmem.sampleDevice, some ⟨[1]⟩⟩, false) := by decide +kernel
  obtain ⟨p, pending, state⟩ := Option.bind_eq_some_iff.1 state
  split at state
  · next seen allowReuse judged =>
    simp only [Option.some.injEq, Prod.mk.injEq] at state
    have swapped : pinAt (run allowing.move .start (sampleRace ++ [.advance 0])).world.store
        Inmem.sampleDevice = allowing.fingerprint ⟨[1]⟩ := by decide +kernel
    have old : pinAt (run allowing.move .start sampleRace).world.store Inmem.sampleDevice = "old" := by
      decide +kernel
    have race := (authenticate_race allowing (sampleRace ++ [.advance 0])
      (history allowing.move .start sampleRace) [] (run allowing.move .start sampleRace) 0 p seen
      allowReuse (by rw [history_append]; rfl) pending judged).1
    rw [state.1] at race
    simp only [old] at race
    rw [run_append, run_cons, run_nil] at swapped
    obtain ⟨entry, member, event, -, row⟩ := race (by decide) (by decide) _ swapped
      (by decide +kernel) (by decide +kernel)
    exact ⟨by rw [run_append, run_cons, run_nil, swapped], entry, member, event, row⟩
  · cases state

theorem authenticate_unconditional :
    let off := { sampleCore with pinning := .off }
    let warn := { sampleCore with pinning := .warn }
    let steps : List Move := [.advance 0, .advance 0, .advance 0]
    let pin (c : Core) (moves : List Move) :=
      pinAt (run c.move .start moves).world.store Inmem.sampleDevice
    let progress (c : Core) (moves : List Move) :=
      ((run c.move .start moves).pending[0]?).map (·.progress)
    pin off [pinned] = "old" ∧
      pin off ([pinned, arrival (some ⟨[1]⟩)] ++ steps) = sampleCore.fingerprint ⟨[1]⟩ ∧
      pin warn ([pinned, arrival none] ++ steps) = "" ∧
      progress sampleCore [arrival (some ⟨[1]⟩), arrival (some ⟨[1]⟩), .advance 0, .advance 1,
        .advance 1, .advance 1, .advance 0, .advance 0] = some (.finished ⟨true, false⟩) ∧
      progress sampleCore [arrival (some ⟨[1]⟩), .advance 0, pinned,
        .other (.disable Inmem.sampleDevice 2), .advance 0, .advance 0] =
          some (.failed (Core.authenticateFailure .disabled)) ∧
      pin sampleCore ([arrival (some ⟨[1]⟩)] ++ steps ++
        [.other (.associateCert Inmem.sampleDevice "new" 3)]) = "new" := by
  decide +kernel

end AppleDM.Service
