import AppleDM.Shared.Related
import AppleDM.Shared.Run
import AppleDM.Inmem.Store
import AppleDM.Storage.Observations

set_option autoImplicit false

namespace AppleDM.Inmem

open Mdm Storage Checked Run Related

def atoi (text : String) : Option Int :=
  let (negative, digits) := match text.toList with
    | '-' :: rest => (true, rest)
    | '+' :: rest => (false, rest)
    | rest => (false, rest)
  if digits.isEmpty || !digits.all Char.isDigit then none
  else
    let size : Int := digits.foldl (fun n c => 10 * n + (c.toNat - '0'.toNat)) 0
    let n := if negative then -size else size
    if -2 ^ 63 ≤ n ∧ n < 2 ^ 63 then some n else none

structure CommandQuery where
  states : List State := []
  requestType : String := ""

def hasPendingKey (queue : List QueuedCommand) (key : String) : Bool :=
  queue.any fun q => q.dedupeKey = key && !q.state.terminal

def inactive (e : Enrollment) : Prop := e.enabled = false ∨ e.disabledAt ≠ 0

instance (e : Enrollment) : Decidable (inactive e) := inferInstanceAs (Decidable (_ ∨ _))

def deliverable (skipNotNow : Bool) (now : Time) (q : QueuedCommand) : Bool :=
  match q.state with
  | .pending | .sent => true
  | .notNow => !(skipNotNow || decide (now < q.notNowUntil))
  | .acknowledged | .error | .cleared => false

def send (now : Time) (q : QueuedCommand) : QueuedCommand :=
  { q with state := .sent, lastSentAt := now, attempts := q.attempts + 1 }

def answer (resp : Response) (now : Time) (q : QueuedCommand) : QueuedCommand :=
  let q := { q with result := some resp }
  match resp.status with
  | .acknowledged => { q with state := .acknowledged, completedAt := now }
  | .notNow =>
    { q with
      notNowCount := q.notNowCount + 1
      state := .notNow
      notNowUntil := now + notNowBackoff (q.notNowCount + 1) }
  | _ => { q with state := .error, completedAt := now }

def CommandQuery.selects (q : CommandQuery) (c : QueuedCommand) : Bool :=
  (q.requestType = "" || c.command.requestType = q.requestType) &&
    (q.states.isEmpty || q.states.contains c.state)

def awaits (uuid : String) (q : QueuedCommand) : Bool :=
  q.command.uuid = uuid && !q.state.terminal

def clears (f : ClearFilter) (q : QueuedCommand) : Bool :=
  !q.state.terminal && (f.states.isEmpty || f.states.contains q.state) &&
    (f.requestType = "" || q.command.requestType = f.requestType) &&
    (f.commandUUID = "" || q.command.uuid = f.commandUUID) &&
    (f.before = 0 || decide (q.enqueuedAt < f.before))

def clear (now : Time) (q : QueuedCommand) : QueuedCommand :=
  { q with state := .cleared, completedAt := now }

namespace Store

variable (s : Store) (id : EnrollmentID)

def activeRecord (refusal : StoreError) : Except StoreError Record := do
  let r ← s.get id
  reject (inactive r.enrollment) refusal
  onlyIf (id.channel.isUser = true) do
    let parent ← s.get id.device
    reject (inactive parent.enrollment) .disabled
  pure r

def enqueueTarget (o : EnqueueOptions) (id : EnrollmentID) : Except StoreError Record := do
  let r ← s.activeRecord id (.disabled id.id)
  reject (o.dedupeKey ≠ "" ∧ hasPendingKey r.queue o.dedupeKey = true)
    (.conflict ("pending command with dedupe key " ++ o.dedupeKey.quote))
  pure r

def enqueueOne (cmd : Command) (o : EnqueueOptions) (now : Time)
    (state : Store × EnqueueResult) (id : EnrollmentID) : Store × EnqueueResult :=
  match state.1.enqueueTarget o id with
  | .error error => (state.1, state.2.skip id error)
  | .ok r =>
    let queued : QueuedCommand :=
      { command := cmd, state := .pending, dedupeKey := o.dedupeKey, enqueuedAt := now }
    (state.1.put { r with queue := r.queue ++ [queued] }, state.2.queue id)

def enqueue (ids : List EnrollmentID) (cmd : Option Command) (o : EnqueueOptions)
    (clock : Time) : Except StoreError (Store × EnqueueResult) :=
  match cmd with
  | none => .error (.invalid "command needs a UUID and RequestType")
  | some cmd =>
    if cmd.uuid = "" ∨ cmd.requestType = "" then
      .error (.invalid "command needs a UUID and RequestType")
    else
      let now := if o.now = 0 then clock else o.now
      .ok (run (enqueueOne cmd o now) (s, {}) ids)

def commands (q : CommandQuery) (p : Page) :
    Except StoreError (Option (PageResult QueuedCommand)) := do
  let r ← s.get id
  let found := r.queue.reverse.filter q.selects
  let offset := if p.cursor = "" then some 0 else (atoi p.cursor).filter (0 ≤ ·)
  match offset with
  | none => .error (.invalid ("bad cursor " ++ p.cursor.quote))
  | some offset =>
    let limit := if p.limit ≤ 0 then defaultPageSize else p.limit.toNat
    -- The sum wraps around, and the slice expression panics.
    if offset.toNat < found.length ∧ 9223372036854775807 < offset.toNat + limit then pure none
    else
      let last := min (offset.toNat + limit) found.length
      pure (some
        { items := (found.take last).drop offset.toNat
          nextCursor :=
            if offset.toNat < found.length ∧ last < found.length then toString last else "" })

def nextPosition (queue : List QueuedCommand) (skipNotNow : Bool) (now : Time) : Option Nat :=
  queue.findIdx? (deliverable skipNotNow now)

def next (skipNotNow : Bool) (now : Time) : Except StoreError (Store × Option Command) := do
  let r ← s.activeRecord id .disabled
  match nextPosition r.queue skipNotNow now with
  | none => pure (s, none)
  | some position =>
    pure (s.put { r with queue := r.queue.modify position (send now) },
      (r.queue[position]?).map (·.command))

def storeResult (decodeResponse : DecodeResponse) (s : Store) (id : EnrollmentID)
    (resp : Option Response) (now : Time) : Except StoreError Store :=
  match resp with
  | none => .error (.invalid "result needs a CommandUUID and a non-Idle status")
  | some resp => do
    reject (resp.isIdle = true ∨ resp.commandUUID = "")
      (.invalid "result needs a CommandUUID and a non-Idle status")
    let r ← s.activeRecord id .disabled
    match r.queue.findIdx? (awaits resp.commandUUID) with
    | none => .error (.notFound ("no open command " ++ resp.commandUUID))
    | some position =>
      let requestType := ((r.queue[position]?).map (·.command.requestType)).getD ""
      pure (s.put
        { enrollment := { r.enrollment with
            capabilities :=
              capabilitiesFromResult decodeResponse r.enrollment.capabilities id requestType resp now
            device := deviceInfoFromResult decodeResponse r.enrollment.device id requestType resp }
          queue := r.queue.modify position (answer resp now) })

def clear (f : ClearFilter) (now : Time) : Except StoreError (Store × Nat) := do
  let r ← s.get id
  pure (s.put { r with queue := r.queue.map fun q => if clears f q then Inmem.clear now q else q },
    r.queue.countP (clears f))

def clearCommand (uuid : String) (now : Time) : Except StoreError (Store × Nat) := do
  reject (uuid = "") .invalid
  s.clear id { commandUUID := uuid } now

variable {s id} {s' : Store} {r : Record} {refusal : StoreError} {now : Time}

theorem activeRecord_ok : s.activeRecord id refusal = .ok r ↔
    s.get id = .ok r ∧ ¬ inactive r.enrollment ∧ (id.channel.isUser = true →
      ∃ parent, s.get id.device = .ok parent ∧ ¬ inactive parent.enrollment) := by
  simp only [activeRecord, bind_ok, reject_ok, onlyIf_ok, pure_ok]
  constructor
  · rintro ⟨r, found, -, active, -, parent, rfl⟩
    exact ⟨found, active, parent⟩
  · rintro ⟨found, active, parent⟩
    exact ⟨r, found, (), active, (), parent, rfl⟩

variable {o : EnqueueOptions}

theorem enqueueTarget_ok : s.enqueueTarget o id = .ok r ↔
    s.activeRecord id (.disabled id.id) = .ok r ∧
      (o.dedupeKey ≠ "" → hasPendingKey r.queue o.dedupeKey = false) := by
  simp only [enqueueTarget, bind_ok, reject_ok, pure_ok, not_and, Bool.not_eq_true]
  constructor
  · rintro ⟨r, found, -, free, rfl⟩
    exact ⟨found, free⟩
  · rintro ⟨found, free⟩
    exact ⟨r, found, (), free, rfl⟩

variable {ids : List EnrollmentID} {cmd : Option Command} {clock : Time} {result : EnqueueResult}

theorem enqueue_ok (accepted : s.enqueue ids cmd o clock = .ok (s', result)) :
    ∃ cmd' now, cmd = some cmd' ∧ cmd'.uuid ≠ "" ∧ cmd'.requestType ≠ "" ∧
      (s', result) = run (enqueueOne cmd' o now) (s, {}) ids := by
  unfold enqueue at accepted
  split at accepted
  · simp at accepted
  next cmd =>
  split at accepted
  · simp at accepted
  next named =>
  simp only [not_or] at named
  exact ⟨cmd, _, rfl, named.1, named.2, (Except.ok.inj accepted).symm⟩

theorem enqueue_invariant (Inv : Store → Prop)
    (one : ∀ cmd o now state id, Inv state.1 → Inv (enqueueOne cmd o now state id).1)
    (held : Inv s)
    (accepted : s.enqueue ids cmd o clock = .ok (s', result)) : Inv s' := by
  obtain ⟨cmd', now, -, -, -, same⟩ := enqueue_ok accepted
  have last : s' = (run (enqueueOne cmd' o now) (s, {}) ids).1 := congrArg Prod.fst same
  rw [last]
  exact run_invariant (fun state : Store × EnqueueResult => Inv state.1)
    (fun state id => one cmd' o now state id) held ids

theorem next_ok {skipNotNow : Bool} {found : Option Command}
    (accepted : s.next id skipNotNow now = .ok (s', found)) :
    ∃ r, s.activeRecord id .disabled = .ok r ∧
      ((nextPosition r.queue skipNotNow now = none ∧ s' = s ∧ found = none) ∨
        ∃ position, nextPosition r.queue skipNotNow now = some position ∧
          s' = s.put { r with queue := r.queue.modify position (send now) } ∧
          found = (r.queue[position]?).map (·.command)) := by
  simp only [next, bind_ok] at accepted
  obtain ⟨r, active, accepted⟩ := accepted
  refine ⟨r, active, ?_⟩
  split at accepted
  · next position =>
    simp only [pure_ok, Prod.mk.injEq] at accepted
    exact .inl ⟨position, accepted.1.symm, accepted.2.symm⟩
  · next position here =>
    simp only [pure_ok, Prod.mk.injEq] at accepted
    exact .inr ⟨position, here, accepted.1.symm, accepted.2.symm⟩

theorem storeResult_ok {decodeResponse : DecodeResponse} {resp : Option Response}
    (accepted : s.storeResult decodeResponse id resp now = .ok s') :
    ∃ r response position capabilities device, resp = some response ∧
      response.isIdle = false ∧ response.commandUUID ≠ "" ∧
      s.activeRecord id .disabled = .ok r ∧
      r.queue.findIdx? (awaits response.commandUUID) = some position ∧
      s' = s.put
        { enrollment := { r.enrollment with capabilities := capabilities, device := device }
          queue := r.queue.modify position (answer response now) } := by
  unfold storeResult at accepted
  split at accepted
  · simp at accepted
  next response =>
  simp only [bind_ok, reject_ok, not_or, Bool.not_eq_true] at accepted
  obtain ⟨-, ⟨idle, uuid⟩, r, active, accepted⟩ := accepted
  split at accepted
  · simp at accepted
  next position here =>
  simp only [pure_ok] at accepted
  exact ⟨r, response, position, _, _, rfl, idle, uuid, active, here, accepted.symm⟩

theorem clear_ok {f : ClearFilter} {n : Nat} (accepted : s.clear id f now = .ok (s', n)) :
    ∃ r, s.get id = .ok r ∧ n = r.queue.countP (clears f) ∧
      s' = s.put { r with
        queue := r.queue.map fun q => if clears f q then Inmem.clear now q else q } := by
  simp only [clear, bind_ok, pure_ok, Prod.mk.injEq] at accepted
  obtain ⟨r, found, rfl, rfl⟩ := accepted
  exact ⟨r, found, rfl, rfl⟩

theorem clearCommand_ok {uuid : String} {n : Nat}
    (accepted : s.clearCommand id uuid now = .ok (s', n)) :
    uuid ≠ "" ∧ s.clear id { commandUUID := uuid } now = .ok (s', n) := by
  simp only [clearCommand, bind_ok, reject_ok] at accepted
  obtain ⟨-, named, accepted⟩ := accepted
  exact ⟨named, accepted⟩

theorem get_queueAt (found : s.get id = .ok r) : s.queueAt id.id = r.queue := by
  obtain ⟨-, row, -⟩ := get_ok.1 found
  simp [queueAt, row]

end Store

structure Follows (q q' : QueuedCommand) : Prop where
  command : q'.command = q.command
  dedupeKey : q'.dedupeKey = q.dedupeKey
  enqueuedAt : q'.enqueuedAt = q.enqueuedAt
  terminal : q.state.terminal = true → q' = q

structure Settled (q q' : QueuedCommand) : Prop extends Follows q q' where
  attempts : q'.attempts = q.attempts

theorem Follows.refl (q : QueuedCommand) : Follows q q := ⟨rfl, rfl, rfl, fun _ => rfl⟩

theorem Settled.refl (q : QueuedCommand) : Settled q q := ⟨Follows.refl q, rfl⟩

theorem Follows.trans {a b c : QueuedCommand} (first : Follows a b) (second : Follows b c) :
    Follows a c := by
  refine ⟨second.command.trans first.command, second.dedupeKey.trans first.dedupeKey,
    second.enqueuedAt.trans first.enqueuedAt, fun done => ?_⟩
  have same := first.terminal done
  rw [second.terminal (same ▸ done), same]

theorem Settled.trans {a b c : QueuedCommand} (first : Settled a b) (second : Settled b c) :
    Settled a c :=
  ⟨first.toFollows.trans second.toFollows, second.attempts.trans first.attempts⟩

theorem Settled.of_open {q q' : QueuedCommand} (open_ : q.state.terminal = false)
    (command : q'.command = q.command) (dedupeKey : q'.dedupeKey = q.dedupeKey)
    (enqueuedAt : q'.enqueuedAt = q.enqueuedAt) (attempts : q'.attempts = q.attempts) :
    Settled q q' :=
  ⟨⟨command, dedupeKey, enqueuedAt, fun done => by simp [open_] at done⟩, attempts⟩

abbrev Unmoved (queue queue' : List QueuedCommand) : Prop := List.Forall₂ Settled queue queue'

theorem Unmoved.refl (queue : List QueuedCommand) : Unmoved queue queue :=
  List.forall₂_same.2 fun q _ => Settled.refl q

variable {queue : List QueuedCommand}

theorem Unmoved.map {f : QueuedCommand → QueuedCommand}
    (each : ∀ q, Settled q (f q)) : Unmoved queue (queue.map f) :=
  List.forall₂_map_right_iff.2 (List.forall₂_same.2 fun q _ => each q)

theorem Unmoved.trans {a b c : List QueuedCommand} (first : Unmoved a b) (second : Unmoved b c) :
    Unmoved a c := by
  induction first generalizing c with
  | nil => exact second
  | cons head _ ih =>
    cases second with
    | cons head' rest' => exact .cons (head.trans head') (ih rest')

theorem clearPending_unmoved (queue : List QueuedCommand) (atTime : Time) :
    Unmoved queue (clearPending queue atTime) :=
  Unmoved.map fun q => by
    split
    · exact Settled.refl q
    · next open_ => exact Settled.of_open (by simpa using open_) rfl rfl rfl rfl

theorem clears_unmoved (queue : List QueuedCommand) (f : ClearFilter) (now : Time) :
    Unmoved queue (queue.map fun q => if clears f q then clear now q else q) :=
  Unmoved.map fun q => by
    split
    · next matched =>
      simp only [clears, Bool.and_eq_true, Bool.not_eq_true'] at matched
      exact Settled.of_open matched.1.1.1.1 rfl rfl rfl rfl
    · exact Settled.refl q

theorem answer_unmoved {response : Response} {position : Nat}
    (found : queue.findIdx? (awaits response.commandUUID) = some position) (now : Time) :
    Unmoved queue (queue.modify position (answer response now)) := by
  refine forall₂_modify Settled.refl queue position fun q here => ?_
  obtain ⟨inside, waiting, -⟩ := List.findIdx?_eq_some_iff_getElem.1 found
  rw [List.getElem?_eq_getElem inside, Option.some.injEq] at here
  rw [here] at waiting
  simp only [awaits, Bool.and_eq_true, Bool.not_eq_true'] at waiting
  unfold answer
  split <;> exact Settled.of_open waiting.2 rfl rfl rfl rfl

end AppleDM.Inmem
