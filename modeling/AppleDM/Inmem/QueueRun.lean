import AppleDM.Inmem.Edits

set_option autoImplicit false

namespace AppleDM.Inmem

open Mdm Storage Checked Run Related

def Op.adds : Op → Bool
  | .enqueue .. => true
  | _ => false

namespace Store

variable {s s' : Store} {id : EnrollmentID} {r : Record}

def Quiet (s s' : Store) : Prop := ∀ key, Unmoved (s.queueAt key) (s'.queueAt key)

theorem Quiet.refl (s : Store) : Quiet s s := fun key => Unmoved.refl (s.queueAt key)

theorem Quiet.trans {a b c : Store} (first : Quiet a b) (second : Quiet b c) : Quiet a c :=
  fun key => (first key).trans (second key)

theorem Quiet.of_enrollments (same : s'.enrollments = s.enrollments) : Quiet s s' := by
  intro key
  simpa [queueAt, same] using Unmoved.refl (s.queueAt key)

theorem queueAt_putAt (s : Store) (key : String) (r : Record) :
    (s.putAt key r).queueAt = Function.update s.queueAt key r.queue := by
  funext other
  by_cases same : other = key
  · simp [queueAt, putAt, same]
  · simp [queueAt, putAt, same, Std.ExtTreeMap.getElem?_insert, Ne.symm same]

theorem queueAt_put (s : Store) (r : Record) :
    (s.put r).queueAt = Function.update s.queueAt r.enrollment.id.id r.queue :=
  queueAt_putAt s r.enrollment.id.id r

theorem Quiet.put (unmoved : Unmoved (s.queueAt r.enrollment.id.id) r.queue) :
    Quiet s (s.put r) := by
  intro other
  rw [queueAt_put]
  by_cases same : other = r.enrollment.id.id
  · simpa [same] using unmoved
  · simpa [same] using Unmoved.refl (s.queueAt other)

theorem Quiet.map {f : Record → Record} (unmoved : ∀ r, Unmoved r.queue (f r).queue) :
    Quiet s { s with enrollments := s.enrollments.map fun _ r => f r } := by
  intro key
  simp only [queueAt, Std.ExtTreeMap.getElem?_map]
  cases s.enrollments[key]? with
  | none => exact .nil
  | some r => exact unmoved r

theorem apply_quiet (decodeResponse : DecodeResponse) {op : Op} (still : op.moves = false)
    (accepted : s.apply decodeResponse op = .ok s') : Quiet s s' := by
  have edits := apply_edits decodeResponse accepted
  clear accepted
  induction edits with
  | refl => exact Quiet.refl s
  | tail _ edit ih =>
    refine ih.trans ?_
    cases edit with
    | row r _ _ _ queue =>
      exact Quiet.put (queue.resolve_left (by simp [still]))
    | rows f _ _ _ queue => exact Quiet.map queue
    | _ => exact Quiet.of_enrollments rfl

end Store

def carries (key : String) (q : QueuedCommand) : Bool := q.dedupeKey = key && !q.state.terminal

def Unique (queue : List QueuedCommand) : Prop :=
  ∀ key, key ≠ "" → queue.countP (carries key) ≤ 1

def attemptsAt (queue : List QueuedCommand) (position : Nat) : Nat :=
  ((queue[position]?).map (·.attempts)).getD 0

structure Added (queue added : List QueuedCommand) : Prop where
  attempts : ∀ q ∈ added, q.attempts = 0
  unique : Unique queue → Unique (queue ++ added)

inductive Turn (queue : List QueuedCommand) : Option Nat → List QueuedCommand → Prop where
  | settle {queue' : List QueuedCommand} (unmoved : Unmoved queue queue') : Turn queue none queue'
  | deliver {position : Nat} {skipNotNow : Bool} {now : Time}
      (first : Store.nextPosition queue skipNotNow now = some position) :
      Turn queue (some position) (queue.modify position (send now))
  | extend {added : List QueuedCommand} (fresh : Added queue added) :
      Turn queue none (queue ++ added)

def Continues (queue queue' : List QueuedCommand) : Prop :=
  ∀ (position : Nat) (q : QueuedCommand), queue[position]? = some q →
    ∃ q', queue'[position]? = some q' ∧ Follows q q'

theorem Continues.refl (queue : List QueuedCommand) : Continues queue queue :=
  fun _ q here => ⟨q, here, Follows.refl q⟩

theorem Continues.trans {a b c : List QueuedCommand} (first : Continues a b)
    (second : Continues b c) : Continues a c := by
  intro position q here
  obtain ⟨q', there, follows⟩ := first position q here
  obtain ⟨q'', last, follows'⟩ := second position q' there
  exact ⟨q'', last, follows.trans follows'⟩

variable {queue' : List QueuedCommand}

theorem Continues.of_forall₂ {queue : List QueuedCommand}
    (related : List.Forall₂ Follows queue queue') : Continues queue queue' := by
  intro position q here
  have follows := forall₂_getElem? related position
  rw [here] at follows
  generalize queue'[position]? = found at follows
  cases follows with
  | some follows => exact ⟨_, rfl, follows⟩

variable {queue : List QueuedCommand} {skipNotNow : Bool} {now : Time} {position : Nat}

theorem nextPosition_some (first : Store.nextPosition queue skipNotNow now = some position) :
    ∃ q, queue[position]? = some q ∧ q.state.terminal = false := by
  obtain ⟨inside, ready, -⟩ := List.findIdx?_eq_some_iff_getElem.1 first
  refine ⟨queue[position], List.getElem?_eq_getElem inside, ?_⟩
  generalize queue[position] = q at ready
  unfold deliverable at ready
  cases phase : q.state <;> simp_all [State.terminal]

theorem send_follows (first : Store.nextPosition queue skipNotNow now = some position) :
    List.Forall₂ Follows queue (queue.modify position (send now)) := by
  obtain ⟨ready, there, waiting⟩ := nextPosition_some first
  refine forall₂_modify Follows.refl queue position fun q here => ?_
  obtain rfl : q = ready := Option.some.inj (here.symm.trans there)
  exact ⟨rfl, rfl, rfl, fun done => by simp [waiting] at done⟩

variable {q : QueuedCommand}

theorem Follows.carries {q' : QueuedCommand} (follows : Follows q q') {key : String}
    (now : Inmem.carries key q' = true) : Inmem.carries key q = true := by
  simp only [Inmem.carries, Bool.and_eq_true, decide_eq_true_eq, Bool.not_eq_true'] at now ⊢
  refine ⟨follows.dedupeKey ▸ now.1, ?_⟩
  by_contra done
  have same := follows.terminal (by simpa using done)
  exact done (same ▸ now.2)

theorem Unique.follows (before : Unique queue)
    (related : List.Forall₂ Follows queue queue') : Unique queue' := by
  intro key named
  refine le_trans ?_ (before key named)
  induction related with
  | nil => simp
  | @cons q q' rest rest' head _ ih =>
    have fewer := ih fun key named => (List.countP_cons ▸ before key named).trans' (by simp)
    simp only [List.countP_cons]
    by_cases now : carries key q' = true
    · simp [now, head.carries now, fewer]
    · rw [if_neg now]
      omega

namespace Turn

variable {queue queue' : List QueuedCommand} {sent : Option Nat}

theorem continues (turn : Turn queue sent queue') : Continues queue queue' := by
  cases turn with
  | settle unmoved => exact .of_forall₂ (unmoved.imp fun _ _ settled => settled.toFollows)
  | deliver first => exact .of_forall₂ (send_follows first)
  | extend =>
    intro position q here
    have inside := (List.getElem?_eq_some_iff.1 here).1
    exact ⟨q, by rw [List.getElem?_append_left inside, here], Follows.refl q⟩

theorem unique (turn : Turn queue sent queue') (before : Unique queue) : Unique queue' := by
  cases turn with
  | settle unmoved => exact before.follows (unmoved.imp fun _ _ settled => settled.toFollows)
  | deliver first => exact before.follows (send_follows first)
  | extend fresh => exact fresh.unique before

theorem attempts (turn : Turn queue sent queue') (position : Nat) :
    attemptsAt queue' position =
      attemptsAt queue position + if sent = some position then 1 else 0 := by
  unfold attemptsAt
  cases turn with
  | settle unmoved =>
    have related := forall₂_getElem? unmoved position
    generalize queue[position]? = found, queue'[position]? = found' at related
    cases related with
    | none => simp
    | some settled => simp [settled.attempts]
  | @deliver sent _ now first =>
    obtain ⟨ready, there, -⟩ := nextPosition_some first
    rw [List.getElem?_modify]
    by_cases same : sent = position
    · subst same
      simp [there, send]
    · cases queue[position]? <;> simp [same]
  | @extend added fresh =>
    by_cases inside : position < queue.length
    · simp [List.getElem?_append_left inside]
    · have absent : queue[position]? = none := by simpa using inside
      rw [List.getElem?_append_right (by omega), absent]
      cases found : added[position - queue.length]? with
      | none => simp
      | some q => simpa using fresh.attempts q (List.mem_of_getElem? found)

end Turn

theorem Added.nil (queue : List QueuedCommand) : Added queue [] := ⟨by simp, by simp⟩

theorem Added.one (attempts : q.attempts = 0)
    (free : q.dedupeKey ≠ "" → hasPendingKey queue q.dedupeKey = false) : Added queue [q] := by
  refine ⟨by simpa using attempts, fun before key named => ?_⟩
  simp only [List.countP_append, List.countP_singleton]
  split
  · next taken =>
    simp only [carries, Bool.and_eq_true, decide_eq_true_eq] at taken
    obtain rfl := taken.1
    have none_pending : queue.countP (carries q.dedupeKey) = 0 := by
      simpa [List.countP_eq_zero, carries, hasPendingKey] using free named
    omega
  · simpa using before key named

theorem Added.append {first second : List QueuedCommand} (added : Added queue first)
    (more : Added (queue ++ first) second) : Added queue (first ++ second) := by
  refine ⟨?_, fun before => ?_⟩
  · intro q member
    exact (List.mem_append.1 member).elim (added.attempts q) (more.attempts q)
  · rw [← List.append_assoc]
    exact more.unique (added.unique before)

namespace Store

variable {s s' : Store} {id : EnrollmentID}

theorem get_apart {other : EnrollmentID} {r r' : Record} (found : s.get id = .ok r)
    (found' : s.get other = .ok r') (different : id ≠ other) : id.id ≠ other.id := by
  intro same
  obtain ⟨-, row, owner⟩ := get_ok.1 found
  obtain ⟨-, row', owner'⟩ := get_ok.1 found'
  rw [same, row'] at row
  cases row
  exact different (owner.symm.trans owner')

theorem enqueueOne_other (cmd : Command) (o : EnqueueOptions) (now : Time)
    (state : Store × EnqueueResult) {target : EnrollmentID} {r : Record}
    (found : state.1.get id = .ok r) (different : id ≠ target) :
    (enqueueOne cmd o now state target).1.queueAt id.id = state.1.queueAt id.id ∧
      (enqueueOne cmd o now state target).2.queued.count id = state.2.queued.count id := by
  unfold enqueueOne
  split
  · exact ⟨rfl, rfl⟩
  next own accepted =>
  have there := (activeRecord_ok.1 (enqueueTarget_ok.1 accepted).1).1
  constructor
  · rw [queueAt_put, (get_ok.1 there).2.2,
      Function.update_of_ne (get_apart found there different)]
  · simp [EnqueueResult.queue, Ne.symm different]

theorem enqueueOne_added (cmd : Command) (o : EnqueueOptions) (now : Time)
    (state : Store × EnqueueResult) (id : EnrollmentID) (key : String) :
    ∃ added, (enqueueOne cmd o now state id).1.queueAt key = state.1.queueAt key ++ added ∧
      Added (state.1.queueAt key) added := by
  unfold enqueueOne
  split
  · exact ⟨[], by simp, Added.nil _⟩
  next r accepted =>
  obtain ⟨active, free⟩ := enqueueTarget_ok.1 accepted
  have found := (activeRecord_ok.1 active).1
  dsimp only
  rw [queueAt_put]
  dsimp only
  rw [(get_ok.1 found).2.2]
  by_cases same : key = id.id
  · subst same
    rw [Function.update_self, get_queueAt found]
    exact ⟨_, rfl, Added.one rfl free⟩
  · rw [Function.update_of_ne same]
    exact ⟨[], by simp, Added.nil _⟩

theorem enqueue_turn {ids : List EnrollmentID} {cmd : Option Command} {o : EnqueueOptions}
    {clock : Time} {result : EnqueueResult}
    (accepted : s.enqueue ids cmd o clock = .ok (s', result)) (key : String) :
    Turn (s.queueAt key) none (s'.queueAt key) := by
  have extended : ∃ added, s'.queueAt key = s.queueAt key ++ added ∧
      Added (s.queueAt key) added := by
    refine enqueue_invariant (fun mid => ∃ added,
      mid.queueAt key = s.queueAt key ++ added ∧ Added (s.queueAt key) added) ?_ ?_ accepted
    · rintro cmd o now state id ⟨added, same, fresh⟩
      obtain ⟨more, grown, fresh'⟩ := enqueueOne_added cmd o now state id key
      rw [same] at grown fresh'
      exact ⟨added ++ more, by rw [grown, List.append_assoc], fresh.append fresh'⟩
    · exact ⟨[], by simp, Added.nil _⟩
  obtain ⟨added, grown, fresh⟩ := extended
  rw [grown]
  exact .extend fresh

def delivered (s : Store) (key : String) : Op → Option Nat
  | .next id skipNotNow now =>
    if id.id = key then
      match s.activeRecord id .disabled with
      | .ok r => nextPosition r.queue skipNotNow now
      | .error _ => none
    else none
  | _ => none

theorem next_turn {found : Option Command}
    (accepted : s.next id skipNotNow now = .ok (s', found)) (key : String) :
    Turn (s.queueAt key) (s.delivered key (.next id skipNotNow now)) (s'.queueAt key) := by
  obtain ⟨r, active, ⟨nothing, rfl, -⟩ | ⟨position, first, rfl, -⟩⟩ := next_ok accepted
  · simp only [delivered, active, nothing, ite_self]
    exact .settle (Unmoved.refl _)
  · have row := (activeRecord_ok.1 active).1
    rw [queueAt_put]
    dsimp only
    rw [(get_ok.1 row).2.2]
    by_cases same : key = id.id
    · subst same
      simp only [delivered, active, first, if_true, Function.update_self, get_queueAt row]
      exact .deliver first
    · simp only [delivered, if_neg (Ne.symm same), Function.update_of_ne same]
      exact .settle (Unmoved.refl _)

theorem delivered_some {key : String} {op : Op} (sent : s.delivered key op = some position) :
    ∃ id skipNotNow now r, op = .next id skipNotNow now ∧ id.id = key ∧
      s.activeRecord id .disabled = .ok r ∧ nextPosition r.queue skipNotNow now = some position := by
  unfold delivered at sent
  split at sent
  · next id skipNotNow now =>
    split at sent
    · next same =>
      split at sent
      · next r active => exact ⟨id, skipNotNow, now, r, rfl, same, active, sent⟩
      · cases sent
    · cases sent
  · cases sent

def returned (s : Store) (id : EnrollmentID) (skipNotNow : Bool) (now : Time) : Option Command :=
  match s.next id skipNotNow now with
  | .ok (_, found) => found
  | .error _ => none

theorem delivered_returned (s : Store) (id : EnrollmentID) (skipNotNow : Bool) (now : Time) :
    match s.delivered id.id (.next id skipNotNow now) with
    | some position =>
      ∃ q, (s.queueAt id.id)[position]? = some q ∧ s.returned id skipNotNow now = some q.command
    | none => s.returned id skipNotNow now = none := by
  simp only [returned, next, delivered, if_true]
  cases active : s.activeRecord id .disabled with
  | error error => rfl
  | ok r =>
    rw [get_queueAt (activeRecord_ok.1 active).1]
    dsimp only [bind, Except.bind]
    cases first : nextPosition r.queue skipNotNow now with
    | none => rfl
    | some position =>
      obtain ⟨q, there, -⟩ := nextPosition_some first
      exact ⟨q, there, by simp [there, pure, Except.pure]⟩

variable (decodeResponse : DecodeResponse)

theorem refused_delivered {op : Op} {error : StoreError}
    (refused : s.apply decodeResponse op = .error error) (key : String) :
    s.delivered key op = none := by
  cases sent : s.delivered key op with
  | none => rfl
  | some position =>
    obtain ⟨id, skipNotNow, now, r, rfl, -, active, first⟩ := delivered_some sent
    simp [apply, next, active, first, bind, Except.bind, pure, Except.pure, Functor.map,
      Except.map] at refused

theorem still_delivered {op : Op} (still : op.moves = false) (key : String) :
    s.delivered key op = none := by
  cases sent : s.delivered key op with
  | none => rfl
  | some position =>
    obtain ⟨id, skipNotNow, now, r, rfl, -, -, -⟩ := delivered_some sent
    cases still

theorem step_turn (s : Store) (op : Op) (key : String) :
    Turn (s.queueAt key) (s.delivered key op) ((s.step decodeResponse op).queueAt key) := by
  unfold step
  cases outcome : s.apply decodeResponse op with
  | error error =>
    rw [settle_error, refused_delivered decodeResponse outcome]
    exact .settle (Unmoved.refl _)
  | ok s' =>
    rw [settle_ok]
    by_cases still : op.moves = false
    · rw [still_delivered still]
      exact .settle (apply_quiet decodeResponse still outcome key)
    · cases op <;> try exact absurd rfl still
      all_goals
        simp only [apply, map_ok, Prod.exists, exists_and_right, exists_eq_right] at outcome
        obtain ⟨result, accepted⟩ := outcome
      · exact enqueue_turn accepted key
      · exact next_turn accepted key

theorem step_length (s : Store) {op : Op} (adds : op.adds = false) (key : String) :
    ((s.step decodeResponse op).queueAt key).length = (s.queueAt key).length := by
  unfold step
  refine settle_preserves (fun s' : Store => (s'.queueAt key).length = (s.queueAt key).length)
    rfl fun s' accepted => ?_
  by_cases still : op.moves = false
  · exact (apply_quiet decodeResponse still accepted key).length_eq.symm
  · cases op <;> try exact absurd rfl still
    · cases adds
    · simp only [apply, map_ok, Prod.exists, exists_and_right, exists_eq_right] at accepted
      obtain ⟨found, accepted⟩ := accepted
      obtain ⟨r, active, ⟨-, rfl, -⟩ | ⟨position, -, rfl, -⟩⟩ := next_ok accepted
      · rfl
      · have row := (activeRecord_ok.1 active).1
        rw [queueAt_put, Function.update_apply]
        split
        · next same => rw [same, (get_ok.1 row).2.2, get_queueAt row, List.length_modify]
        · rfl

end Store

structure Tracked (key : String) (past : List (Store × Op)) (queue : List QueuedCommand) :
    Prop where
  unique : Unique queue
  attempts : ∀ position,
    attemptsAt queue position = past.countP fun entry => entry.1.delivered key entry.2 = some position

theorem tracked_run (decodeResponse : DecodeResponse) (key : String) (ops : List Op) :
    Tracked key (history (Store.step decodeResponse) {} ops)
      ((run (Store.step decodeResponse) {} ops).queueAt key) := by
  refine history_invariant (fun past s => Tracked key past (s.queueAt key)) ?_ ?_ ops
  · intro past s op before
    have turn := s.step_turn decodeResponse op key
    refine ⟨turn.unique before.unique, fun position => ?_⟩
    simp [turn.attempts, before.attempts]
  · constructor <;> intro _ <;> simp [Store.queueAt, attemptsAt]

theorem queue_run (decodeResponse : DecodeResponse) (before after : List Op) (key : String) :
    let s := run (Store.step decodeResponse) {} before
    let later := run (Store.step decodeResponse) {} (before ++ after)
    Continues (s.queueAt key) (later.queueAt key) ∧
    (∀ op : Op, op.adds = false →
      ((s.step decodeResponse op).queueAt key).length = (s.queueAt key).length) ∧
    (∀ (position : Nat) (q : QueuedCommand), (s.queueAt key)[position]? = some q →
      q.attempts = (history (Store.step decodeResponse) {} before).countP fun entry =>
        entry.1.delivered key entry.2 = some position) ∧
    (∀ id skipNotNow now,
      match s.delivered id.id (.next id skipNotNow now) with
      | some position =>
        ∃ q, (s.queueAt id.id)[position]? = some q ∧ s.returned id skipNotNow now = some q.command
      | none => s.returned id skipNotNow now = none) ∧
    ∀ dedupeKey, dedupeKey ≠ "" → (s.queueAt key).countP (carries dedupeKey) ≤ 1 := by
  intro s later
  have tracked := tracked_run decodeResponse key before
  refine ⟨?_, fun op adds => s.step_length decodeResponse adds key, ?_, s.delivered_returned,
    tracked.unique⟩
  · dsimp only [later]
    rw [run_append]
    exact run_invariant (fun later : Store => Continues (s.queueAt key) (later.queueAt key))
      (fun mid op before => before.trans (mid.step_turn decodeResponse op key).continues)
      (Continues.refl _) after
  · intro position q here
    rw [← tracked.attempts position]
    simp only [attemptsAt]
    rw [show ((run (Store.step decodeResponse) {} before).queueAt key)[position]? = some q from here]
    rfl

end AppleDM.Inmem
