import AppleDM.Sql.QueueMirror

set_option autoImplicit false

namespace AppleDM.Sql

open Mdm Storage Checked Run Rows Related CommandRow
open Inmem (hasPendingKey)

variable {s : Inmem.Store} {t : Store} {id : EnrollmentID}

structure Split where
  queued : List EnrollmentID
  skipped : List EnrollmentID
  deriving DecidableEq

def Split.of (result : EnqueueResult) : Split := ⟨result.queued, result.skipped.map (·.1)⟩

variable {first second : EnqueueResult} {cmd : Command} {o : EnqueueOptions}

theorem Split.of_skip (same : Split.of first = Split.of second)
    (id : EnrollmentID) (error error' : StoreError) :
    Split.of (first.skip id error) = Split.of (second.skip id error') := by
  simp only [Split.of, Split.mk.injEq, EnqueueResult.skip, List.map_append, List.map_cons,
    List.map_nil] at same ⊢
  have filtered (result : EnqueueResult) :
      (result.skipped.filter (·.1 ≠ id)).map (·.1) = (result.skipped.map (·.1)).filter (· ≠ id) := by
    rw [List.filter_map]
    rfl
  exact ⟨same.1, by rw [filtered, filtered, same.2]⟩

theorem Split.of_queue (same : Split.of first = Split.of second)
    (id : EnrollmentID) : Split.of (first.queue id) = Split.of (second.queue id) := by
  simp only [Split.of, Split.mk.injEq, EnqueueResult.queue] at same ⊢
  exact ⟨by rw [same.1], same.2⟩

def sentBefore (queue : List QueuedCommand) (uuid : String) : Bool :=
  queue.any fun q => q.command.uuid = uuid

def Fits (cmd : Command) (o : EnqueueOptions) (ids : List EnrollmentID) (id : EnrollmentID)
    (queue : List QueuedCommand) : Prop :=
  (o.dedupeKey ≠ "" ∧ hasPendingKey queue o.dedupeKey = true) ∨
    (sentBefore queue cmd.uuid = false ∧ (o.dedupeKey ≠ "" ∨ ids.count id = 1))

def AllFit (s : Inmem.Store) (cmd : Command) (o : EnqueueOptions) (ids : List EnrollmentID) : Prop :=
  ∀ id ∈ ids, (∃ r, s.activeRecord id (.disabled id.id) = .ok r) →
    Fits cmd o ids id (s.queueAt id.id)

theorem Mirrors.queuedUUID (mirrors : Mirrors s t) (uuid : String) :
    t.commands.any (queuedUUID id uuid) = sentBefore (s.queueAt id.id) uuid := by
  have rows : t.commands.any (CommandRow.queuedUUID id uuid) =
      (t.rowsOf id.id).any fun row => row.commandUUID = uuid := by
    rw [Bool.eq_iff_iff]
    simp [Store.rowsOf, CommandRow.queuedUUID]
  rw [rows]
  refine (forall₂_any (fun q row related => ?_) (mirrors.queues id.id)).symm
  rw [← related.command, CommandRow.command]

theorem Mirrors.pendingKey (mirrors : Mirrors s t) (key : String) :
    t.commands.any (pendingKey id key) = hasPendingKey (s.queueAt id.id) key := by
  have rows : t.commands.any (CommandRow.pendingKey id key) =
      (t.rowsOf id.id).any fun row => row.dedupeKey = key && !row.state.terminal := by
    rw [Bool.eq_iff_iff]
    simp [Store.rowsOf, CommandRow.pendingKey, and_assoc]
  rw [rows]
  refine (forall₂_any (fun q row related => ?_) (mirrors.queues id.id)).symm
  rw [related.dedupeKey, related.state]

theorem Mirrors.insert (mirrors : Mirrors s t) {r : Inmem.Record} (found : s.get id = .ok r) (new : sentBefore (s.queueAt id.id) cmd.uuid = false) (o : EnqueueOptions)
    (now : Time) :
    Mirrors (s.put { r with
      queue := r.queue ++
        [{ command := cmd, state := .pending, dedupeKey := o.dedupeKey, enqueuedAt := now }] })
      (t.insertCommand id cmd o now) := by
  rw [← Inmem.Store.get_queueAt found]
  have queues : (s.put { r with
      queue := s.queueAt id.id ++
        [{ command := cmd, state := .pending, dedupeKey := o.dedupeKey,
           enqueuedAt := now }] }).queueAt = _ := queueAt_put_get found rfl
  refine ⟨fun key => ?_, fun key => ?_, ?_, ?_, fun key => ?_⟩
  · rw [enrollment_put_same found]
    · exact mirrors.enrollments key
    · rfl
  · rw [queues]
    by_cases same : key = id.id
    · subst same
      simp only [Function.update_self, Store.rowsOf, Store.insertCommand, List.filter_append]
      refine List.rel_append (mirrors.queues id.id) ?_
      simp only [decide_true, List.filter_cons, if_true, List.filter_nil]
      exact .cons ⟨rfl, rfl, rfl, rfl, rfl, by simp⟩ .nil
    · rw [Function.update_of_ne same]
      simpa [Store.rowsOf, Store.insertCommand, Ne.symm same] using mirrors.queues key
  · refine List.pairwise_append.2 ⟨mirrors.increasing, List.pairwise_singleton _ _, ?_⟩
    intro row member added last
    rw [List.mem_singleton.1 last]
    exact Nat.lt_succ_of_le (mirrors.bounded row member)
  · intro row member
    simp only [Store.insertCommand, List.mem_append, List.mem_singleton] at member ⊢
    rcases member with before | rfl
    · exact Nat.le_succ_of_le (mirrors.bounded row before)
    · exact Nat.le_refl _
  · rw [queues]
    by_cases same : key = id.id
    · subst same
      rw [Function.update_self, List.map_append, List.nodup_append]
      refine ⟨mirrors.distinct id.id, by simp, ?_⟩
      intro uuid before added last
      simp only [List.map_cons, List.map_nil, List.mem_singleton] at last
      obtain ⟨q, member, rfl⟩ := List.mem_map.1 before
      simp only [sentBefore, List.any_eq_false, decide_eq_true_eq] at new
      exact last ▸ new q member
    · rw [Function.update_of_ne same]
      exact mirrors.distinct key

variable {ids : List EnrollmentID}

theorem Mirrors.enqueueOne (mirrors : Mirrors s t) (now : Time)
    (same : Split.of first = Split.of second)
    (fits : (∃ r, s.activeRecord id (.disabled id.id) = .ok r) →
      Fits cmd o ids id (s.queueAt id.id)) :
    ∃ t' second', Store.enqueueOne cmd o now (t, second) id = .ok (t', second') ∧
      Mirrors (Inmem.Store.enqueueOne cmd o now (s, first) id).1 t' ∧
      Split.of (Inmem.Store.enqueueOne cmd o now (s, first) id).2 = Split.of second' := by
  unfold Inmem.Store.enqueueOne Inmem.Store.enqueueTarget Store.enqueueOne
  rcases mirrors.gate id (.disabled id.id) with
    ⟨r, active, valid, usable⟩ | ⟨refusal, error, inactive, invalid | ⟨valid, unusable⟩⟩
  · have found := (Inmem.Store.activeRecord_ok.1 active).1
    simp only [active, valid, usable, bind, Except.bind, Store.queueConflict, mirrors.queuedUUID,
      mirrors.pendingKey, ← Inmem.Store.get_queueAt found, reject]
    by_cases pending : o.dedupeKey ≠ "" ∧ hasPendingKey (s.queueAt id.id) o.dedupeKey = true
    · simp only [pending, and_self, ne_eq, not_false_eq_true, if_true]
      split
      · next error _ => exact ⟨_, _, rfl, mirrors, Split.of_skip same id _ _⟩
      · next clear => split at clear <;> cases clear
    · obtain ⟨new, -⟩ := (fits ⟨r, active⟩).resolve_left pending
      simp only [pending, new, Bool.false_eq_true, if_false, pure, Except.pure]
      exact ⟨_, _, rfl, mirrors.insert found new o now, Split.of_queue same id⟩
  · simp only [inactive, invalid, bind, Except.bind]
    exact ⟨_, _, rfl, mirrors, Split.of_skip same id _ _⟩
  · have skipped := Store.usable_error ((Store.validID_ok id ()).1 valid) unusable
    simp only [inactive, valid, unusable, skipped, if_true, bind, Except.bind]
    exact ⟨_, _, rfl, mirrors, Split.of_skip same id _ _⟩

variable {head : EnrollmentID}

theorem Fits.rest {rest : List EnrollmentID} {queue : List QueuedCommand}
    (fits : Fits cmd o (head :: rest) id queue) (member : id ∈ rest) :
    Fits cmd o rest id queue := by
  refine fits.imp_right fun ⟨new, once⟩ => ⟨new, once.imp_right fun once => ?_⟩
  have occurs : 0 < rest.count id := List.count_pos_iff.2 member
  rw [List.count_cons] at once
  split at once <;> omega

variable {result : EnqueueResult}

theorem AllFit.step {now : Time} {rest : List EnrollmentID} (fit : AllFit s cmd o (head :: rest)) :
    AllFit (Inmem.Store.enqueueOne cmd o now (s, result) head).1 cmd o rest := by
  rintro id member ⟨r, active⟩
  have before : ∃ r, s.activeRecord id (.disabled id.id) = .ok r :=
    Inmem.Store.activeRecord_of_lifecycle
      (Inmem.Store.enqueueOne_lifecycle cmd o now (s, result) head).symm active
  have fits := fit id (List.mem_cons_of_mem head member) before
  unfold Inmem.Store.enqueueOne
  split
  · exact fits.rest member
  next target accepted =>
  obtain ⟨targeted, free⟩ := Inmem.Store.enqueueTarget_ok.1 accepted
  have found := (Inmem.Store.activeRecord_ok.1 targeted).1
  dsimp only at found ⊢
  rw [queueAt_put_get found ?identity]
  case identity => rfl
  by_cases same : id = head
  · subst same
    rw [Function.update_self]
    -- The target comes up again, so that only a dedupe key can stop it there.
    have guarded : o.dedupeKey ≠ "" := by
      rcases fits with ⟨named, -⟩ | ⟨-, named | once⟩
      · exact named
      · exact named
      · have occurs : 0 < rest.count id := List.count_pos_iff.2 member
        rw [List.count_cons_self] at once
        omega
    exact .inl ⟨guarded, by simp [hasPendingKey, State.terminal]⟩
  · obtain ⟨r, active⟩ := before
    have there := (Inmem.Store.activeRecord_ok.1 active).1
    rw [Function.update_of_ne (Inmem.Store.get_apart there found same)]
    exact fits.rest member

theorem Mirrors.enqueueAll (mirrors : Mirrors s t) (now : Time)
    (same : Split.of first = Split.of second) (fit : AllFit s cmd o ids) :
    ∃ t' second', ids.foldlM (Store.enqueueOne cmd o now) (t, second) = .ok (t', second') ∧
      Mirrors (run (Inmem.Store.enqueueOne cmd o now) (s, first) ids).1 t' ∧
      Split.of (run (Inmem.Store.enqueueOne cmd o now) (s, first) ids).2 = Split.of second' := by
  induction ids generalizing s t first second with
  | nil => exact ⟨t, second, rfl, mirrors, same⟩
  | cons head rest ih =>
    obtain ⟨t', second', accepted, mirrors', same'⟩ :=
      mirrors.enqueueOne now same (fit head (List.mem_cons_self ..))
    obtain ⟨t'', second'', later, mirrors'', same''⟩ := ih mirrors' same' fit.step
    exact ⟨t'', second'', by simp [List.foldlM_cons, accepted, later, bind, Except.bind],
      mirrors'', same''⟩

section Converse

variable {cmd : Command} {o : EnqueueOptions} {now : Time}

theorem inmem_queued_mono (cmd : Command) (o : EnqueueOptions) (now : Time) (id : EnrollmentID)
    (state : Inmem.Store × EnqueueResult) (ids : List EnrollmentID) :
    state.2.queued.count id ≤
      (run (Inmem.Store.enqueueOne cmd o now) state ids).2.queued.count id := by
  refine run_invariant (fun after : Inmem.Store × EnqueueResult => state.2.queued.count id ≤ after.2.queued.count id) ?_
    (le_refl _) ids
  intro after target before
  refine before.trans ?_
  unfold Inmem.Store.enqueueOne
  split
  · exact le_refl _
  · simp [EnqueueResult.queue, List.count_append]

theorem inmem_queued (cmd : Command) (now : Time) (state : Inmem.Store × EnqueueResult)
    (active : ∃ r, state.1.activeRecord id (.disabled id.id) = .ok r)
    (free : o.dedupeKey ≠ "" → hasPendingKey (state.1.queueAt id.id) o.dedupeKey = false)
    (ids : List EnrollmentID) :
    (if o.dedupeKey = "" then ids.count id else min 1 (ids.count id)) + state.2.queued.count id ≤
      (run (Inmem.Store.enqueueOne cmd o now) state ids).2.queued.count id := by
  induction ids generalizing state with
  | nil => simp
  | cons head rest ih =>
    have active' : ∃ r, (Inmem.Store.enqueueOne cmd o now state head).1.activeRecord id
        (.disabled id.id) = .ok r := by
      obtain ⟨r, active⟩ := active
      exact Inmem.Store.activeRecord_of_lifecycle
        (Inmem.Store.enqueueOne_lifecycle cmd o now state head) active
    rw [run_cons]
    by_cases same : head = id
    · subst same
      have counted : (Inmem.Store.enqueueOne cmd o now state head).2.queued.count head =
          state.2.queued.count head + 1 := by
        obtain ⟨r, active⟩ := active
        have target : state.1.enqueueTarget o head = .ok r := Inmem.Store.enqueueTarget_ok.2
          ⟨active, Inmem.Store.get_queueAt (Inmem.Store.activeRecord_ok.1 active).1 ▸ free⟩
        simp [Inmem.Store.enqueueOne, target, EnqueueResult.queue]
      by_cases unnamed : o.dedupeKey = ""
      · have later := ih _ active' (fun named => absurd unnamed named)
        simp only [unnamed, if_true, List.count_cons_self] at later ⊢
        omega
      · have later := inmem_queued_mono cmd o now head
          (Inmem.Store.enqueueOne cmd o now state head) rest
        simp only [unnamed, if_false, List.count_cons_self]
        omega
    · obtain ⟨r, found⟩ := active
      obtain ⟨queue, counted⟩ := Inmem.Store.enqueueOne_other cmd o now state
        (Inmem.Store.activeRecord_ok.1 found).1 (Ne.symm same)
      have later := ih _ active' (queue ▸ free)
      rwa [counted, ← List.count_cons_of_ne same] at later

theorem Store.enqueueOne_ok {t' : Store} {result' : EnqueueResult}
    (accepted : Store.enqueueOne cmd o now (t, result) id = .ok (t', result')) :
    (t' = t ∧ ∃ error, result' = result.skip id error) ∨
      t.queueConflict cmd o id = none ∧ t' = t.insertCommand id cmd o now ∧
        result' = result.queue id := by
  unfold Store.enqueueOne at accepted
  split at accepted
  · simp only [Except.ok.injEq, Prod.mk.injEq] at accepted
    exact .inl ⟨accepted.1.symm, _, accepted.2.symm⟩
  split at accepted
  · split at accepted
    · simp only [Except.ok.injEq, Prod.mk.injEq] at accepted
      exact .inl ⟨accepted.1.symm, _, accepted.2.symm⟩
    · cases accepted
  split at accepted
  · simp only [Except.ok.injEq, Prod.mk.injEq] at accepted
    exact .inl ⟨accepted.1.symm, _, accepted.2.symm⟩
  · next conflict =>
    simp only [Except.ok.injEq, Prod.mk.injEq] at accepted
    exact .inr ⟨conflict, accepted.1.symm, accepted.2.symm⟩

theorem sql_queued (id : EnrollmentID) {t' : Store} {first second : EnqueueResult}
    (accepted : ids.foldlM (Store.enqueueOne cmd o now) (t, first) = .ok (t', second)) :
    second.queued.count id ≤
      first.queued.count id + if t.commands.any (queuedUUID id cmd.uuid) then 0 else 1 := by
  induction ids generalizing t first with
  | nil =>
    simp only [List.foldlM_nil, pure_ok, Prod.mk.injEq] at accepted
    simp [accepted.2]
  | cons head rest ih =>
    simp only [List.foldlM_cons, bind_ok, Prod.exists] at accepted
    obtain ⟨mid, middle, one, later⟩ := accepted
    have bound := ih later
    rcases Store.enqueueOne_ok one with ⟨rfl, error, rfl⟩ | ⟨conflict, rfl, rfl⟩
    · exact bound
    · have used : t.commands.any (queuedUUID head cmd.uuid) = false := by
        unfold Store.queueConflict at conflict
        split at conflict
        · cases conflict
        · next unused => simpa using unused
      by_cases same : head = id
      · subst same
        simpa [EnqueueResult.queue, Store.insertCommand, used, queuedUUID] using bound
      · refine bound.trans ?_
        have unnamed : [head].count id = 0 := by simp [same]
        simp only [EnqueueResult.queue, List.count_append, unnamed, Nat.add_zero,
          Store.insertCommand, List.any_append]
        cases t.commands.any (queuedUUID id cmd.uuid) <;> simp
        split <;> omega

theorem Mirrors.split_iff (mirrors : Mirrors s t) (now : Time) (ids : List EnrollmentID) :
    (∃ t' second, ids.foldlM (Store.enqueueOne cmd o now) (t, {}) = .ok (t', second) ∧
      Split.of (run (Inmem.Store.enqueueOne cmd o now) (s, {}) ids).2 = Split.of second) ↔
      AllFit s cmd o ids := by
  constructor
  · rintro ⟨t', second, accepted, same⟩ id member active
    by_cases stopped : o.dedupeKey ≠ "" ∧ hasPendingKey (s.queueAt id.id) o.dedupeKey = true
    · exact .inl stopped
    · have free : o.dedupeKey ≠ "" → hasPendingKey (s.queueAt id.id) o.dedupeKey = false := by
        simpa using stopped
      have lower := inmem_queued cmd now (s, {}) active free ids
      have upper := sql_queued id accepted
      have queued := congrArg (fun split => split.queued.count id) same
      have occurs : 0 < ids.count id := List.count_pos_iff.2 member
      simp only [Split.of] at queued
      rw [mirrors.queuedUUID, ← queued] at upper
      have bound := lower.trans upper
      simp only [List.count_nil, Nat.add_zero, Nat.zero_add] at bound
      cases used : sentBefore (s.queueAt id.id) cmd.uuid with
      | true =>
        simp only [used, if_true] at bound
        split at bound <;> omega
      | false =>
        refine .inr ⟨used, ?_⟩
        by_cases unnamed : o.dedupeKey = ""
        · simp only [used, unnamed, if_true, Bool.false_eq_true, if_false] at bound
          exact .inr (by omega)
        · exact .inl unnamed
  · intro fit
    obtain ⟨t', second, accepted, -, same⟩ := mirrors.enqueueAll now rfl fit
    exact ⟨t', second, accepted, same⟩

end Converse

inductive QueueOp where
  | enqueue (ids : List EnrollmentID) (cmd : Option Command) (o : EnqueueOptions) (clock : Time)
  | next (id : EnrollmentID) (skipNotNow : Bool) (now : Time)
  | storeResult (id : EnrollmentID) (resp : Option Response) (now : Time)
  | clear (id : EnrollmentID) (f : ClearFilter) (now : Time)
  | clearCommand (id : EnrollmentID) (uuid : String) (now : Time)

inductive Reply where
  | refused
  | split (targets : Split)
  | delivered (command : Option Command)
  | stored
  | cleared (commands : Nat)
  deriving DecidableEq

def replying {State A : Type} (reply : A → Reply) (state : State)
    (outcome : Except StoreError (State × A)) : State × Reply :=
  match outcome with
  | .ok (next, result) => (next, reply result)
  | .error _ => (state, .refused)

variable (decodeResponse : DecodeResponse)

def inmemQueue (s : Inmem.Store) : QueueOp → Inmem.Store × Reply
  | .enqueue ids cmd o clock => replying (.split ∘ Split.of) s (s.enqueue ids cmd o clock)
  | .next id skipNotNow now => replying .delivered s (s.next id skipNotNow now)
  | .storeResult id resp now =>
    replying (fun () => .stored) s ((·, ()) <$> s.storeResult decodeResponse id resp now)
  | .clear id f now => replying .cleared s (s.clear id f now)
  | .clearCommand id uuid now => replying .cleared s (s.clearCommand id uuid now)

def sqlQueue (t : Store) : QueueOp → Store × Reply
  | .enqueue ids cmd o clock => replying (.split ∘ Split.of) t (t.enqueue ids cmd o clock)
  | .next id skipNotNow now => replying .delivered t (t.next id skipNotNow now)
  | .storeResult id resp now =>
    replying (fun () => .stored) t ((·, ()) <$> t.storeResult decodeResponse id resp now)
  | .clear id f now => replying .cleared t (t.clear id f now)
  | .clearCommand id uuid now => replying .cleared t (t.clearCommand id uuid now)

def bothStep (both : Inmem.Store × Store) (op : QueueOp) : Inmem.Store × Store :=
  ((inmemQueue decodeResponse both.1 op).1, (sqlQueue decodeResponse both.2 op).1)

def RepliesAgree (both : Inmem.Store × Store) (op : QueueOp) : Prop :=
  (inmemQueue decodeResponse both.1 op).2 = (sqlQueue decodeResponse both.2 op).2

def QueueOp.timed : QueueOp → Prop
  | .storeResult _ _ now => 0 ≤ now
  | _ => True

def NewUUIDs (s : Inmem.Store) : QueueOp → Prop
  | .enqueue ids (some cmd) o _ => cmd.uuid ≠ "" → cmd.requestType ≠ "" → AllFit s cmd o ids
  | _ => True

theorem Mirrors.enqueue (mirrors : Mirrors s t) (ids : List EnrollmentID) (cmd : Option Command)
    (o : EnqueueOptions) (clock : Time) :
    (RepliesAgree decodeResponse (s, t) (.enqueue ids cmd o clock) ↔
      NewUUIDs s (.enqueue ids cmd o clock)) ∧
    (NewUUIDs s (.enqueue ids cmd o clock) →
      Mirrors (bothStep decodeResponse (s, t) (.enqueue ids cmd o clock)).1
        (bothStep decodeResponse (s, t) (.enqueue ids cmd o clock)).2) := by
  unfold RepliesAgree bothStep inmemQueue sqlQueue Inmem.Store.enqueue Store.enqueue NewUUIDs
  cases cmd with
  | none => exact ⟨iff_of_true rfl trivial, fun _ => mirrors⟩
  | some cmd =>
  dsimp only
  by_cases unnamed : cmd.uuid = "" ∨ cmd.requestType = ""
  · simp only [unnamed, if_true, replying]
    exact ⟨iff_of_true trivial fun uuid requestType => absurd unnamed (by simp [uuid, requestType]),
      fun _ => mirrors⟩
  obtain ⟨uuid, requestType⟩ := not_or.1 unnamed
  simp only [ne_eq, uuid, requestType, not_false_eq_true, true_imp_iff, or_self, if_false]
  generalize (if o.now = 0 then clock else o.now) = now
  refine ⟨Iff.trans ?_ (mirrors.split_iff now ids), fun fit => ?_⟩
  · cases outcome : ids.foldlM (Store.enqueueOne cmd o now) (t, {}) with
    | error error => simp [replying]
    | ok after =>
      obtain ⟨t', second⟩ := after
      simp [replying]
  · obtain ⟨t', second, accepted, mirrors', -⟩ := mirrors.enqueueAll now rfl fit
    rw [accepted]
    exact mirrors'

theorem Mirrors.clearCommand (mirrors : Mirrors s t) (id : EnrollmentID) (uuid : String)
    (now : Time) : Matched (s.clearCommand id uuid now) (t.clearCommand id uuid now) := by
  unfold Inmem.Store.clearCommand Store.clearCommand
  by_cases unnamed : uuid = ""
  · simp only [reject, unnamed, if_true, bind, Except.bind]
    exact .error _ _
  · simp only [reject, unnamed, if_false, bind, Except.bind]
    exact mirrors.clear id _ now

theorem Mirrors.step (mirrors : Mirrors s t) {op : QueueOp} (timed : op.timed) :
    (RepliesAgree decodeResponse (s, t) op ↔ NewUUIDs s op) ∧
    (NewUUIDs s op → Mirrors (bothStep decodeResponse (s, t) op).1
      (bothStep decodeResponse (s, t) op).2) := by
  have always {A : Type} {reply : A → Reply} {first : Except StoreError (Inmem.Store × A)}
      {second : Except StoreError (Store × A)} (matched : Matched first second) :
      ((replying reply s first).2 = (replying reply t second).2 ↔ True) ∧
        (True → Mirrors (replying reply s first).1 (replying reply t second).1) := by
    cases matched with
    | ok mirrors' result => exact ⟨iff_of_true rfl trivial, fun _ => mirrors'⟩
    | error => exact ⟨iff_of_true rfl trivial, fun _ => mirrors⟩
  cases op with
  | enqueue ids cmd o clock => exact mirrors.enqueue decodeResponse ids cmd o clock
  | next id skipNotNow now => exact always (mirrors.next id skipNotNow now)
  | storeResult id resp now => exact always (mirrors.storeResult decodeResponse id resp timed)
  | clear id f now => exact always (mirrors.clear id f now)
  | clearCommand id uuid now => exact always (mirrors.clearCommand id uuid now)

def UniqueUUIDs (both : Inmem.Store × Store) : Prop :=
  ∀ key, ((both.1.queueAt key).map (·.command.uuid)).Nodup ∧
    ((both.2.rowsOf key).map (·.commandUUID)).Nodup

theorem Mirrors.uniqueUUIDs (mirrors : Mirrors s t) : UniqueUUIDs (s, t) := by
  intro key
  have same : (t.rowsOf key).map (·.commandUUID) = (s.queueAt key).map (·.command.uuid) := by
    have related := mirrors.queues key
    generalize s.queueAt key = queue, t.rowsOf key = rows at related
    induction related with
    | nil => rfl
    | cons head _ ih => simp [ih, ← head.command, CommandRow.command]
  exact ⟨mirrors.distinct key, same ▸ mirrors.distinct key⟩

def queueDevice : EnrollmentID := ⟨.device, "D", ""⟩

def queueDeviceRow : Enrollment := { id := queueDevice, enabled := true }

def queueInmem : Inmem.Store :=
  { enrollments := (∅ : Table String Inmem.Record).insert "D" { enrollment := queueDeviceRow } }

def queueSql : Store :=
  { enrollments := (∅ : Table String EnrollmentRow).insert "D" { enrollment := queueDeviceRow } }

theorem queueSample_mirrors : Mirrors queueInmem queueSql := by
  have empty (key : String) : queueInmem.queueAt key = [] := by
    by_cases same : key = "D"
    · simp [Inmem.Store.queueAt, queueInmem, same]
    · simp [Inmem.Store.queueAt, queueInmem, Ne.symm same]
  refine ⟨fun key => ?_, fun key => ?_, .nil, by simp [queueSql], fun key => ?_⟩
  · by_cases same : key = "D"
    · simp [queueInmem, queueSql, same]
    · simp [queueInmem, queueSql, Ne.symm same]
  · rw [empty]
    exact .nil
  · simp [empty]

def queueCommand : QueueOp := .enqueue [queueDevice] (some ⟨"U", "DeviceLock", []⟩) {} 1

end AppleDM.Sql
