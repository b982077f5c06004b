import AppleDM.Inmem.QueueRun

set_option autoImplicit false

namespace AppleDM.Inmem

open Mdm Storage Checked Run

def Op.imports : Op → Bool
  | .importRecord .. => true
  | _ => false

namespace Store

variable {s s' : Store} {id : EnrollmentID} {r : Record}

inductive Releases (s : Store) (id : EnrollmentID) : Op → Prop where
  | restart {op : Op} (start : Restarts s id op) : Releases s id op
  | untimed {d : EnrollmentID} (own : d = id ∨ d.channel.isUser = false ∧ d.id = id.parentID) :
      Releases s id (.disable d 0)
  | captured {d : EnrollmentID} {change : ReplacementChange} (other : d ≠ id)
      (capture : Captured s id d change) : Releases s id (.transitionReplacement d change)

def Consistent (s : Store) : Prop :=
  ∀ key life, s.lifecycle key = some life → life.disabledAt ≠ 0 → life.enabled = false

def CheckedOut (s : Store) (id : EnrollmentID) : Prop :=
  id.Valid ∧ ∃ atTime, atTime ≠ 0 ∧ s.lifecycle id.id = some ⟨id, false, atTime⟩

theorem step_consistent (decodeResponse : DecodeResponse) {op : Op} (native : op.imports = false)
    (consistent : s.Consistent) : (s.step decodeResponse op).Consistent := by
  refine settle_preserves Consistent consistent fun s' accepted key life row closed => ?_
  have moved := apply_moves decodeResponse accepted key
  rw [row] at moved
  generalize before : s.lifecycle key = found at moved
  cases moved with
  | kept => exact consistent key life before closed
  | created _ open_ => exact absurd open_ closed
  | restarted => rfl
  | disabled => rfl
  | enabled | captured => exact absurd rfl closed
  | imported => cases native

theorem step_checkedOut (decodeResponse : DecodeResponse) {op : Op} (native : op.imports = false)
    (held : ¬ s.Releases id op) (closed : s.CheckedOut id) :
    (s.step decodeResponse op).CheckedOut id := by
  refine settle_preserves (CheckedOut · id) closed fun s' accepted => ?_
  obtain ⟨valid, atTime, marked, row⟩ := closed
  refine ⟨valid, ?_⟩
  have moved := apply_moves decodeResponse accepted id.id
  rw [row] at moved
  generalize after : s'.lifecycle id.id = found at moved
  cases moved with
  | kept => exact ⟨atTime, marked, rfl⟩
  | restarted start => exact absurd (.restart start) held
  | @disabled d _ later own =>
    refine ⟨later, ?_, rfl⟩
    rintro rfl
    exact held (.untimed own)
  | enabled => exact absurd rfl marked
  | captured capture =>
    refine absurd (.captured ?_ capture) held
    -- The own attempt of a closed enrollment is not active.
    rintro rfl
    obtain ⟨e, _, found, enabled, _⟩ := capture.commits
    rw [get_lifecycle found] at row
    simp [Lifecycle.of, enabled] at row
  | imported => cases native

theorem CheckedOut.get (closed : s.CheckedOut id) :
    ∃ r, s.get id = .ok r ∧ r.enrollment.enabled = false ∧ r.enrollment.disabledAt ≠ 0 := by
  obtain ⟨valid, atTime, marked, row⟩ := closed
  simp only [lifecycle, Option.map_eq_some_iff, Lifecycle.of, Lifecycle.mk.injEq] at row
  obtain ⟨r, found, identity, enabled, disabledAt⟩ := row
  exact ⟨r, get_ok.2 ⟨valid, found, identity⟩, enabled, disabledAt ▸ marked⟩

theorem CheckedOut.activeRecord (closed : s.CheckedOut id) (refusal : StoreError) :
    s.activeRecord id refusal = .error refusal := by
  obtain ⟨r, found, enabled, -⟩ := closed.get
  have refused : reject (inactive r.enrollment) refusal = .error refusal := by
    simp [inactive, enabled]
  simp [Store.activeRecord, found, refused, bind, Except.bind]

structure Refused (s : Store) (id : EnrollmentID) : Prop where
  row : ∃ r, s.get id = .ok r ∧ r.enrollment.enabled = false ∧ r.enrollment.disabledAt ≠ 0
  push : ∀ ids push, (id, push) ∉ s.pushInfo ids
  next : ∀ skipNotNow now, s.next id skipNotNow now = .error .disabled
  enqueue : ∀ ids cmd o clock s' result, s.enqueue ids cmd o clock = .ok (s', result) →
    id ∉ result.queued ∧ (id ∈ ids → (id, .disabled id.id) ∈ result.skipped) ∧
      s'.queueAt id.id = s.queueAt id.id

theorem CheckedOut.pushInfo (closed : s.CheckedOut id) (ids : List EnrollmentID) (push : Push) :
    (id, push) ∉ s.pushInfo ids := by
  obtain ⟨r, found, enabled, -⟩ := closed.get
  simp only [Store.pushInfo, List.mem_filterMap, not_exists, not_and]
  intro other _ returned
  split at returned
  · cases returned
  · next row there =>
    split at returned
    · cases returned
    · next enabled' =>
      simp only [Option.some.injEq, Prod.mk.injEq] at returned
      obtain ⟨rfl, -⟩ := returned
      rw [(get_ok.1 found).2.1] at there
      cases there
      simp [enabled] at enabled'

variable {state : Store × EnqueueResult}

theorem CheckedOut.enqueueOne (closed : state.1.CheckedOut id)
    (cmd : Command) (o : EnqueueOptions) (now : Time) (target : EnrollmentID) :
    let after := Store.enqueueOne cmd o now state target
    after.1.CheckedOut id ∧ after.1.queueAt id.id = state.1.queueAt id.id ∧
      (id ∉ state.2.queued → id ∉ after.2.queued) ∧
      (target = id ∨ (id, .disabled id.id) ∈ state.2.skipped →
        (id, .disabled id.id) ∈ after.2.skipped) := by
  intro after
  have kept : after.1.CheckedOut id := by
    unfold CheckedOut
    rw [enqueueOne_lifecycle]
    exact closed
  refine ⟨kept, ?_⟩
  by_cases same : target = id
  · subst same
    have refused : after = (state.1, state.2.skip target (.disabled target.id)) := by
      simp [after, enqueueOne, enqueueTarget, closed.activeRecord, bind, Except.bind]
    rw [refused]
    exact ⟨rfl, fun free => free, fun _ => by simp [EnqueueResult.skip]⟩
  · obtain ⟨own, there, -⟩ := closed.get
    obtain ⟨queue, counted⟩ := enqueueOne_other cmd o now state there (Ne.symm same)
    refine ⟨queue, fun free => ?_, fun recorded => ?_⟩
    · rw [← List.count_eq_zero] at free ⊢
      exact counted.trans free
    · have before := recorded.resolve_left same
      unfold after Store.enqueueOne
      split
      · simpa [EnqueueResult.skip, Ne.symm same] using before
      · exact before

theorem CheckedOut.enqueueAll (closed : state.1.CheckedOut id)
    (cmd : Command) (o : EnqueueOptions) (now : Time) (ids : List EnrollmentID) :
    let after := run (Store.enqueueOne cmd o now) state ids
    after.1.queueAt id.id = state.1.queueAt id.id ∧
      (id ∉ state.2.queued → id ∉ after.2.queued) ∧
      (id ∈ ids ∨ (id, .disabled id.id) ∈ state.2.skipped →
        (id, .disabled id.id) ∈ after.2.skipped) := by
  induction ids generalizing state with
  | nil => simp
  | cons target rest ih =>
    obtain ⟨closed', queue, queued, skipped⟩ := closed.enqueueOne cmd o now target
    obtain ⟨queue', queued', skipped'⟩ := ih closed'
    refine ⟨queue'.trans queue, queued' ∘ queued, fun recorded => skipped' ?_⟩
    rcases recorded with member | recorded
    · rcases List.mem_cons.1 member with rfl | later
      · exact .inr (skipped (.inl rfl))
      · exact .inl later
    · exact .inr (skipped (.inr recorded))

theorem CheckedOut.refused (closed : s.CheckedOut id) : s.Refused id := by
  refine ⟨closed.get, closed.pushInfo, fun _ _ => ?_, ?_⟩
  · simp [Store.next, closed.activeRecord, bind, Except.bind]
  intro ids cmd o clock s' result accepted
  obtain ⟨cmd', now, -, -, -, same⟩ := enqueue_ok accepted
  have start : ((s, {}) : Store × EnqueueResult).1.CheckedOut id := closed
  obtain ⟨queue, queued, skipped⟩ := start.enqueueAll cmd' o now ids
  rw [← same] at queue queued skipped
  exact ⟨queued (by simp), fun member => skipped (.inl member), queue⟩

end Store

theorem checkedOut_run (decodeResponse : DecodeResponse) (before after : List Op)
    (id : EnrollmentID) (native : ∀ op ∈ before ++ after, op.imports = false) (r : Record)
    (found : (run (Store.step decodeResponse) {} before).get id = .ok r)
    (marked : r.enrollment.disabledAt ≠ 0)
    (held : ∀ entry ∈ history (Store.step decodeResponse)
      (run (Store.step decodeResponse) {} before) after, ¬ entry.1.Releases id entry.2) :
    (run (Store.step decodeResponse) {} (before ++ after)).Refused id := by
  have consistent : (run (Store.step decodeResponse) {} before).Consistent := by
    refine allowed_invariant (fun _ op => op.imports = false) Store.Consistent
      (fun s op native => s.step_consistent decodeResponse native) ?_ ?_
    · simp [Store.Consistent, Store.lifecycle]
    · intro entry member
      exact native entry.2 (List.mem_append_left after (event_mem_of_history member))
  have closed : (run (Store.step decodeResponse) {} before).CheckedOut id := by
    obtain ⟨valid, -, identity⟩ := Store.get_ok.1 found
    have row := Store.get_lifecycle found
    have off : r.enrollment.enabled = false := consistent id.id _ row marked
    exact ⟨valid, r.enrollment.disabledAt, marked, by rw [row, Lifecycle.of, off, identity]⟩
  rw [run_append]
  refine Store.CheckedOut.refused (allowed_invariant
    (fun s op => op.imports = false ∧ ¬ s.Releases id op) (Store.CheckedOut · id)
    (fun s op allowed => s.step_checkedOut decodeResponse allowed.1 allowed.2) closed ?_)
  intro entry member
  exact ⟨native entry.2 (List.mem_append_right before (event_mem_of_history member)),
    held entry member⟩

def sampleDevice : EnrollmentID := ⟨.device, "D", ""⟩

def sampleUser : EnrollmentID := ⟨.user, "U", "D"⟩

def samplePush : Push := ⟨"topic", [1], "magic"⟩

def enrollBoth : List Op :=
  [.authenticateEnrollment sampleDevice { hash := "old", atTime := 1 },
    .storeTokenUpdate sampleDevice samplePush none [] 1,
    .upsertAuthenticate sampleUser none [] 1,
    .storeTokenUpdate sampleUser samplePush none [] 1]

def sampleRetry : AuthenticateChange := { hash := "old", allowReenroll := true, atTime := 11 }

theorem enrollBoth_checkedOut :
    (run (Store.step fun _ _ => none) {} ((enrollBoth ++ [.disable sampleDevice 9]) ++
      [.storeTokenUpdate sampleUser samplePush none [] 10,
        .authenticateEnrollment sampleDevice sampleRetry])).Refused sampleUser := by
  have refused : (((run (Store.step fun _ _ => none) {} (enrollBoth ++ [.disable sampleDevice 9] ++
      [.storeTokenUpdate sampleUser samplePush none [] 10])).authenticateEnrollment
        sampleDevice sampleRetry).map (·.2)) = .error .disabled := by decide +kernel
  refine checkedOut_run _ _ _ sampleUser (by decide)
    (((run (Store.step fun _ _ => none) {} (enrollBoth ++ [.disable sampleDevice 9])).get
      sampleUser).toOption.getD { enrollment := { id := sampleUser } })
    (by decide +kernel) (by decide +kernel) ?_
  simp only [history_cons, history_nil, List.mem_cons, List.not_mem_nil, or_false, forall_eq_or_imp,
    forall_eq]
  rw [run_append, run_cons, run_nil] at refused
  constructor
  · rintro ⟨⟨⟩⟩
  · rintro ⟨⟨accepted, -, -⟩⟩
    rw [accepted] at refused
    cases refused

def captureUser : List Op :=
  ([{ op := .begin, atTime := 2
      begin := some
        { id := "R", method := .acme, oldHash := "old", expiresAt := 100
          command := ⟨"R", "InstallProfile", []⟩ } },
    { op := .issue, id := "R", hash := "new", method := .acme, atTime := 3 },
    { op := .authenticate, id := "R", hash := "new", atTime := 4 },
    { op := .deliver, id := "R", hash := "old", atTime := 5 },
    { op := .result, id := "R", hash := "new", atTime := 6
      response := some ⟨sampleDevice, "R", .acknowledged, []⟩ },
    { op := .token, id := "R", hash := "new", atTime := 7
      token := some ⟨sampleUser, some ⟨"topic", [1], "magic", [], none, "", "", false⟩, []⟩ }] :
    List ReplacementChange).map (Op.transitionReplacement sampleDevice)

theorem checkedOut_reopens :
    let lifecycle (ops : List Op) (key : String) :=
      (run (Store.step fun _ _ => none) {} ops).lifecycle key
    let closedDevice := enrollBoth ++ [.disable sampleDevice 9]
    let closedUser := enrollBoth ++ captureUser ++ [.disable sampleUser 9]
    lifecycle closedDevice "D" = some ⟨sampleDevice, false, 9⟩ ∧
    lifecycle closedUser "U" = some ⟨sampleUser, false, 9⟩ ∧
    lifecycle (closedDevice ++ [.upsertAuthenticate sampleDevice none [] 10,
      .storeTokenUpdate sampleDevice samplePush none [] 10]) "D" = some ⟨sampleDevice, true, 0⟩ ∧
    lifecycle (closedUser ++ [.authenticateEnrollment sampleDevice
        { expectedHash := "old", hash := "new", atTime := 10 },
      .storeTokenUpdate sampleUser samplePush none [] 10]) "U" = some ⟨sampleUser, true, 0⟩ ∧
    lifecycle (closedDevice ++ [.disable sampleDevice 0,
      .storeTokenUpdate sampleDevice samplePush none [] 10]) "D" = some ⟨sampleDevice, true, 0⟩ ∧
    lifecycle (closedUser ++ [.transitionReplacement sampleDevice
      { op := .token, id := "R", hash := "new", atTime := 10
        token := some ⟨sampleDevice, some ⟨"topic", [1], "magic", [], none, "", "", false⟩, []⟩ }])
      "U" = some ⟨sampleUser, true, 0⟩ := by
  decide +kernel

end AppleDM.Inmem
