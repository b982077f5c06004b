import AppleDM.Sql.Store

set_option autoImplicit false

namespace AppleDM.Sql

open Mdm Storage Checked Rows

namespace CommandRow

variable (id : EnrollmentID)

def queuedUUID (uuid : String) (row : CommandRow) : Bool :=
  row.enrollmentID = id.id && row.commandUUID = uuid

def pendingKey (key : String) (row : CommandRow) : Bool :=
  row.enrollmentID = id.id && row.dedupeKey = key && !row.state.terminal

def selects (skipNotNow : Bool) (now : Time) (row : CommandRow) : Bool :=
  row.enrollmentID = id.id &&
    if skipNotNow then row.state = .pending || row.state = .sent
    else (row.state = .pending || row.state = .sent || row.state = .notNow) &&
      (row.state ≠ .notNow || row.notNowUntil.any fun until_ => until_ ≤ now)

def markSent (now : Time) (row : CommandRow) : CommandRow :=
  { row with state := .sent, lastSentAt := some now, attempts := row.attempts + 1 }

def openUUID (uuid : String) (row : CommandRow) : Bool :=
  row.queuedUUID id uuid && !row.state.terminal

def answer (resp : Response) (now : Time) (row : CommandRow) : CommandRow :=
  let row := { row with resultStatus := some resp.status, resultRaw := resp.raw }
  match resp.status with
  | .acknowledged =>
    { row with state := .acknowledged, completedAt := nullTime now, notNowUntil := none }
  | .notNow =>
    { row with
      notNowCount := row.notNowCount + 1
      state := .notNow
      completedAt := none
      notNowUntil := nullTime (now + notNowBackoff (row.notNowCount + 1)) }
  | _ => { row with state := .error, completedAt := nullTime now, notNowUntil := none }

def clear (now : Time) (row : CommandRow) : CommandRow :=
  { row with state := .cleared, completedAt := some now }

def clears (states : List State) (f : ClearFilter) (row : CommandRow) : Bool :=
  row.enrollmentID = id.id && states.contains row.state &&
    (f.commandUUID = "" || row.commandUUID = f.commandUUID) &&
    (f.requestType = "" || row.requestType = f.requestType) &&
    (f.before = 0 || decide (row.enqueuedAt < f.before))

end CommandRow

def clearable (f : ClearFilter) : List State :=
  (if f.states.isEmpty then [.pending, .sent, .notNow] else f.states).filter fun s => !s.terminal

def clearBatchSize : Nat := 5000

namespace Store

open CommandRow

variable (t : Store) (id : EnrollmentID) (f : ClearFilter) (cmd : Command) (o : EnqueueOptions)
  (now : Time)

def insertCommand : Store :=
  { t with
    commands := t.commands ++
      [{ seq := t.lastSeq + 1
         enrollmentID := id.id
         commandUUID := cmd.uuid
         requestType := cmd.requestType
         raw := cmd.raw
         dedupeKey := o.dedupeKey
         state := .pending
         enqueuedAt := now }]
    lastSeq := t.lastSeq + 1 }

def queueConflict (id : EnrollmentID) : Option StoreError :=
  if t.commands.any (queuedUUID id cmd.uuid) then
    some (.conflict ("command " ++ cmd.uuid ++ " already queued for " ++ id.id))
  else if o.dedupeKey ≠ "" ∧ t.commands.any (pendingKey id o.dedupeKey) then
    some (.conflict ("pending command with dedupe key " ++ o.dedupeKey.quote))
  else none

def enqueueOne (state : Store × EnqueueResult)
    (id : EnrollmentID) : Except StoreError (Store × EnqueueResult) :=
  match validID id with
  | .error error => .ok (state.1, state.2.skip id error)
  | .ok _ =>
    match state.1.usable id true with
    | .error error =>
      if error.sentinel = .notFound ∨ error.sentinel = .disabled then
        .ok (state.1, state.2.skip id error)
      else .error error
    | .ok _ =>
      match state.1.queueConflict cmd o id with
      | some error => .ok (state.1, state.2.skip id error)
      | none => .ok (state.1.insertCommand id cmd o now, state.2.queue id)

def enqueue (ids : List EnrollmentID) (cmd : Option Command) (o : EnqueueOptions)
    (clock : Time) : Except StoreError (Store × EnqueueResult) :=
  match cmd with
  | none => .error (.invalid "command needs a UUID and RequestType")
  | some cmd =>
    if cmd.uuid = "" ∨ cmd.requestType = "" then
      .error (.invalid "command needs a UUID and RequestType")
    else
      let now := if o.now = 0 then clock else o.now
      ids.foldlM (enqueueOne cmd o now) (t, {})

def next (skipNotNow : Bool) (now : Time) : Except StoreError (Store × Option Command) := do
  validID id
  t.usable id true
  match (orderBy seq (t.commands.filter (selects id skipNotNow now))).head? with
  | none => pure (t, none)
  | some row =>
    pure ({ t with commands := update seq [row.seq] (markSent now) t.commands }, some row.command)

def updateObserved (device : DeviceInfo) (capabilities : Capabilities) : Store :=
  { t with
    enrollments := t.enrollments.modify id.id fun row =>
      { row with
        enrollment := { row.enrollment with
          device := { row.enrollment.device with
            productName := device.productName
            osVersion := device.osVersion
            buildVersion := device.buildVersion }
          capabilities := capabilities } } }

def storeResult (decodeResponse : DecodeResponse) (t : Store) (id : EnrollmentID)
    (resp : Option Response) (now : Time) : Except StoreError Store :=
  match resp with
  | none => .error (.invalid "result needs a CommandUUID and a non-Idle status")
  | some resp => do
    reject (resp.isIdle = true ∨ resp.commandUUID = "")
      (.invalid "result needs a CommandUUID and a non-Idle status")
    validID id
    t.usable id true
    match (t.commands.filter (openUUID id resp.commandUUID)).head? with
    | none => .error (.notFound ("no open command " ++ resp.commandUUID))
    | some row =>
      let t := { t with commands := update seq [row.seq] (answer resp now) t.commands }
      let e ← t.identity id
      pure (t.updateObserved id (deviceInfoFromResult decodeResponse e.device id row.requestType resp)
        (capabilitiesFromResult decodeResponse e.capabilities id row.requestType resp now))

def clearBatch (keep : CommandRow → Bool) (now : Time) (commands : List CommandRow) :
    List CommandRow × Nat :=
  let chosen := batch seq keep clearBatchSize commands
  (update seq chosen (CommandRow.clear now) commands, chosen.length)

def clearLoop (keep : CommandRow → Bool) (now : Time) : Nat → List CommandRow → Nat →
    List CommandRow × Nat
  | 0, commands, total => (commands, total)
  | fuel + 1, commands, total =>
    let (commands, n) := clearBatch keep now commands
    if n < clearBatchSize then (commands, total + n)
    else clearLoop keep now fuel commands (total + n)

theorem clearLoop_all {keep : CommandRow → Bool} {now : Time}
    (settled : ∀ row, keep (CommandRow.clear now row) = false) (fuel : Nat)
    {commands : List CommandRow} (increasing : Increasing seq commands) (total : Nat)
    (enough : commands.countP keep < fuel) :
    clearLoop keep now fuel commands total =
      (commands.map fun row => if keep row then CommandRow.clear now row else row,
        total + commands.countP keep) := by
  induction fuel generalizing commands total with
  | zero => simp at enough
  | succ fuel ih =>
    have remaining := filter_batch increasing settled clearBatchSize
    have everything := map_batch increasing settled clearBatchSize
    have sorted : Increasing seq (update seq (batch seq keep clearBatchSize commands)
        (CommandRow.clear now) commands) :=
    increasing.of_keys (map_update fun _ => rfl)
    have positive : 0 < clearBatchSize := by decide
    unfold clearLoop clearBatch
    dsimp only
    rw [length_batch]
    generalize update seq _ (CommandRow.clear now) commands = after at *
    generalize clearBatchSize = size at *
    have fewer : after.countP keep = commands.countP keep - size := by
      rw [List.countP_eq_length_filter, remaining, List.length_drop, List.countP_eq_length_filter]
    split
    · next last =>
      have untouched : after.map (fun row => if keep row then CommandRow.clear now row else row) =
          after := by
        have none_left : after.countP keep = 0 := by omega
        rw [List.countP_eq_zero] at none_left
        refine (List.map_congr_left fun row member => ?_).trans (List.map_id after)
        rw [if_neg (none_left row member), id]
      rw [← everything, untouched, Nat.min_eq_right (by omega)]
    · next more =>
      rw [ih sorted _ (by omega), everything, fewer]
      congr 1
      omega

def clear : Except StoreError (Store × Nat) := do
  validID id
  let _ ← t.identity id
  if clearable f = [] then pure (t, 0)
  else
    let (commands, total) := clearLoop (clears id (clearable f) f) now (t.commands.length + 1)
      t.commands 0
    pure ({ t with commands := commands }, total)

theorem mem_clearable (state : State) : (clearable f).contains state =
      (!state.terminal && (f.states.isEmpty || f.states.contains state)) := by
  unfold clearable
  cases empty : f.states.isEmpty with
  | true => cases state <;> rfl
  | false =>
    rw [Bool.eq_iff_iff]
    simp [and_comm]

theorem clear_eq {t : Store} {id : EnrollmentID} {e : Enrollment} (found : t.identity id = .ok e)
    (increasing : Increasing seq t.commands) (f : ClearFilter) (now : Time) :
    t.clear id f now = .ok
      ({ t with
        commands := t.commands.map fun row =>
          if clears id (clearable f) f row then CommandRow.clear now row else row },
        t.commands.countP (clears id (clearable f) f)) := by
  have settled (row : CommandRow) :
      clears id (clearable f) f (CommandRow.clear now row) = false := by
    unfold clears
    rw [mem_clearable]
    simp [CommandRow.clear, State.terminal]
  have valid : validID id = .ok () := (validID_ok id ()).2 (identity_ok.1 found).1
  simp only [clear, valid, found, bind, Except.bind, pure, Except.pure]
  split
  · next nothing =>
    have unmatched (row : CommandRow) : clears id (clearable f) f row = false := by
      simp [clears, nothing]
    have uncounted : t.commands.countP (clears id (clearable f) f) = 0 :=
      List.countP_eq_zero.2 (by simp [unmatched])
    simp [unmatched, uncounted]
  · rw [clearLoop_all settled _ increasing _ (Nat.lt_succ_of_le List.countP_le_length)]
    simp

def clearCommand (uuid : String) (now : Time) : Except StoreError (Store × Nat) := do
  reject (uuid = "") .invalid
  t.clear id { commandUUID := uuid } now

end Store

end AppleDM.Sql
