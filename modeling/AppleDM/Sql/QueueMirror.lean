import AppleDM.Inmem.QueueRun
import AppleDM.Sql.Queue

set_option autoImplicit false

namespace AppleDM.Sql

open Mdm Storage Checked Run Rows Related CommandRow
open Inmem (hasPendingKey inactive)

structure MirrorsCommand (q : QueuedCommand) (row : CommandRow) : Prop where
  command : row.command = q.command
  dedupeKey : row.dedupeKey = q.dedupeKey
  state : row.state = q.state
  enqueuedAt : row.enqueuedAt = q.enqueuedAt
  notNowCount : row.notNowCount = q.notNowCount
  notNowUntil : q.state = .notNow → row.notNowUntil = some q.notNowUntil

def Store.rowsOf (t : Store) (key : String) : List CommandRow :=
  t.commands.filter fun row => row.enrollmentID = key

structure Mirrors (s : Inmem.Store) (t : Store) : Prop where
  enrollments : ∀ key : String,
    (t.enrollments[key]?).map (·.enrollment) = (s.enrollments[key]?).map (·.enrollment)
  queues : ∀ key, List.Forall₂ MirrorsCommand (s.queueAt key) (t.rowsOf key)
  increasing : Increasing seq t.commands
  bounded : ∀ row ∈ t.commands, row.seq ≤ t.lastSeq
  distinct : ∀ key, ((s.queueAt key).map (·.command.uuid)).Nodup

variable {A B : Type} {row : CommandRow} {q : QueuedCommand} {r : Inmem.Record}

theorem map_modify_same {f : A → A} {view : A → B} (same : ∀ a, view (f a) = view a)
    (values : List A) (position : Nat) : (values.modify position f).map view = values.map view := by
  induction values generalizing position with
  | nil => simp
  | cons head rest ih =>
    cases position with
    | zero => simp [same]
    | succ position => simpa using ih position

variable {s : Inmem.Store} {t : Store} {id : EnrollmentID}

theorem Mirrors.identity (mirrors : Mirrors s t) (e : Enrollment) :
    t.identity id = .ok e ↔ ∃ r, s.get id = .ok r ∧ r.enrollment = e := by
  have same := mirrors.enrollments id.id
  rw [Store.identity_ok]
  constructor
  · rintro ⟨valid, row, found, rfl, identity⟩
    rw [found, Option.map_some, eq_comm, Option.map_eq_some_iff] at same
    obtain ⟨r, there, equal⟩ := same
    exact ⟨r, Inmem.Store.get_ok.2 ⟨valid, there, equal ▸ identity⟩, equal⟩
  · rintro ⟨r, found, rfl⟩
    obtain ⟨valid, there, identity⟩ := Inmem.Store.get_ok.1 found
    rw [there, Option.map_some, Option.map_eq_some_iff] at same
    obtain ⟨row, present, equal⟩ := same
    exact ⟨valid, row, present, equal, identity⟩

theorem barred_active (e : Enrollment) : Store.barred e true ↔ inactive e := by
  simp [Store.barred, inactive, or_comm]

theorem Mirrors.usable (mirrors : Mirrors s t) (refusal : StoreError) (done : Unit) :
    t.usable id true = .ok done ↔ ∃ r, s.activeRecord id refusal = .ok r := by
  rw [Store.usable_ok]
  simp only [mirrors.identity, barred_active, Inmem.Store.activeRecord_ok]
  constructor
  · rintro ⟨parent, e, ⟨r, found, rfl⟩, active⟩
    refine ⟨r, found, active, fun user => ?_⟩
    obtain ⟨e, ⟨p, found, rfl⟩, active⟩ := parent user
    exact ⟨p, found, active⟩
  · rintro ⟨r, found, active, parent⟩
    refine ⟨fun user => ?_, r.enrollment, ⟨r, found, rfl⟩, active⟩
    obtain ⟨p, found, active⟩ := parent user
    exact ⟨p.enrollment, ⟨p, found, rfl⟩, active⟩

theorem Store.usable_error {error : StoreError} (valid : id.Valid)
    (refused : t.usable id true = .error error) :
    error.sentinel = .notFound ∨ error.sentinel = .disabled := by
  have unknown (other : EnrollmentID) (valid : other.Valid) {error : StoreError}
      (refused : t.identity other = .error error) : error.sentinel = .notFound := by
    simp only [Store.identity, (validID_ok other ()).2 valid, bind, Except.bind] at refused
    split at refused
    · cases refused; rfl
    · split at refused <;> cases refused
      rfl
  simp only [Store.usable, bind_error, onlyIf] at refused
  rcases refused with refused | ⟨-, -, refused | ⟨e, -, refused⟩⟩
  · split at refused
    · simp only [bind_error, reject_error] at refused
      rcases refused with refused | ⟨e, -, -, rfl⟩
      · exact .inl (unknown id.device valid.device refused)
      · exact .inr rfl
    · cases refused
  · exact .inl (unknown id valid refused)
  · obtain ⟨-, rfl⟩ := (reject_error _ _ _).1 refused
    exact .inr rfl

variable {key : String} {s' : Inmem.Store}

theorem Mirrors.change (mirrors : Mirrors s t) {queue : List QueuedCommand} {t' : Store}
    (enrollments : ∀ key : String,
      (t'.enrollments[key]?).map (·.enrollment) = (s'.enrollments[key]?).map (·.enrollment))
    (queues : s'.queueAt = Function.update s.queueAt key queue)
    (uuids : queue.map (·.command.uuid) = (s.queueAt key).map (·.command.uuid))
    (related : List.Forall₂ MirrorsCommand queue (t'.rowsOf key))
    (others : ∀ other, other ≠ key → t'.rowsOf other = t.rowsOf other)
    (seqs : t'.commands.map seq = t.commands.map seq) (lastSeq : t'.lastSeq = t.lastSeq) :
    Mirrors s' t' := by
  refine ⟨enrollments, fun other => ?_, mirrors.increasing.of_keys seqs, fun row member => ?_,
    fun other => ?_⟩
  · rw [queues]
    by_cases same : other = key
    · subst same
      rwa [Function.update_self]
    · rw [Function.update_of_ne same, others other same]
      exact mirrors.queues other
  · have there : row.seq ∈ t.commands.map seq := seqs ▸ List.mem_map_of_mem member
    obtain ⟨before, there, same⟩ := List.mem_map.1 there
    rw [lastSeq, ← same]
    exact mirrors.bounded before there
  · rw [queues]
    by_cases same : other = key
    · subst same
      rw [Function.update_self, uuids]
      exact mirrors.distinct other
    · rw [Function.update_of_ne same]
      exact mirrors.distinct other

theorem Mirrors.modify (mirrors : Mirrors s t) (f : QueuedCommand → QueuedCommand)
    (g : CommandRow → CommandRow) {position : Nat}
    (here : (t.rowsOf key)[position]? = some row)
    (seqs : ∀ row, (g row).seq = row.seq) (owners : ∀ row, (g row).enrollmentID = row.enrollmentID)
    (uuids : ∀ q, (f q).command = q.command)
    (each : ∀ q row, MirrorsCommand q row → MirrorsCommand (f q) (g row)) {t' : Store}
    (enrollments : ∀ key : String,
      (t'.enrollments[key]?).map (·.enrollment) = (s'.enrollments[key]?).map (·.enrollment))
    (queues : s'.queueAt = Function.update s.queueAt key ((s.queueAt key).modify position f))
    (commands : t'.commands = update seq [row.seq] g t.commands)
    (lastSeq : t'.lastSeq = t.lastSeq) : Mirrors s' t' := by
  have member : row ∈ t.commands ∧ row.enrollmentID = key := by
    simpa [Store.rowsOf] using List.mem_of_getElem? here
  have rows (other : String) : t'.rowsOf other = update seq [row.seq] g (t.rowsOf other) := by
    rw [Store.rowsOf, commands, filter_update (fun row => by simp [owners])]
    rfl
  refine mirrors.change enrollments queues (map_modify_same (fun q => by rw [uuids q]) _ _) ?_ ?_
    (commands ▸ map_update seqs) lastSeq
  · have sorted : Increasing seq (t.rowsOf key) := mirrors.increasing.filter _
    rw [rows, update_modify sorted here]
    exact forall₂_modify_both each (mirrors.queues key) position
  · intro other different
    rw [rows]
    refine update_other fun found there => ?_
    -- Sequence numbers are distinct over the whole table.
    simp only [Store.rowsOf, List.mem_filter, decide_eq_true_eq] at there
    simp only [List.mem_singleton]
    intro equal
    have same : found = row := mirrors.increasing.injective there.1 member.1 equal
    exact different (by rw [← there.2, same, member.2])

theorem selects_deliverable (mirrors : MirrorsCommand q row)
    (skipNotNow : Bool) (now : Time) (own : row.enrollmentID = id.id) :
    Inmem.deliverable skipNotNow now q = selects id skipNotNow now row := by
  have times : decide (now < q.notNowUntil) = !decide (q.notNowUntil ≤ now) := by
    rw [← decide_not, decide_eq_decide, not_le]
  unfold Inmem.deliverable selects
  rw [mirrors.state]
  cases phase : q.state <;> cases skipNotNow <;>
    simp [own, phase, mirrors.notNowUntil, times]

theorem Mirrors.first (mirrors : Mirrors s t) (p : QueuedCommand → Bool)
    (p' : CommandRow → Bool) (own : ∀ row, p' row = true → row.enrollmentID = key)
    (agree : ∀ q row, MirrorsCommand q row → row.enrollmentID = key → p q = p' row) :
    (∃ position q row, (s.queueAt key).findIdx? p = some position ∧
      (s.queueAt key)[position]? = some q ∧ (t.rowsOf key)[position]? = some row ∧
      MirrorsCommand q row ∧ (t.commands.filter p').head? = some row) ∨
    (s.queueAt key).findIdx? p = none ∧ (t.commands.filter p').head? = none := by
  have filtered : t.commands.filter p' = (t.rowsOf key).filter p' := by
    rw [Store.rowsOf, List.filter_filter]
    refine List.filter_congr fun row _ => ?_
    cases chosen : p' row with
    | false => simp
    | true => simp [own row chosen]
  have related : List.Forall₂ (fun q row => MirrorsCommand q row ∧ row.enrollmentID = key)
      (s.queueAt key) (t.rowsOf key) :=
    forall₂_and (fun row member => by simpa using (List.mem_filter.1 member).2) (mirrors.queues key)
  rw [filtered, List.head?_filter]
  rcases forall₂_first (fun q row both => agree q row both.1 both.2) related with
    ⟨position, q, row, place, there, there', both, found⟩ | nothing
  · exact .inl ⟨position, q, row, place, there, there', both.1, found⟩
  · exact .inr nothing

theorem queueAt_put_get (found : s.get id = .ok r) {new : Inmem.Record}
    (identity : new.enrollment.id = r.enrollment.id) :
    (s.put new).queueAt = Function.update s.queueAt id.id new.queue := by
  rw [Inmem.Store.queueAt_put, identity, (Inmem.Store.get_ok.1 found).2.2]

theorem enrollment_put_get (found : s.get id = .ok r) (new : Inmem.Record)
    (identity : new.enrollment.id = r.enrollment.id) (key : String) :
    ((s.put new).enrollments[key]?).map (·.enrollment) =
      if key = id.id then some new.enrollment
      else (s.enrollments[key]?).map (·.enrollment) := by
  have place : new.enrollment.id.id = id.id := by rw [identity, (Inmem.Store.get_ok.1 found).2.2]
  by_cases same : key = id.id
  · simp [Inmem.Store.put, Inmem.Store.putAt, place, same]
  · simp [Inmem.Store.put, Inmem.Store.putAt, place, same, Std.ExtTreeMap.getElem?_insert,
      Ne.symm same]

theorem enrollment_put_same (found : s.get id = .ok r) (new : Inmem.Record)
    (same : new.enrollment = r.enrollment) (key : String) :
    ((s.put new).enrollments[key]?).map (·.enrollment) =
      (s.enrollments[key]?).map (·.enrollment) := by
  rw [enrollment_put_get found new (by rw [same])]
  split
  · next place => rw [place, (Inmem.Store.get_ok.1 found).2.1, same]; rfl
  · rfl

inductive Matched {A : Type} :
    Except StoreError (Inmem.Store × A) → Except StoreError (Store × A) → Prop where
  | ok {s' : Inmem.Store} {t' : Store} (mirrors : Mirrors s' t') (result : A) :
      Matched (.ok (s', result)) (.ok (t', result))
  | error (first second : StoreError) : Matched (.error first) (.error second)

theorem Mirrors.gate (mirrors : Mirrors s t) (id : EnrollmentID) (refusal : StoreError) :
    (∃ r, s.activeRecord id refusal = .ok r ∧ validID id = .ok () ∧ t.usable id true = .ok ()) ∨
    ∃ first second, s.activeRecord id refusal = .error first ∧
      (validID id = .error second ∨ validID id = .ok () ∧ t.usable id true = .error second) := by
  cases active : s.activeRecord id refusal with
  | ok r =>
    have valid := (Inmem.Store.get_ok.1 (Inmem.Store.activeRecord_ok.1 active).1).1
    exact .inl ⟨r, rfl, (Store.validID_ok id ()).2 valid, (mirrors.usable refusal ()).2 ⟨r, active⟩⟩
  | error first =>
    refine .inr ?_
    cases valid : validID id with
    | error second => exact ⟨first, second, rfl, .inl rfl⟩
    | ok =>
      cases usable : t.usable id true with
      | error second => exact ⟨first, second, rfl, .inr ⟨rfl, rfl⟩⟩
      | ok =>
        obtain ⟨r, found⟩ := (mirrors.usable refusal ()).1 usable
        rw [active] at found
        cases found

theorem Mirrors.next (mirrors : Mirrors s t) (id : EnrollmentID) (skipNotNow : Bool) (now : Time) :
    Matched (s.next id skipNotNow now) (t.next id skipNotNow now) := by
  unfold Inmem.Store.next Store.next
  rcases mirrors.gate id .disabled with
    ⟨r, active, valid, usable⟩ | ⟨first, second, inactive, invalid | ⟨valid, unusable⟩⟩
  · have found := (Inmem.Store.activeRecord_ok.1 active).1
    simp only [active, valid, usable, bind, Except.bind, pure, Except.pure,
      orderBy_increasing (mirrors.increasing.filter _), Inmem.Store.nextPosition,
      ← Inmem.Store.get_queueAt found]
    rcases mirrors.first (Inmem.deliverable skipNotNow now) (selects id skipNotNow now)
      (fun row chosen => by simp [selects] at chosen; exact chosen.1) (fun q row related own => selects_deliverable related skipNotNow now own) with
      ⟨position, q, row, place, there, there', related, head⟩ | ⟨nothing, nothing'⟩
    · simp only [place, there, head, Option.map_some, related.command]
      apply Matched.ok
      refine mirrors.modify (Inmem.send now) (markSent now) there' (fun _ => rfl) (fun _ => rfl)
        (fun _ => rfl) ?_ ?_ (queueAt_put_get found rfl) rfl rfl
      · intro q row related
        exact ⟨related.command, related.dedupeKey, rfl, related.enqueuedAt, related.notNowCount,
          by simp [Inmem.send]⟩
      · intro key
        rw [enrollment_put_same found]
        · exact mirrors.enrollments key
        · rfl
    · simp only [nothing, nothing']
      exact .ok mirrors none
  · simp only [inactive, invalid, bind, Except.bind]
    exact .error first second
  · simp only [inactive, valid, unusable, bind, Except.bind]
    exact .error first second

theorem deviceInfoFromResult_columns (decodeResponse : DecodeResponse) (old : DeviceInfo)
    (requestType : String) (resp : Response) :
    let new := deviceInfoFromResult decodeResponse old id requestType resp
    { old with
      productName := new.productName, osVersion := new.osVersion,
      buildVersion := new.buildVersion } = new := by
  intro new
  unfold new deviceInfoFromResult
  split
  · rfl
  · split
    · split <;> rfl
    · rfl

theorem MirrorsCommand.answer (related : MirrorsCommand q row)
    (resp : Response) {now : Time} (timed : 0 ≤ now) :
    MirrorsCommand (Inmem.answer resp now q) (CommandRow.answer resp now row) := by
  have later : nullTime (now + notNowBackoff (q.notNowCount + 1)) =
      some (now + notNowBackoff (q.notNowCount + 1)) :=
    if_neg (Int.add_pos_of_nonneg_of_pos timed (notNowBackoff_pos _)).ne'
  unfold Inmem.answer CommandRow.answer
  cases resp.status with
  | notNow =>
    exact ⟨related.command, related.dedupeKey, rfl, related.enqueuedAt,
      by simp [related.notNowCount], fun _ => by simpa [related.notNowCount] using later⟩
  | _ =>
    exact ⟨related.command, related.dedupeKey, rfl, related.enqueuedAt, related.notNowCount,
      fun impossible => by simp at impossible⟩

theorem Mirrors.storeResult (mirrors : Mirrors s t) (decodeResponse : DecodeResponse)
    (id : EnrollmentID) (resp : Option Response) {now : Time} (timed : 0 ≤ now) :
    Matched ((·, ()) <$> s.storeResult decodeResponse id resp now)
      ((·, ()) <$> t.storeResult decodeResponse id resp now) := by
  unfold Inmem.Store.storeResult Store.storeResult
  cases resp with
  | none => exact .error _ _
  | some resp =>
  dsimp only
  by_cases shape : resp.isIdle = true ∨ resp.commandUUID = ""
  · simp only [reject, shape, if_true, bind, Except.bind, Functor.map, Except.map]
    exact .error _ _
  simp only [reject, shape, if_false, bind, Except.bind, Functor.map, Except.map]
  rcases mirrors.gate id .disabled with
    ⟨r, active, valid, usable⟩ | ⟨first, second, inactive, invalid | ⟨valid, unusable⟩⟩
  · have found := (Inmem.Store.activeRecord_ok.1 active).1
    have identity := (mirrors.identity r.enrollment).2 ⟨r, found, rfl⟩
    simp only [active, valid, usable, ← Inmem.Store.get_queueAt found]
    rcases mirrors.first (Inmem.awaits resp.commandUUID) (openUUID id resp.commandUUID)
      (fun row chosen => by simp [openUUID, queuedUUID] at chosen; exact chosen.1.1)
      (fun q row related own => by
        simp [Inmem.awaits, openUUID, queuedUUID, own, ← related.command, CommandRow.command,
          related.state]) with
      ⟨position, q, row, place, there, there', related, head⟩ | ⟨nothing, nothing'⟩
    · have sameType : row.requestType = q.command.requestType := by
        rw [← related.command, CommandRow.command]
      simp only [place, there, head, Option.map_some, Option.getD_some]
      rw [show ({ t with commands := update seq [row.seq] (CommandRow.answer resp now) t.commands } :
        Store).identity id = .ok r.enrollment from identity]
      apply Matched.ok
      refine mirrors.modify (Inmem.answer resp now) (CommandRow.answer resp now) there' ?_ ?_ ?_
        (fun q row related => related.answer resp timed) ?_ (queueAt_put_get found rfl) rfl rfl
      · intro row
        unfold CommandRow.answer
        cases resp.status <;> rfl
      · intro row
        unfold CommandRow.answer
        cases resp.status <;> rfl
      · intro q
        unfold Inmem.answer
        cases resp.status <;> rfl
      · intro key
        rw [enrollment_put_get found]
        · simp only [Store.updateObserved, Std.ExtTreeMap.getElem?_modify, Std.compare_eq_iff_eq]
          split
          · next same =>
            subst same
            have stored := mirrors.enrollments id.id
            rw [(Inmem.Store.get_ok.1 found).2.1, Option.map_some, Option.map_eq_some_iff] at stored
            obtain ⟨held, present, equal⟩ := stored
            simp only [present, Option.map_some, if_true, equal, ← sameType,
              deviceInfoFromResult_columns]
          · next other => rw [if_neg (Ne.symm other), mirrors.enrollments key]
        · rfl
    · simp only [nothing, nothing']
      exact .error _ _
  · simp only [inactive, invalid]
    exact .error first second
  · simp only [inactive, valid, unusable]
    exact .error first second

theorem clears_agree (related : MirrorsCommand q row)
    (f : ClearFilter) (own : row.enrollmentID = id.id) :
    Inmem.clears f q = clears id (clearable f) f row := by
  have uuid : row.commandUUID = q.command.uuid := by rw [← related.command, CommandRow.command]
  have requestType : row.requestType = q.command.requestType := by
    rw [← related.command, CommandRow.command]
  unfold Inmem.clears clears
  rw [Store.mem_clearable, related.state, uuid, requestType, related.enqueuedAt]
  simp only [own, decide_true, Bool.true_and]
  ac_rfl

theorem clears_own {states : List State} {f : ClearFilter} (matched : clears id states f row = true) :
    row.enrollmentID = id.id := by
  simp only [clears, Bool.and_eq_true, decide_eq_true_eq] at matched
  exact matched.1.1.1.1

theorem rowsOf_clear (t : Store) (p : CommandRow → Bool) (now : Time) (other : String) :
    Store.rowsOf { t with
      commands := t.commands.map fun row => if p row then CommandRow.clear now row else row } other =
    (t.rowsOf other).map fun row => if p row then CommandRow.clear now row else row := by
  unfold Store.rowsOf
  rw [List.filter_map]
  congr 1
  refine List.filter_congr fun row _ => ?_
  simp only [Function.comp_apply]
  split <;> rfl

theorem Mirrors.clear (mirrors : Mirrors s t) (id : EnrollmentID) (f : ClearFilter) (now : Time) :
    Matched (s.clear id f now) (t.clear id f now) := by
  unfold Inmem.Store.clear
  cases outcome : s.get id with
  | error first =>
    have unknown : ∃ second, t.identity id = .error second := by
      cases other : t.identity id with
      | error second => exact ⟨second, rfl⟩
      | ok e =>
        obtain ⟨r, found, -⟩ := (mirrors.identity e).1 other
        rw [outcome] at found
        cases found
    obtain ⟨second, unknown⟩ := unknown
    simp only [Store.clear, unknown, bind, Except.bind]
    cases validID id <;> exact .error _ _
  | ok r =>
    rw [Store.clear_eq ((mirrors.identity r.enrollment).2 ⟨r, outcome, rfl⟩) mirrors.increasing]
    simp only [bind, Except.bind, pure, Except.pure]
    have related : List.Forall₂ (fun q row => MirrorsCommand q row ∧ row.enrollmentID = id.id)
        (s.queueAt id.id) (t.rowsOf id.id) :=
      forall₂_and (fun row member => by simpa using (List.mem_filter.1 member).2)
        (mirrors.queues id.id)
    have agree : ∀ q row, MirrorsCommand q row ∧ row.enrollmentID = id.id →
        Inmem.clears f q = clears id (clearable f) f row :=
      fun q row both => clears_agree both.1 f both.2
    have counted : t.commands.countP (clears id (clearable f) f) =
        (s.queueAt id.id).countP (Inmem.clears f) := by
      rw [forall₂_countP agree related, Store.rowsOf, List.countP_filter]
      refine List.countP_congr fun row _ => ?_
      simpa using clears_own
    rw [counted, ← Inmem.Store.get_queueAt outcome]
    apply Matched.ok
    refine mirrors.change ?_ (queueAt_put_get outcome rfl) ?_ ?_ ?_ ?_ rfl
    · intro key
      rw [enrollment_put_same outcome]
      · exact mirrors.enrollments key
      · rfl
    · rw [List.map_map]
      refine List.map_congr_left fun q _ => ?_
      simp only [Function.comp_apply]
      split <;> rfl
    · rw [rowsOf_clear]
      refine List.forall₂_map_left_iff.2 (List.forall₂_map_right_iff.2 (related.imp ?_))
      rintro q row ⟨related, own⟩
      rw [clears_agree related f own]
      split
      · exact ⟨related.command, related.dedupeKey, rfl, related.enqueuedAt, related.notNowCount,
          by simp [Inmem.clear]⟩
      · exact related
    · intro other different
      rw [rowsOf_clear]
      refine (List.map_congr_left fun row member => ?_).trans (List.map_id _)
      rw [if_neg, id_eq]
      intro matched
      simp only [Store.rowsOf, List.mem_filter, decide_eq_true_eq] at member
      exact different (member.2.symm.trans (clears_own matched))
    · simp only [List.map_map]
      refine List.map_congr_left fun row _ => ?_
      simp only [Function.comp_apply]
      split <;> rfl

end AppleDM.Sql
