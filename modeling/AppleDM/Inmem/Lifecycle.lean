import AppleDM.Inmem.Step

set_option autoImplicit false

namespace AppleDM.Inmem

open Mdm Storage Checked Run

structure Lifecycle where
  id : EnrollmentID
  enabled : Bool
  disabledAt : Time
  deriving DecidableEq

def Lifecycle.of (e : Enrollment) : Lifecycle := ⟨e.id, e.enabled, e.disabledAt⟩

namespace Store

variable {s s' : Store} {id : EnrollmentID} {r : Record}

def lifecycle (s : Store) (key : String) : Option Lifecycle :=
  (s.enrollments[key]?).map fun r => .of r.enrollment

inductive Restarts (s : Store) (id : EnrollmentID) : Op → Prop where
  | authenticate {d : EnrollmentID} {c : AuthenticateChange} {s' : Store}
      (accepted : s.authenticateEnrollment d c = .ok (s', ⟨true, true⟩))
      (own : d = id ∨ d.id = id.parentID)
      (permitted : ∀ row, s.enrollments[d.id]? = some row → row.enrollment.disabledAt ≠ 0 →
        c.allowReenroll = true ∧ c.hash ≠ "" ∧ c.hash ≠ row.enrollment.certHash) :
      Restarts s id (.authenticateEnrollment d c)
  | upsert {d : EnrollmentID} {msg : Option Authenticate} {raw : Bytes} {atTime : Time} {s' : Store}
      (accepted : s.upsertAuthenticate d msg raw atTime = .ok s')
      (own : d = id ∨ d.channel.isUser = false ∧ d.id = id.parentID) :
      Restarts s id (.upsertAuthenticate d msg raw atTime)

structure Captured (s : Store) (id d : EnrollmentID) (change : ReplacementChange) : Prop where
  commits : ∃ e r, s.get d = .ok e ∧ e.enrollment.enabled = true ∧
    advanceReplacement (s.attemptOf d) e.enrollment change = (some r, .ok true) ∧
    ∃ t ∈ r.tokens, t.id = id

inductive Moves (s : Store) (key : String) : Op → Option Lifecycle → Option Lifecycle → Prop where
  | kept (op : Op) (row : Option Lifecycle) : Moves s key op row row
  | created (op : Op) {life : Lifecycle} (open_ : life.disabledAt = 0) :
      Moves s key op none (some life)
  | restarted {op : Op} {life : Lifecycle} (start : Restarts s life.id op) :
      Moves s key op (some life) (some ⟨life.id, false, 0⟩)
  | disabled {d : EnrollmentID} {life : Lifecycle} {atTime : Time}
      (own : d = life.id ∨ d.channel.isUser = false ∧ d.id = life.id.parentID) :
      Moves s key (.disable d atTime) (some life) (some ⟨life.id, false, atTime⟩)
  | enabled {op : Op} {id : EnrollmentID} {before : Bool} :
      Moves s key op (some ⟨id, before, 0⟩) (some ⟨id, true, 0⟩)
  | captured {life : Lifecycle} {d : EnrollmentID} {change : ReplacementChange}
      (capture : Captured s life.id d change) :
      Moves s key (.transitionReplacement d change) (some life) (some ⟨life.id, true, 0⟩)
  | imported {rec : EnrollmentExport} {row row' : Option Lifecycle} :
      Moves s key (.importRecord rec) row row'

theorem lifecycle_putAt (s : Store) (key : String) (r : Record) :
    (s.putAt key r).lifecycle = Function.update s.lifecycle key (some (.of r.enrollment)) := by
  funext other
  by_cases same : other = key
  · simp [lifecycle, putAt, same]
  · simp [lifecycle, putAt, same, Std.ExtTreeMap.getElem?_insert, Ne.symm same]

theorem lifecycle_put (s : Store) (r : Record) :
    (s.put r).lifecycle =
      Function.update s.lifecycle r.enrollment.id.id (some (.of r.enrollment)) :=
  lifecycle_putAt s r.enrollment.id.id r

theorem lifecycle_of_enrollments (same : s'.enrollments = s.enrollments) :
    s'.lifecycle = s.lifecycle := by
  funext key
  simp [lifecycle, same]

theorem lifecycle_map (f : Record → Record) (g : Lifecycle → Lifecycle)
    (each : ∀ r, Lifecycle.of (f r).enrollment = g (.of r.enrollment)) (key : String) :
    { s with enrollments := s.enrollments.map fun _ r => f r }.lifecycle key =
      (s.lifecycle key).map g := by
  simp only [lifecycle, Std.ExtTreeMap.getElem?_map, Option.map_map]
  cases s.enrollments[key]? with
  | none => rfl
  | some r => simp [each]

theorem get_lifecycle (found : s.get id = .ok r) : s.lifecycle id.id = some (.of r.enrollment) := by
  obtain ⟨-, row, -⟩ := get_ok.1 found
  simp [lifecycle, row]

theorem get_of_lifecycle (same : s.lifecycle = s'.lifecycle) (found : s'.get id = .ok r) :
    ∃ before, s.get id = .ok before ∧ Lifecycle.of before.enrollment = .of r.enrollment := by
  have row : s.lifecycle id.id = some (.of r.enrollment) := by rw [same, get_lifecycle found]
  obtain ⟨valid, -, identity⟩ := get_ok.1 found
  obtain ⟨before, there, equal⟩ := Option.map_eq_some_iff.1 row
  exact ⟨before, get_ok.2 ⟨valid, there, (congrArg Lifecycle.id equal).trans identity⟩, equal⟩

theorem activeRecord_of_lifecycle {refusal : StoreError} (same : s.lifecycle = s'.lifecycle)
    (active : s'.activeRecord id refusal = .ok r) :
    ∃ before, s.activeRecord id refusal = .ok before := by
  have open_ {e e' : Enrollment} (equal : Lifecycle.of e = .of e') (active : ¬ inactive e') :
      ¬ inactive e := by
    have enabled : e.enabled = e'.enabled := congrArg Lifecycle.enabled equal
    have disabledAt : e.disabledAt = e'.disabledAt := congrArg Lifecycle.disabledAt equal
    simpa [inactive, enabled, disabledAt] using active
  obtain ⟨found, enabled, parent⟩ := activeRecord_ok.1 active
  obtain ⟨before, there, equal⟩ := get_of_lifecycle same found
  refine ⟨before, activeRecord_ok.2 ⟨there, open_ equal enabled, fun user => ?_⟩⟩
  obtain ⟨device, found, enabled⟩ := parent user
  obtain ⟨before, there, equal⟩ := get_of_lifecycle same found
  exact ⟨before, there, open_ equal enabled⟩

theorem lifecycle_put_same (found : s.get id = .ok r) {new : Record}
    (same : Lifecycle.of new.enrollment = .of r.enrollment) : (s.put new).lifecycle = s.lifecycle := by
  have identity : new.enrollment.id = id :=
    (congrArg Lifecycle.id same).trans (get_ok.1 found).2.2
  rw [lifecycle_put, Function.update_eq_self_iff, identity, get_lifecycle found, same]

theorem unoccupied_lifecycle {life : Lifecycle} (free : ¬ s.occupied id)
    (row : s.lifecycle id.id = some life) : life.id = id := by
  simp only [lifecycle, Option.map_eq_some_iff] at row
  obtain ⟨r, found, rfl⟩ := row
  by_contra different
  exact free (occupied_iff.2 ⟨r, found, different⟩)

theorem resetOwned_lifecycle (s : Store) (id : EnrollmentID) (atTime : Time) (key : String) :
    (s.resetOwned id atTime).lifecycle key = (s.lifecycle key).map fun life =>
      if id.channel.isUser = false ∧ id.id = life.id.parentID then ⟨life.id, false, 0⟩ else life := by
  unfold resetOwned
  split
  · next user => simp [user]
  · next device =>
    refine lifecycle_map _ _ (fun child => ?_) key
    simp only [Bool.not_eq_true] at device
    by_cases own : child.enrollment.id.parentID = id.id
    · simp [own, device, Lifecycle.of, Record.resetChild]
    · simp [own, Ne.symm own, Lifecycle.of]

theorem reset_moves {op : Op} (atTime : Time) (life : Lifecycle.of r.enrollment = ⟨id, false, 0⟩)
    (start : ∀ other, other = id ∨ id.channel.isUser = false ∧ id.id = other.parentID →
      Restarts s other op)
    (free : ¬ s.occupied id) (key : String) :
    Moves s key op (s.lifecycle key) ((s.resetAuthenticateLocked r atTime).lifecycle key) := by
  have identity : r.enrollment.id = id := congrArg Lifecycle.id life
  rw [resetAuthenticateLocked, lifecycle_put, identity, life]
  by_cases same : key = id.id
  · subst same
    rw [Function.update_self]
    cases row : s.lifecycle id.id with
    | none => exact .created op rfl
    | some before =>
      obtain rfl := unoccupied_lifecycle free row
      exact .restarted (start _ (.inl rfl))
  · rw [Function.update_of_ne same, resetOwned_lifecycle]
    cases s.lifecycle key with
    | none => exact .kept op none
    | some child =>
      by_cases own : id.channel.isUser = false ∧ id.id = child.id.parentID
      · simp only [own, and_self, Option.map_some, if_true]
        exact .restarted (start _ (.inr own))
      · simp only [own, Option.map_some, if_false]
        exact .kept op (some child)

theorem pin_lifecycle {dev : EnrollmentID} {hash : String} {atTime : Time}
    (row : s.lifecycle r.enrollment.id.id = some (.of r.enrollment)) :
    (s.pin r dev hash atTime).lifecycle = s.lifecycle := by
  rw [lifecycle_of_enrollments (pin_enrollments s r dev hash atTime), lifecycle_put,
    Function.update_eq_self_iff]
  exact row.symm

theorem applyReplacementToken_lifecycle (e : Enrollment) (t : ReplacementToken) (atTime : Time) :
    Lifecycle.of (applyReplacementToken e t atTime) = ⟨e.id, true, 0⟩ := by
  unfold applyReplacementToken
  cases t.message <;> rfl

theorem applyTokenLocked_lifecycle (s : Store) (atTime : Time) (t : ReplacementToken) :
    (applyTokenLocked atTime s t).lifecycle = Function.update s.lifecycle t.id.id
      (some ⟨((s.lifecycle t.id.id).map (·.id)).getD t.id, true, 0⟩) := by
  rw [applyTokenLocked, lifecycle_putAt, applyReplacementToken_lifecycle]
  unfold tokenRow lifecycle
  cases s.enrollments[t.id.id]? <;> rfl

theorem applyTokens_lifecycle (tokens : List ReplacementToken) (atTime : Time) (s : Store)
    (key : String) :
    let last := tokens.foldl (applyTokenLocked atTime) s
    last.lifecycle key = s.lifecycle key ∨ ∃ t ∈ tokens, t.id.id = key ∧
      last.lifecycle key = some ⟨((s.lifecycle key).map (·.id)).getD t.id, true, 0⟩ := by
  induction tokens generalizing s with
  | nil => exact .inl rfl
  | cons t rest ih =>
    have later := ih (applyTokenLocked atTime s t)
    rw [applyTokenLocked_lifecycle] at later
    by_cases same : key = t.id.id
    · subst same
      simp only [Function.update_self, Option.map_some, Option.getD_some] at later
      refine .inr ⟨t, by simp, rfl, ?_⟩
      rcases later with later | ⟨_, _, _, later⟩ <;> exact later
    · rw [Function.update_of_ne same] at later
      rcases later with later | ⟨found, member, at_key, later⟩
      · exact .inl later
      · exact .inr ⟨found, List.mem_cons_of_mem t member, at_key, later⟩

theorem commit_moves {d : EnrollmentID} {change : ReplacementChange} {e : Record}
    {replacement : Replacement} (found : s.get d = .ok e)
    (advanced : advanceReplacement (s.attemptOf d) e.enrollment change = (some replacement, .ok true))
    (accepted : s.commitReplacement d e replacement change.atTime = .ok s') (key : String) :
    Moves s key (.transitionReplacement d change) (s.lifecycle key) (s'.lifecycle key) := by
  obtain ⟨free, -, rfl⟩ := commitReplacement_ok accepted
  have enabled : e.enrollment.enabled = true := by
    generalize result : some replacement = next at advanced
    cases advanceReplacement_ok advanced with
    | commit _ _ _ active => exact active.enabled
  have promoted : (s.promote d e replacement change.atTime).lifecycle = s.lifecycle := by
    rw [lifecycle_of_enrollments (promote_enrollments s d e replacement change.atTime)]
    exact lifecycle_put_same found rfl
  have tokens := applyTokens_lifecycle replacement.tokens change.atTime
    (s.promote d e replacement change.atTime) key
  rw [promoted] at tokens
  rcases tokens with same | ⟨t, member, rfl, opened⟩
  · rw [same]
    exact .kept _ _
  · rw [opened]
    cases row : s.lifecycle t.id.id with
    | none => exact .created _ rfl
    | some life =>
      have owner : life.id = t.id := unoccupied_lifecycle (free t member) row
      exact .captured ⟨e, replacement, found, enabled, advanced, t, member, owner.symm⟩

theorem Moves.of_same {key : String} {op : Op} (same : s'.lifecycle = s.lifecycle) :
    Moves s key op (s.lifecycle key) (s'.lifecycle key) := by
  rw [same]
  exact .kept op (s.lifecycle key)

theorem authenticate_moves {c : AuthenticateChange} {result : AuthenticateResult}
    (accepted : s.authenticateEnrollment id c = .ok (s', result)) (key : String) :
    Moves s key (.authenticateEnrollment id c) (s.lifecycle key) (s'.lifecycle key) := by
  obtain ⟨retry, checked, rfl, kept, changed⟩ := authenticateEnrollment_ok accepted
  cases retry with
  | true => exact .of_same (kept rfl ▸ rfl)
  | false =>
    obtain ⟨-, device, -, known⟩ := checkAuthenticate_new checked
    have free := checkAuthenticate_unoccupied checked
    have start (other : EnrollmentID)
        (own : other = id ∨ id.channel.isUser = false ∧ id.id = other.parentID) :
        Restarts s other (.authenticateEnrollment id c) :=
      .authenticate accepted (own.imp Eq.symm And.right) fun row found closed =>
        ((known row.enrollment (by simp [found])).2.1.resolve_left closed)
    have moved := reset_moves c.atTime
      (r := freshRecord (s.queueAt id.id) id c.message c.raw c.atTime) rfl start free key
    obtain ⟨-, rfl⟩ := changed rfl
    dsimp only
    split
    · rw [pin_lifecycle]
      · exact moved
      · rw [resetAuthenticateLocked, lifecycle_put, Function.update_self]
    · exact moved

theorem disable_moves {atTime : Time} (accepted : s.disable id atTime = .ok s') (key : String) :
    Moves s key (.disable id atTime) (s.lifecycle key) (s'.lifecycle key) := by
  obtain ⟨r, found, rfl⟩ := disable_ok accepted
  have identity := (get_ok.1 found).2.2
  have closed : (s.put (r.disable atTime)).lifecycle =
      Function.update s.lifecycle id.id (some ⟨id, false, atTime⟩) := by
    rw [lifecycle_put]
    simp [Record.disable, Lifecycle.of, identity]
  have own : Moves s id.id (.disable id atTime) (s.lifecycle id.id) (some ⟨id, false, atTime⟩) := by
    rw [get_lifecycle found]
    have moved : Moves s id.id (.disable id atTime) (some (.of r.enrollment))
        (some ⟨r.enrollment.id, false, atTime⟩) := .disabled (.inl identity.symm)
    rwa [identity] at moved
  dsimp only
  split
  · rw [closed]
    by_cases same : key = id.id
    · rw [same, Function.update_self]
      exact own
    · rw [Function.update_of_ne same]
      exact .kept _ _
  · next device =>
    simp only [Bool.not_eq_true] at device
    have children := lifecycle_map (s := s.put (r.disable atTime))
      (fun child => if child.enrollment.id.parentID = id.id then child.disable atTime else child)
      (fun life => if life.id.parentID = id.id then ⟨life.id, false, atTime⟩ else life)
      (fun child => by
        by_cases own : child.enrollment.id.parentID = id.id <;>
          simp [own, Lifecycle.of, Record.disable]) key
    rw [disableChildrenLocked, children, closed]
    by_cases same : key = id.id
    · rw [same, Function.update_self]
      have unchanged : (if id.parentID = id.id then (⟨id, false, atTime⟩ : Lifecycle)
          else ⟨id, false, atTime⟩) = ⟨id, false, atTime⟩ := ite_self _
      rw [Option.map_some, unchanged]
      exact own
    · rw [Function.update_of_ne same]
      cases s.lifecycle key with
      | none => exact .kept _ _
      | some life =>
        rw [Option.map_some]
        split
        · next child => exact .disabled (.inr ⟨device, child.symm⟩)
        · exact .kept _ _

theorem enqueueOne_lifecycle (cmd : Command) (o : EnqueueOptions) (now : Time)
    (state : Store × EnqueueResult) (id : EnrollmentID) :
    (enqueueOne cmd o now state id).1.lifecycle = state.1.lifecycle := by
  unfold enqueueOne
  split
  · rfl
  · next r accepted =>
    exact lifecycle_put_same (activeRecord_ok.1 (enqueueTarget_ok.1 accepted).1).1 rfl

theorem apply_moves (decodeResponse : DecodeResponse) {op : Op}
    (accepted : s.apply decodeResponse op = .ok s') (key : String) :
    Moves s key op (s.lifecycle key) (s'.lifecycle key) := by
  cases op <;> simp only [apply, map_ok, Prod.exists, exists_and_right, exists_eq_right] at accepted
  case authenticateEnrollment =>
    obtain ⟨result, accepted⟩ := accepted
    exact authenticate_moves accepted key
  case upsertAuthenticate id msg raw atTime =>
    obtain ⟨-, free, -, rfl⟩ := upsertAuthenticate_ok accepted
    exact reset_moves atTime rfl (fun other own => .upsert accepted (own.imp_left Eq.symm)) free key
  case storeTokenUpdate id push msg raw atTime =>
    obtain ⟨r, found, enabled, -, rfl⟩ := storeTokenUpdate_ok accepted
    have life : Lifecycle.of (tokenUpdate r.enrollment push msg raw atTime) =
        ⟨r.enrollment.id, true, 0⟩ := by cases msg <;> rfl
    rw [lifecycle_put, life, (tokenUpdate_pin _ _ _ _ _).1, (get_ok.1 found).2.2]
    by_cases same : key = id.id
    · subst same
      rw [Function.update_self, get_lifecycle found, Lifecycle.of, enabled, (get_ok.1 found).2.2]
      exact .enabled
    · rw [Function.update_of_ne same]
      exact .kept _ _
  case disable => exact disable_moves accepted key
  case transitionReplacement =>
    obtain ⟨out, accepted⟩ := accepted
    obtain ⟨e, -, found, ⟨r, -, rfl⟩ | ⟨r, mid, advanced, committed, rfl⟩⟩ :=
      transitionReplacement_ok accepted
    · exact .of_same (lifecycle_of_enrollments (putReplacement_enrollments _ _ _))
    · rw [lifecycle_of_enrollments (putReplacement_enrollments mid _ _)]
      exact commit_moves found advanced committed key
  case importRecord => exact .imported
  case storeUserAuthChallenge id challenge raw atTime =>
    obtain ⟨-, -, same | ⟨absent, added⟩⟩ := storeUserAuthChallenge_ok accepted
    · exact .of_same (lifecycle_of_enrollments same)
    · rw [lifecycle_of_enrollments added, lifecycle_put]
      by_cases same : key = id.id
      · rw [same, Function.update_self, show s.lifecycle id.id = none by simp [lifecycle, absent]]
        exact .created _ rfl
      · rw [Function.update_of_ne same]
        exact .kept _ _
  all_goals refine .of_same ?_
  case touchLastSeen =>
    simp only [touchLastSeen, bind_ok, pure_ok] at accepted
    obtain ⟨r, found, rfl⟩ := accepted
    split
    · exact lifecycle_put_same found rfl
    · rfl
  case enqueue =>
    obtain ⟨result, accepted⟩ := accepted
    exact enqueue_invariant (fun mid => mid.lifecycle = s.lifecycle)
      (fun cmd o now state id same => (enqueueOne_lifecycle cmd o now state id).trans same)
      rfl accepted
  case next =>
    obtain ⟨found, accepted⟩ := accepted
    obtain ⟨r, active, ⟨-, rfl, -⟩ | ⟨position, -, rfl, -⟩⟩ := next_ok accepted
    · rfl
    · exact lifecycle_put_same (activeRecord_ok.1 active).1 rfl
  case storeResult =>
    obtain ⟨r, response, position, _, _, -, -, -, active, -, rfl⟩ := storeResult_ok accepted
    exact lifecycle_put_same (activeRecord_ok.1 active).1 rfl
  case clear =>
    obtain ⟨n, accepted⟩ := accepted
    obtain ⟨r, found, -, rfl⟩ := clear_ok accepted
    exact lifecycle_put_same found rfl
  case clearCommand =>
    obtain ⟨n, accepted⟩ := accepted
    obtain ⟨r, found, -, rfl⟩ := clear_ok (clearCommand_ok accepted).2
    exact lifecycle_put_same found rfl
  case associateCert id hash atTime =>
    obtain ⟨r, -, found, -, rfl⟩ := associateCert_ok accepted
    rw [pin_lifecycle]
    · rfl
    · rw [(get_ok.1 found).2.2]
      exact get_lifecycle (s := s) found
  case storeBootstrapToken =>
    obtain ⟨r, bootstrap, found, rfl⟩ := storeBootstrapToken_ok accepted
    exact lifecycle_put_same (s := { s with bootstrap := bootstrap }) found rfl
  case storeUserAuthToken =>
    simp only [storeUserAuthToken, bind_ok] at accepted
    obtain ⟨-, -, -, -, accepted⟩ := accepted
    split at accepted
    · simp at accepted
    · simp only [pure_ok] at accepted
      exact accepted ▸ rfl
  case clearUserAuth =>
    simp only [clearUserAuth, bind_ok, pure_ok] at accepted
    obtain ⟨-, -, rfl⟩ := accepted
    rfl

end Store

end AppleDM.Inmem
