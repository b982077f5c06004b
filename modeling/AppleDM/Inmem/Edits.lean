import Mathlib.Logic.Relation
import AppleDM.Inmem.Lifecycle

set_option autoImplicit false

namespace AppleDM.Inmem

open Mdm Storage Checked Run Relation

def Op.keepsPins : Op → Bool
  | .authenticateEnrollment .. | .upsertAuthenticate .. | .associateCert ..
  | .storeUserAuthChallenge .. | .transitionReplacement .. | .importRecord _ => false
  | _ => true

def Op.writesAuth : Op → Bool
  | .authenticateEnrollment .. | .upsertAuthenticate .. | .storeUserAuthChallenge ..
  | .storeUserAuthToken .. | .clearUserAuth _ => true
  | _ => false

def Op.moves : Op → Bool
  | .enqueue .. | .next .. => true
  | _ => false

def Op.subjects : Op → List EnrollmentID
  | .authenticateEnrollment id _ | .upsertAuthenticate id .. | .storeTokenUpdate id ..
  | .disable id _ | .touchLastSeen id _ | .next id .. | .storeResult id .. | .clear id ..
  | .clearCommand id .. | .associateCert id .. | .storeBootstrapToken id ..
  | .storeUserAuthChallenge id .. | .storeUserAuthToken id .. | .clearUserAuth id
  | .transitionReplacement id _ => [id]
  | .enqueue ids .. => ids
  | .importRecord rec => [rec.enrollment.id]

def Op.reaches (b : EnrollmentID) : Op → Prop
  | .authenticateEnrollment id _ | .upsertAuthenticate id .. | .disable id _
  | .transitionReplacement id _ => id.channel.isUser = false ∧ b.parentID = id.id
  | .associateCert id .. | .storeBootstrapToken id .. => b = id.device
  | _ => False

namespace Store

def rowPin (s : Store) (key : String) : Option (EnrollmentID × String) :=
  (s.enrollments[key]?).map fun r => (r.enrollment.id, r.enrollment.certHash)

def row (s : Store) (b : EnrollmentID) : Option Record :=
  (s.enrollments[b.id]?).filter fun r => r.enrollment.id = b

def writesPin (id : EnrollmentID) : Op → Prop
  | .authenticateEnrollment d _ => d = id
  | .upsertAuthenticate d .. => d = id
  | .associateCert d .. => d.device = id
  | .transitionReplacement d _ => d = id
  | .importRecord rec => rec.enrollment.id = id
  | _ => False

def Touches (s : Store) (op : Op) (b : EnrollmentID) : Prop :=
  b ∈ op.subjects ∨ op.reaches b ∨
    ∃ d change, op = .transitionReplacement d change ∧ Captured s b d change

inductive Repins (op : Op) (r : Record) : Option (EnrollmentID × String) → Prop where
  | kept : Repins op r (some (r.enrollment.id, r.enrollment.certHash))
  | created (writes : op.keepsPins = false) (unpinned : r.enrollment.certHash = "") :
      Repins op r none
  | written {before : Option (EnrollmentID × String)} (writes : writesPin r.enrollment.id op)
      (device : r.enrollment.certHash ≠ "" →
        r.enrollment.id.Valid ∧ r.enrollment.id.channel.isUser = false) : Repins op r before

inductive Edit (start : Store) (op : Op) (s : Store) : Store → Prop where
  | row (r : Record) (free : ¬ s.occupied r.enrollment.id)
      (own : Touches start op r.enrollment.id)
      (pin : Repins op r (s.rowPin r.enrollment.id.id))
      (queue : op.moves = true ∨ Unmoved (s.queueAt r.enrollment.id.id) r.queue) :
      Edit start op s (s.put r)
  | rows (f : Record → Record) (identity : ∀ r, (f r).enrollment.id = r.enrollment.id)
      (own : ∀ r, ¬ Touches start op r.enrollment.id → f r = r)
      (pin : ∀ r, (f r).enrollment.certHash = r.enrollment.certHash ∨
        op.keepsPins = false ∧ (f r).enrollment.certHash = "" ∧ r.enrollment.id.parentID ≠ "")
      (queue : ∀ r, Unmoved r.queue (f r).queue) :
      Edit start op s { s with enrollments := s.enrollments.map fun _ r => f r }
  | certs (writes : op.keepsPins = false) (table : Table String EnrollmentID) :
      Edit start op s { s with certs := table }
  | bootstrap {a : EnrollmentID} (writes : op.plain = false) (free : ¬ s.occupied a)
      (own : Touches start op a) (table : Table String Bytes)
      (others : ∀ key, a.id ≠ key → table[key]? = s.bootstrap[key]?) :
      Edit start op s { s with bootstrap := table }
  | auth {a : EnrollmentID} (writes : op.writesAuth = true) (free : ¬ s.occupied a)
      (own : Touches start op a) (table : Table String UserAuthState)
      (others : ∀ key, a.id ≠ key → table[key]? = s.userAuth[key]?)
      (self : ∀ st, table[a.id]? = some st →
        (∃ r, s.enrollments[a.id]? = some r ∧ r.enrollment.id = st.id) ∨
          ∃ before, s.userAuth[a.id]? = some before ∧ before.id = st.id) :
      Edit start op s { s with userAuth := table }
  | auths (writes : op.writesAuth = true) (keep : UserAuthState → Bool)
      (own : ∀ st, ¬ Touches start op st.id → keep st = true) :
      Edit start op s { s with userAuth := s.userAuth.filter fun _ st => keep st }
  | attempt {a : EnrollmentID} {change : ReplacementChange} {e : Record}
      {next : Option Replacement} {commit : Bool} (x : Replacement)
      (same : op = .transitionReplacement a change) (device : a.channel.isUser = false)
      (found : start.get a = .ok e)
      (advanced : advanceReplacement (start.attemptOf a) e.enrollment change = (next, .ok commit))
      (cloned : cloneReplacement next = some x) :
      Edit start op s { s with replacements := s.replacements.insert a.id x }
  | association {a : EnrollmentID} (writes : op.plain = false) (own : Touches start op a)
      (found : ∃ r, s.row a = some r) (hash : String) (atTime : Time) :
      Edit start op s { s with history := s.history ++ [⟨a, hash, atTime⟩] }

abbrev Edits (start : Store) (op : Op) : Store → Store → Prop := ReflTransGen (Edit start op)

variable {start s s' : Store} {op : Op} {a b : EnrollmentID} {r new : Record}

theorem row_some : s.row b = some r ↔ s.enrollments[b.id]? = some r ∧ r.enrollment.id = b := by
  simp [row, Option.filter_eq_some_iff]

theorem row_put_self (s : Store) (own : r.enrollment.id = b) : (s.put r).row b = some r := by
  subst own
  exact row_some.2 ⟨Std.ExtTreeMap.getElem?_insert_self, rfl⟩

theorem get_rowPin (found : s.get a = .ok r) :
    s.rowPin a.id = some (a, r.enrollment.certHash) := by
  obtain ⟨-, row, same⟩ := get_ok.1 found
  simp [rowPin, row, same]

theorem occupied_map {f : Record → Record}
    (identity : ∀ r : Record, (f r).enrollment.id = r.enrollment.id) :
    { s with enrollments := s.enrollments.map fun _ r => f r }.occupied a ↔ s.occupied a := by
  simp only [occupied, Std.ExtTreeMap.getElem?_map]
  cases s.enrollments[a.id]? <;> simp [identity]

theorem userAuthTargetLocked_ok (target : s.userAuthTargetLocked a = .ok ()) :
    a.Valid ∧ a.channel.isUser = true ∧ ¬ s.occupied a ∧
      (∀ st, s.userAuth[a.id]? = some st → st.id = a) ∧
      ∃ parent, s.get a.device = .ok parent := by
  simp only [userAuthTargetLocked, bind_ok, validated_ok, reject_ok, deviceRecordLocked_ok] at target
  obtain ⟨_, valid, _, user, _, -, _, own, parent, ⟨-, free, found⟩, -⟩ := target
  refine ⟨valid, by simpa using user, free, fun st there => ?_, parent, found⟩
  simpa [there] using own

theorem Edit.update (own : Touches start op a) (found : s.get a = .ok r)
    (identity : new.enrollment.id = r.enrollment.id)
    (hash : new.enrollment.certHash = r.enrollment.certHash)
    (queue : op.moves = true ∨ Unmoved r.queue new.queue) : Edit start op s (s.put new) := by
  have mine : new.enrollment.id = a := identity.trans (get_ok.1 found).2.2
  refine .row new ?_ ?_ ?_ ?_ <;> rw [mine]
  · exact get_unoccupied found
  · exact own
  · rw [get_rowPin found, ← hash, ← mine]
    exact .kept
  · rwa [get_queueAt found]

theorem touches_self (own : op.subjects = [a]) : Touches s op a := .inl (by simp [own])

theorem association_edits (writes : op.plain = false) (own : Touches start op a) (found : ∃ r, s.row a = some r)
    (hash : String) (atTime : Time) :
    Edits start op s (s.recordAssociationLocked a hash atTime) := by
  unfold recordAssociationLocked
  split
  · exact .refl
  · exact .single (.association writes own found hash atTime)

theorem pin_edits {hash : String} (own : Touches start op r.enrollment.id)
    (free : ¬ s.occupied r.enrollment.id) (writes : writesPin r.enrollment.id op)
    (keeps : op.keepsPins = false) (plain : op.plain = false) (valid : r.enrollment.id.Valid)
    (device : r.enrollment.id.channel.isUser = false)
    (queue : s.queueAt r.enrollment.id.id = r.queue) (atTime : Time) :
    Edits start op s (s.pin r r.enrollment.id hash atTime) := by
  have certs : Edits start op s { s with certs := s.certs.insert hash r.enrollment.id } :=
    .single (.certs keeps _)
  have row := certs.tail (.row
    { r with enrollment := { r.enrollment with certHash := hash, certHashAt := atTime } }
    free own (.written writes fun _ => ⟨valid, device⟩) (.inr (queue ▸ Unmoved.refl _)))
  refine row.trans (association_edits plain own ?_ hash atTime)
  exact ⟨_, row_put_self _ rfl⟩

theorem reset_edits (free : ¬ s.occupied r.enrollment.id) (own : op.subjects = [r.enrollment.id])
    (valid : r.enrollment.id.Valid)
    (children : ∀ b, r.enrollment.id.channel.isUser = false →
      b.parentID = r.enrollment.id.id → op.reaches b)
    (writes : writesPin r.enrollment.id op) (keeps : op.keepsPins = false)
    (plain : op.plain = false) (auth : op.writesAuth = true)
    (unpinned : r.enrollment.certHash = "") {atTime : Time}
    (queue : r.queue = clearPending (s.queueAt r.enrollment.id.id) atTime) :
    Edits s op s (s.resetAuthenticateLocked r atTime) := by
  have pin {before : Option (EnrollmentID × String)} : Repins op r before :=
    .written writes fun named => absurd unpinned named
  unfold resetAuthenticateLocked resetOwned
  split
  · exact .single (.row r free (touches_self own) pin (.inr (queue ▸ clearPending_unmoved _ _)))
  next device =>
  have identity (child : Record) : (if child.enrollment.id.parentID = r.enrollment.id.id then
      child.resetChild atTime else child).enrollment.id = child.enrollment.id := by
    split <;> rfl
  have mine {b : EnrollmentID} (apart : ¬ Touches s op b) : b.parentID ≠ r.enrollment.id.id :=
    fun child => apart (.inr (.inl (children b (by simpa using device) child)))
  have cleared : Edits s op s ((s.dropCertLocked r.enrollment.id.id).clearUserAuthOfDeviceLocked
      r.enrollment.id.id) :=
    (ReflTransGen.single (.certs keeps _)).tail (.auths auth _ fun st apart => decide_eq_true (mine apart))
  refine ((cleared.tail (.bootstrap (a := r.enrollment.id) plain ?_ (touches_self own)
    (s.bootstrap.erase r.enrollment.id.id) ?_)).tail
      (.rows _ identity (fun child apart => if_neg (mine apart)) ?_ ?_)).tail
    (.row r ?_ (touches_self own) pin (.inr ?_))
  · exact free
  · intro key other
    exact Std.ExtTreeMap.getElem?_erase.trans (if_neg (by simpa using other))
  · intro child
    split
    · next child => exact .inr ⟨keeps, rfl, by rw [child]; exact valid.named⟩
    · exact .inl rfl
  · intro child
    split
    · exact clearPending_unmoved child.queue atTime
    · exact Unmoved.refl child.queue
  · exact fun occupied => free ((occupied_map identity).1 occupied)
  · rw [queue]
    simp only [queueAt, Std.ExtTreeMap.getElem?_map, clearUserAuthOfDeviceLocked, dropCertLocked]
    cases s.enrollments[r.enrollment.id.id]? with
    | none => exact .nil
    | some before =>
      simp only [Option.map_some]
      split
      · exact Unmoved.refl _
      · exact clearPending_unmoved before.queue atTime

theorem tokens_edits {atTime : Time} (tokens : List ReplacementToken) (keeps : op.keepsPins = false)
    (own : ∀ t ∈ tokens, Touches start op t.id)
    (rows : ∀ t ∈ tokens, ∀ old, s.enrollments[t.id.id]? = some old →
      old.enrollment.id.id = t.id.id ∧ Touches start op old.enrollment.id) :
    Edits start op s (tokens.foldl (applyTokenLocked atTime) s) := by
  induction tokens generalizing s with
  | nil => exact .refl
  | cons t rest ih =>
    have kept := applyReplacementToken_pin (s.tokenRow t atTime).enrollment t atTime
    have mine : (s.tokenRow t atTime).enrollment.id.id = t.id.id ∧
        Touches start op (s.tokenRow t atTime).enrollment.id := by
      unfold tokenRow
      split
      · next old there => exact rows t (by simp) old there
      · exact ⟨rfl, own t (by simp)⟩
    have free : ¬ s.occupied (s.tokenRow t atTime).enrollment.id := by
      rw [occupied_iff, mine.1]
      rintro ⟨row, there, different⟩
      simp [tokenRow, there] at different
    have pin : s.rowPin t.id.id = none ∧ (s.tokenRow t atTime).enrollment.certHash = "" ∨
        s.rowPin t.id.id =
          some ((s.tokenRow t atTime).enrollment.id, (s.tokenRow t atTime).enrollment.certHash) := by
      unfold tokenRow rowPin
      cases s.enrollments[t.id.id]? with
      | none => exact .inl ⟨rfl, rfl⟩
      | some old => exact .inr rfl
    have written : applyTokenLocked atTime s t = s.put
        ⟨applyReplacementToken (s.tokenRow t atTime).enrollment t atTime,
          (s.tokenRow t atTime).queue⟩ := by
      rw [put, kept.1, mine.1]
      rfl
    have first : Edit start op s (applyTokenLocked atTime s t) := by
      rw [written]
      refine .row _ (by rwa [kept.1]) (by rw [kept.1]; exact mine.2) ?_ (.inr ?_) <;>
        rw [kept.1, mine.1]
      · rcases pin with ⟨absent, unpinned⟩ | there
        · rw [absent]
          exact .created keeps (kept.2.trans unpinned)
        · rw [there, ← kept.1, ← kept.2]
          exact .kept
      · unfold queueAt tokenRow
        cases s.enrollments[t.id.id]? with
        | none => exact .nil
        | some old => exact Unmoved.refl old.queue
    refine .head first (ih (fun t member => own t (List.mem_cons_of_mem _ member)) ?_)
    intro later member old there
    simp only [applyTokenLocked, putAt, Std.ExtTreeMap.getElem?_insert] at there
    split at there
    · next same =>
      obtain rfl := Option.some.inj there
      rw [kept.1, mine.1]
      exact ⟨by simpa using same, mine.2⟩
    · exact rows later (List.mem_cons_of_mem _ member) old there

theorem associations_edits (writes : op.plain = false) (own : Touches start op a) (found : ∃ r, s.row a = some r)
    (rows : List CertAssociation) :
    Edits start op s (rows.foldl (fun s x => s.recordAssociationLocked a x.hash x.atTime) s) := by
  induction rows generalizing s with
  | nil => exact .refl
  | cons x rest ih =>
    refine (association_edits writes own found x.hash x.atTime).trans (ih ?_)
    rwa [row, recordAssociationLocked_enrollments]

theorem apply_edits (decodeResponse : DecodeResponse)
    (accepted : s.apply decodeResponse op = .ok s') : Edits s op s s' := by
  cases op <;> simp only [apply, map_ok, Prod.exists, exists_and_right, exists_eq_right] at accepted
  case authenticateEnrollment id c =>
    obtain ⟨result, accepted⟩ := accepted
    obtain ⟨retry, checked, -, same, changed⟩ := authenticateEnrollment_ok accepted
    cases retry with
    | true => exact same rfl ▸ .refl
    | false =>
      obtain ⟨-, rfl⟩ := changed rfl
      obtain ⟨valid, device, -⟩ := checkAuthenticate_new checked
      have reset : Edits s (.authenticateEnrollment id c) s (s.resetAuthenticateLocked
          (freshRecord (s.queueAt id.id) id c.message c.raw c.atTime) c.atTime) := by
        refine reset_edits (checkAuthenticate_unoccupied checked) rfl valid ?_ ?_ rfl rfl rfl rfl rfl
        · exact fun b device child => ⟨device, child⟩
        · exact rfl
      dsimp only
      split
      · refine reset.trans (pin_edits (r := freshRecord _ id _ _ _) (touches_self rfl)
          (put_unoccupied _ _) ?_ rfl rfl valid device ?_ c.atTime)
        · exact rfl
        · simp [queueAt, put, putAt]
      · exact reset
  case upsertAuthenticate =>
    obtain ⟨valid, free, -, rfl⟩ := upsertAuthenticate_ok accepted
    refine reset_edits free rfl valid ?_ ?_ rfl rfl rfl rfl rfl
    · exact fun b device child => ⟨device, child⟩
    · exact rfl
  case storeTokenUpdate =>
    obtain ⟨r, found, -, -, rfl⟩ := storeTokenUpdate_ok accepted
    have kept := tokenUpdate_pin r.enrollment
    exact .single (.update (touches_self rfl) found (kept _ _ _ _).1 (kept _ _ _ _).2
      (.inr (Unmoved.refl _)))
  case disable id atTime =>
    obtain ⟨r, found, rfl⟩ := disable_ok accepted
    have own : Edits s (.disable id atTime) s (s.put (r.disable atTime)) :=
      .single (.update (touches_self rfl) found rfl rfl (.inr (clearPending_unmoved _ _)))
    dsimp only
    split
    · exact own
    · next device =>
      refine own.tail (.rows _ (fun child => ?_) (fun child apart => if_neg fun same => ?_)
        (fun child => .inl ?_) fun child => ?_)
      · split <;> rfl
      · exact apart (.inr (.inl ⟨by simpa using device, same⟩))
      · split <;> rfl
      · split
        · exact clearPending_unmoved child.queue atTime
        · exact Unmoved.refl child.queue
  case touchLastSeen =>
    simp only [touchLastSeen, bind_ok, pure_ok] at accepted
    obtain ⟨r, found, rfl⟩ := accepted
    split
    · exact .single (.update (touches_self rfl) found rfl rfl (.inr (Unmoved.refl _)))
    · exact .refl
  case enqueue ids cmd o clock =>
    obtain ⟨result, accepted⟩ := accepted
    obtain ⟨cmd', now, -, -, -, same⟩ := enqueue_ok accepted
    have last : s' = (run (enqueueOne cmd' o now) (s, {}) ids).1 := congrArg Prod.fst same
    rw [last]
    refine allowed_invariant (fun _ id => id ∈ ids)
      (fun state : Store × EnqueueResult => Edits s (.enqueue ids cmd o clock) s state.1)
      (fun state id asked held => ?_) .refl fun entry member => event_mem_of_history member
    unfold enqueueOne
    split
    · exact held
    · next r target =>
      exact held.tail (.update (.inl asked) (activeRecord_ok.1 (enqueueTarget_ok.1 target).1).1
        rfl rfl (.inl rfl))
  case next =>
    obtain ⟨result, accepted⟩ := accepted
    obtain ⟨r, active, ⟨-, rfl, -⟩ | ⟨position, -, rfl, -⟩⟩ := next_ok accepted
    · exact .refl
    · exact .single (.update (touches_self rfl) (activeRecord_ok.1 active).1 rfl rfl (.inl rfl))
  case storeResult =>
    obtain ⟨r, response, position, _, _, -, -, -, active, waiting, rfl⟩ := storeResult_ok accepted
    exact .single (.update (touches_self rfl) (activeRecord_ok.1 active).1 rfl rfl
      (.inr (answer_unmoved waiting _)))
  case clear =>
    obtain ⟨n, accepted⟩ := accepted
    obtain ⟨r, found, -, rfl⟩ := clear_ok accepted
    exact .single (.update (touches_self rfl) found rfl rfl (.inr (clears_unmoved r.queue _ _)))
  case clearCommand =>
    obtain ⟨n, accepted⟩ := accepted
    obtain ⟨r, found, -, rfl⟩ := clear_ok (clearCommand_ok accepted).2
    exact .single (.update (touches_self rfl) found rfl rfl (.inr (clears_unmoved r.queue _ _)))
  case associateCert id hash atTime =>
    obtain ⟨r, -, found, -, rfl⟩ := associateCert_ok accepted
    obtain ⟨valid, -, same⟩ := get_ok.1 found
    have dropped : Edits s (.associateCert id hash atTime) s (s.dropCertLocked id.device.id) :=
      .single (.certs rfl _)
    rw [← same] at dropped valid ⊢
    have own : Touches s (.associateCert id hash atTime) r.enrollment.id := .inr (.inl same)
    refine dropped.trans (pin_edits own ?_ same.symm rfl rfl valid ?_ ?_ atTime)
    · rw [same]
      exact get_unoccupied found
    · simp [same]
    · rw [same]
      exact get_queueAt (s := s) found
  case storeBootstrapToken id token atTime =>
    simp only [storeBootstrapToken, bind_ok, pure_ok, deviceRecordLocked_ok] at accepted
    obtain ⟨r, ⟨-, -, found⟩, -, -, rfl⟩ := accepted
    have own : Touches s (.storeBootstrapToken id token atTime) id.device := .inr (.inl rfl)
    refine (ReflTransGen.single (.bootstrap rfl (get_unoccupied found) own _ fun key other => ?_)).tail
      (.update own found rfl rfl (.inr (Unmoved.refl _)))
    split
    · simp [Std.ExtTreeMap.getElem?_erase, other]
    · simp [Std.ExtTreeMap.getElem?_insert, other]
  case storeUserAuthChallenge id challenge raw atTime =>
    simp only [storeUserAuthChallenge, bind_ok, pure_ok] at accepted
    obtain ⟨_, -, _, target, rfl⟩ := accepted
    have free := (userAuthTargetLocked_ok target).2.2.1
    have write {mid : Store} (free : ¬ mid.occupied id) {r : Record}
        (here : mid.enrollments[id.id]? = some r) :
        Edit s (.storeUserAuthChallenge id challenge raw atTime) mid { mid with
          userAuth := mid.userAuth.insert id.id
            { id := id, challenge := challenge, challengeAt := atTime, authenticateRaw := raw } } := by
      refine .auth rfl free (touches_self rfl) _ (fun key other => ?_) fun st there => .inl ⟨r, here, ?_⟩
      · simp [Std.ExtTreeMap.getElem?_insert, other]
      · simp only [Std.ExtTreeMap.getElem?_insert_self, Option.some.injEq] at there
        rw [← there]
        by_contra different
        exact free (occupied_iff.2 ⟨r, here, different⟩)
    cases row : s.enrollments[id.id]? with
    | some r =>
      simp only [Option.isSome_some, if_true]
      exact .single (write free row)
    | none =>
      simp only [Option.isSome_none, Bool.false_eq_true, if_false]
      refine (ReflTransGen.single (.row _ free (touches_self rfl) ?_ (.inr ?_))).tail
        (write (put_unoccupied s _) Std.ExtTreeMap.getElem?_insert_self)
      · rw [rowPin, row]
        exact .created rfl rfl
      · simp [queueAt, row]
  case storeUserAuthToken id token raw atTime =>
    simp only [storeUserAuthToken, bind_ok] at accepted
    obtain ⟨_, -, _, target, accepted⟩ := accepted
    split at accepted
    · simp at accepted
    · next before found =>
      simp only [pure_ok] at accepted
      subst accepted
      refine .single (.auth rfl (userAuthTargetLocked_ok target).2.2.1 (touches_self rfl) _
        (fun key other => ?_) fun st there => .inr ⟨before, found, ?_⟩)
      · simp [Std.ExtTreeMap.getElem?_insert, other]
      · simp only [Std.ExtTreeMap.getElem?_insert_self, Option.some.injEq] at there
        rw [← there]
  case clearUserAuth id =>
    simp only [clearUserAuth, bind_ok, pure_ok] at accepted
    obtain ⟨_, target, rfl⟩ := accepted
    refine .single (.auth rfl (userAuthTargetLocked_ok target).2.2.1 (touches_self rfl) _
      (fun key other => ?_) fun st there => ?_)
    · simp [Std.ExtTreeMap.getElem?_erase, other]
    · simp at there
  case transitionReplacement id change =>
    obtain ⟨out, accepted⟩ := accepted
    obtain ⟨e, device, found, moved⟩ := transitionReplacement_ok accepted
    have put {mid : Store} {next : Option Replacement} {commit : Bool}
        (advanced : advanceReplacement (s.attemptOf id) e.enrollment change = (next, .ok commit)) :
        Edits s (.transitionReplacement id change) mid
          (mid.putReplacement id.id (cloneReplacement next)) := by
      cases cloned : cloneReplacement next with
      | none => exact .refl
      | some x => exact .single (.attempt x rfl device found advanced cloned)
    rcases moved with ⟨next, advanced, rfl⟩ | ⟨x, mid, advanced, committed, rfl⟩
    · exact put advanced
    · obtain ⟨free, -, rfl⟩ := commitReplacement_ok committed
      obtain ⟨valid, row, identity⟩ := get_ok.1 found
      have own : Touches s (.transitionReplacement id change) id := touches_self rfl
      have enabled : e.enrollment.enabled = true := by
        generalize result : some x = next at advanced
        cases advanceReplacement_ok advanced with
        | commit _ _ _ active => exact active.enabled
      have captured : ∀ t ∈ x.tokens, Touches s (.transitionReplacement id change) t.id :=
        fun t member => .inr (.inr ⟨id, change, rfl, e, x, found, enabled, advanced, t, member, rfl⟩)
      have promoted : Edits s (.transitionReplacement id change) s
          (s.promote id e x change.atTime) := by
        have certs : Edits s (.transitionReplacement id change) s { s with
            certs := (s.dropCertLocked id.id).certs.insert x.candidateHash id } :=
          .single (.certs rfl _)
        refine (certs.tail (.association rfl own ⟨e, ?_⟩ x.candidateHash change.atTime)).tail
          (.row (e.promote x change.atTime) ?_ ?_ (.written ?_ fun _ => ?_) (.inr ?_))
        · exact row_some.2 ⟨row, identity⟩
        all_goals rw [show (e.promote x change.atTime).enrollment.id = id from identity]
        · exact get_unoccupied found
        · exact own
        · exact rfl
        · exact ⟨valid, device⟩
        · exact get_queueAt (s := s) found ▸ Unmoved.refl _
      refine (promoted.trans (tokens_edits x.tokens rfl captured fun t member old there => ?_)).trans
        (put advanced)
      simp only [promote, Store.put, putAt, Std.ExtTreeMap.getElem?_insert] at there
      split at there
      · next same =>
        obtain rfl := Option.some.inj there
        refine ⟨by simpa using same, ?_⟩
        rwa [show (e.promote x change.atTime).enrollment.id = id from identity]
      · have mine : old.enrollment.id = t.id := by
          by_contra different
          exact free t member (occupied_iff.2 ⟨old, there, different⟩)
        rw [mine]
        exact ⟨rfl, captured t member⟩
  case importRecord rec =>
    obtain ⟨importable, rfl⟩ := (importRecord_ok _ _ _).1 accepted
    have own : Touches s (.importRecord rec) rec.enrollment.id := touches_self rfl
    have row : Edit s (.importRecord rec) s
        (s.put ⟨rec.enrollment, s.queueAt rec.enrollment.id.id⟩) := by
      refine .row _ importable.free own (.written rfl fun named => ⟨importable.valid, ?_⟩)
        (.inr (Unmoved.refl _))
      by_contra user
      exact named (importable.user (by simpa using user)).1
    unfold imported
    dsimp only
    split
    · exact .single row
    · have device : Edits s (.importRecord rec) s
          ((s.put ⟨rec.enrollment, s.queueAt rec.enrollment.id.id⟩).importDevice rec) := by
        have certs := (ReflTransGen.single row).tail (.certs rfl
          ((s.put ⟨rec.enrollment, s.queueAt rec.enrollment.id.id⟩).importDevice rec).certs)
        refine certs.tail (.bootstrap rfl ?_ own _ ?_)
        · exact put_unoccupied s _
        · intro key other
          dsimp only
          split
          · simp [Std.ExtTreeMap.getElem?_insert, other, dropCertLocked]
          · simp [Std.ExtTreeMap.getElem?_erase, other, dropCertLocked]
      refine device.trans (associations_edits rfl own ?_ _)
      exact ⟨_, row_put_self s rfl⟩

end Store

end AppleDM.Inmem
