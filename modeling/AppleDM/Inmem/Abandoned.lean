import AppleDM.Storage.ReplacementRun
import AppleDM.Inmem.Checkout
import AppleDM.Inmem.Pins

set_option autoImplicit false

namespace AppleDM.Inmem

open Mdm Storage Checked Run

def Op.pins (id : EnrollmentID) (hash : String) : Op → Prop
  | .authenticateEnrollment d c => d = id ∧ c.hash = hash
  | .associateCert d given _ => d.device = id ∧ given = hash
  | .importRecord rec => rec.enrollment.id = id ∧ rec.enrollment.certHash = hash
  | _ => False

namespace Store

variable {s s' : Store} {id : EnrollmentID} {op : Op}

structure Commits (s : Store) (id : EnrollmentID) (op : Op) : Prop where
  commits : ∃ change e r mid, op = .transitionReplacement id change ∧ s.get id = .ok e ∧
    advanceReplacement (s.attemptOf id) e.enrollment change = (some r, .ok true) ∧
    s.commitReplacement id e r change.atTime = .ok mid

structure Begins (s : Store) (id : EnrollmentID) (op : Op) : Prop where
  begins : ∃ change next, op = .transitionReplacement id change ∧ change.op = .begin ∧
    s.transitionReplacement id change = .ok next

variable (decodeResponse : DecodeResponse)

theorem apply_replacements (other : ∀ d change, op ≠ .transitionReplacement d change)
    (accepted : s.apply decodeResponse op = .ok s') : s'.replacements = s.replacements := by
  have edits := apply_edits decodeResponse accepted
  clear accepted
  induction edits with
  | refl => rfl
  | tail _ edit ih =>
    cases edit with
    | attempt _ same _ _ _ _ => exact absurd same (other _ _)
    | _ => exact ih

def PendingUnder (P : String → Prop) (s : Store) (key : String) : Prop :=
  ∀ r, s.replacements[key]? = some r → r.state = .pending → P r.oldHash

theorem clone_pending {r : Option Replacement} {x : Replacement}
    (cloned : cloneReplacement r = some x) (pending : x.state = .pending) : r = some x := by
  obtain ⟨found, rfl, same⟩ := Option.map_eq_some_iff.1 cloned
  split at same
  · rw [same]
  · -- A record that does not survive the round trip comes back without a state.
    rw [← same] at pending
    cases pending

variable {P : String → Prop}

theorem advanced_pending {r next : Option Replacement} {e : Enrollment}
    {c : ReplacementChange} {commit : Bool} (advanced : Advanced r e c next commit)
    (kept : ∀ x, r = some x → x.state = .pending → P x.oldHash)
    (begun : ∀ n, c.op = .begin → CanStart n e c.atTime → P n.oldHash) :
    ∀ x, next = some x → x.state = .pending → P x.oldHash := by
  intro x here pending
  cases advanced with
  | read _ =>
    obtain ⟨before, found, same⟩ := Option.map_eq_some_iff.1 here
    rw [← same] at pending ⊢
    have unexpired := expire_unexpired pending
    rw [unexpired] at pending ⊢
    exact kept before found pending
  | begin n op _ start =>
    cases here
    exact begun n op start
  | change current changed found active applied _ =>
    cases here
    rw [(applyChange_keeps applied).1.2.1]
    exact kept current found active.pending
  | commit current changed _ _ _ _ =>
    cases here
    cases pending

theorem putReplacement_pending {key other : String} {r : Option Replacement}
    (kept : PendingUnder P s other)
    (put : key = other → ∀ x, r = some x → x.state = .pending → P x.oldHash) :
    PendingUnder P (s.putReplacement key (cloneReplacement r)) other := by
  cases r with
  | none => exact kept
  | some r =>
    intro x found pending
    simp only [putReplacement, cloneReplacement, Option.map_some,
      Std.ExtTreeMap.getElem?_insert] at found
    split at found
    · next same =>
      have here : cloneReplacement (some r) = some x := found
      exact put (by simpa using same) x (clone_pending here pending) pending
    · exact kept x found pending

theorem commitReplacement_replacements {e : Record} {r : Replacement} {atTime : Time}
    (accepted : s.commitReplacement id e r atTime = .ok s') : s'.replacements = s.replacements := by
  obtain ⟨-, -, rfl⟩ := commitReplacement_ok accepted
  obtain ⟨rows, same⟩ := applyTokens_frame (s.promote id e r atTime) atTime r.tokens
  rw [same]
  rfl

theorem apply_pending {key : String}
    (kept : PendingUnder P s key) (accepted : s.apply decodeResponse op = .ok s')
    (begun : ∀ d change e n, op = .transitionReplacement d change → d.id = key →
      s.get d = .ok e → change.op = .begin → CanStart n e.enrollment change.atTime → P n.oldHash) :
    PendingUnder P s' key := by
  by_cases other : ∀ d change, op ≠ .transitionReplacement d change
  · unfold PendingUnder
    rwa [apply_replacements decodeResponse other accepted]
  · simp only [not_forall, not_not] at other
    obtain ⟨d, change, rfl⟩ := other
    simp only [apply, map_ok, Prod.exists, exists_and_right, exists_eq_right] at accepted
    obtain ⟨out, accepted⟩ := accepted
    obtain ⟨e, -, found, moved⟩ := transitionReplacement_ok accepted
    have next {r : Option Replacement} {commit : Bool}
        (advanced : advanceReplacement (s.attemptOf d) e.enrollment change = (r, .ok commit))
        (same : d.id = key) : ∀ x, r = some x → x.state = .pending → P x.oldHash := by
      refine advanced_pending (advanceReplacement_ok advanced) (fun x here pending => ?_)
        fun n op start => begun d change e n rfl same found op start
      exact kept x (by rw [← same]; exact clone_pending here pending) pending
    rcases moved with ⟨r, advanced, rfl⟩ | ⟨r, mid, advanced, committed, rfl⟩
    · exact putReplacement_pending kept fun same => next advanced same
    · refine putReplacement_pending ?_ fun same => next advanced same
      unfold PendingUnder
      rwa [commitReplacement_replacements committed]

structure Abandoned (s : Store) (id : EnrollmentID) (old : String) : Prop where
  rows : s.WellFormed
  pin : ∃ hash, s.rowPin id.id = some (id, hash) ∧ hash ≠ old
  attempt : PendingUnder (· = old) s id.id

variable {old : String}

theorem Abandoned.inert (left : s.Abandoned id old) : ¬ s.Commits id op := by
  rintro ⟨change, e, r, mid, -, found, advanced, -⟩
  obtain ⟨hash, pin, moved⟩ := left.pin
  rw [get_rowPin found] at pin
  simp only [Option.some.injEq, Prod.mk.injEq, true_and] at pin
  generalize result : some r = next at advanced
  cases advanceReplacement_ok advanced with
  | commit current _ here active =>
    have old_ := left.attempt current (clone_pending here active.pending) active.pending
    rw [← old_, active.pinned, pin] at moved
    exact moved rfl

theorem Abandoned.pin_kept (named : old ≠ "") (left : s.Abandoned id old) (other : ¬ op.pins id old)
    (accepted : s.apply decodeResponse op = .ok s') :
    ∃ hash, s'.rowPin id.id = some (id, hash) ∧ hash ≠ old := by
  obtain ⟨hash, pin, moved⟩ := left.pin
  by_cases writes : writesPin id op
  · cases op <;> simp only [writesPin] at writes <;> subst writes <;>
      simp only [Op.pins, true_and] at other
    all_goals
      simp only [apply, map_ok, Prod.exists, exists_and_right, exists_eq_right] at accepted
    case authenticateEnrollment id c =>
      obtain ⟨⟨known, reset⟩, accepted⟩ := accepted
      obtain ⟨retry, -, same, kept, -⟩ := authenticateEnrollment_ok accepted
      cases retry with
      | true => exact ⟨hash, by rw [kept rfl, pin], moved⟩
      | false => exact ⟨c.hash, reset_pin (same ▸ accepted), other⟩
    case upsertAuthenticate id msg raw atTime =>
      obtain ⟨-, -, -, rfl⟩ := upsertAuthenticate_ok accepted
      refine ⟨"", ?_, named.symm⟩
      rw [resetAuthenticateLocked, rowPin_put]
      simp [freshRecord]
    case associateCert d given atTime =>
      obtain ⟨r, -, found, -, rfl⟩ := associateCert_ok accepted
      refine ⟨given, ?_, other⟩
      rw [pin_rowPin, (get_ok.1 found).2.2, Function.update_self]
    case transitionReplacement id change =>
      obtain ⟨out, accepted⟩ := accepted
      obtain ⟨e, -, found, ⟨r, -, rfl⟩ | ⟨r, mid, advanced, committed, -⟩⟩ :=
        transitionReplacement_ok accepted
      · refine ⟨hash, ?_, moved⟩
        rw [rowPin_of_enrollments (putReplacement_enrollments _ _ _), pin]
      · exact absurd ⟨change, e, r, mid, rfl, found, advanced, committed⟩ left.inert
    case importRecord rec =>
      obtain ⟨-, rfl⟩ := (importRecord_ok _ _ _).1 accepted
      refine ⟨rec.enrollment.certHash, ?_, other⟩
      rw [rowPin_of_enrollments (s := s.put ⟨rec.enrollment, _⟩) (imported_enrollments s rec),
        rowPin_put, Function.update_self]
  · exact ⟨hash, apply_rowPin decodeResponse left.rows pin writes accepted, moved⟩

theorem step_abandoned (named : old ≠ "")
    (left : s.Abandoned id old) (other : ¬ op.pins id old) (same : ¬ s.Begins id op) :
    (s.step decodeResponse op).Abandoned id old := by
  refine settle_preserves (Abandoned · id old) left fun next accepted => ?_
  refine ⟨apply_wellFormed decodeResponse left.rows accepted,
    left.pin_kept decodeResponse named other accepted,
    apply_pending decodeResponse left.attempt accepted ?_⟩
  rintro d change e n rfl key found op start
  -- The row under the key is the one of the device, so no other device can begin there.
  obtain ⟨hash, pin, -⟩ := left.pin
  have row := get_rowPin found
  rw [key, pin] at row
  simp only [Option.some.injEq, Prod.mk.injEq] at row
  obtain ⟨rfl, -⟩ := row
  simp only [apply, map_ok, Prod.exists, exists_and_right, exists_eq_right] at accepted
  obtain ⟨out, accepted⟩ := accepted
  exact absurd ⟨change, _, rfl, op, accepted⟩ same

end Store

theorem reset_ends_attempt (decodeResponse : DecodeResponse) (ops later : List Op)
    (id : EnrollmentID) (x : Replacement) (c : AuthenticateChange) (s' : Store)
    (pending : (run (Store.step decodeResponse) {} ops).attemptOf id = some x ∧
      x.state = .pending)
    (reset : (run (Store.step decodeResponse) {} ops).authenticateEnrollment id c =
      .ok (s', ⟨true, true⟩))
    (moved : c.hash ≠ x.oldHash) (kept : ∀ op ∈ later, ¬ op.pins id x.oldHash) :
    ∀ before entry after, history (Store.step decodeResponse) s' later = before ++ entry :: after →
      entry.1.Commits id entry.2 → ∃ start ∈ before, start.1.Begins id start.2 := by
  rintro before ⟨found, op⟩ after split commits
  obtain ⟨earlier, rest, rfl, rfl, rfl⟩ := history_split split
  have rows : (run (Store.step decodeResponse) {} ops).WellFormed :=
    run_invariant Store.WellFormed (fun s op rows => Store.step_wellFormed decodeResponse rows op)
      Store.empty_pinned.rows ops
  have named : Store.PendingUnder (· ≠ "") (run (Store.step decodeResponse) {} ops) id.id :=
    run_invariant (Store.PendingUnder (· ≠ "") · id.id)
      (fun s op named => settle_preserves (Store.PendingUnder (· ≠ "") · id.id) named
        fun _ accepted => Store.apply_pending decodeResponse named accepted
          fun _ _ _ _ _ _ _ _ start => start.2.2.2.2.1)
      (by simp [Store.PendingUnder]) ops
  have stored := Store.clone_pending pending.1 pending.2
  have accepted : (run (Store.step decodeResponse) {} ops).apply decodeResponse
      (.authenticateEnrollment id c) = .ok s' := by
    simp [Store.apply, reset, Functor.map, Except.map]
  have left : s'.Abandoned id x.oldHash := by
    refine ⟨Store.apply_wellFormed decodeResponse rows accepted,
      ⟨c.hash, Store.reset_pin reset, moved⟩, ?_⟩
    intro r here _
    rw [Store.apply_replacements decodeResponse (by simp) accepted, stored] at here
    rw [← Option.some.inj here]
  by_contra none_
  have still : (run (Store.step decodeResponse) s' earlier).Abandoned id x.oldHash := by
    refine allowed_invariant (fun (s : Store) (op : Op) => ¬ op.pins id x.oldHash ∧ ¬ s.Begins id op)
      (Store.Abandoned · id x.oldHash) (fun s op allowed left => ?_) left fun entry member => ?_
    · exact Store.step_abandoned decodeResponse (named x stored pending.2) left allowed.1 allowed.2
    · refine ⟨kept _ ?_, fun begins => none_ ⟨entry, member, begins⟩⟩
      exact List.mem_append_left _ (event_mem_of_history member)
  exact still.inert commits

def sampleDeviceToken : ReplacementToken :=
  ⟨sampleDevice, some ⟨"topic", [1], "magic", [], none, "", "", false⟩, []⟩

def pendingAttempt : List Op := enrollBoth ++ captureUser

def sampleReset : AuthenticateChange := { expectedHash := "old", hash := "other", atTime := 7 }

def lateToken : List Op :=
  [.storeTokenUpdate sampleDevice samplePush none [] 9,
    .transitionReplacement sampleDevice
      { op := .token, id := "R", hash := "new", atTime := 10, token := some sampleDeviceToken }]

theorem pendingAttempt_ends :
    let s := run (Store.step fun _ _ => none) {} (pendingAttempt ++
      [.authenticateEnrollment sampleDevice sampleReset])
    ∀ before entry after, history (Store.step fun _ _ => none) s lateToken =
      before ++ entry :: after → entry.1.Commits sampleDevice entry.2 →
        ∃ start ∈ before, start.1.Begins sampleDevice start.2 := by
  intro s
  have pending : ((run (Store.step fun _ _ => none) {} pendingAttempt).attemptOf sampleDevice).map
      (fun x => (x.state, x.oldHash)) = some (.pending, "old") := by decide +kernel
  obtain ⟨x, found, same⟩ := Option.map_eq_some_iff.1 pending
  simp only [Prod.mk.injEq] at same
  have reset : ((run (Store.step fun _ _ => none) {} pendingAttempt).authenticateEnrollment
      sampleDevice sampleReset).map (·.2) = .ok ⟨true, true⟩ := by decide +kernel
  obtain ⟨⟨after, result⟩, accepted, rfl⟩ : ∃ next, (run (Store.step fun _ _ => none) {}
      pendingAttempt).authenticateEnrollment sampleDevice sampleReset = .ok next ∧
      next.2 = ⟨true, true⟩ := (map_ok _ _ _).1 reset
  have last : s = after := by
    simp only [s, run_append, run_cons, run_nil]
    simp [Store.step, Store.apply, accepted, Functor.map, Except.map]
  rw [last]
  refine reset_ends_attempt (fun _ _ => none) pendingAttempt lateToken sampleDevice x sampleReset
    after ⟨found, same.1⟩ accepted (by rw [same.2]; decide) ?_
  simp [lateToken, Op.pins]

theorem returnedPin_commits :
    let s := run (Store.step fun _ _ => none) {} pendingAttempt
    let later : List Op := [.authenticateEnrollment sampleDevice
      { expectedHash := "other", hash := "old", atTime := 8 }] ++ lateToken
    let last := run (Store.step fun _ _ => none) {} (pendingAttempt ++
      [.authenticateEnrollment sampleDevice sampleReset] ++ later)
    (s.attemptOf sampleDevice).map (fun x => (x.id, x.state)) = some ("R", .pending) ∧
      (s.authenticateEnrollment sampleDevice sampleReset).map (·.2) = .ok ⟨true, true⟩ ∧
      (last.attemptOf sampleDevice).map (fun x => (x.id, x.state)) = some ("R", .committed) ∧
      (last.certHash sampleDevice) = .ok "new" := by
  decide +kernel

end AppleDM.Inmem
