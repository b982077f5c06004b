import AppleDM.Inmem.Pins
import AppleDM.Inmem.RoundTrip

set_option autoImplicit false

namespace AppleDM.Inmem

open Mdm Storage Checked Rows Run

def associated (a : CertAssociation) : String × String := (a.id.id, a.hash)

namespace Store

def pins (s : Store) : Op → List CertAssociation
  | .authenticateEnrollment id c =>
    match checkAuthenticate id ((s.enrollments[id.id]?).map (·.enrollment)) c with
    | .ok false => if c.hash = "" then [] else [⟨id, c.hash, c.atTime⟩]
    | _ => []
  | .associateCert id hash atTime => [⟨id.device, hash, atTime⟩]
  | .transitionReplacement id change =>
    match s.get id with
    | .error _ => []
    | .ok e =>
      match advanceReplacement (s.attemptOf id) e.enrollment change with
      | (some r, .ok true) => [⟨id, r.candidateHash, change.atTime⟩]
      | _ => []
  | .importRecord rec =>
    if rec.enrollment.id.channel.isUser then []
    else rec.certHistory.map fun a => ⟨rec.enrollment.id, a.hash, a.atTime⟩
  | _ => []

def pinRow (s : Store) (key : String) : Option CertAssociation :=
  (s.enrollments[key]?).map fun r =>
    ⟨r.enrollment.id, r.enrollment.certHash, r.enrollment.certHashAt⟩

def hashAt (s : Store) (key : String) : String := ((s.pinRow key).map (·.hash)).getD ""

def remember : Op → List CertAssociation → CertAssociation → List CertAssociation
  | .transitionReplacement .., rows, row => rows ++ [row]
  | _, rows, row => insertNew sameAssociation rows row

variable {start s s' : Store} {op : Op} {r : Record} {id dev : EnrollmentID} {hash : String}
  {atTime : Time}

theorem remembered (op : Op) (rows : List CertAssociation) (row : CertAssociation) :
    rows <+: remember op rows row ∧ associated row ∈ (remember op rows row).map associated := by
  have recorded : rows <+: insertNew sameAssociation rows row ∧
      associated row ∈ (insertNew sameAssociation rows row).map associated := by
    unfold insertNew
    split
    · next known =>
      refine ⟨List.prefix_rfl, ?_⟩
      simpa [sameAssociation, associated] using known
    · exact ⟨List.prefix_append _ _, by simp⟩
  cases op <;> first | exact recorded | exact ⟨List.prefix_append _ _, by simp [remember]⟩

theorem foldl_remembered (op : Op) (rows added : List CertAssociation) :
    rows <+: added.foldl (remember op) rows ∧
      ∀ a ∈ added, associated a ∈ (added.foldl (remember op) rows).map associated := by
  induction added generalizing rows with
  | nil => exact ⟨List.prefix_rfl, by simp⟩
  | cons row rest ih =>
    obtain ⟨grows, kept⟩ := ih (remember op rows row)
    obtain ⟨one, here⟩ := remembered op rows row
    refine ⟨one.trans grows, fun a member => ?_⟩
    rcases List.mem_cons.1 member with rfl | member
    · exact (grows.map associated).subset here
    · exact kept a member

theorem Edit.history_plain (edit : Edit start op s s') (plain : op.plain = true) :
    s'.history = s.history := by
  cases edit with
  | association writes => simp [plain] at writes
  | _ => rfl

theorem resetAuthenticateLocked_history (s : Store) (r : Record) (atTime : Time) :
    (s.resetAuthenticateLocked r atTime).history = s.history := by
  unfold resetAuthenticateLocked resetOwned
  split <;> rfl

theorem pin_history (s : Store) (r : Record) (dev : EnrollmentID) (hash : String)
    (atTime : Time) : (s.pin r dev hash atTime).history =
      insertNew sameAssociation s.history ⟨dev, hash, atTime⟩ :=
  recordAssociationLocked_history _ dev hash atTime

theorem putReplacement_history (s : Store) (key : String) (r : Option Replacement) :
    (s.putReplacement key r).history = s.history := by
  cases r <;> rfl

theorem hashAt_rowPin (s : Store) (key : String) :
    s.hashAt key = ((s.rowPin key).map (·.2)).getD "" := by
  unfold hashAt pinRow rowPin
  cases s.enrollments[key]? <;> rfl

theorem Edit.hashAt_cases (edit : Edit start op s s') (key : String) :
    s'.hashAt key = s.hashAt key ∨ s'.hashAt key = "" ∨ ∃ id, writesPin id op ∧ id.id = key := by
  cases edit with
  | row r _ _ pin _ =>
    by_cases here : key = r.enrollment.id.id
    · generalize found : s.rowPin r.enrollment.id.id = before at pin
      cases pin with
      | kept => exact .inl (by simp [hashAt_rowPin, rowPin_put, here, found])
      | created _ unpinned =>
        exact .inr (.inl (by simp [hashAt_rowPin, rowPin_put, here, unpinned]))
      | written writes _ => exact .inr (.inr ⟨_, writes, here.symm⟩)
    · exact .inl (by simp [hashAt_rowPin, rowPin_put, here])
  | rows f _ _ pin _ =>
    unfold hashAt pinRow
    rw [Std.ExtTreeMap.getElem?_map]
    cases s.enrollments[key]? with
    | none => exact .inl rfl
    | some r => exact (pin r).imp_right fun cleared => .inl cleared.2.1
  | _ => exact .inl rfl

theorem apply_hashAt (decodeResponse : DecodeResponse)
    (accepted : s.apply decodeResponse op = .ok s') (key : String) :
    s'.hashAt key = s.hashAt key ∨ s'.hashAt key = "" ∨ ∃ id, writesPin id op ∧ id.id = key := by
  have edits := apply_edits decodeResponse accepted
  clear accepted
  induction edits with
  | refl => exact .inl rfl
  | tail _ edit ih =>
    rcases edit.hashAt_cases key with same | changed
    · rwa [same]
    · exact .inr changed

theorem pinRow_put (s : Store) (r : Record) : (s.put r).pinRow r.enrollment.id.id =
    some ⟨r.enrollment.id, r.enrollment.certHash, r.enrollment.certHashAt⟩ := by
  simp [pinRow, put, putAt]

theorem pinRow_pin (s : Store) (own : r.enrollment.id = dev) :
    (s.pin r dev hash atTime).pinRow dev.id = some ⟨dev, hash, atTime⟩ := by
  subst own
  have rows := pin_enrollments s r r.enrollment.id hash atTime
  rw [pinRow, rows]
  exact pinRow_put s
    { r with enrollment := { r.enrollment with certHash := hash, certHashAt := atTime } }

theorem pinRow_applyToken {key : String} {a : CertAssociation} (there : s.pinRow key = some a)
    (atTime : Time) (t : ReplacementToken) : (applyTokenLocked atTime s t).pinRow key = some a := by
  unfold pinRow applyTokenLocked putAt at *
  by_cases same : t.id.id = key
  · subst same
    obtain ⟨row, found, own⟩ := Option.map_eq_some_iff.1 there
    simp only [Std.ExtTreeMap.getElem?_insert_self, tokenRow, found, Option.map_some, ← own]
    rcases t with ⟨id, _ | message, raw⟩ <;> rfl
  · simpa [Std.ExtTreeMap.getElem?_insert, same] using there

theorem pinRow_applyTokens {key : String} {a : CertAssociation} (there : s.pinRow key = some a)
    (atTime : Time) (tokens : List ReplacementToken) :
    (tokens.foldl (applyTokenLocked atTime) s).pinRow key = some a := by
  induction tokens generalizing s with
  | nil => exact there
  | cons t rest ih => exact ih (pinRow_applyToken there atTime t)

theorem pinRow_putReplacement (s : Store) (id key : String) (x : Option Replacement) :
    (s.putReplacement id x).pinRow key = s.pinRow key := by
  cases x <;> rfl

theorem hashAt_reset (s : Store) (unpinned : r.enrollment.certHash = "") :
    (s.resetAuthenticateLocked r atTime).hashAt r.enrollment.id.id = "" := by
  rw [resetAuthenticateLocked, hashAt, pinRow_put]
  exact unpinned

structure Recorded (s s' : Store) (op : Op) : Prop where
  history : s'.history = (s.pins op).foldl (remember op) s.history
  rows : (∀ rec, op ≠ .importRecord rec) → (∀ a ∈ s.pins op, s'.pinRow a.id.id = some a) ∧
    ∀ id, writesPin id op →
      s'.hashAt id.id = s.hashAt id.id ∨ s'.hashAt id.id = "" ∨ ∃ a ∈ s.pins op, a.id = id

theorem Recorded.none (unpinned : s.pins op = []) (same : s'.history = s.history)
    (rows : ∀ id, writesPin id op → s'.hashAt id.id = s.hashAt id.id ∨ s'.hashAt id.id = "") :
    Recorded s s' op := by
  refine ⟨by rw [unpinned, same]; rfl, fun _ => ⟨by simp [unpinned], fun id writes => ?_⟩⟩
  exact (rows id writes).imp_right .inl

theorem Recorded.single {a : CertAssociation} (pinned : s.pins op = [a])
    (added : s'.history = remember op s.history a) (row : s'.pinRow a.id.id = some a)
    (own : ∀ id, writesPin id op → a.id = id) : Recorded s s' op := by
  refine ⟨by rw [pinned, added]; rfl, fun _ => ⟨by simp [pinned, row], fun id writes => ?_⟩⟩
  exact .inr (.inr ⟨a, by simp [pinned], own id writes⟩)

theorem authenticateEnrollment_recorded {c : AuthenticateChange} {result : AuthenticateResult}
    (accepted : s.authenticateEnrollment id c = .ok (s', result)) :
    Recorded s s' (.authenticateEnrollment id c) := by
  obtain ⟨retry, checked, -, same, changed⟩ := authenticateEnrollment_ok accepted
  cases retry with
  | true =>
    obtain rfl := same rfl
    exact .none (by simp only [pins, checked]) rfl fun _ _ => .inl rfl
  | false =>
    obtain ⟨-, rfl⟩ := changed rfl
    dsimp only
    split
    · next named =>
      refine .single (a := ⟨id, c.hash, c.atTime⟩) (by simp only [pins, checked, if_neg named])
        ?_ (pinRow_pin _ rfl) fun _ own => own
      rw [pin_history, resetAuthenticateLocked_history]
      rfl
    · next unnamed =>
      refine .none (by simp only [pins, checked, if_pos (not_not.1 unnamed)])
        (resetAuthenticateLocked_history _ _ _) ?_
      rintro _ rfl
      exact .inr (hashAt_reset s rfl)

theorem transitionReplacement_recorded {change : ReplacementChange} {out : Option Replacement}
    (accepted : s.transitionReplacement id change = .ok (s', out)) :
    Recorded s s' (.transitionReplacement id change) := by
  obtain ⟨e, -, found, ⟨x, advanced, rfl⟩ | ⟨x, mid, advanced, committed, rfl⟩⟩ :=
    transitionReplacement_ok accepted
  · refine .none (by simp only [pins, found, advanced]) (putReplacement_history _ _ _)
      fun id _ => .inl ?_
    rw [hashAt, pinRow_putReplacement, hashAt]
  · obtain ⟨-, -, rfl⟩ := commitReplacement_ok committed
    refine .single (a := ⟨id, x.candidateHash, change.atTime⟩)
      (by simp only [pins, found, advanced]) ?_ ?_ fun _ own => own
    · obtain ⟨rows, same⟩ :=
        applyTokens_frame (s.promote id e x change.atTime) change.atTime x.tokens
      rw [putReplacement_history, same]
      rfl
    · rw [pinRow_putReplacement]
      refine pinRow_applyTokens ?_ _ _
      simp [pinRow, promote, put, putAt, Record.promote, (get_ok.1 found).2.2]

theorem apply_recorded (decodeResponse : DecodeResponse)
    (accepted : s.apply decodeResponse op = .ok s') : Recorded s s' op := by
  cases plain : op.plain with
  | true =>
    have unwritten : ∀ id, ¬ writesPin id op := fun id writes => by
      cases op <;> simp [writesPin, Op.plain] at writes plain
    refine .none (by cases op <;> first | rfl | cases plain) ?_ fun id writes =>
      absurd writes (unwritten id)
    have edits := apply_edits decodeResponse accepted
    clear accepted unwritten
    induction edits with
    | refl => rfl
    | tail _ edit ih => exact (edit.history_plain plain).trans ih
  | false =>
    cases op <;> simp only [Op.plain, Bool.true_eq_false] at plain <;>
      simp only [apply, map_ok, Prod.exists, exists_and_right, exists_eq_right] at accepted
    case authenticateEnrollment => exact authenticateEnrollment_recorded accepted.choose_spec
    case upsertAuthenticate =>
      obtain ⟨-, -, -, rfl⟩ := upsertAuthenticate_ok accepted
      refine .none rfl (resetAuthenticateLocked_history _ _ _) ?_
      rintro _ rfl
      exact .inr (hashAt_reset s rfl)
    case associateCert =>
      obtain ⟨r, -, found, -, rfl⟩ := associateCert_ok accepted
      exact .single rfl (pin_history _ _ _ _ _) (pinRow_pin _ (get_ok.1 found).2.2) fun _ own => own
    case storeBootstrapToken =>
      obtain ⟨r, bootstrap, -, rfl⟩ := storeBootstrapToken_ok accepted
      exact .none rfl rfl fun _ writes => writes.elim
    case storeUserAuthChallenge =>
      simp only [storeUserAuthChallenge, bind_ok, pure_ok] at accepted
      obtain ⟨-, -, -, -, rfl⟩ := accepted
      refine .none rfl ?_ fun _ writes => writes.elim
      dsimp only
      split <;> rfl
    case storeUserAuthToken =>
      simp only [storeUserAuthToken, bind_ok] at accepted
      obtain ⟨-, -, -, -, accepted⟩ := accepted
      split at accepted
      · cases accepted
      · cases accepted
        exact .none rfl rfl fun _ writes => writes.elim
    case clearUserAuth =>
      simp only [clearUserAuth, bind_ok, pure_ok] at accepted
      obtain ⟨-, -, rfl⟩ := accepted
      exact .none rfl rfl fun _ writes => writes.elim
    case transitionReplacement => exact transitionReplacement_recorded accepted.choose_spec
    case importRecord rec =>
      obtain ⟨-, rfl⟩ := (importRecord_ok _ _ _).1 accepted
      refine ⟨?_, fun other => absurd rfl (other rec)⟩
      simp only [imported, pins]
      split
      · rfl
      · exact recordAssociations_folded _ _ _

-- Every certificate hash that a call other than Import sets is among its pins, with its time.
theorem apply_set (decodeResponse : DecodeResponse)
    (accepted : s.apply decodeResponse op = .ok s') (other : ∀ rec, op ≠ .importRecord rec)
    {key : String} {a : CertAssociation} (there : s'.pinRow key = some a) (named : a.hash ≠ "")
    (changed : a.hash ≠ s.hashAt key) : a ∈ s.pins op ∧ a.id.id = key := by
  have hash : s'.hashAt key = a.hash := by rw [hashAt, there]; rfl
  rcases apply_hashAt decodeResponse accepted key with same | cleared | ⟨id, writes, rfl⟩
  · exact absurd (hash.symm.trans same) changed
  · exact absurd (hash.symm.trans cleared) named
  · obtain ⟨rows, written⟩ := (apply_recorded decodeResponse accepted).rows other
    rcases written id writes with same | cleared | ⟨b, member, rfl⟩
    · exact absurd (hash.symm.trans same) changed
    · exact absurd (hash.symm.trans cleared) named
    · obtain rfl := Option.some.inj ((rows b member).symm.trans there)
      exact ⟨member, rfl⟩

variable (decodeResponse : DecodeResponse)

def pinnedBy (s : Store) (op : Op) : List CertAssociation :=
  match s.apply decodeResponse op with
  | .ok _ => s.pins op
  | .error _ => []

def Unrepeated (s : Store) : Op → Prop
  | .transitionReplacement id change =>
    ∀ a ∈ s.pinnedBy decodeResponse (.transitionReplacement id change),
      associated a ∉ s.history.map associated
  | _ => True

theorem step_history (s : Store) (op : Op) : (s.step decodeResponse op).history =
    (s.pinnedBy decodeResponse op).foldl (remember op) s.history := by
  unfold step pinnedBy
  cases accepted : s.apply decodeResponse op with
  | error error => rfl
  | ok next => exact (apply_recorded decodeResponse accepted).history

theorem step_set (other : ∀ rec, op ≠ .importRecord rec) {key : String} {a : CertAssociation}
    (there : (s.step decodeResponse op).pinRow key = some a) (named : a.hash ≠ "")
    (changed : a.hash ≠ s.hashAt key) : a ∈ s.pinnedBy decodeResponse op ∧ a.id.id = key := by
  unfold step at there
  unfold pinnedBy
  cases accepted : s.apply decodeResponse op with
  | ok next =>
    rw [accepted] at there
    exact apply_set decodeResponse accepted other there named changed
  | error error =>
    rw [accepted] at there
    have kept : s.pinRow key = some a := there
    exact absurd (by rw [hashAt, kept]; rfl) changed

theorem step_pinned (other : ∀ rec, op ≠ .importRecord rec) {a : CertAssociation}
    (member : a ∈ s.pinnedBy decodeResponse op) :
    (s.step decodeResponse op).pinRow a.id.id = some a := by
  unfold pinnedBy at member
  unfold step
  cases accepted : s.apply decodeResponse op with
  | ok next =>
    rw [accepted] at member
    exact ((apply_recorded decodeResponse accepted).rows other).1 a member
  | error error =>
    rw [accepted] at member
    cases member

theorem pinnedBy_transition {id : EnrollmentID} {change : ReplacementChange}
    (unrepeated : s.Unrepeated decodeResponse (.transitionReplacement id change)) :
    s.pinnedBy decodeResponse (.transitionReplacement id change) = [] ∨
      ∃ a, s.pinnedBy decodeResponse (.transitionReplacement id change) = [a] ∧
        associated a ∉ s.history.map associated := by
  unfold Unrepeated at unrepeated
  unfold pinnedBy at unrepeated ⊢
  split
  · next accepted =>
    simp only [accepted, pins] at unrepeated ⊢
    split
    · exact .inl rfl
    · next e found =>
      simp only [found] at unrepeated
      split
      · next r advanced => exact .inr ⟨_, rfl, by simpa [advanced] using unrepeated⟩
      · exact .inl rfl
  · exact .inl rfl

theorem step_firsts {all : List CertAssociation} (firsts : Firsts associated all s.history)
    (unrepeated : s.Unrepeated decodeResponse op) :
    Firsts associated (all ++ s.pinnedBy decodeResponse op)
      (s.step decodeResponse op).history := by
  have same : sameAssociation = fun a b => decide (associated b = associated a) := by
    funext a b
    simp [sameAssociation, associated]
  have folded := firsts.foldl (s.pinnedBy decodeResponse op)
  rw [← same] at folded
  rw [step_history]
  cases op with
  | transitionReplacement id change =>
    -- The only call that does not look for the pair: here it brings a new one.
    rcases pinnedBy_transition decodeResponse unrepeated with none_ | ⟨a, one, fresh⟩
    · rw [none_] at folded ⊢
      exact folded
    · have new : insertNew sameAssociation s.history a = s.history ++ [a] := by
        refine if_neg fun known => fresh ?_
        simpa [same] using known
      rw [one] at folded ⊢
      simpa [remember, new] using folded
  | _ => exact folded

end Store

variable (decodeResponse : DecodeResponse)

theorem firsts_run {s : Store} {all : List CertAssociation} {ops : List Op}
    (firsts : Firsts associated all s.history)
    (unrepeated : ∀ entry ∈ history (Store.step decodeResponse) s ops,
      entry.1.Unrepeated decodeResponse entry.2) :
    Firsts associated (all ++ (history (Store.step decodeResponse) s ops).flatMap
        fun entry => entry.1.pinnedBy decodeResponse entry.2)
      (run (Store.step decodeResponse) s ops).history := by
  induction ops generalizing all s with
  | nil => simpa using firsts
  | cons op rest ih =>
    simp only [history_cons, List.mem_cons, forall_eq_or_imp] at unrepeated
    simpa using ih (Store.step_firsts decodeResponse firsts unrepeated.1) unrepeated.2

theorem history_grows (s : Store) (ops : List Op) :
    s.history <+: (run (Store.step decodeResponse) s ops).history := by
  refine run_invariant (fun next : Store => s.history <+: next.history) ?_ List.prefix_rfl ops
  intro next op before
  rw [Store.step_history]
  exact before.trans (Store.foldl_remembered op next.history _).1

abbrev after (ops : List Op) : Store := run (Store.step decodeResponse) {} ops

abbrev visits (ops : List Op) : List (Store × Op) := history (Store.step decodeResponse) {} ops

structure CertHistory (ops later : List Op) : Prop where
  grows : (after decodeResponse ops).history <+: (after decodeResponse (ops ++ later)).history
  set : ∀ entry ∈ visits decodeResponse ops,
    (∀ rec, entry.2 ≠ .importRecord rec) → ∀ key a,
      (entry.1.step decodeResponse entry.2).pinRow key = some a → a.hash ≠ "" →
      a.hash ≠ entry.1.hashAt key → a ∈ entry.1.pinnedBy decodeResponse entry.2 ∧ (key, a.hash) ∈
        (after decodeResponse (ops ++ later)).history.map associated
  pinned : ∀ entry ∈ visits decodeResponse ops,
    ∀ a ∈ entry.1.pinnedBy decodeResponse entry.2,
      associated a ∈ (after decodeResponse (ops ++ later)).history.map associated ∧
      ((∀ rec, entry.2 ≠ .importRecord rec) →
        (entry.1.step decodeResponse entry.2).pinRow a.id.id = some a)
  firsts : (∀ entry ∈ visits decodeResponse ops,
      entry.1.Unrepeated decodeResponse entry.2) →
    Firsts associated ((visits decodeResponse ops).flatMap
        fun entry => entry.1.pinnedBy decodeResponse entry.2)
      (after decodeResponse ops).history

theorem recorded_run {ops : List Op} (later : List Op) {entry : Store × Op}
    (visited : entry ∈ visits decodeResponse ops) {a : CertAssociation}
    (member : a ∈ entry.1.pinnedBy decodeResponse entry.2) : associated a ∈
      (after decodeResponse (ops ++ later)).history.map associated := by
  obtain ⟨earlier, rest, rfl, found⟩ := mem_history visited
  have recorded : associated a ∈ (entry.1.step decodeResponse entry.2).history.map associated := by
    rw [Store.step_history]
    exact (Store.foldl_remembered entry.2 _ _).2 a member
  have onwards := history_grows decodeResponse (entry.1.step decodeResponse entry.2)
    (rest ++ later)
  rw [found, ← run_cons, ← run_append _ ({} : Store)] at onwards
  rw [found] at recorded
  simpa using (onwards.map associated).subset recorded

theorem certHistory_run (ops later : List Op) : CertHistory decodeResponse ops later where
  grows := by
    rw [after, after, run_append]
    exact history_grows decodeResponse _ later
  set entry visited other key a there named changed := by
    obtain ⟨member, rfl⟩ := Store.step_set decodeResponse other there named changed
    exact ⟨member, recorded_run decodeResponse later visited member⟩
  pinned entry visited a member :=
    ⟨recorded_run decodeResponse later visited member,
      fun other => Store.step_pinned decodeResponse other member⟩
  firsts unrepeated := by
    have empty : Firsts associated [] ({} : Store).history := ⟨by simp, by simp, by simp⟩
    simpa using firsts_run decodeResponse empty unrepeated

def revertRun : List Op :=
  [.authenticateEnrollment sampleB { hash := "new", atTime := 1 },
    .storeTokenUpdate sampleB ⟨"topic", [1], "magic"⟩ none [] 1,
    .associateCert sampleB "old" 2] ++ replaceB "new"

theorem revertRun_repeats :
    (run (Store.step fun _ _ => none) {} revertRun).history =
      [⟨sampleB, "new", 1⟩, ⟨sampleB, "old", 2⟩, ⟨sampleB, "new", 7⟩] := by
  decide +kernel

end AppleDM.Inmem
