import Mathlib.Data.List.Sublists
import AppleDM.Shared.Run
import AppleDM.Storage.Replacement

set_option autoImplicit false

namespace AppleDM.Storage

open Mdm Checked Run

inductive ReplacementEvent where
  | change (c : ReplacementChange)
  | enrollment (certHash : String) (enabled : Bool)

structure Handshake where
  replacement : Option Replacement
  enrollment : Enrollment

namespace Handshake

def advance (h : Handshake) (c : ReplacementChange) : Option Replacement × Except StoreError Bool :=
  advanceReplacement h.replacement h.enrollment c

def step (h : Handshake) : ReplacementEvent → Handshake
  | .change c => { h with replacement := (h.advance c).1 }
  | .enrollment certHash enabled =>
    { h with enrollment := { h.enrollment with certHash := certHash, enabled := enabled } }

end Handshake

abbrev Entry := Handshake × ReplacementEvent

structure Begins (start : Replacement) (entry : Entry) (c : ReplacementChange) : Prop where
  event : entry.2 = .change c
  op : c.op = .begin
  accepted : entry.1.advance c = (some start, .ok false)
  pending : start.state = .pending
  pinned : start.oldHash = entry.1.enrollment.certHash
  unexpired : c.atTime < start.expiresAt

def Commits (entry : Entry) : Prop :=
  ∃ c r, entry.2 = .change c ∧ entry.1.advance c = (r, .ok true)

structure Accepted (op : ReplacementOp) (entry : Entry) (c : ReplacementChange) : Prop where
  event : entry.2 = .change c
  op : c.op = op
  live : ∃ r, entry.1.replacement = some r ∧ r.state = .pending ∧ c.atTime < expiry r
  accepted : ∃ commit, (entry.1.advance c).2 = .ok commit

def Issues (hash : String) (entry : Entry) : Prop :=
  ∃ c, Accepted .issue entry c ∧ c.hash = hash

def Authenticates (hash : String) (entry : Entry) : Prop :=
  ∃ c, Accepted .authenticate entry c ∧ c.hash = hash

def Tokens (hash : String) (id : EnrollmentID) (entry : Entry) : Prop :=
  ∃ c token, Accepted .token entry c ∧ c.hash = hash ∧ c.token = some token ∧ token.id = id

def Delivers (hash : String) (entry : Entry) : Prop :=
  ∃ c, Accepted .deliver entry c ∧ c.hash = hash

def Acknowledges (uuid : String) (entry : Entry) : Prop :=
  ∃ c response, Accepted .result entry c ∧ c.response = some response ∧
    response.commandUUID = uuid ∧ response.status = .acknowledged

structure Replacement.Fresh (start : Replacement) : Prop where
  candidate : start.candidateHash = ""
  delivered : start.delivered = false
  acknowledged : start.acknowledged = false
  authenticated : start.authenticated = false
  tokens : start.tokens = []

structure Evidence (attempt : List Entry) (r : Replacement) : Prop where
  candidate : r.candidateHash ≠ "" → ∃ issue ∈ attempt, Issues r.candidateHash issue
  authenticated : r.authenticated = true → r.candidateHash ≠ "" ∧ ∃ issue authenticate,
    [issue, authenticate].Sublist attempt ∧ Issues r.candidateHash issue ∧
      Authenticates r.candidateHash authenticate
  tokens : ∀ token ∈ r.tokens, r.candidateHash ≠ "" ∧ ∃ issue authenticate update,
    [issue, authenticate, update].Sublist attempt ∧ Issues r.candidateHash issue ∧
      Authenticates r.candidateHash authenticate ∧ Tokens r.candidateHash token.id update
  delivered : r.delivered = true → ∃ deliver ∈ attempt, Delivers r.oldHash deliver
  acknowledged : r.acknowledged = true → ∃ deliver acknowledge,
    [deliver, acknowledge].Sublist attempt ∧ Delivers r.oldHash deliver ∧
      Acknowledges r.command.uuid acknowledge

variable {start : Replacement}

theorem Replacement.Fresh.evidence (fresh : start.Fresh) : Evidence [] start := by
  constructor <;> simp [fresh.candidate, fresh.delivered, fresh.acknowledged,
    fresh.authenticated, fresh.tokens]

variable {attempt : List Entry} {c : ReplacementChange} {current changed : Replacement}
  {entry : Entry} {e : Enrollment} {r : Replacement}

theorem Evidence.extend (evidence : Evidence attempt r)
    (entry : Entry) : Evidence (attempt ++ [entry]) r := by
  have grows : attempt.Sublist (attempt ++ [entry]) := List.sublist_append_left _ _
  constructor
  · intro known
    obtain ⟨issue, member, issued⟩ := evidence.candidate known
    exact ⟨issue, List.mem_append_left _ member, issued⟩
  · intro known
    obtain ⟨named, issue, authenticate, ordered, facts⟩ := evidence.authenticated known
    exact ⟨named, issue, authenticate, ordered.trans grows, facts⟩
  · intro token member
    obtain ⟨named, issue, authenticate, update, ordered, facts⟩ := evidence.tokens token member
    exact ⟨named, issue, authenticate, update, ordered.trans grows, facts⟩
  · intro known
    obtain ⟨deliver, member, delivered⟩ := evidence.delivered known
    exact ⟨deliver, List.mem_append_left _ member, delivered⟩
  · intro known
    obtain ⟨deliver, acknowledge, ordered, facts⟩ := evidence.acknowledged known
    exact ⟨deliver, acknowledge, ordered.trans grows, facts⟩

theorem pair_sublist {first last : Entry} (member : first ∈ attempt) :
    [first, last].Sublist (attempt ++ [last]) :=
  (List.singleton_sublist.2 member).append (List.Sublist.refl [last])

theorem Evidence.issue (evidence : Evidence attempt current)
    (accepted : Accepted .issue entry c) (applied : applyIssue current c = .ok changed) :
    Evidence (attempt ++ [entry]) changed := by
  have later := evidence.extend entry
  simp only [applyIssue, bind_ok, reject_ok, pure_ok, not_or, not_and, not_not] at applied
  obtain ⟨-, ⟨-, -, -, named, agrees, -⟩, rfl⟩ := applied
  -- Once there is a candidate, a further issue can only repeat it.
  have same (known : current.candidateHash ≠ "") : c.hash = current.candidateHash :=
    (agrees known).symm
  constructor
  · intro _
    exact ⟨entry, by simp, c, accepted, rfl⟩
  · intro known
    obtain ⟨candidate, facts⟩ := later.authenticated known
    exact ⟨named, by simpa only [same candidate] using facts⟩
  · intro token member
    obtain ⟨candidate, facts⟩ := later.tokens token member
    exact ⟨named, by simpa only [same candidate] using facts⟩
  · exact later.delivered
  · exact later.acknowledged

theorem Evidence.authenticate (evidence : Evidence attempt current)
    (accepted : Accepted .authenticate entry c)
    (applied : applyAuthenticate current c = .ok changed) :
    Evidence (attempt ++ [entry]) changed := by
  have later := evidence.extend entry
  simp only [applyAuthenticate, bind_ok, reject_ok, pure_ok, not_or, not_not] at applied
  obtain ⟨-, ⟨named, same⟩, rfl⟩ := applied
  refine ⟨later.candidate, ?_, later.tokens, later.delivered, later.acknowledged⟩
  intro _
  obtain ⟨issue, member, issued⟩ := evidence.candidate named
  exact ⟨named, issue, entry, pair_sublist member, issued, c, accepted, same.symm⟩

theorem Evidence.token (evidence : Evidence attempt current)
    (accepted : Accepted .token entry c) (applied : applyToken current e c = .ok changed) :
    Evidence (attempt ++ [entry]) changed := by
  have later := evidence.extend entry
  unfold applyToken at applied
  split at applied
  · simp at applied
  next token sent =>
  simp only [bind_ok, reject_ok, pure_ok, not_or, not_not, Bool.not_eq_false] at applied
  obtain ⟨-, ⟨authenticated, same, -⟩, -, -, -, -, rfl⟩ := applied
  refine ⟨later.candidate, later.authenticated, ?_, later.delivered, later.acknowledged⟩
  intro found member
  rcases mem_storeToken member with rfl | earlier
  · obtain ⟨named, issue, authenticate, ordered, issued, known⟩ :=
      evidence.authenticated authenticated
    exact ⟨named, issue, authenticate, entry, ordered.append (List.Sublist.refl [entry]), issued,
      known, c, found, accepted, same, sent, rfl⟩
  · exact later.tokens found earlier

theorem Evidence.deliver (evidence : Evidence attempt current)
    (accepted : Accepted .deliver entry c) (applied : applyDeliver current c = .ok changed) :
    Evidence (attempt ++ [entry]) changed := by
  have later := evidence.extend entry
  simp only [applyDeliver, bind_ok, reject_ok, pure_ok, not_not] at applied
  obtain ⟨-, -, -, same, rfl⟩ := applied
  exact ⟨later.candidate, later.authenticated, later.tokens,
    fun _ => ⟨entry, by simp, c, accepted, same⟩, later.acknowledged⟩

theorem Evidence.result (evidence : Evidence attempt current)
    (accepted : Accepted .result entry c) (applied : applyResult current c = .ok changed) :
    Evidence (attempt ++ [entry]) changed := by
  have later := evidence.extend entry
  simp only [applyResult, bind_ok] at applied
  obtain ⟨-, -, applied⟩ := applied
  split at applied
  · simp at applied
  next response sent =>
  simp only [bind_ok, reject_ok, not_or, not_not, Bool.not_eq_false] at applied
  obtain ⟨-, ⟨delivered, uuid⟩, applied⟩ := applied
  split at applied <;> simp only [pure_ok, reduceCtorEq] at applied <;> subst applied
  · next status =>
    refine ⟨later.candidate, later.authenticated, later.tokens, later.delivered, fun _ => ?_⟩
    obtain ⟨deliver, member, known⟩ := evidence.delivered delivered
    exact ⟨deliver, entry, pair_sublist member, known, c, response, accepted, sent, uuid, status⟩
  all_goals exact { later with }

theorem Evidence.change (evidence : Evidence attempt current)
    (accepted : Accepted c.op entry c) (applied : applyChange current e c = .ok changed) :
    Evidence (attempt ++ [entry]) changed := by
  have later := evidence.extend entry
  unfold applyChange at applied
  split at applied <;> rename_i op <;> rw [op] at accepted
  · cases applied
    exact { later with }
  · simp only [applyClaim, bind_ok, pure_ok] at applied
    obtain ⟨-, -, rfl⟩ := applied
    exact { later with }
  · exact evidence.issue accepted applied
  · exact evidence.authenticate accepted applied
  · exact evidence.token accepted applied
  · exact evidence.deliver accepted applied
  · exact evidence.result accepted applied
  all_goals simp at applied

theorem applyChange_keeps (applied : applyChange current e c = .ok changed) :
    (changed.id = current.id ∧ changed.oldHash = current.oldHash ∧
      changed.command = current.command) ∧
      ∀ t ∈ changed.tokens, t ∈ current.tokens ∨ t.id.device = e.id.device := by
  unfold applyChange at applied
  split at applied
  · cases applied
    exact ⟨⟨rfl, rfl, rfl⟩, fun _ => .inl⟩
  · simp only [applyClaim, bind_ok, pure_ok] at applied
    obtain ⟨-, -, rfl⟩ := applied
    exact ⟨⟨rfl, rfl, rfl⟩, fun _ => .inl⟩
  · simp only [applyIssue, bind_ok, pure_ok] at applied
    obtain ⟨-, -, rfl⟩ := applied
    exact ⟨⟨rfl, rfl, rfl⟩, fun _ => .inl⟩
  · simp only [applyAuthenticate, bind_ok, pure_ok] at applied
    obtain ⟨-, -, rfl⟩ := applied
    exact ⟨⟨rfl, rfl, rfl⟩, fun _ => .inl⟩
  · unfold applyToken at applied
    split at applied
    · simp at applied
    simp only [bind_ok, reject_ok, pure_ok, not_not] at applied
    obtain ⟨-, -, -, -, -, own, rfl⟩ := applied
    refine ⟨⟨rfl, rfl, rfl⟩, fun t member => ?_⟩
    rcases mem_storeToken member with rfl | earlier
    · exact .inr own
    · exact .inl earlier
  · simp only [applyDeliver, bind_ok, pure_ok] at applied
    obtain ⟨-, -, -, -, rfl⟩ := applied
    exact ⟨⟨rfl, rfl, rfl⟩, fun _ => .inl⟩
  · simp only [applyResult, bind_ok] at applied
    obtain ⟨-, -, applied⟩ := applied
    split at applied
    · simp at applied
    simp only [bind_ok] at applied
    obtain ⟨-, -, applied⟩ := applied
    split at applied <;> simp only [pure_ok, reduceCtorEq] at applied <;> subst applied <;>
      exact ⟨⟨rfl, rfl, rfl⟩, fun _ => .inl⟩
  all_goals simp at applied

structure Attempt (past attempt : List Entry) (start r : Replacement) : Prop where
  opened : ∃ earlier opening c, past = earlier ++ opening :: attempt ∧ Begins start opening c
  single : ∀ entry ∈ attempt, ∀ other c, ¬ Begins other entry c
  uncommitted : ∀ entry ∈ attempt, ¬ Commits entry
  same : r.id = start.id ∧ r.oldHash = start.oldHash ∧ r.command = start.command
  evidence : start.Fresh → Evidence attempt r

def Attempted (past : List Entry) (h : Handshake) : Prop :=
  ∀ r, h.replacement = some r → r.state = .pending → ∃ attempt start, Attempt past attempt start r

variable {past : List Entry}

theorem Attempt.extend (known : Attempt past attempt start current)
    (other : ∀ start c, ¬ Begins start entry c) (uncommitted : ¬ Commits entry)
    (same : changed.id = current.id ∧ changed.oldHash = current.oldHash ∧
      changed.command = current.command)
    (evidence : start.Fresh → Evidence (attempt ++ [entry]) changed) :
    Attempt (past ++ [entry]) (attempt ++ [entry]) start changed := by
  obtain ⟨earlier, opening, c, rfl, begins⟩ := known.opened
  refine ⟨⟨earlier, opening, c, by simp, begins⟩, ?_, ?_, ?_, evidence⟩
  · intro found member
    rcases List.mem_append.1 member with before | last
    · exact known.single found before
    · exact List.mem_singleton.1 last ▸ other
  · intro found member
    rcases List.mem_append.1 member with before | last
    · exact known.uncommitted found before
    · exact List.mem_singleton.1 last ▸ uncommitted
  · exact ⟨same.1.trans known.same.1, same.2.1.trans known.same.2.1,
      same.2.2.trans known.same.2.2⟩

theorem pending_unexpired {before : Option Replacement} {atTime : Time}
    (found : before.map (·.expire atTime) = some r) (pending : r.state = .pending) :
    before = some r := by
  obtain ⟨current, rfl, rfl⟩ := Option.map_eq_some_iff.1 found
  rw [expire_unexpired pending]

theorem Attempted.keep {h : Handshake} (known : Attempted past h)
    {event : ReplacementEvent} (found : h.replacement = some r)
    (pending : r.state = .pending) (other : ∀ start c, ¬ Begins start (h, event) c)
    (uncommitted : ¬ Commits (h, event)) :
    ∃ attempt start, Attempt (past ++ [(h, event)]) attempt start r := by
  obtain ⟨attempt, start, known⟩ := known r found pending
  exact ⟨_, start, known.extend other uncommitted ⟨rfl, rfl, rfl⟩
    fun fresh => (known.evidence fresh).extend _⟩

theorem begins_of_accepted {h : Handshake} {n : Replacement}
    (accepted : h.advance c = (some { n with state := .pending }, .ok false))
    (op : c.op = .begin) (start : CanStart n h.enrollment c.atTime) :
    Begins { n with state := .pending } (h, .change c) c :=
  ⟨rfl, op, accepted, rfl, start.2.2.2.2.2.1, start.2.2.2.2.2.2.2.1⟩

theorem attempted_step (past : List Entry) (h : Handshake) (event : ReplacementEvent)
    (known : Attempted past h) : Attempted (past ++ [(h, event)]) (h.step event) := by
  intro r found pending
  cases event with
  | enrollment certHash enabled =>
    exact known.keep found pending (fun _ _ begins => nomatch begins.event)
      (fun ⟨_, _, event, _⟩ => nomatch event)
  | change c =>
    simp only [Handshake.step] at found
    rcases outcome : h.advance c with ⟨next, error | commit⟩ <;> rw [outcome] at found
    · have kept : h.replacement = some r := by
        rcases advanceReplacement_error outcome with rfl | rfl
        · exact found
        · exact pending_unexpired found pending
      refine known.keep kept pending ?_ ?_
      · rintro start _ ⟨⟨⟩, _, accepted, _⟩
        simp [outcome] at accepted
      · rintro ⟨_, _, ⟨⟩, accepted⟩
        simp [outcome] at accepted
    · cases advanceReplacement_ok outcome with
      | read op =>
        refine known.keep (pending_unexpired found pending) pending ?_ ?_
        · rintro start _ ⟨⟨⟩, begin, _⟩
          simp [op] at begin
        · rintro ⟨_, _, ⟨⟩, accepted⟩
          simp [outcome] at accepted
      | begin n op cloned start =>
        cases found
        exact ⟨[], _, ⟨past, _, c, rfl, begins_of_accepted outcome op start⟩, by simp, by simp,
          ⟨rfl, rfl, rfl⟩, Replacement.Fresh.evidence⟩
      | change current changed replaced active applied incomplete =>
        cases found
        obtain ⟨attempt, start, known⟩ := known current replaced active.pending
        have accepted : Accepted c.op (h, .change c) c :=
          ⟨rfl, rfl, ⟨current, replaced, active.pending, active.unexpired⟩, false, by rw [outcome]⟩
        refine ⟨_, start, known.extend ?_ ?_ (applyChange_keeps applied).1
          fun fresh => (known.evidence fresh).change accepted applied⟩
        · rintro start _ ⟨⟨⟩, begin, _⟩
          simp [applyChange, begin] at applied
        · rintro ⟨_, _, ⟨⟩, accepted⟩
          simp [outcome] at accepted
      | commit current changed replaced active applied complete =>
        cases found
        simp [Replacement.commit] at pending

theorem commit_evidence (e : Enrollment) (events : List ReplacementEvent)
    (c : ReplacementChange) (r : Replacement)
    (commits : (run Handshake.step ⟨none, e⟩ events).advance c = (some r, .ok true)) :
    ∃ start earlier opening attempt begin,
      history Handshake.step ⟨none, e⟩ events = earlier ++ opening :: attempt ∧
      Begins start opening begin ∧ r.id = start.id ∧ r.oldHash = start.oldHash ∧
      (∀ entry ∈ attempt, ∀ other c, ¬ Begins other entry c) ∧
      (∀ entry ∈ attempt, ¬ Commits entry) ∧
      (run Handshake.step ⟨none, e⟩ events).enrollment.enabled = true ∧
      (run Handshake.step ⟨none, e⟩ events).enrollment.certHash = r.oldHash ∧
      (start.Fresh → ∃ issue authenticate token deliver acknowledge,
        [issue, authenticate, token].Sublist
          (attempt ++ [(run Handshake.step ⟨none, e⟩ events, .change c)]) ∧
        [deliver, acknowledge].Sublist
          (attempt ++ [(run Handshake.step ⟨none, e⟩ events, .change c)]) ∧
        Issues r.candidateHash issue ∧ Authenticates r.candidateHash authenticate ∧
        Tokens r.candidateHash e.id token ∧ Delivers r.oldHash deliver ∧
        Acknowledges r.command.uuid acknowledge) := by
  have device : (run Handshake.step ⟨none, e⟩ events).enrollment.id = e.id :=
    run_invariant (fun later : Handshake => later.enrollment.id = e.id)
      (fun _ event known => by cases event <;> exact known) rfl events
  have known : Attempted (history Handshake.step ⟨none, e⟩ events)
      (run Handshake.step ⟨none, e⟩ events) :=
    history_invariant Attempted attempted_step (by simp [Attempted]) events
  generalize run Handshake.step ⟨none, e⟩ events = h at *
  have step := advanceReplacement_ok commits
  generalize result : some r = next at step
  cases step with
  | commit current changed replaced active applied complete =>
    cases result
    obtain ⟨attempt, start, known⟩ := known current replaced active.pending
    obtain ⟨earlier, opening, begin, past, begins⟩ := known.opened
    have same := (applyChange_keeps applied).1
    refine ⟨start, earlier, opening, attempt, begin, past, begins, same.1.trans known.same.1,
      same.2.1.trans known.same.2.1, known.single, known.uncommitted, active.enabled,
      (same.2.1.trans active.pinned).symm, ?_⟩
    intro fresh
    have accepted : Accepted c.op (h, .change c) c :=
      ⟨rfl, rfl, ⟨current, replaced, active.pending, active.unexpired⟩, true, by rw [commits]⟩
    have evidence := (known.evidence fresh).change accepted applied
    simp only [completes, Bool.and_eq_true, List.any_eq_true, decide_eq_true_eq] at complete
    obtain ⟨⟨⟨-, -⟩, acknowledged⟩, token, member, own⟩ := complete
    obtain ⟨-, issue, authenticate, update, ordered, issued, authenticated, updated⟩ :=
      evidence.tokens token member
    obtain ⟨deliver, acknowledge, after, delivered, answered⟩ := evidence.acknowledged acknowledged
    rw [own, device] at updated
    exact ⟨issue, authenticate, update, deliver, acknowledge, ordered, after, issued,
      authenticated, updated, delivered, answered⟩

def sampleEnrollment : Enrollment :=
  { id := ⟨.device, "D", ""⟩, enabled := true, certHash := "old" }

def sampleToken : ReplacementToken :=
  ⟨⟨.device, "D", ""⟩, some ⟨"topic", [1], "magic", [], none, "", "", false⟩, []⟩

def sampleAttempt : Replacement :=
  { id := "A", method := .acme, oldHash := "old", expiresAt := 100,
    command := ⟨"A", "InstallProfile", []⟩ }

def sampleResult : ReplacementChange :=
  { op := .result, id := "A", hash := "new", atTime := 6,
    response := some ⟨⟨.device, "D", ""⟩, "A", .acknowledged, []⟩ }

def sampleHandshake : List ReplacementEvent :=
  [.change { op := .begin, atTime := 1, begin := some sampleAttempt },
    .change { op := .issue, id := "A", hash := "new", method := .acme, atTime := 2 },
    .change { op := .authenticate, id := "A", hash := "new", atTime := 3 },
    .change { op := .deliver, id := "A", hash := "old", atTime := 4 },
    .change { op := .token, id := "A", hash := "new", atTime := 5, token := some sampleToken }]

def sampleCommitted : Replacement :=
  { sampleAttempt with
    candidateHash := "new", state := .committed, completedAt := 6, delivered := true
    acknowledged := true, authenticated := true, tokens := [sampleToken] }

theorem sampleHandshake_commits :
    (run Handshake.step ⟨none, sampleEnrollment⟩ sampleHandshake).advance sampleResult =
        (some sampleCommitted, .ok true) ∧
      ∃ start earlier opening attempt begin,
        history Handshake.step ⟨none, sampleEnrollment⟩ sampleHandshake =
          earlier ++ opening :: attempt ∧ Begins start opening begin ∧
        sampleCommitted.id = start.id := by
  have commits : (run Handshake.step ⟨none, sampleEnrollment⟩ sampleHandshake).advance
      sampleResult = (some sampleCommitted, .ok true) := by decide +kernel
  obtain ⟨start, earlier, opening, attempt, begin, past, begins, same, -⟩ :=
    commit_evidence sampleEnrollment sampleHandshake sampleResult sampleCommitted commits
  exact ⟨commits, start, earlier, opening, attempt, begin, past, begins, same⟩

def filledBegin : ReplacementChange :=
  { op := .begin, atTime := 1
    begin := some { sampleAttempt with
      candidateHash := "new", delivered := true, acknowledged := true, authenticated := true
      tokens := [sampleToken] } }

def filledDeliver : ReplacementChange :=
  { op := .deliver, id := "A", hash := "old", atTime := 2 }

theorem filledBegin_commits_unissued :
    (run Handshake.step ⟨none, sampleEnrollment⟩ [.change filledBegin]).advance filledDeliver =
        (some { sampleCommitted with completedAt := 2 }, .ok true) ∧
      ∀ entry ∈ history Handshake.step ⟨none, sampleEnrollment⟩
        [.change filledBegin, .change filledDeliver], ∀ hash, ¬ Issues hash entry := by
  refine ⟨by decide +kernel, ?_⟩
  rintro entry member hash ⟨c, accepted, -⟩
  have event := accepted.event
  have op := accepted.op
  simp only [history_cons, history_nil, List.mem_cons, List.not_mem_nil, or_false] at member
  rcases member with rfl | rfl <;> cases event <;> cases op

end AppleDM.Storage
