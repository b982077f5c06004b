import AppleDM.RateLimit.Refinement
import AppleDM.Shared.Run

set_option autoImplicit false

namespace AppleDM.RateLimit

open Checked Mdm State State.Memory Wire Run

section Statement

def granted : Option (Except CheckError Decision) → Bool
  | some (.ok d) => d.allowed
  | _ => false

def Event.buckets (space : String) (event : Event) : List Bucket :=
  match event.call with
  | .check found buckets _ => if found = space then buckets else []
  | .prune _ _ => []

def Event.Touches (digest : Digest) (key : String) (event : Event) : Prop :=
  match event.call with
  | .check space buckets _ => ∃ b ∈ buckets, Limiter.storeKey digest { space } b.key = key
  | .prune _ _ => False

def balance (m : Memory Bytes) (now : Int) (key : String) : Int :=
  match lookup m key with
  | .ok (some tat) => max tat now
  | _ => now

def Reclaimed (now : Int) (m fewer : Memory Bytes) : Prop :=
  ∀ key : String, fewer[key]? = m[key]? ∨
    fewer[key]? = none ∧ ∃ record, m[key]? = some record ∧ expired now record = true

variable (digest : Digest) (maxEntries : Int)

def admitted (space key : String) (m : Memory Bytes) : List Event → List Int
  | [] => []
  | event :: rest =>
    let later := admitted space key (step digest maxEntries m event) rest
    if granted (perform digest maxEntries m event).1 ∧
        (event.buckets space).any (fun b => b.key = key) then event.time :: later
    else later

structure Law (start : Memory Bytes) (events : List Event) : Prop where
  window : ∀ space b, ¬ b.Invalid →
    (∀ event ∈ events, ∀ other ∈ event.buckets space, other.key = b.key → other = b) →
    ∀ first last, first ≤ last →
      (((admitted digest maxEntries space b.key start events).filter fun time =>
        first ≤ time ∧ time ≤ last).length : Int) ≤
        b.burst + (truncate last - truncate first) / b.interval
  refused : ∀ earlier time space buckets cancelled later,
    events = earlier ++ ⟨time, .check space buckets cancelled⟩ :: later →
    let m := run (step digest maxEntries) start earlier
    let event : Event := ⟨time, .check space buckets cancelled⟩
    granted (perform digest maxEntries m event).1 = false → step digest maxEntries m event = m
  charged : ∀ earlier time space buckets cancelled later,
    events = earlier ++ ⟨time, .check space buckets cancelled⟩ :: later →
    let m := run (step digest maxEntries) start earlier
    let event : Event := ⟨time, .check space buckets cancelled⟩
    granted (perform digest maxEntries m event).1 = true →
    ∀ b ∈ buckets, let key := Limiter.storeKey digest { space } b.key
      balance (step digest maxEntries m event) (truncate time) key =
        balance m (truncate time) key + b.interval
  retry : ∀ earlier time space buckets cancelled between delay,
    events = earlier ++ ⟨time, .check space buckets cancelled⟩ :: between →
    (perform digest maxEntries (run (step digest maxEntries) start earlier)
      ⟨time, .check space buckets cancelled⟩).1 =
        some (.ok { allowed := false, retryAfter := delay }) →
    (∀ event ∈ between, ∀ b ∈ buckets,
      ¬ event.Touches digest (Limiter.storeKey digest { space } b.key)) →
    ∀ again, InRange again → (∀ event ∈ events, event.time ≤ again) →
      let answer := (perform digest maxEntries (run (step digest maxEntries) start events)
        ⟨again, .check space buckets false⟩).1
      let elapsed := truncate again - truncate time
      if elapsed < delay then
        answer = some (.ok { allowed := false, retryAfter := delay - elapsed })
      else
        answer = some (.ok { allowed := true }) ∨ answer = some (.error (.unavailable .capacity))
  reclaimed : ∀ earlier later, events = earlier ++ later →
    ∀ now fewer, InRange now → (∀ event ∈ earlier, event.time ≤ now) →
      (∀ event ∈ later, now ≤ event.time) →
      Reclaimed now (run (step digest maxEntries) start earlier) fewer →
      answers digest maxEntries fewer later =
        answers digest maxEntries (run (step digest maxEntries) start earlier) later
  room : ∀ earlier later, events = earlier ++ later → ∀ l : Limiter,
    ((run (step digest maxEntries) start earlier).held (l.pre digest)).card ≤
      (effectiveLimit maxEntries).toNat

end Statement

variable {entries : List (Bucket × String)} {time : Int} {space : String} {cancelled : Bool}

section Ledgers

variable {digest : Digest} {maxEntries : Int} {ledger : Ledger} {event : Event}

theorem ledger_check_cases (digest : Digest) (ledger : Ledger) (l : Limiter) (time : Int)
    (cancelled : Bool) (buckets : List Bucket) :
    (∃ error, ledger.check digest l time cancelled buckets = (.error error, ledger)) ∨
    ∃ entries, l.entries digest buckets = .ok entries ∧
      ¬ (buckets = [] ∨ 32 < buckets.length) ∧ ¬ (l.limit < 1 ∨ 10000 < l.limit) ∧
      ledger.check digest l time cancelled buckets =
        (.ok (ledger.verdict (truncate time) entries),
          if (ledger.verdict (truncate time) entries).allowed = false then ledger
          else ledger.charge (truncate time) entries) := by
  unfold Ledger.check
  split
  · exact .inl ⟨_, rfl⟩
  next some =>
  split
  · exact .inl ⟨_, rfl⟩
  next limited =>
  cases named : l.entries digest buckets with
  | error error => exact .inl ⟨error, rfl⟩
  | ok entries =>
    dsimp only
    by_cases denied : (ledger.verdict (truncate time) entries).allowed = false
    · cases cancelled with
      | true => exact .inl ⟨_, if_pos denied⟩
      | false => exact .inr ⟨entries, rfl, some, limited, by simp [denied]⟩
    · simp only [if_neg denied]
      split
      · exact .inl ⟨_, rfl⟩
      · split
        · exact .inl ⟨_, rfl⟩
        · exact .inr ⟨entries, rfl, some, limited, by rw [if_neg denied]⟩

theorem ledger_perform_ge (key : String) :
    ledger key ≤ (ledger.perform digest maxEntries event).2 key := by
  obtain ⟨time, call⟩ := event
  cases call with
  | prune limit order => exact le_rfl
  | check space buckets cancelled =>
    obtain ⟨error, ran⟩ | ⟨entries, named, -, -, ran⟩ :=
      ledger_check_cases digest ledger { maxEntries, space } time cancelled buckets
    · simp only [Ledger.perform, ran, le_refl]
    · have listed := entries_listed named
      simp only [Ledger.perform, ran]
      split
      · exact le_rfl
      by_cases inside : key ∈ entries.map (·.2)
      · obtain ⟨entry, member, rfl⟩ := List.mem_map.mp inside
        rw [charge_named _ listed.distinct member, Gcra.charge]
        have positive := (Bucket.bounds (listed.valid entry member)).1
        omega
      · rw [charge_other _ inside]

theorem ledger_perform_untouched {key : String} (untouched : ¬ event.Touches digest key) :
    (ledger.perform digest maxEntries event).2 key = ledger key := by
  obtain ⟨time, call⟩ := event
  cases call with
  | prune limit order => rfl
  | check space buckets cancelled =>
    obtain ⟨error, ran⟩ | ⟨entries, named, -, -, ran⟩ :=
      ledger_check_cases digest ledger { maxEntries, space } time cancelled buckets
    · simp only [Ledger.perform, ran]
    · have listed := entries_listed named
      simp only [Ledger.perform, ran]
      split
      · rfl
      refine charge_other _ fun inside => untouched ?_
      obtain ⟨entry, member, rfl⟩ := List.mem_map.mp inside
      refine ⟨entry.1, ?_, (listed.keys entry member).symm⟩
      rw [← listed.buckets]
      exact List.mem_map_of_mem member

theorem ledger_perform_granted {time : Int} {space : String} {buckets : List Bucket}
    {cancelled : Bool} {b : Bucket} (member : b ∈ buckets)
    (allowed : granted (ledger.perform digest maxEntries ⟨time, .check space buckets cancelled⟩).1 =
      true) :
    let key := Limiter.storeKey digest { space } b.key
    ¬ b.Invalid ∧ Gcra.wait b.interval b.burst (truncate time) (ledger key) ≤ 0 ∧
      (ledger.perform digest maxEntries ⟨time, .check space buckets cancelled⟩).2 key =
        Gcra.charge b.interval (truncate time) (ledger key) := by
  intro key
  obtain ⟨error, ran⟩ | ⟨entries, named, -, -, ran⟩ :=
    ledger_check_cases digest ledger { maxEntries, space } time cancelled buckets
  · simp [Ledger.perform, ran, granted] at allowed
  · have listed := entries_listed named
    have inside : (b, key) ∈ entries := by
      obtain ⟨entry, inside, rfl⟩ := List.mem_map.mp (listed.buckets ▸ member)
      rwa [show key = entry.2 from (listed.keys entry inside).symm]
    simp only [Ledger.perform, ran, granted] at allowed ⊢
    refine ⟨listed.valid _ inside, (verdict_allowed entries).mp allowed _ inside, ?_⟩
    rw [if_neg (by simp [allowed])]
    exact charge_named (truncate time) listed.distinct inside

end Ledgers

section Runs

variable {digest : Digest} {maxEntries : Int} {m : Memory Bytes} {ledger : Ledger} {clock : Int}

noncomputable def Ledger.step (digest : Digest) (maxEntries : Int) (ledger : Ledger)
    (event : Event) : Ledger :=
  (ledger.perform digest maxEntries event).2

noncomputable def Ledger.answers (digest : Digest) (maxEntries : Int) (ledger : Ledger) :
    List Event → List (Option (Except CheckError Decision))
  | [] => []
  | event :: rest =>
    (ledger.perform digest maxEntries event).1 ::
      (ledger.step digest maxEntries event).answers digest maxEntries rest

structure Clocked (clock : Int) (events : List Event) : Prop where
  after : ∀ event ∈ events, clock ≤ event.time
  ordered : events.Pairwise fun a b => a.time ≤ b.time
  inRange : ∀ event ∈ events, InRange event.time

theorem Clocked.tail {event : Event} {rest : List Event} (clocked : Clocked clock (event :: rest)) :
    Clocked event.time rest where
  after := (List.pairwise_cons.mp clocked.ordered).1
  ordered := (List.pairwise_cons.mp clocked.ordered).2
  inRange later member := clocked.inRange later (by simp [member])

variable {events : List Event}

theorem tracks_run (clocked : Clocked clock events)
    (tracks : Tracks digest (effectiveLimit maxEntries) m ledger clock) {stop : Int}
    (passed : clock ≤ stop) (ended : ∀ event ∈ events, event.time ≤ stop) :
    Tracks digest (effectiveLimit maxEntries) (run (step digest maxEntries) m events)
      (run (Ledger.step digest maxEntries) ledger events) stop := by
  induction events generalizing m ledger clock with
  | nil => exact tracks.later passed
  | cons event rest hypothesis =>
    have kept := (tracks.perform event (clocked.after event (by simp))
      (clocked.inRange event (by simp))).2
    exact hypothesis clocked.tail kept (ended event (by simp))
      fun later member => ended later (by simp [member])

theorem answers_eq (clocked : Clocked clock events)
    (tracks : Tracks digest (effectiveLimit maxEntries) m ledger clock) :
    answers digest maxEntries m events = ledger.answers digest maxEntries events := by
  induction events generalizing m ledger clock with
  | nil => rfl
  | cons event rest hypothesis =>
    obtain ⟨answered, kept⟩ := tracks.perform event (clocked.after event (by simp))
      (clocked.inRange event (by simp))
    rw [answers, Ledger.answers, answered, hypothesis clocked.tail kept, Ledger.step]

theorem admitted_paced {b : Bucket} (clocked : Clocked clock events)
    (tracks : Tracks digest (effectiveLimit maxEntries) m ledger clock)
    (quota : ∀ event ∈ events, ∀ other ∈ event.buckets space, other.key = b.key → other = b) :
    Gcra.Paced b.interval b.burst (ledger (Limiter.storeKey digest { space } b.key))
      ((admitted digest maxEntries space b.key m events).map truncate) := by
  induction events generalizing m ledger clock with
  | nil => trivial
  | cons event rest hypothesis =>
    obtain ⟨answered, kept⟩ := tracks.perform event (clocked.after event (by simp))
      (clocked.inRange event (by simp))
    have later := hypothesis clocked.tail kept fun other member =>
      quota other (by simp [member])
    rw [admitted]
    split
    · next named =>
      obtain ⟨allowed, named⟩ := named
      obtain ⟨other, member, same⟩ := List.any_eq_true.mp named
      have equal := quota event (by simp) other member (by simpa using same)
      subst equal
      obtain ⟨time, call⟩ := event
      cases call with
      | prune limit order => cases member
      | check found buckets cancelled =>
        simp only [Event.buckets] at member
        split at member
        · next own =>
          subst own
          rw [answered] at allowed
          obtain ⟨-, free, charged⟩ := ledger_perform_granted member allowed
          rw [List.map_cons]
          refine ⟨free, ?_⟩
          rw [← charged]
          exact later
        · cases member
    · exact later.earlier (ledger_perform_ge _)

end Runs

section Checks

variable {digest : Digest} {maxEntries : Int} {m : Memory Bytes} {ledger : Ledger}

theorem consume_denied {now : Int} {limit : Int} {d : Decision} {after : Memory Bytes}
    (ran : consume now space limit entries m = .ok (d, after)) (denied : d.allowed = false) :
    after = m := by
  obtain ⟨t, -, ran⟩ := (bind_ok ..).mp ran
  split at ran
  · exact (Prod.mk.inj (Except.ok.inj ran)).2.symm
  · next allowed =>
    obtain ⟨room, -, ran⟩ := (bind_ok ..).mp ran
    obtain ⟨put, -, ran⟩ := (bind_ok ..).mp ran
    obtain rfl := (Prod.mk.inj (Except.ok.inj ran)).1
    exact absurd denied allowed

theorem check_refused (l : Limiter) (time : Int) (cancelled : Bool) (buckets : List Bucket)
    (refused : granted (some (l.check digest time cancelled buckets m).1) = false) :
    (l.check digest time cancelled buckets m).2 = m := by
  unfold Limiter.check at refused ⊢
  split at refused
  · next bad => rw [if_pos bad]
  next bad =>
  rw [if_neg bad]
  split at refused
  · next bad => rw [if_pos bad]
  next bad =>
  rw [if_neg bad]
  cases named : l.entries digest buckets with
  | error error => rfl
  | ok entries =>
    simp only [named] at refused ⊢
    rcases update_cases m (.store .invalid) ((l.pre digest ++ "capacity") :: entries.map (·.2))
        (fun m => do
          let done ← consume (truncate time) (l.pre digest) l.limit entries m
          reject (cancelled = true) Cause.context
          pure done) with ⟨d, after, ran, updated⟩ | ⟨cause, updated⟩
    · rw [updated] at refused ⊢
      obtain ⟨done, consumed, ran⟩ := (bind_ok ..).mp ran
      obtain ⟨_, -, ran⟩ := (bind_ok ..).mp ran
      obtain rfl : done = (d, after) := Except.ok.inj ran
      exact consume_denied consumed refused
    · rw [updated]

theorem Tracks.balance {limit : Int} {l : Limiter} (tracks : Tracks digest limit m ledger time)
    (inRange : InRange time) (name : String) :
    balance m (truncate time) (l.storeKey digest name) =
      max (ledger (l.storeKey digest name)) (truncate time) := by
  have rate := rate_of_under (storeKey_under digest l name)
  rw [RateLimit.balance, tracks.lookup inRange rate (storeKey_valid digest l name)]
  cases found : m[l.storeKey digest name]? with
  | none => exact (max_eq_right (tracks.absent rate found)).symm
  | some record => rfl

theorem ledger_check_again {later : Ledger} {l : Limiter} {again : Int} {buckets : List Bucket} {delay : Int} (named : l.entries digest buckets = .ok entries)
    (some : ¬ (buckets = [] ∨ 32 < buckets.length)) (limited : ¬ (l.limit < 1 ∨ 10000 < l.limit))
    (forward : truncate time ≤ truncate again)
    (denied : ledger.verdict (truncate time) entries = { allowed := false, retryAfter := delay })
    (same : ∀ entry ∈ entries, later entry.2 = ledger entry.2) :
    let answer := (later.check digest l again false buckets).1
    let elapsed := truncate again - truncate time
    if elapsed < delay then answer = .ok { allowed := false, retryAfter := delay - elapsed }
    else answer = .ok { allowed := true } ∨ answer = .error (.unavailable .capacity) := by
  intro answer elapsed
  have wait (entry : Bucket × String) (member : entry ∈ entries) :
      later.wait (truncate again) entry = ledger.wait (truncate time) entry - elapsed := by
    rw [← wait_later, Ledger.wait, Ledger.wait, same entry member]
  have longest (bound : Int) : delay ≤ bound ↔
      0 ≤ bound ∧ ∀ entry ∈ entries, ledger.wait (truncate time) entry ≤ bound := by
    rw [← verdict_retryAfter, denied]
  have allowed : (later.verdict (truncate again) entries).allowed = true ↔ delay ≤ elapsed := by
    rw [verdict_allowed, longest, and_iff_right (by omega)]
    refine forall₂_congr fun entry member => ?_
    rw [wait entry member]
    omega
  have ran : answer = (later.check digest l again false buckets).1 := rfl
  simp only [Ledger.check, if_neg some, if_neg limited, named] at ran
  split
  · next early =>
    have refused : (later.verdict (truncate again) entries).allowed = false := by
      rw [Bool.eq_false_iff, Ne, allowed]
      omega
    have left : (later.verdict (truncate again) entries).retryAfter = delay - elapsed := by
      have both (bound : Int) : (later.verdict (truncate again) entries).retryAfter ≤ bound ↔
          delay - elapsed ≤ bound := by
        rw [verdict_retryAfter]
        have shifted := longest (bound + elapsed)
        constructor
        · rintro ⟨positive, every⟩
          have := shifted.mpr ⟨by omega, fun entry member => by
            have := every entry member
            rw [wait entry member] at this
            omega⟩
          omega
        · intro enough
          refine ⟨by omega, fun entry member => ?_⟩
          have := (shifted.mp (by omega)).2 entry member
          rw [wait entry member]
          omega
      exact le_antisymm ((both _).mpr le_rfl) ((both _).mp le_rfl)
    rw [ran, if_pos refused]
    simp only [Bool.false_eq_true, if_false, Except.ok.injEq]
    cases found : later.verdict (truncate again) entries with
    | mk permitted waiting =>
      rw [found] at refused left
      rw [show permitted = false from refused, show waiting = delay - elapsed from left]
  · next ended =>
    have free := allowed.mpr (not_lt.mp ended)
    rw [ran, if_neg (by simp [free])]
    split
    · exact .inr rfl
    · rw [verdict_granted free]
      exact .inl rfl

end Checks

section Main

variable {digest : Digest} {maxEntries : Int} {start : Memory Bytes} {events : List Event}

structure Orderly (start : Memory Bytes) (events : List Event) : Prop where
  clean : ∀ key record, start[key]? = some record → ¬ Under "rate/" key
  ordered : events.Pairwise fun a b => a.time ≤ b.time
  inRange : ∀ event ∈ events, InRange event.time

theorem Orderly.initial (orderly : Orderly start events) :
    Tracks digest (effectiveLimit maxEntries) start (fun _ => unixEpoch) unixEpoch :=
  .initial start orderly.clean le_rfl

theorem Orderly.clocked (orderly : Orderly start events) : Clocked unixEpoch events :=
  ⟨fun event member => (orderly.inRange event member).since, orderly.ordered, orderly.inRange⟩

theorem Orderly.earlier {earlier later : List Event} (orderly : Orderly start (earlier ++ later)) :
    Orderly start earlier where
  clean := orderly.clean
  ordered := (List.pairwise_append.mp orderly.ordered).1
  inRange event member := orderly.inRange event (by simp [member])

theorem Orderly.reached (digest : Digest) (maxEntries : Int) (orderly : Orderly start events) {stop : Int} (begun : unixEpoch ≤ stop)
    (ended : ∀ event ∈ events, event.time ≤ stop) :
    Tracks digest (effectiveLimit maxEntries) (run (step digest maxEntries) start events)
      (run (Ledger.step digest maxEntries) (fun _ => unixEpoch) events) stop :=
  tracks_run orderly.clocked orderly.initial begun ended

theorem Orderly.before {earlier later : List Event} {event : Event}
    (orderly : Orderly start (earlier ++ event :: later)) :
    ∀ other ∈ earlier, other.time ≤ event.time := fun other member =>
  (List.pairwise_append.mp orderly.ordered).2.2 other member event (by simp)

variable {between : List Event}

theorem untouched_run {key : String} (ledger : Ledger)
    (untouched : ∀ event ∈ between, ¬ event.Touches digest key) :
    run (Ledger.step digest maxEntries) ledger between key = ledger key := by
  induction between generalizing ledger with
  | nil => rfl
  | cons event rest hypothesis =>
    rw [run_cons, hypothesis _ fun other member => untouched other (by simp [member])]
    exact ledger_perform_untouched (untouched event (by simp))

theorem Orderly.room (orderly : Orderly start events) (l : Limiter) :
    ((run (step digest maxEntries) start events).held (l.pre digest)).card ≤
      (effectiveLimit maxEntries).toNat := by
  -- Any moment after the last event will do.
  obtain ⟨stop, begun, ended⟩ : ∃ stop, unixEpoch ≤ stop ∧ ∀ event ∈ events, event.time ≤ stop := by
    refine ⟨(events.map (·.time)).foldl max unixEpoch, ?_, fun event member => ?_⟩
    · exact ((foldl_max_le _ _ _).mp le_rfl).1
    · exact ((foldl_max_le _ _ _).mp le_rfl).2 _ (List.mem_map_of_mem member)
  exact (orderly.reached digest maxEntries begun ended).room l

theorem limiter_law (digest : Digest) (maxEntries : Int) (start : Memory Bytes)
    (events : List Event) (orderly : Orderly start events) :
    Law digest maxEntries start events where
  window space b valid quota first last forward := by
    obtain ⟨positive, -, some, -⟩ := Bucket.bounds valid
    have paced : Gcra.Paced b.interval b.burst unixEpoch
        ((admitted digest maxEntries space b.key start events).map truncate) :=
      admitted_paced orderly.clocked orderly.initial quota
    have inside : ∀ time ∈ ((admitted digest maxEntries space b.key start events).filter fun time =>
        decide (first ≤ time ∧ time ≤ last)).map truncate,
        truncate first ≤ time ∧ time ≤ truncate last := by
      intro time member
      obtain ⟨raw, chosen, rfl⟩ := List.mem_map.mp member
      have bounds := of_decide_eq_true (List.mem_filter.mp chosen).2
      exact ⟨truncate_mono bounds.1, truncate_mono bounds.2⟩
    have bound := (paced.sublist positive.le (List.filter_sublist.map truncate)).window positive some
      (truncate_mono forward) inside
    simpa using bound
  refused _ time space buckets cancelled _ _ refused :=
    check_refused { maxEntries, space } time cancelled buckets refused
  charged earlier time space buckets cancelled later whole := by
    subst whole
    intro m event allowed b member key
    have here : InRange time := orderly.inRange ⟨time, .check space buckets cancelled⟩ (by simp)
    have tracks := orderly.earlier.reached digest maxEntries here.since orderly.before
    obtain ⟨answered, kept⟩ := tracks.perform ⟨time, .check space buckets cancelled⟩ le_rfl here
    rw [answered] at allowed
    obtain ⟨valid, -, charged⟩ := ledger_perform_granted member allowed
    have old := Tracks.balance (l := { space }) tracks here b.key
    have new := Tracks.balance (l := { space }) kept here b.key
    have positive := (Bucket.bounds valid).1
    rw [old, new, charged, Gcra.charge]
    dsimp only
    omega
  retry earlier time space buckets cancelled between delay whole denied untouched again here ended := by
    subst whole
    intro answer elapsed
    set event : Event := ⟨time, .check space buckets cancelled⟩ with this
    set ledger := run (Ledger.step digest maxEntries) (fun _ => unixEpoch) earlier with owed
    have then_ : InRange time := orderly.inRange event (by simp)
    have tracks : Tracks digest (effectiveLimit maxEntries) _ ledger time :=
      orderly.earlier.reached digest maxEntries then_.since orderly.before
    obtain ⟨answered, -⟩ := tracks.perform event le_rfl then_
    rw [answered] at denied
    have decision : (ledger.check digest { maxEntries, space } time cancelled buckets).1 =
        .ok { allowed := false, retryAfter := delay } := Option.some.inj denied
    obtain ⟨error, ran⟩ | ⟨entries, named, some_, limited, ran⟩ :=
      ledger_check_cases digest ledger { maxEntries, space } time cancelled buckets
    · rw [ran] at decision
      cases decision
    rw [ran, Except.ok.injEq] at decision
    have listed := entries_listed named
    -- The denial charged nothing, and nothing since has touched the buckets.
    have unchanged : (ledger.perform digest maxEntries event).2 = ledger := by
      simp only [Ledger.perform, this, ran, decision, if_true]
    have same : ∀ entry ∈ entries,
        run (Ledger.step digest maxEntries) (fun _ => unixEpoch) (earlier ++ event :: between)
          entry.2 = ledger entry.2 := by
      intro entry member
      rw [run_append, run_cons, ← owed, Ledger.step, unchanged]
      refine untouched_run ledger fun other inside => ?_
      rw [listed.keys entry member]
      refine untouched other inside entry.1 ?_
      rw [← listed.buckets]
      exact List.mem_map_of_mem member
    have later := orderly.reached digest maxEntries here.since ended
    have found := (later.perform ⟨again, .check space buckets false⟩ le_rfl here).1
    have decided := ledger_check_again named some_ limited (truncate_mono (ended event (by simp)))
      decision same
    have reply : answer = some (Ledger.check digest _ { maxEntries, space } again false buckets).1 :=
      found
    rw [reply]
    simpa using decided
  reclaimed earlier later whole now fewer here ended ahead fewerRecords := by
    subst whole
    have tracks := orderly.earlier.reached digest maxEntries here.since ended
    have clocked : Clocked now later := ⟨ahead, (List.pairwise_append.mp orderly.ordered).2.1,
      fun event member => orderly.inRange event (by simp [member])⟩
    rw [answers_eq clocked tracks, answers_eq clocked (tracks.reclaimed fewerRecords)]
  room earlier later whole l := (whole ▸ orderly : Orderly start (earlier ++ later)).earlier.room l

def sampleDigest : Digest where
  text name := "000000000000000000000000000000000000000000000000000000000000000" ++
    if name = "a" then "1" else "0"
  width name := by split <;> decide
  hex name := by
    have digits (text : String)
        (all : text.toList.all ("0123456789abcdef".toList.contains ·) = true) :
        ∀ c ∈ text.toList, c ∈ "0123456789abcdef".toList :=
      fun c member => List.contains_iff_mem.mp (List.all_eq_true.mp all c member)
    split
    · exact digits _ (by decide)
    · exact digits _ (by decide)

def sampleBucket (key : String) : Bucket := { key, interval := 1000000, burst := 1 }

def fastBucket : Bucket := { key := "a", interval := 1000, burst := 1 }

def sampleCheck (time : Int) (keys : List String) : Event :=
  ⟨time, .check "" (keys.map sampleBucket) false⟩

theorem limiter_law_sample :
    Orderly ∅ [sampleCheck unixEpoch ["a"], sampleCheck unixEpoch ["a"],
        ⟨unixEpoch + 1000000, .prune 10 []⟩, sampleCheck (unixEpoch + 1000000) ["a"]] ∧
      answers sampleDigest 1 ∅ [sampleCheck unixEpoch ["a"], sampleCheck unixEpoch ["a"],
        ⟨unixEpoch + 1000000, .prune 10 []⟩, sampleCheck (unixEpoch + 1000000) ["a"]] =
        [some (.ok { allowed := true }), some (.ok { allowed := false, retryAfter := 1000000 }),
          none, some (.ok { allowed := true })] ∧
      Law sampleDigest 1 ∅ [sampleCheck unixEpoch ["a"], sampleCheck unixEpoch ["a"],
        ⟨unixEpoch + 1000000, .prune 10 []⟩, sampleCheck (unixEpoch + 1000000) ["a"]] := by
  have orderly : Orderly ∅ [sampleCheck unixEpoch ["a"], sampleCheck unixEpoch ["a"],
      ⟨unixEpoch + 1000000, .prune 10 []⟩, sampleCheck (unixEpoch + 1000000) ["a"]] := by
    refine ⟨by simp, by simp [sampleCheck], ?_⟩
    intro event member
    simp only [sampleCheck, List.mem_cons, List.not_mem_nil, or_false] at member
    rcases member with rfl | rfl | rfl | rfl <;> exact ⟨by decide, by decide⟩
  exact ⟨orderly, by decide +kernel, limiter_law sampleDigest 1 ∅ _ orderly⟩

theorem limiter_edges :
    (answers sampleDigest 1 ∅ [⟨unixEpoch + 999, .check "" [fastBucket] false⟩,
          ⟨unixEpoch + 1000, .check "" [fastBucket] false⟩] =
        [some (.ok { allowed := true }), some (.ok { allowed := true })] ∧
      ¬ (2 : Int) ≤ fastBucket.burst +
        (unixEpoch + 1000 - (unixEpoch + 999)) / fastBucket.interval) ∧
    answers sampleDigest 1 ∅ [sampleCheck unixEpoch ["a"], sampleCheck unixEpoch ["a", "b"],
        sampleCheck (unixEpoch + 1000000) ["a", "b"]] =
      [some (.ok { allowed := true }), some (.ok { allowed := false, retryAfter := 1000000 }),
        some (.error (.unavailable .capacity))] ∧
    ∀ time ∈ [unixEpoch - 1000000000, unixEpoch + 9223372036854775807000],
      answers sampleDigest 1 ∅ [sampleCheck time ["a"], sampleCheck (time + 2000000) ["a"]] =
        [some (.ok { allowed := true }), some (.error (.unavailable .corruptTimestamp))] ∧
      answers sampleDigest 1 ∅ [sampleCheck time ["a"],
          ⟨time + 2000000, .prune 10 [Limiter.storeKey sampleDigest { space := "" } "a"]⟩,
          sampleCheck (time + 2000000) ["a"]] =
        [some (.ok { allowed := true }), none, some (.ok { allowed := true })] := by
  refine ⟨?_, by decide +kernel, ?_⟩
  · decide +kernel
  · intro time member
    simp only [List.mem_cons, List.not_mem_nil, or_false] at member
    rcases member with rfl | rfl <;> decide +kernel

end Main

end AppleDM.RateLimit
