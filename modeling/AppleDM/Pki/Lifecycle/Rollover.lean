import AppleDM.Pki.Lifecycle.Invariant

set_option autoImplicit false

namespace AppleDM.Pki.Lifecycle

open Checked Mdm Process Relation Run
open State (Memory)
open AppleDM.Path (Plain)

section Transactions

variable {lib : Library} {m m' : Memory Value} {id rev : String} {now : Time}

theorem write_wrote {r : Record} (ran : write m r = .ok m') : Wrote lib (.identity r.id)
    (.identity { r with generation := r.generation + 1 }) m m' := by
  simp only [write, bind_ok, key_ok] at ran
  obtain ⟨k, ⟨valid, rfl⟩, ran⟩ := ran
  exact putJSON_wrote ran trivial ⟨rfl, valid⟩

theorem update_keeps (good : Good lib m) {A : Type} {invalid : Failure} {keys : List String}
    {fn : Memory Value → Except Failure (A × Memory Value)} {answer : Except Failure A}
    (keeps : ∀ value after, fn m = .ok (value, after) → Keeps lib m after)
    (performed : m.update invalid keys fn = (answer, m')) : Keeps lib m m' := by
  obtain ⟨value, after, ran, same⟩ | ⟨failure, same⟩ := Memory.update_cases m invalid keys fn
  · rw [same] at performed
    obtain ⟨-, rfl⟩ := Prod.mk.inj performed
    exact keeps value _ ran
  · rw [same] at performed
    obtain ⟨-, rfl⟩ := Prod.mk.inj performed
    exact good.still

variable {answer : Except Failure Identity}

theorem change_keeps (good : Good lib m) {fn : Record → Except Failure Record}
    (turns : ∀ r r', stored m (.identity id) = some (.identity r) → read m id = .ok r →
      fn r = .ok r' → Turn (fun rev => ∃ job,
        stored m (.rollover id r.active) = some (.rollover job) ∧ job.fromRevision = rev ∧
          job.phase = .complete) r r') (performed : change id fn m = (answer, m')) :
    Keeps lib m m' := by
  unfold change at performed
  split at performed
  · obtain ⟨-, rfl⟩ := Prod.mk.inj performed
    exact good.still
  · refine update_keeps good (fun value after ran => ?_) performed
    simp only [bind_ok, pure_ok, Prod.mk.injEq] at ran
    obtain ⟨r, found, r', turned, _, written, -, rfl⟩ := ran
    obtain ⟨-, there⟩ := read_ok found
    have turn := turns r r' there found turned
    obtain ⟨-, named, -⟩ := good.placed.fits there
    have name : r'.id = id := (congrArg Request.id turn.request).trans named
    exact good.turn (name ▸ write_wrote written) there (turn.generation _)

theorem get_still (performed : get id m = (answer, m')) : m' = m := by
  unfold get at performed
  split at performed
  · exact (Prod.mk.inj performed).2.symm
  · obtain ⟨value, after, ran, same⟩ | ⟨failure, same⟩ := Memory.update_cases m _ _ _
    · rw [same] at performed
      simp only [bind_ok, pure_ok, Prod.mk.injEq] at ran performed
      obtain ⟨_, -, -, rfl⟩ := ran
      exact performed.2.symm
    · rw [same] at performed
      exact (Prod.mk.inj performed).2.symm

theorem beginRevision_keeps (good : Good lib m) {req : Request} {material : Material}
    (performed : beginRevision now req material m = (answer, m')) : Keeps lib m m' := by
  unfold beginRevision at performed
  split at performed
  · obtain ⟨-, rfl⟩ := Prod.mk.inj performed
    exact good.still
  · next k named =>
    refine update_keeps good (fun value after ran => ?_) performed
    dsimp only at ran
    simp only [bind_ok, reject_ok, not_not] at ran
    obtain ⟨r, found, _, rfl, ran⟩ := ran
    split at ran
    · next idle =>
      simp only [bind_ok, pure_ok, Prod.mk.injEq] at ran
      obtain ⟨_, written, -, rfl⟩ := ran
      refine good.append
        { id := (r.revisions.length + 1).repr, phase := .awaitingCertificate, createdAt := now, material }
        (write_wrote written) ?_ idle rfl rfl
      split at found
      · next missing =>
        have new := Except.ok.inj found
        exact .inr ⟨read_notFound missing, by rw [← new], by rw [← new]⟩
      · exact .inl (read_ok found).2
    · obtain ⟨-, rfl⟩ := Prod.mk.inj (Except.ok.inj ran)
      exact good.still

theorem prepareRollover_keeps (good : Good lib m) {devices : List String}
    {answer : Except Failure Rollover}
    (performed : prepareRollover lib now id rev devices m = (answer, m')) :
    Keeps lib m m' ∧ (stored m (.rollover id rev) = none → ∀ job, answer = .ok job →
      ∀ device ∈ devices, ∃ v,
        stored m' (.migration id rev (hash lib device)) = some (.migration v)) := by
  unfold prepareRollover at performed
  split at performed
  · obtain ⟨rfl, rfl⟩ := Prod.mk.inj performed
    exact ⟨good.still, fun _ _ returned => by cases returned⟩
  obtain ⟨value, after, ran, same⟩ | ⟨failure, same⟩ := Memory.update_cases m _ _ _
  · rw [same] at performed
    obtain ⟨-, rfl⟩ := Prod.mk.inj performed
    split at ran
    · next job found =>
      obtain ⟨-, rfl⟩ := Prod.mk.inj (Except.ok.inj ran)
      refine ⟨good.still, fun missing => ?_⟩
      rw [getRollover_ok found] at missing
      cases missing
    · next absent =>
      simp only [bind_ok, reject_ok, pure_ok, Prod.mk.injEq] at ran
      obtain ⟨r, found, v, listed, _, -, _, free, m₁, queued, m₂, written, -, rfl⟩ := ran
      obtain ⟨valid, there⟩ := read_ok found
      have member := revision_ok listed
      have plain' : Plain rev := by
        obtain ⟨n, numbered⟩ := (good.shape id r there).number member.1
        rw [← member.2, numbered]
        exact Path.plain_repr _
      obtain ⟨queued, recorded⟩ := queueAll_queued (plain_of_validID valid) plain' devices queued
      have missing := getRollover_notFound absent
      have wrote : Wrote lib (.rollover id rev) _ m₁ _ :=
        putJSON_wrote written ⟨plain_of_validID valid, plain'⟩ trivial
      refine ⟨good.prepare missing there ⟨v, member⟩ (fun u old retained => ?_) rfl queued wrote,
        fun _ _ _ device given => ?_⟩
      · exact free (List.any_eq_true.2 ⟨u, old, decide_eq_true retained⟩)
      · obtain ⟨v, recorded⟩ := recorded device given
        exact ⟨v, (wrote.other (by simp)).trans recorded⟩
    · cases ran
  · rw [same] at performed
    obtain ⟨rfl, rfl⟩ := Prod.mk.inj performed
    exact ⟨good.still, fun _ _ returned => by cases returned⟩

theorem activateRollover_keeps (good : Good lib m) {answer : Except Failure Rollover}
    (performed : activateRollover lib now id rev m = (answer, m')) : Keeps lib m m' := by
  unfold activateRollover at performed
  split at performed
  · obtain ⟨-, rfl⟩ := Prod.mk.inj performed
    exact good.still
  refine update_keeps good (fun value after ran => ?_) performed
  simp only [bind_ok] at ran
  obtain ⟨job, found, ran⟩ := ran
  have rolled := getRollover_ok found
  split at ran
  · obtain ⟨-, rfl⟩ := Prod.mk.inj (Except.ok.inj ran)
    exact good.still
  next waiting =>
  have prepared : job.phase = .prepared := by
    cases phase : job.phase with
    | prepared => rfl
    | migrating => exact absurd (.inl phase) waiting
    | complete => exact absurd (.inr phase) waiting
  simp only [bind_ok, reject_ok, pure_ok, Prod.mk.injEq] at ran
  obtain ⟨r, found, _, current, v, listed, _, -, r', switched, m₁, written, _, written', -, rfl⟩ := ran
  obtain ⟨valid, there⟩ := read_ok found
  have pending : r.pending = rev := by
    by_contra other
    exact current (.inl other)
  have free := good.prepared id r job there (by rw [pending]; exact rolled) prepared
  have turn : Turn (fun rev => ∃ job, stored m (.rollover id r.active) = some (.rollover job) ∧
      job.fromRevision = rev ∧ job.phase = .complete) r r' := by
    unfold Record.succeed at switched
    split at switched
    · exact switch_turn (good.shape id r there) pending ⟨v, revision_ok listed⟩ (fun _ => .inr free)
        switched
    · cases switched
  obtain ⟨-, named, -⟩ := good.placed.fits there
  have name : r'.id = id := (congrArg Request.id turn.request).trans named
  have wrote : Wrote lib (.identity id) _ m m₁ := name ▸ write_wrote written
  obtain ⟨moved, good₁⟩ := good.turn wrote there (turn.generation (r'.generation + 1))
  have rolled₁ : stored m₁ (.rollover id rev) = some (.rollover job) :=
    (wrote.other (by simp)).trans rolled
  have wrote' : Wrote lib (.rollover id rev) _ m₁ _ :=
    putJSON_wrote written' (good₁.sound rolled₁) trivial
  obtain ⟨moved', good₂⟩ :=
    good₁.roll wrote' rolled₁ (by rw [prepared]; decide) (by simp) (by simp)
  exact ⟨moved.followed moved' fun id' => wrote'.other (by simp), good₂⟩

theorem saveMigration_keeps (good : Good lib m) {v : Migration} {answer : Except Failure Unit}
    (performed : saveMigration lib now id rev v m = (answer, m')) : Keeps lib m m' := by
  unfold saveMigration at performed
  split at performed
  · obtain ⟨-, rfl⟩ := Prod.mk.inj performed
    exact good.still
  split at performed
  · obtain ⟨-, rfl⟩ := Prod.mk.inj performed
    exact good.still
  refine update_keeps good (fun value after ran => ?_) performed
  simp only [bind_ok, reject_ok, pure_ok, Prod.mk.injEq] at ran
  obtain ⟨job, found, _, outstanding, current, read, _, -, _, confirmed, _, -, _, written, -, rfl⟩ :=
    ran
  have rolled := getRollover_ok found
  have sound := good.sound rolled
  have wrote : Wrote lib (.migration id rev (hash lib v.device)) _ m _ :=
    putJSON_wrote written ⟨sound.1, sound.2, lib.plain _⟩ rfl
  refine good.migrate wrote rolled outstanding fun v₀ there before => ?_
  obtain same | ⟨missing, -⟩ := currentMigration_ok read
  · obtain rfl : v₀ = current := by simpa using there.symm.trans same
    by_contra other
    exact confirmed ⟨before, other⟩
  · rw [missing] at there
    cases there

theorem completeRollover_keeps (good : Good lib m) {answer : Except Failure Unit}
    (performed : completeRollover id rev m = (answer, m')) : Keeps lib m m' := by
  refine update_keeps good (fun value after ran => ?_) performed
  simp only [bind_ok] at ran
  obtain ⟨job, found, ran⟩ := ran
  split at ran
  · obtain ⟨-, rfl⟩ := Prod.mk.inj (Except.ok.inj ran)
    exact good.still
  · next outstanding =>
    simp only [bind_ok, reject_ok, not_not, pure_ok, Prod.mk.injEq] at ran
    obtain ⟨_, -, rows, listed, _, checked, _, written, -, rfl⟩ := ran
    have rolled := getRollover_ok found
    have wrote : Wrote lib (.rollover id rev) _ m _ :=
      putJSON_wrote written (good.sound rolled) trivial
    exact good.roll wrote rolled outstanding (by simp) fun _ name v there =>
      migrationRows_settled listed checked there

end Transactions

section Calls

variable {lib : Library} {m m' : Memory Value}

def Needs : Action → Memory Value → Prop
  | .retireIssuer id _ seen, m => ∀ r job, seen = (.ok r, .ok job) → job.phase = .complete →
    stored m (.rollover id r.active) = some (.rollover job)
  | _, _ => True

def Tells : (action : Action) → Answer action → Memory Value → Prop
  | .observe id, seen, m => ∀ rev, Needs (.retireIssuer id rev seen) m
  | _, _, _ => True

theorem observe_tells (id : String) : Tells (.observe id) (observe id m) m := by
  intro rev r job seen _
  unfold observe at seen
  split at seen
  · next found read =>
    obtain ⟨same, rolled⟩ := Prod.mk.inj seen
    obtain rfl := Except.ok.inj same
    exact getRollover_ok rolled
  · cases seen

variable {id rev : String} {seen : Observed}

theorem retireIssuer_keeps (good : Good lib m)
    (needed : Needs (.retireIssuer id rev seen) m) (locked : read m id = seen.1)
    {answer : Except Failure Identity}
    (performed : change id (fun r => retireIssuer rev r seen.2) m = (answer, m')) :
    Keeps lib m m' := by
  refine change_keeps good (fun r r' there read ran => ?_) performed
  refine retireIssuer_turn (good.shape id r there) (fun job known source complete => ?_) ran
  exact ⟨job, needed r job (Prod.ext (locked.symm.trans read) known) complete, source, complete⟩

theorem activate_keeps (good : Good lib m) {now : Time}
    {published : Except Failure Unit} (first : activates id rev m = true)
    {answer : Except Failure Identity}
    (performed : change id (fun r => activate lib now rev r published) m = (answer, m')) :
    Keeps lib m m' := by
  refine change_keeps good (fun r r' there _ ran => ?_) performed
  refine activate_turn (good.shape id r there) (fun ca => ?_) ran
  obtain ⟨record, found, value⟩ := Option.map_eq_some_iff.1 there
  obtain ⟨content, expires⟩ := record
  obtain rfl : content = .identity r := value
  have found : m[identityKey id]? = some ⟨.identity r, expires⟩ := found
  simp only [activates, found, ca, Bool.or_eq_true, decide_eq_true_eq] at first
  obtain ((other | one) | none) | other := first
  · exact absurd rfl other
  · exact .inl one
  · exact .inr (.inl none)
  · exact .inr (.inr other)

theorem exec_keeps : Stepwise (exec lib) Advances (Good lib) Needs Tells where
  keeps action choice m answer after good needed performed := by
    suffices keeps : Keeps lib m after ∧ Tells action answer after from
      ⟨keeps.1.1, keeps.1.2, keeps.2⟩
    cases action with
    | read | generate =>
      obtain ⟨-, rfl⟩ := answered performed
      exact ⟨good.still, trivial⟩
    | get id =>
      obtain rfl := get_still (Option.some.inj performed)
      exact ⟨good.still, trivial⟩
    | begin req material =>
      exact ⟨beginRevision_keeps good (Option.some.inj performed), trivial⟩
    | createIssuer id rev validity =>
      refine ⟨change_keeps good (fun r r' there _ ran => ?_) (Option.some.inj performed), trivial⟩
      exact createIssuer_turn (good.shape id r there) ran
    | importCertificate id rev certificate =>
      refine ⟨change_keeps good (fun r r' there _ ran => ?_) (Option.some.inj performed), trivial⟩
      exact importCertificate_turn (good.shape id r there) ran
    | activate id rev =>
      dsimp only [exec] at performed
      split at performed
      · next first => exact ⟨activate_keeps good first (Option.some.inj performed), trivial⟩
      · cases performed
    | cancel id rev =>
      refine ⟨change_keeps good (fun r r' there _ ran => ?_) (Option.some.inj performed), trivial⟩
      exact cancel_turn (good.shape id r there) ran
    | prepareRollover id rev devices =>
      exact ⟨(prepareRollover_keeps good (Option.some.inj performed)).1, trivial⟩
    | activateRollover id rev =>
      exact ⟨activateRollover_keeps good (Option.some.inj performed), trivial⟩
    | saveMigration id rev v => exact ⟨saveMigration_keeps good (Option.some.inj performed), trivial⟩
    | completeRollover id rev =>
      exact ⟨completeRollover_keeps good (Option.some.inj performed), trivial⟩
    | observe id =>
      obtain ⟨rfl, rfl⟩ := answered performed
      exact ⟨good.still, observe_tells id⟩
    | retireIssuer id rev seen =>
      dsimp only [exec] at performed
      split at performed
      · next locked => exact ⟨retireIssuer_keeps good needed locked (Option.some.inj performed), trivial⟩
      · cases performed

theorem Needs.later (needed : Needs (.retireIssuer id rev seen) m)
    (since : ReflTransGen Advances m m') : Needs (.retireIssuer id rev seen) m' := by
  induction since with
  | refl => exact needed
  | tail _ step ih =>
    intro r job known complete
    obtain ⟨job', there, kept⟩ := step.rollovers _ _ job (ih r job known complete)
    rw [kept complete] at there
    exact there

abbrev Runs {A : Type} (lib : Library) (p : Handler A) (m : Memory Value) : Prop :=
  Safe (exec lib) Advances (Good lib) p (fun _ _ => True) m

theorem runs_ask {A : Type} {action : Action} {next : Answer action → Handler A}
    (needed : ∀ found, ReflTransGen Advances m found → Needs action found)
    (rest : ∀ answer after, Tells action answer after → Runs lib (next answer) after) :
    Runs lib (ask action >>= next) m :=
  exec_keeps.invoke needed fun answer after _ told => rest answer after told

theorem runs_early {A : Type} {r : Except Failure A} : Runs lib (early r : Handler A) m :=
  safe_pure.2 fun _ _ => trivial

theorem begin_runs (req : Request) : Runs lib (begin req) m := by
  have start (m : Memory Value) : Runs lib (begin.start req) m :=
    runs_ask (fun _ _ => trivial) fun _ after _ => safe_early fun _ _ =>
      runs_ask (fun _ _ => trivial) fun _ _ _ => runs_early
  refine safe_early fun _ _ => safe_early fun _ _ => safe_early fun _ _ =>
    runs_ask (fun _ _ => trivial) fun seen after _ => ?_
  split
  · refine safe_early fun _ _ => ?_
    split
    · exact runs_ask (fun _ _ => trivial) fun _ _ _ => runs_early
    · exact start after
  · exact start after
  · exact runs_early

theorem handle_runs (call : Call) : Runs lib (handle call) m := by
  have single (action : Action) (needed : ∀ found, Needs action found) :
      Runs lib (handle.single action) m :=
    runs_ask (fun found _ => needed found) fun _ _ _ => trivial
  have dropped {A : Type} {p : Handler A} (runs : Runs lib p m) :
      Runs lib (p >>= fun _ => pure ()) m :=
    safe_bind.2 (runs.mono fun _ _ _ _ => trivial)
  cases call with
  | begin req => exact dropped (begin_runs req)
  | createIssuer id rev validity =>
    exact dropped (safe_early fun _ _ => runs_ask (fun _ _ => trivial) fun _ _ _ => runs_early)
  | importCertificate | activate | cancel | prepareRollover | activateRollover | saveMigration
  | completeRollover => exact single _ fun _ => trivial
  | retireIssuer id rev =>
    refine dropped (runs_ask (fun _ _ => trivial) fun seen after told => ?_)
    exact runs_ask (fun _ since => (told rev).later since) fun _ _ _ => runs_early

theorem disciplined (lib : Library) :
    Disciplined (exec lib) Advances (Good lib) (fun call => (handle call).run) fun _ _ => True where
  reflexive := fun m _ => .refl m
  starts := fun call _ _ => Meets.mono (handle_runs call) fun _ _ _ => trivial
  stable := fun _ _ _ _ _ => trivial

end Calls

section Runs

variable {lib : Library} {m m' : Memory Value} {id rev : String} {job : Rollover}

theorem rollovers_later (since : ReflTransGen Advances m m')
    (there : stored m (.rollover id rev) = some (.rollover job)) (complete : job.phase = .complete) :
    stored m' (.rollover id rev) = some (.rollover job) := by
  induction since with
  | refl => exact there
  | tail _ step ih =>
    obtain ⟨job', there', kept⟩ := step.rollovers id rev job ih
    rw [kept complete] at there'
    exact there'

theorem frozen_later (since : ReflTransGen Advances m m')
    (there : stored m (.rollover id rev) = some (.rollover job)) (complete : job.phase = .complete)
    (name : String) : stored m' (.migration id rev name) = stored m (.migration id rev name) := by
  induction since with
  | refl => rfl
  | tail earlier step ih =>
    rw [step.frozen id rev job (rollovers_later earlier there complete) complete, ih]

theorem migrations_later (since : ReflTransGen Advances m m') {name : String} {v : Migration}
    (there : stored m (.migration id rev name) = some (.migration v)) :
    ∃ v', stored m' (.migration id rev name) = some (.migration v') ∧
      (v.phase = .confirmed → v'.phase = .confirmed) := by
  induction since with
  | refl => exact ⟨v, there, fun confirmed => confirmed⟩
  | tail _ step ih =>
    obtain ⟨v', there', kept⟩ := ih
    obtain ⟨v'', there'', kept'⟩ := step.migrations id rev name v' there'
    exact ⟨v'', there'', fun confirmed => kept' (kept confirmed)⟩

structure Tracked (lib : Library) (before : System) (mv : Move Call Choice)
    (after last : Memory Value) : Prop where
  single : ∀ id r, stored before.world (.identity id) = some (.identity r) →
    r.kind = .enrollmentCA →
      r.revisions.countP (·.phase = .active) ≤ 1 ∧ r.revisions.countP (·.phase = .retained) ≤ 1 ∧
        ∀ v ∈ r.revisions, v.id = r.pending → v.phase ≠ .active ∧ v.phase ≠ .retained
  retired : ∀ id r', stored after (.identity id) = some (.identity r') →
    ∀ v' ∈ r'.revisions, v'.phase = .retired →
      ∃ r, stored before.world (.identity id) = some (.identity r) ∧
        ((∃ v ∈ r.revisions, v.id = v'.id ∧ v.phase = .retired) ∨
          r'.active = r.active ∧ ∃ job,
            stored before.world (.rollover id r.active) = some (.rollover job) ∧
              job.fromRevision = v'.id ∧ job.phase = .complete)
  complete : ∀ id rev job, stored last (.rollover id rev) = some (.rollover job) →
    job.phase = .complete → ∀ device v,
      stored after (.migration id rev (hash lib device)) = some (.migration v) →
        ∃ v', stored last (.migration id rev (hash lib device)) = some (.migration v') ∧
          (v'.phase = .confirmed ∨ v'.phase = .disabled)
  cohort : ∀ id rev devices job,
    Performs lib before mv (.prepareRollover id rev devices) (.ok job) →
      stored before.world (.rollover id rev) = none → ∀ device ∈ devices,
        ∃ v, stored after (.migration id rev (hash lib device)) = some (.migration v)
  frozen : ∀ id rev job, stored after (.rollover id rev) = some (.rollover job) →
    job.phase = .complete → ∀ device, stored last (.migration id rev (hash lib device)) =
      stored after (.migration id rev (hash lib device))
  confirmed : ∀ id rev device v,
    stored after (.migration id rev (hash lib device)) = some (.migration v) →
      v.phase = .confirmed →
        ∃ v', stored last (.migration id rev (hash lib device)) = some (.migration v') ∧
          v'.phase = .confirmed
  based : ∀ id rev v, Performs lib before mv (.saveMigration id rev v) (.ok ()) →
    (∃ current, stored before.world (.migration id rev (hash lib v.device)) =
      some (.migration current) ∧ current.generation = v.generation) ∨
    stored before.world (.migration id rev (hash lib v.device)) = none ∧ v.generation = 0

theorem start_kept (lib : Library) :
    Kept (exec lib) Advances (Good lib) (fun _ _ => True) start := by
  have none (p : Place) : stored (∅ : Memory Value) p = none := by
    rw [stored, Std.ExtTreeMap.getElem?_empty]
    rfl
  refine ⟨⟨?_, ?_, ?_, ?_, ?_, ?_⟩, by simp [start]⟩
  · intro k record there
    change (∅ : Memory Value)[k]? = some record at there
    rw [Std.ExtTreeMap.getElem?_empty] at there
    cases there
  all_goals simp [start, none]

theorem rollover_abandons_nobody (lib : Library) (earlier : List (Move Call Choice))
    (mv : Move Call Choice) (later : List (Move Call Choice)) :
    Tracked lib (run (step lib) start earlier) mv (step lib (run (step lib) start earlier) mv).world
      (run (step lib) (step lib (run (step lib) start earlier) mv) later).world := by
  have kept := run_kept (disciplined lib) (start_kept lib) earlier
  obtain ⟨moved, kept'⟩ := move_kept (disciplined lib) kept mv
  have since := run_later (disciplined lib) kept' later
  have good := kept.1
  have last := (run_kept (disciplined lib) kept' later).1
  refine ⟨fun id r there ca => ?_, moved.retired, fun id rev job rolled complete device v there => ?_,
    fun id rev devices job performed missing => ?_,
    fun id rev job rolled complete device => frozen_later since rolled complete _,
    fun id rev device v there confirmed => ?_, fun id rev v performed => ?_⟩
  · have shape := good.shape id r there
    refine ⟨shape.countP_le_one fun v member v' member' holds holds' => ?_,
      shape.countP_le_one fun v member v' member' holds holds' => ?_, fun v member pending => ?_⟩
    · simp only [decide_eq_true_eq] at holds holds'
      rw [(shape.active v member).1 holds, (shape.active v' member').1 holds']
    · simp only [decide_eq_true_eq] at holds holds'
      exact shape.single ca v member v' member' holds holds'
    · obtain phase | phase := (shape.pending v member).2 pending <;> rw [phase] <;> simp
  · obtain ⟨v', there', -⟩ := migrations_later since there
    refine ⟨v', there', ?_⟩
    have settled := last.settled id rev job rolled complete _ v' there'
    cases phase : v'.phase <;> simp [phase, MigrationPhase.settled] at settled ⊢
  · obtain ⟨n, choice, next, rfl, found, performed⟩ := performed
    exact (prepareRollover_keeps good (Option.some.inj performed)).2 missing job rfl
  · obtain ⟨v', there', kept⟩ := migrations_later since there
    exact ⟨v', there', kept confirmed⟩
  · obtain ⟨n, choice, next, rfl, found, performed⟩ := performed
    replace performed := Option.some.inj performed
    unfold saveMigration at performed
    split at performed
    · cases performed
    split at performed
    · cases performed
    obtain ⟨value, after, ran, same⟩ | ⟨failure, same⟩ := Memory.update_cases _ _ _ _
    · rw [same] at performed
      simp only [bind_ok, reject_ok, not_not] at ran
      obtain ⟨job, -, _, -, current, read, _, based, -⟩ := ran
      obtain there | ⟨missing, fresh, -⟩ := currentMigration_ok read
      · exact .inl ⟨current, there, based⟩
      · exact .inr ⟨missing, based.symm.trans fresh⟩
    · rw [same] at performed
      cases performed

def sampleHash (bytes : Bytes) : Nat := bytes.foldl (fun n byte => n * 256 + byte.toNat) 1

def sampleLibrary : Library where
  fingerprint bytes := (sampleHash bytes).repr
  plain bytes := Path.plain_repr (sampleHash bytes)
  certificates bytes := .ok ({ raw := bytes, publicKey := [] }, [])
  validate _ material now :=
    .ok (material,
      { raw := material.certificate, publicKey := [], notBefore := now, notAfter := now + 1000 }, "")
  selfSign _ _ _ _ random := .ok random

def sampleRequest : Request :=
  { id := "ca", kind := .enrollmentCA, subject := { commonName := "Enrollment CA" } }

theorem rollover_retried :
    let first : List (Move Call Choice) :=
      [.start (.begin sampleRequest), .advance 0 {}, .advance 0 {}, .advance 0 { now := 1 },
        .start (.createIssuer "ca" "1" 0), .advance 1 { now := 2 },
        .start (.activate "ca" "1"), .advance 2 { now := 3 },
        .start (.begin sampleRequest), .advance 3 {}, .advance 3 {}, .advance 3 { now := 4 },
        .start (.createIssuer "ca" "2" 0), .advance 4 { now := 5 },
        .start (.prepareRollover "ca" "2" []), .advance 5 { now := 6 },
        .start (.prepareRollover "ca" "2" ["extra"])]
    let before := run (step sampleLibrary) start first
    let last := run (step sampleLibrary) before
      [.advance 6 { now := 7 }, .start (.activateRollover "ca" "2"), .advance 7 { now := 8 },
        .start (.completeRollover "ca" "2"), .advance 8 { now := 9 }]
    let job : Rollover :=
      { issuerID := "ca", fromRevision := "1", toRevision := "2", phase := .prepared, createdAt := 6 }
    (prepareRollover sampleLibrary 7 "ca" "2" ["extra"] before.world).1 = .ok job ∧
      stored last.world (.rollover "ca" "2") =
        some (.rollover { job with phase := .complete, activatedAt := 8 }) ∧
      stored last.world (.migration "ca" "2" (hash sampleLibrary "extra")) = none := by
  decide +kernel

end Runs

end AppleDM.Pki.Lifecycle
