import AppleDM.Shared.Savepoints
import Mathlib.Tactic.Common
import Mathlib.Order.Basic

set_option autoImplicit false

-- Units of work on one pool. A callback is what it does, call after call, and how it ends; what
-- its callers do with an error or a panic is in what they go on to do.
namespace AppleDM.UnitOfWork

open Savepoints

inductive Err (Id : Type) where
  | user (id : Id)
  | required
  | coordination
  | begins
  | commits
  | savepoint
  | savepointRollback
  | savepointRelease
  deriving DecidableEq

inductive Outcome (Id : Type) where
  | returned (err : List (Err Id))
  | panicked
  deriving DecidableEq

/-- A callback. `statement` is one that writes; the flags say which statements succeed, and
`others` counts the savepoint names that were taken elsewhere in between. -/
inductive Body (Id : Type) where
  | returns (err : List (Err Id))
  | panics
  | statement (id : Id) (succeeds : Bool) (rest : Body Id)
  | fail (err : List (Err Id)) (rest : Body Id)
  | afterCommit (id : Id) (rest : Body Id)
  | afterCompletion (id : Id) (rest : Body Id)
  | runNil (rest : Body Id)
  | run (inner rest : Body Id)
  | savepointNil (rest : Body Id)
  | savepointRefused (rest : Body Id)
  | savepoint (others : Nat) (rolledBack released : Bool) (inner rest : Body Id)

structure Work (Id : Type) where
  tx : Tx Nat Id := {}
  err : List (Err Id) := []
  commit : List Id := []
  complete : List (Id × Bool) := []
  sequence : Nat

variable {Id : Type}

def Work.fail (u : Work Id) (err : List (Err Id)) : Work Id :=
  if err = [] then u else { u with err := u.err ++ err }

def Work.clean (u : Work Id) (succeeds : Bool) (does : Option (Tx Nat Id)) (failure : Err Id)
    (err : List (Err Id)) : Work Id × List (Err Id) :=
  match does with
  | some tx => if succeeds then ({ u with tx }, err) else (u.fail [failure], err ++ [failure])
  | none => (u.fail [failure], err ++ [failure])

def Outcome.err : Outcome Id → List (Err Id)
  | .returned err => err
  | .panicked => []

def Outcome.completed : Outcome Id → Bool
  | .returned _ => true
  | .panicked => false

def Work.leave (u : Work Id) (name commitStart completeStart : Nat) (rolledBack released : Bool)
    (outcome : Outcome Id) : Work Id × Outcome Id :=
  let err := outcome.err
  let (u, err) :=
    if outcome.completed = false ∨ err ≠ [] then
      u.clean rolledBack (u.tx.rollbackTo name) .savepointRollback err
    else (u, err)
  let (u, err) := u.clean released (u.tx.release name) .savepointRelease err
  let u :=
    if outcome.completed = false ∨ err ≠ [] then
      { u with
        commit := u.commit.take commitStart
        complete := u.complete.take completeStart ++
          (u.complete.drop completeStart).map fun callback => (callback.1, false) }
    else u
  (u, if outcome.completed then .returned err else .panicked)

def Body.exec : Body Id → Work Id → Work Id × Outcome Id
  | returns err, u => (u, .returned err)
  | panics, u => (u, .panicked)
  | statement id succeeds rest, u =>
    rest.exec (if succeeds then { u with tx := u.tx.write id } else u)
  | fail err rest, u => rest.exec (u.fail err)
  | afterCommit id rest, u => rest.exec { u with commit := u.commit ++ [id] }
  | afterCompletion id rest, u => rest.exec { u with complete := u.complete ++ [(id, true)] }
  -- Without a callback the error is returned before the unit is looked for.
  | runNil rest, u => rest.exec u
  | run inner rest, u =>
    let (u, outcome) := inner.exec u
    rest.exec (u.fail outcome.err)
  | savepointNil rest, u => rest.exec (u.fail [.coordination])
  | savepointRefused rest, u => rest.exec (u.fail [.savepoint])
  | savepoint others rolledBack released inner rest, u =>
    let name := u.sequence + others + 1
    let entered := { u with tx := u.tx.savepoint name, sequence := name }
    let (left, outcome) := inner.exec entered
    rest.exec (left.leave name u.commit.length u.complete.length rolledBack released outcome).1

inductive Call (Id : Type) where
  | commit (id : Id)
  | completion (id : Id) (committed : Bool)
  deriving DecidableEq

def Call.id : Call Id → Id
  | commit id | completion id _ => id

structure Result (Id : Type) where
  outcome : Outcome Id
  committed : Bool := false
  durable : List Id := []
  called : List (Call Id) := []
  deriving DecidableEq

def calls (committed : Bool) (commit : List Id) (complete : List (Id × Bool)) : List (Call Id) :=
  (if committed then commit.map .commit else []) ++
    complete.map fun callback => .completion callback.1 (committed && callback.2)

variable (crashes : Id → Bool)

-- A callback that panics ends the deferred loop, so the callbacks after it are never called.
def upToPanic : List (Call Id) → List (Call Id)
  | [] => []
  | call :: rest => if crashes call.id then [call] else call :: upToPanic rest

def Work.finish (u : Work Id) (committed : Bool) (outcome : Outcome Id) : Result Id :=
  let called := upToPanic crashes (calls committed u.commit u.complete)
  { outcome := if called.any fun call => crashes call.id then .panicked else outcome
    committed
    durable := if committed then u.tx.writes else []
    called }

variable (sequence : Nat) (commits : Bool) (body : Body Id)

def run (begins commits : Bool) : Option (Body Id) → Result Id
  | none => { outcome := .returned [.required] }
  | some body =>
    if begins = false then { outcome := .returned [.begins] }
    else
      match body.exec { sequence } with
      | (u, .panicked) => u.finish crashes false .panicked
      | (u, .returned err) =>
        if err ++ u.err ≠ [] then u.finish crashes false (.returned (err ++ u.err))
        else if commits = false then u.finish crashes false (.returned [.commits])
        else u.finish crashes true (.returned [])

def Body.outcome : Body Id → Outcome Id
  | returns err => .returned err
  | panics => .panicked
  | statement _ _ rest | fail _ rest | afterCommit _ rest | afterCompletion _ rest | runNil rest
  | run _ rest | savepointNil rest | savepointRefused rest | savepoint _ _ _ _ rest => rest.outcome

def Body.succeeds : Bool :=
  match body.outcome with
  | .returned [] => true
  | _ => false

def Body.erred : Bool :=
  match body.outcome with
  | .returned (_ :: _) => true
  | _ => false

def Body.poisons : Body Id → Bool
  | returns _ | panics => false
  | statement _ _ rest | afterCommit _ rest | afterCompletion _ rest | runNil rest => rest.poisons
  | fail err rest => !err.isEmpty || rest.poisons
  | run inner rest => inner.poisons || inner.erred || rest.poisons
  | savepointNil _ | savepointRefused _ => true
  | savepoint _ rolledBack released inner rest =>
    inner.poisons || (!inner.succeeds && !rolledBack) || !released || rest.poisons

def Body.silent : Body Id → Bool
  | returns _ | panics => false
  | statement _ _ rest | fail _ rest | afterCommit _ rest | afterCompletion _ rest
  | savepointNil rest | savepointRefused rest => rest.silent
  | runNil _ => true
  | run inner rest => inner.silent || inner.outcome matches .panicked || rest.silent
  | savepoint _ _ _ inner rest => inner.silent || rest.silent

def failed (inner : Body Id) (released : Bool) : Bool := !inner.succeeds || !released

def Body.writes : Body Id → List Id
  | returns _ | panics => []
  | statement id succeeds rest => (if succeeds then [id] else []) ++ rest.writes
  | fail _ rest | afterCommit _ rest | afterCompletion _ rest | runNil rest | savepointNil rest
  | savepointRefused rest => rest.writes
  | run inner rest => inner.writes ++ rest.writes
  | savepoint _ _ released inner rest =>
    (if failed inner released then [] else inner.writes) ++ rest.writes

def Body.notifications : Body Id → List Id
  | returns _ | panics => []
  | afterCommit id rest => id :: rest.notifications
  | statement _ _ rest | fail _ rest | afterCompletion _ rest | runNil rest | savepointNil rest
  | savepointRefused rest => rest.notifications
  | run inner rest => inner.notifications ++ rest.notifications
  | savepoint _ _ released inner rest =>
    (if failed inner released then [] else inner.notifications) ++ rest.notifications

def Body.completions : Body Id → List (Id × Bool)
  | returns _ | panics => []
  | afterCompletion id rest => (id, true) :: rest.completions
  | statement _ _ rest | fail _ rest | afterCommit _ rest | runNil rest | savepointNil rest
  | savepointRefused rest => rest.completions
  | run inner rest => inner.completions ++ rest.completions
  | savepoint _ _ released inner rest =>
    (if failed inner released then inner.completions.map fun callback => (callback.1, false)
      else inner.completions) ++ rest.completions

structure Composes (body : Body Id) (result : Result Id) : Prop where
  committed : result.committed = true →
    body.outcome = .returned [] ∧ body.poisons = false ∧ body.silent = false
  durable : result.durable = if result.committed then body.writes else []
  called : result.called = calls result.committed body.notifications body.completions

section Execution

variable {u left : Work Id} {name : Nat} {saved : List Id} {extra marks : List (Nat × List Id)}

def Outcome.succeeds : Outcome Id → Bool
  | .returned [] => true
  | _ => false

theorem fail_err (u : Work Id) (err : List (Err Id)) :
    (u.fail err).err = [] ↔ u.err = [] ∧ err = [] := by
  unfold Work.fail
  split <;> simp_all

@[simp] theorem fail_tx (u : Work Id) (err : List (Err Id)) : (u.fail err).tx = u.tx := by
  unfold Work.fail
  split <;> rfl

@[simp] theorem fail_commit (u : Work Id) (err : List (Err Id)) : (u.fail err).commit = u.commit := by
  unfold Work.fail
  split <;> rfl

@[simp] theorem fail_complete (u : Work Id) (err : List (Err Id)) :
    (u.fail err).complete = u.complete := by
  unfold Work.fail
  split <;> rfl

@[simp] theorem fail_sequence (u : Work Id) (err : List (Err Id)) :
    (u.fail err).sequence = u.sequence := by
  unfold Work.fail
  split <;> rfl

structure Leaves (left after : Work Id) (saved : List Id) (marks : List (Nat × List Id))
    (name commitStart completeStart : Nat) (rolledBack released ok : Bool) : Prop where
  err : after.err = [] ↔ left.err = [] ∧ (ok = false → rolledBack = true) ∧ released = true
  commit : after.commit = if ok = false ∨ released = false then left.commit.take commitStart
    else left.commit
  complete : after.complete = if ok = false ∨ released = false then
      left.complete.take completeStart ++
        (left.complete.drop completeStart).map fun callback => (callback.1, false)
    else left.complete
  sequence : after.sequence = left.sequence
  writes : after.tx.writes = if ok = false ∧ rolledBack = true then saved else left.tx.writes
  marks : after.tx.marks = if released = true then marks
    else if ok = false ∧ rolledBack = true then (name, saved) :: marks else left.tx.marks

theorem leave_spec (fresh : ∀ mark ∈ extra, mark.1 ≠ name)
    (stack : left.tx.marks = extra ++ (name, saved) :: marks) (commitStart completeStart : Nat)
    (rolledBack released : Bool) (outcome : Outcome Id) :
    Leaves left (left.leave name commitStart completeStart rolledBack released outcome).1 saved
      marks name commitStart completeStart rolledBack released outcome.succeeds := by
  have back : left.tx.rollbackTo name = some { writes := saved, marks := (name, saved) :: marks } := by
    rw [Tx.rollbackTo, stack, Tx.upTo_append fresh]
  have forget : left.tx.release name = some { left.tx with marks } := by
    rw [Tx.release, stack, Tx.upTo_append fresh]
  have forgetBack : (Tx.mk saved ((name, saved) :: marks)).release name = some ⟨saved, marks⟩ := by
    simp [Tx.release, Tx.upTo]
  rcases outcome with (_ | ⟨first, more⟩) | _ <;> cases rolledBack <;> cases released <;>
    constructor <;> simp [Work.leave, Work.clean, Outcome.completed, Outcome.err,
      Outcome.succeeds, back, forget, forgetBack, fail_err]

structure Effect (Id : Type) where
  poison : Bool := false
  notifications : List Id := []
  completions : List (Id × Bool) := []
  writes : List Id := []

def Effect.next (first second : Effect Id) : Effect Id where
  poison := first.poison || second.poison
  notifications := first.notifications ++ second.notifications
  completions := first.completions ++ second.completions
  writes := first.writes ++ second.writes

def Body.effect (body : Body Id) : Effect Id where
  poison := body.poisons
  notifications := body.notifications
  completions := body.completions
  writes := body.writes

/-- From `u` to `after` there is this effect; a transaction that is poisoned may have written more,
and may have kept savepoints that it should have released. -/
structure Does (effect : Effect Id) (u after : Work Id) : Prop where
  err : after.err = [] ↔ u.err = [] ∧ effect.poison = false
  commit : after.commit = u.commit ++ effect.notifications
  complete : after.complete = u.complete ++ effect.completions
  sequence : u.sequence ≤ after.sequence
  marks : ∃ extra, after.tx.marks = extra ++ u.tx.marks ∧ ∀ mark ∈ extra, u.sequence < mark.1
  writes : effect.poison = false → after.tx.writes = u.tx.writes ++ effect.writes

theorem Does.next {first second : Effect Id} {u between after : Work Id}
    (before : Does first u between) (later : Does second between after) :
    Does (first.next second) u after where
  err := by
    rw [later.err, before.err, Effect.next, Bool.or_eq_false_iff, and_assoc]
  commit := by rw [later.commit, before.commit, Effect.next, List.append_assoc]
  complete := by rw [later.complete, before.complete, Effect.next, List.append_assoc]
  sequence := Nat.le_trans before.sequence later.sequence
  marks := by
    obtain ⟨under, stacked, newer⟩ := before.marks
    obtain ⟨above, stacked', newest⟩ := later.marks
    refine ⟨above ++ under, by rw [stacked', stacked, List.append_assoc], fun mark member => ?_⟩
    rcases List.mem_append.mp member with new | old
    · exact Nat.lt_of_le_of_lt before.sequence (newest mark new)
    · exact newer mark old
  writes clean := by
    rw [Effect.next, Bool.or_eq_false_iff] at clean
    rw [later.writes clean.2, before.writes clean.1, Effect.next, List.append_assoc]

theorem Does.refl (u : Work Id) : Does {} u u :=
  ⟨by simp, by simp, by simp, Nat.le_refl _, ⟨[], rfl, by simp⟩, by simp⟩

theorem fail_does (u : Work Id) (err : List (Err Id)) :
    Does { poison := !err.isEmpty } u (u.fail err) :=
  ⟨by simp [fail_err], by simp, by simp, by simp, ⟨[], by simp⟩, by simp⟩

variable (body : Body Id)

theorem Body.succeeds_eq : body.succeeds = body.outcome.succeeds := by
  unfold Body.succeeds Outcome.succeeds
  split <;> simp_all

theorem Body.erred_eq : body.erred = !body.outcome.err.isEmpty := by
  unfold Body.erred
  rcases body.outcome with (_ | ⟨first, more⟩) | _ <;> rfl

def around (rolledBack released : Bool) (inner : Body Id) : Effect Id where
  poison := inner.poisons || (!inner.succeeds && !rolledBack) || !released
  notifications := if failed inner released then [] else inner.notifications
  completions := if failed inner released then
      inner.completions.map fun callback => (callback.1, false)
    else inner.completions
  writes := if failed inner released then [] else inner.writes

theorem savepoint_does {u left : Work Id} {others : Nat} {inner : Body Id}
    (rolledBack released : Bool)
    (done : Does inner.effect { u with
      tx := u.tx.savepoint (u.sequence + others + 1), sequence := u.sequence + others + 1 } left) :
    Does (around rolledBack released inner) u (left.leave (u.sequence + others + 1) u.commit.length
      u.complete.length rolledBack released inner.outcome).1 := by
  obtain ⟨extra, stacked, newer⟩ := done.marks
  have fresh : ∀ mark ∈ extra, mark.1 ≠ u.sequence + others + 1 := fun mark member =>
    Nat.ne_of_gt (newer mark member)
  have leaves := leave_spec fresh stacked u.commit.length u.complete.length rolledBack released
    inner.outcome
  rw [← inner.succeeds_eq] at leaves
  have commit : left.commit = u.commit ++ inner.notifications := done.commit
  have complete : left.complete = u.complete ++ inner.completions := done.complete
  have sequence : u.sequence + others + 1 ≤ left.sequence := done.sequence
  have writes : inner.poisons = false → left.tx.writes = u.tx.writes ++ inner.writes := done.writes
  have bad : failed inner released = true ↔ inner.succeeds = false ∨ released = false := by
    simp [failed]
  have above : ∀ mark ∈ [(u.sequence + others + 1, u.tx.writes)], u.sequence < mark.1 := by
    intro mark member
    rw [List.mem_singleton.mp member]
    dsimp only
    omega
  constructor
  · rw [leaves.err, done.err]
    simp only [around, Body.effect]
    cases inner.poisons <;> cases inner.succeeds <;> cases rolledBack <;> cases released <;> simp
  · rw [leaves.commit, commit, around]
    simp only [← bad]
    split <;> simp
  · rw [leaves.complete, complete, around]
    simp only [← bad]
    split <;> simp
  · rw [leaves.sequence]
    omega
  · rw [leaves.marks]
    split
    · exact ⟨[], rfl, by simp⟩
    · split
      · exact ⟨[(u.sequence + others + 1, u.tx.writes)], rfl, above⟩
      · refine ⟨extra ++ [(u.sequence + others + 1, u.tx.writes)], by simp [stacked, Tx.savepoint],
          fun mark member => ?_⟩
        rcases List.mem_append.mp member with inside | own
        · have := newer mark inside
          dsimp only at this
          omega
        · exact above mark own
  · intro clean
    simp only [around, Bool.or_eq_false_iff, Bool.and_eq_false_iff, Bool.not_eq_false'] at clean
    obtain ⟨⟨inside, back⟩, rfl⟩ := clean
    rw [leaves.writes, writes inside, around, failed]
    cases ok : inner.succeeds with
    | true => simp
    | false =>
      have rolled : rolledBack = true := by simpa [ok] using back
      simp [rolled]

theorem exec_does (u : Work Id) :
    Does body.effect u (body.exec u).1 ∧ (body.exec u).2 = body.outcome := by
  induction body generalizing u with
  | returns | panics => exact ⟨.refl u, rfl⟩
  | statement id succeeds rest hypothesis =>
    obtain ⟨done, ended⟩ := hypothesis (if succeeds then { u with tx := u.tx.write id } else u)
    have wrote : Does { writes := if succeeds then [id] else [] } u
        (if succeeds then { u with tx := u.tx.write id } else u) := by
      cases succeeds
      · exact .refl u
      · exact ⟨by simp, by simp, by simp, Nat.le_refl _, ⟨[], rfl, by simp⟩, by simp [Tx.write]⟩
    exact ⟨wrote.next done, ended⟩
  | fail err rest hypothesis =>
    obtain ⟨done, ended⟩ := hypothesis (u.fail err)
    exact ⟨(fail_does u err).next done, ended⟩
  | afterCommit id rest hypothesis =>
    obtain ⟨done, ended⟩ := hypothesis { u with commit := u.commit ++ [id] }
    have registered : Does { notifications := [id] } u { u with commit := u.commit ++ [id] } :=
      ⟨by simp, by simp, by simp, Nat.le_refl _, ⟨[], rfl, by simp⟩, by simp⟩
    exact ⟨registered.next done, ended⟩
  | afterCompletion id rest hypothesis =>
    obtain ⟨done, ended⟩ := hypothesis { u with complete := u.complete ++ [(id, true)] }
    have registered : Does { completions := [(id, true)] } u
        { u with complete := u.complete ++ [(id, true)] } :=
      ⟨by simp, by simp, by simp, Nat.le_refl _, ⟨[], rfl, by simp⟩, by simp⟩
    exact ⟨registered.next done, ended⟩
  | runNil rest hypothesis => exact hypothesis u
  | run inner rest innerHypothesis hypothesis =>
    obtain ⟨inside, outcome⟩ := innerHypothesis u
    obtain ⟨done, ended⟩ := hypothesis ((inner.exec u).1.fail (inner.exec u).2.err)
    have poisoned := fail_does (inner.exec u).1 (inner.exec u).2.err
    rw [outcome, ← inner.erred_eq, ← outcome] at poisoned
    have whole := (inside.next poisoned).next done
    simp only [Effect.next, List.append_nil] at whole
    exact ⟨whole, ended⟩
  | savepointNil rest hypothesis =>
    obtain ⟨done, ended⟩ := hypothesis (u.fail [.coordination])
    exact ⟨(fail_does u [.coordination]).next done, ended⟩
  | savepointRefused rest hypothesis =>
    obtain ⟨done, ended⟩ := hypothesis (u.fail [.savepoint])
    exact ⟨(fail_does u [.savepoint]).next done, ended⟩
  | savepoint others rolledBack released inner rest innerHypothesis hypothesis =>
    obtain ⟨inside, outcome⟩ := innerHypothesis { u with
      tx := u.tx.savepoint (u.sequence + others + 1), sequence := u.sequence + others + 1 }
    have left := savepoint_does rolledBack released inside
    rw [← outcome] at left
    obtain ⟨done, ended⟩ := hypothesis _
    exact ⟨left.next done, ended⟩

end Execution

def Body.through (commits : Bool) : Bool :=
  body.succeeds && !body.poisons && commits

theorem Body.succeeds_iff : body.succeeds = true ↔ body.outcome = .returned [] := by
  unfold Body.succeeds
  split <;> simp_all

theorem run_begun : ∃ u outcome, Does body.effect { sequence } u ∧
      run crashes sequence true commits (some body) =
        u.finish crashes (body.through commits) outcome := by
  obtain ⟨done, ended⟩ := exec_does body { sequence }
  have clean : (body.exec { sequence }).1.err = [] ↔ body.poisons = false := by
    rw [done.err]
    exact and_iff_right rfl
  have ran : body.exec { sequence } = ((body.exec { sequence }).1, body.outcome) := by
    rw [← ended]
  rw [run, ran, Body.through, body.succeeds_eq]
  refine ⟨(body.exec { sequence }).1, ?_⟩
  simp only [Bool.true_eq_false, if_false]
  rcases body.outcome with err | _
  · cases err with
    | cons first more => exact ⟨_, done, rfl⟩
    | nil =>
      simp only [List.nil_append, ne_eq, clean, Bool.not_eq_false]
      cases poisoned : body.poisons <;> cases commits <;> exact ⟨_, done, rfl⟩
  · exact ⟨_, done, rfl⟩

theorem upToPanic_eq (called : List (Call Id)) : upToPanic crashes called = called ↔
    ∀ call ∈ called.dropLast, crashes call.id = false := by
  induction called with
  | nil => simp [upToPanic]
  | cons call rest ih =>
    cases rest with
    | nil => simp [upToPanic]
    | cons next rest =>
      rw [upToPanic, List.dropLast_cons_cons, List.forall_mem_cons, ← ih]
      cases crashes call.id <;> simp

theorem run_durable (sequence : Nat) (commits : Bool) (body : Body Id) :
    let result := run crashes sequence true commits (some body)
    result.committed = body.through commits ∧
      (result.durable = if result.committed then body.writes else []) ∧
      result.called =
        upToPanic crashes (calls result.committed body.notifications body.completions) := by
  intro result
  obtain ⟨u, outcome, done, ran⟩ := run_begun crashes sequence commits body
  have whole : result = u.finish crashes (body.through commits) outcome := ran
  have commit : u.commit = body.notifications := done.commit
  have complete : u.complete = body.completions := done.complete
  rw [whole]
  refine ⟨rfl, ?_, ?_⟩
  · cases through : body.through commits with
    | false => rfl
    | true =>
      have clean : body.poisons = false := by
        simp only [Body.through, Bool.and_eq_true, Bool.not_eq_true'] at through
        exact through.1.2
      exact done.writes clean
  · simp [Work.finish, commit, complete]

def Body.executed (begins : Bool) (body : Body Id) : Body Id :=
  if begins then body else .returns [.begins]

def Body.scheduled (commits : Bool) : List (Call Id) :=
  calls (body.through commits) body.notifications body.completions

theorem run_composes_iff (crashes : Id → Bool) (sequence : Nat) (begins commits : Bool)
    (body : Body Id) :
    Composes (body.executed begins) (run crashes sequence begins commits (some body)) ↔
      ((body.executed begins).silent = true → (body.executed begins).through commits = false) ∧
      ∀ call ∈ ((body.executed begins).scheduled commits).dropLast, crashes call.id = false := by
  cases begins with
  | false =>
    refine iff_of_true ⟨?_, rfl, rfl⟩ ⟨?_, ?_⟩
    · intro committed
      cases committed
    · intro silent
      cases silent
    · intro call member
      cases member
  | true =>
  change Composes body _ ↔ (body.silent = true → body.through commits = false) ∧ _
  obtain ⟨committed, durable, called⟩ := run_durable crashes sequence commits body
  rw [committed] at called
  rw [← upToPanic_eq]
  constructor
  · intro composes
    refine ⟨fun silent => ?_, ?_⟩
    · by_contra through
      rw [Bool.not_eq_false] at through
      have clean := (composes.committed (committed.trans through)).2.2
      rw [silent] at clean
      cases clean
    · have all := composes.called
      rw [committed] at all
      exact called.symm.trans all
  · rintro ⟨loud, unbroken⟩
    refine ⟨fun went => ?_, durable, by rw [called, committed]; exact unbroken⟩
    rw [committed] at went
    have parts := went
    simp only [Body.through, Bool.and_eq_true, Bool.not_eq_true'] at parts
    refine ⟨body.succeeds_iff.mp parts.1.1, parts.1.2, ?_⟩
    by_contra silent
    rw [Bool.not_eq_false] at silent
    exact Bool.false_ne_true ((loud silent).symm.trans went)

theorem run_silently :
    run (fun _ => false) 0 true true (some (Body.runNil (.statement "a" true (.returns [])))) =
        { outcome := .returned [], committed := true, durable := ["a"] } ∧
      run (fun _ => false) 0 true true
          (some (Body.run (.statement "a" true (.afterCommit "b" .panics)) (.returns []))) =
        { outcome := .returned [], committed := true, durable := ["a"], called := [.commit "b"] } ∧
      run (fun id => id = "b") 0 true true
          (some (.afterCommit "b" (.afterCommit "c" (.afterCompletion "d" (.returns []))))) =
        { outcome := .panicked, committed := true, called := [.commit "b"] } := by
  decide

end AppleDM.UnitOfWork
