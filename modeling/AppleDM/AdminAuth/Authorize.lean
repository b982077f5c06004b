import AppleDM.AdminAuth.References
import AppleDM.Shared.Process

set_option autoImplicit false

-- Authorization decisions among changes of the store: version, documents and the compiled set are
-- read one after another, and anything may happen in between.
namespace AppleDM.AdminAuth

open Checked Mdm Jsontext Evolution Run Process Relation

inductive StoreCall where
  | putPolicy (p : Policy) (now : Time)
  | deletePolicy (name : String)
  | putRole (role : Role) (now : Time)
  | deleteRole (name : String)
  | createPrincipal (p : Principal) (digest : String) (now : Time)
  | bootstrapPrincipal (p : Principal) (digest : String) (now : Time)
  | applyPrincipal (name : String) (change : PrincipalChange) (now : Time)

section Model

variable {Statement Context : Type} (cedar : Cedar Statement Context) (reg : Registry)

def StoreCall.outcome (s : Store) : StoreCall → Except Fault Store
  | .putPolicy p now => (·.2) <$> s.putPolicy cedar p now
  | .deletePolicy name => s.deletePolicy name
  | .putRole role now => (·.2) <$> s.putRole role now
  | .deleteRole name => s.deleteRole cedar name
  | .createPrincipal p digest now => (·.2) <$> s.createPrincipal p digest now
  | .bootstrapPrincipal p digest now => (·.2) <$> s.bootstrapPrincipal p digest now
  | .applyPrincipal name change now => (·.2) <$> s.applyPrincipal name change now

structure Moment where
  version : Int
  docs : List Policy
  deriving DecidableEq

def Store.moment (s : Store) : Moment := ⟨s.version, s.docs⟩

-- `seen` is bookkeeping: what the store held after every change so far.
structure Site (Statement : Type) where
  store : Store
  compiled : Option (PolicySet Statement) := none
  seen : List Moment

inductive Action (Statement : Type) where
  | version
  | policies
  | load
  | save (set : PolicySet Statement)
  | call (change : StoreCall)

def Answer : Action Statement → Type
  | .version => Int
  | .policies => List Policy
  | .load => Option (PolicySet Statement)
  | .save _ => Unit
  | .call _ => Except Fault Unit

def exec (action : Action Statement) (_ : Unit) (w : Site Statement) :
    Option (Answer action × Site Statement) :=
  match action with
  | .version => some (w.store.version, w)
  | .policies => some (w.store.docs, w)
  | .load => some (w.compiled, w)
  | .save set => some ((), { w with compiled := some set })
  | .call change =>
    match change.outcome cedar w.store with
    | .error fault => some (.error fault, w)
    | .ok store => some (.ok (), { w with store, seen := w.seen ++ [store.moment] })

abbrev Handler (Statement : Type) := ExceptT Fault (Proc (Action Statement) Answer)

abbrev act (action : Action Statement) : Proc (Action Statement) Answer (Answer action) :=
  Proc.perform action

abbrev ask (action : Action Statement) : Handler Statement (Answer action) := invoke action

def readPolicies : Nat → Int → Handler Statement (Int × List Policy)
  | attempts, v => do
    let docs : List Policy ← ask .policies
    let current : Int ← ask .version
    if current = v then return (v, docs)
    else match attempts with
      | 0 => early (.error (Kind.invalid.because "authority changed while reading policies"))
      | attempts + 1 => readPolicies attempts current

def recompile (v : Int) : Handler Statement (PolicySet Statement) := do
  let (v, docs) ← readPolicies 3 v
  let set ← early (compile cedar reg v docs)
  ask (.save set)
  return set

def policySet : Handler Statement (PolicySet Statement) := do
  let v : Int ← ask .version
  let cur : Option (PolicySet Statement) ← ask .load
  match cur with
  | some set => if set.version = v then return set else recompile cedar reg v
  | none => recompile cedar reg v

inductive Answered where
  | decided (decision : Decision)
  | failed (decision : Decision) (fault : Fault)
  | changed (outcome : Except Fault Unit)

def authorize (p : Principal) (action : String) (resource : EntityUID) (context : Context) :
    Proc (Action Statement) Answer Answered :=
  if action ∉ reg.ids then return .failed {} (Kind.unknownAction.because action.quote)
  else do
    match ← (policySet cedar reg).run with
    | .error fault => do
      let version : Int ← act .version
      return .failed { version } fault
    | .ok set => return .decided (set.authorize cedar p action resource context)

inductive Call (Context : Type) where
  | authorize (p : Principal) (action : String) (resource : EntityUID) (context : Context)
  | change (change : StoreCall)

def program : Call Context → Proc (Action Statement) Answer Answered
  | .authorize p action resource context => authorize cedar reg p action resource context
  | .change change => do
    let outcome : Except Fault Unit ← act (.call change)
    return .changed outcome

def start (s : Store) : Config (Action Statement) Answer Answered (Site Statement) :=
  ⟨{ store := s, seen := [s.moment] }, []⟩

end Model

section Keeping

variable {Statement Context : Type} {cedar : Cedar Statement Context} {reg : Registry}
  {change : StoreCall}

theorem outcome_moment {s s' : Store} (ran : change.outcome cedar s = .ok s') :
    s'.moment = s.moment ∨ s'.version = s.version + 1 := by
  cases change <;> simp only [StoreCall.outcome, map_ok, Prod.exists, exists_eq_right] at ran
  case putPolicy p now =>
    obtain ⟨out, ran⟩ := ran
    exact .inr (Store.putPolicy_same ran).2
  case deletePolicy name => exact .inr (Store.deletePolicy_same ran).2
  case putRole role now =>
    obtain ⟨out, ran⟩ := ran
    exact .inr (Store.putRole_same ran).2
  case deleteRole name => exact .inr (Store.deleteRole_same ran).2
  case createPrincipal p digest now =>
    obtain ⟨out, ran⟩ := ran
    have created := Store.createPrincipal_ok ran
    exact .inl (by rw [Store.moment, Store.docs, created.version, created.policies]; rfl)
  case bootstrapPrincipal p digest now =>
    obtain ⟨out, ran⟩ := ran
    have created := (Store.bootstrapPrincipal_ok ran).2
    exact .inl (by rw [Store.moment, Store.docs, created.version, created.policies]; rfl)
  case applyPrincipal name change now =>
    obtain ⟨out, ran⟩ := ran
    obtain ⟨r, applied⟩ := Store.applyPrincipal_ok ran
    exact .inl (by rw [Store.moment, Store.docs, applied.version, applied.policies]; rfl)

variable (cedar reg) in
structure Good (w : Site Statement) : Prop where
  last : w.seen.getLast? = some w.store.moment
  bounded : ∀ m ∈ w.seen, m.version ≤ w.store.version
  unique : ∀ m ∈ w.seen, ∀ m' ∈ w.seen, m.version = m'.version → m = m'
  labelled : ∀ set, w.compiled = some set →
    ∃ m ∈ w.seen, compile cedar reg m.version m.docs = .ok set

def Later (w w' : Site Statement) : Prop := w.seen <+: w'.seen

theorem later_trans {w w' : Site Statement} (moved : ReflTransGen Later w w') : Later w w' := by
  induction moved with
  | refl => exact List.prefix_rfl
  | tail _ step ih => exact ih.trans step

variable {w w' : Site Statement}

theorem Good.mem_last (good : Good cedar reg w) : w.store.moment ∈ w.seen :=
  List.mem_of_getLast? good.last

theorem Good.call (good : Good cedar reg w) {store : Store}
    (ran : change.outcome cedar w.store = .ok store) :
    Good cedar reg { w with store, seen := w.seen ++ [store.moment] } := by
  have moved := outcome_moment ran
  have after : w.store.version ≤ store.version := by
    obtain same | next := moved
    · exact Int.le_of_eq (congrArg Moment.version same).symm
    · omega
  refine ⟨by simp, fun m member => ?_, fun m member m' member' same => ?_, fun set held => ?_⟩
  · obtain old | new := List.mem_append.1 member
    · exact Int.le_trans (good.bounded m old) after
    · rw [List.mem_singleton.1 new]
      exact Int.le_refl _
  · -- an old moment has the version of the new one only if nothing changed
    have fresh {m : Moment} (old : m ∈ w.seen) (same : m.version = store.version) :
        m = store.moment := by
      obtain unchanged | next := moved
      · rw [unchanged]
        exact good.unique m old _ good.mem_last
          (same.trans (congrArg Moment.version unchanged))
      · have most := good.bounded m old
        omega
    rw [List.mem_append, List.mem_singleton] at member member'
    obtain old | rfl := member <;> obtain old' | rfl := member'
    · exact good.unique m old m' old' same
    · exact fresh old same
    · exact (fresh old' same.symm).symm
    · rfl
  · obtain ⟨m, member, compiled⟩ := good.labelled set held
    exact ⟨m, List.mem_append_left _ member, compiled⟩

def Needs (cedar : Cedar Statement Context) (reg : Registry) :
    Action Statement → Site Statement → Prop
  | .save set, w => ∃ m ∈ w.seen, compile cedar reg m.version m.docs = .ok set
  | _, _ => True

def Tells (cedar : Cedar Statement Context) (reg : Registry) :
    (action : Action Statement) → Answer action → Site Statement → Prop
  | .version, v, w => Good cedar reg w ∧ w.store.version = v
  | .policies, docs, w => Good cedar reg w ∧ w.store.docs = docs
  | .load, found, w => Good cedar reg w ∧ w.compiled = found
  | .save _, _, w | .call _, _, w => Good cedar reg w

theorem exec_keeps :
    Stepwise (exec cedar) Later (Good cedar reg) (Needs cedar reg) (Tells cedar reg) where
  keeps action choice w answer after good needs performed := by
    have same : Later w w := List.prefix_rfl
    cases action with
    | version | policies | load =>
      obtain ⟨rfl, rfl⟩ := answered performed
      exact ⟨same, good, good, rfl⟩
    | save set =>
      obtain ⟨rfl, rfl⟩ := answered performed
      have saved : Good cedar reg { w with compiled := some set } :=
        ⟨good.last, good.bounded, good.unique, fun other held => Option.some.inj held ▸ needs⟩
      exact ⟨same, saved, saved⟩
    | call change =>
      dsimp only [exec] at performed
      split at performed
      · obtain ⟨rfl, rfl⟩ := answered performed
        exact ⟨same, good, good⟩
      · next store ran =>
        obtain ⟨rfl, rfl⟩ := answered performed
        exact ⟨List.prefix_append _ _, good.call ran, good.call ran⟩

end Keeping

section Deciding

variable {Statement Context : Type} {cedar : Cedar Statement Context} {reg : Registry}
  {start w w' : Site Statement}

def During (start w : Site Statement) (m : Moment) : Prop :=
  ∃ k, start.seen.length ≤ k + 1 ∧ w.seen[k]? = some m

variable {m : Moment}

theorem During.later (held : During start w m) (moved : Later w w') : During start w' m := by
  obtain ⟨k, since, there⟩ := held
  obtain ⟨rest, same⟩ := moved
  refine ⟨k, since, ?_⟩
  rw [← same, List.getElem?_append_left (List.getElem?_eq_some_iff.1 there).1]
  exact there

theorem During.mem (held : During start w m) : m ∈ w.seen := by
  obtain ⟨k, -, there⟩ := held
  exact List.mem_of_getElem? there

theorem during_now (good : Good cedar reg w) (began : Later start w) :
    During start w w.store.moment := by
  refine ⟨w.seen.length - 1, ?_, ?_⟩
  · have longer := began.length_le
    omega
  · rw [← List.getLast?_eq_getElem?]
    exact good.last

variable {v : Int}

theorem read_agrees {w₁ w₂ : Site Statement} (known : m ∈ w.seen)
    (version : m.version = v) (began : Later start w) (since₁ : Later w w₁) (since₂ : Later w₁ w₂)
    (good₁ : Good cedar reg w₁) (good₂ : Good cedar reg w₂) (now : w₂.store.version = v) :
    During start w₂ ⟨v, w₁.store.docs⟩ := by
  have lower : m.version ≤ w₁.store.version := good₁.bounded m (since₁.subset known)
  have upper : w₁.store.version ≤ w₂.store.version :=
    good₂.bounded _ (since₂.subset good₁.mem_last)
  have same : w₁.store.version = v := by omega
  have held : During start w₂ w₁.store.moment :=
    (during_now good₁ (began.trans since₁)).later since₂
  rwa [Store.moment, same] at held

theorem attempt_reads (known : m ∈ w.seen) (version : m.version = v)
    (began : Later start w) {rest : Int → Handler Statement (Int × List Policy)}
    (again : ∀ w₂, Later w w₂ → Good cedar reg w₂ →
      Safe (exec cedar) Later (Good cedar reg) (rest w₂.store.version)
        (fun found w' => During start w' ⟨found.1, found.2⟩) w₂) :
    Safe (exec cedar) Later (Good cedar reg)
      (do
        let docs : List Policy ← ask .policies
        let current : Int ← ask .version
        if current = v then return (v, docs) else rest current)
      (fun found w' => During start w' ⟨found.1, found.2⟩) w := by
  refine exec_keeps.invoke (fun _ _ => trivial) fun docs w₁ since₁ ⟨good₁, read⟩ => ?_
  refine exec_keeps.invoke (fun _ _ => trivial) fun current w₂ since₂ ⟨good₂, now⟩ => ?_
  split
  · next same =>
    exact read ▸ read_agrees known version began (later_trans since₁) (later_trans since₂) good₁
      good₂ (now.trans same)
  · exact now ▸ again w₂ ((later_trans since₁).trans (later_trans since₂)) good₂

theorem readPolicies_reads (attempts : Nat) (known : m ∈ w.seen)
    (version : m.version = v) (began : Later start w) :
    Safe (exec cedar) Later (Good cedar reg) (readPolicies attempts v)
      (fun found w' => During start w' ⟨found.1, found.2⟩) w := by
  induction attempts generalizing w v m with
  | zero => exact attempt_reads known version began fun _ _ _ => trivial
  | succ attempts ih =>
    exact attempt_reads known version began fun w₂ since good =>
      ih good.mem_last rfl (began.trans since)

def Fresh (cedar : Cedar Statement Context) (reg : Registry) (start : Site Statement)
    (set : PolicySet Statement) (w : Site Statement) : Prop :=
  ∃ m, During start w m ∧ compile cedar reg m.version m.docs = .ok set

theorem recompile_fresh (known : m ∈ w.seen) (version : m.version = v) (began : Later start w) :
    Safe (exec cedar) Later (Good cedar reg) (recompile cedar reg v) (Fresh cedar reg start) w := by
  refine safe_bind.2 ((readPolicies_reads 3 known version began).mono
    fun ⟨v', docs⟩ w₁ _ held => ?_)
  refine safe_early fun set compiled => ?_
  refine exec_keeps.invoke (fun found since => ⟨_, (held.later (later_trans since)).mem, compiled⟩)
    fun _ w₂ since _ => ?_
  exact ⟨_, held.later (later_trans since), compiled⟩

theorem policySet_fresh :
    Safe (exec cedar) Later (Good cedar reg) (policySet cedar reg) (Fresh cedar reg start) start := by
  refine exec_keeps.invoke (fun _ _ => trivial) fun v w₁ since₁ ⟨good₁, read⟩ => ?_
  refine exec_keeps.invoke (fun _ _ => trivial) fun cur w₂ since₂ ⟨good₂, loaded⟩ => ?_
  have began : Later start w₂ := (later_trans since₁).trans (later_trans since₂)
  have first : During start w₂ w₁.store.moment :=
    (during_now good₁ (later_trans since₁)).later (later_trans since₂)
  have other : Safe (exec cedar) Later (Good cedar reg) (recompile cedar reg v)
      (Fresh cedar reg start) w₂ := recompile_fresh first.mem read began
  cases cur with
  | none => exact other
  | some set =>
    dsimp only
    split
    · next same =>
      -- the version names the documents the set was compiled from
      obtain ⟨m, member, compiled⟩ := good₂.labelled set loaded
      have label : m.version = w₁.store.moment.version := by
        rw [← compile_version cedar reg compiled, same, ← read]
        rfl
      rw [good₂.unique m member _ first.mem label] at compiled
      exact ⟨_, first, compiled⟩
    · exact other

def Decides (cedar : Cedar Statement Context) (reg : Registry) (start : Site Statement)
    (p : Principal) (action : String) (resource : EntityUID) (context : Context)
    (answered : Answered) (w : Site Statement) : Prop :=
  ∀ decision, answered = .decided decision →
    ∃ set, Fresh cedar reg start set w ∧
      decision = set.authorize cedar p action resource context

theorem authorize_decides (p : Principal) (action : String) (resource : EntityUID)
    (context : Context) :
    Meets (exec cedar) Later (Good cedar reg) (authorize cedar reg p action resource context)
      (Decides cedar reg start p action resource context) start := by
  unfold authorize
  split
  · intro decision same
    cases same
  · have set : Safe (exec cedar) Later (Good cedar reg) (policySet cedar reg)
        (Fresh cedar reg start) start := policySet_fresh
    refine meets_bind.2 (Meets.mono set fun result w fresh => ?_)
    cases result with
    | ok set => exact fun decision same => ⟨set, fresh, (Answered.decided.inj same).symm⟩
    | error fault =>
      intro found since good choice answer after performed
      obtain ⟨allowed, kept, -⟩ :=
        exec_keeps.keeps .version choice found answer after good trivial performed
      exact ⟨allowed, kept, fun decision same => by cases same⟩

theorem disciplined :
    Disciplined (exec cedar) Later (Good cedar reg) (program cedar reg) fun _ _ => True where
  reflexive w _ := List.prefix_rfl
  starts call w _ := by
    cases call with
    | authorize p action resource context =>
      exact (authorize_decides p action resource context).mono fun _ _ _ => trivial
    | change change =>
      intro found since good choice answer after performed
      obtain ⟨allowed, kept, -⟩ :=
        exec_keeps.keeps (.call change) choice found answer after good trivial performed
      exact ⟨allowed, kept, trivial⟩
  stable _ _ _ _ _ := trivial

end Deciding

section Runs

variable {Statement Context : Type} {cedar : Cedar Statement Context} {reg : Registry}

theorem start_kept (s : Store) :
    Kept (exec cedar) Later (Good cedar reg) (fun _ _ => True)
      (start s : Config (Action Statement) Answer Answered (Site Statement)) := by
  refine ⟨⟨rfl, fun m member => ?_, fun m member m' member' _ => ?_, fun set held => ?_⟩, ?_⟩
  · rw [List.mem_singleton.1 member]
    exact Int.le_refl _
  · rw [List.mem_singleton.1 member, List.mem_singleton.1 member']
  · cases held
  · intro p member
    cases member

theorem exec_seen {action : Action Statement} {choice : Unit} {w after : Site Statement}
    {answer : Answer action} (performed : exec cedar action choice w = some (answer, after)) :
    after.seen.length ≤ w.seen.length + 1 := by
  cases action with
  | version | policies | load | save =>
    obtain ⟨rfl, rfl⟩ := answered performed
    exact Nat.le_succ _
  | call change =>
    dsimp only [exec] at performed
    split at performed
    · obtain ⟨rfl, rfl⟩ := answered performed
      exact Nat.le_succ _
    · obtain ⟨rfl, rfl⟩ := answered performed
      simp

theorem seen_visited {c : Config (Action Statement) Answer Answered (Site Statement)}
    (kept : Kept (exec cedar) Later (Good cedar reg) (fun _ _ => True) c)
    {moves : List (Move (Call Context) Unit)} {k : Nat} {m : Moment}
    (since : c.world.seen.length ≤ k + 1)
    (there : (run (move (exec cedar) (program cedar reg)) c moves).world.seen[k]? = some m) :
    ∃ first rest, moves = first ++ rest ∧
      (run (move (exec cedar) (program cedar reg)) c first).world.store.moment = m := by
  have now (here : k + 1 = c.world.seen.length) : c.world.seen[k]? = some c.world.store.moment := by
    have last := kept.1.last
    rw [List.getLast?_eq_getElem?] at last
    rwa [← here] at last
  induction moves generalizing c with
  | nil =>
    have inside := (List.getElem?_eq_some_iff.1 there).1
    rw [run_nil] at there inside
    rw [now (by omega)] at there
    exact ⟨[], [], rfl, Option.some.inj there⟩
  | cons mv rest ih =>
    obtain ⟨-, after⟩ := move_kept disciplined kept mv
    by_cases later : (move (exec cedar) (program cedar reg) c mv).world.seen.length ≤ k + 1
    · obtain ⟨first, others, rfl, found⟩ := ih after later there fun here => by
        have last := after.1.last
        rw [List.getLast?_eq_getElem?] at last
        rwa [← here] at last
      exact ⟨mv :: first, others, rfl, found⟩
    · have grown : (move (exec cedar) (program cedar reg) c mv).world.seen.length ≤
          c.world.seen.length + 1 := by
        obtain same | ⟨n, choice, action, next, answer, -, -, performed⟩ :=
          move_world (exec cedar) (program cedar reg) c mv
        · rw [same]
          exact Nat.le_succ _
        · exact exec_seen performed
      obtain ⟨others, same⟩ := later_trans (run_later disciplined kept (mv :: rest))
      have here := now (by omega)
      rw [← same, List.getElem?_append_left (List.getElem?_eq_some_iff.1 here).1, here] at there
      exact ⟨[], mv :: rest, rfl, Option.some.inj there⟩

structure Current (cedar : Cedar Statement Context) (reg : Registry) (s : Store) : Prop where
  decided : ∀ (earlier later : List (Move (Call Context) Unit)) p action resource context decision,
    (run (move (exec cedar) (program cedar reg)) (start s)
      (earlier ++ .start (.authorize p action resource context) :: later)).pool[
        (run (move (exec cedar) (program cedar reg)) (start s) earlier).pool.length]? =
      some (.done (.decided decision)) →
    ∃ during rest, later = during ++ rest ∧
      ∃ found : Store, found = (run (move (exec cedar) (program cedar reg)) (start s)
          (earlier ++ .start (.authorize p action resource context) :: during)).world.store ∧
        ∃ set, compile cedar reg found.version found.docs = .ok set ∧
          decision = set.authorize cedar p action resource context ∧
          decision.version = found.version
  labelled : ∀ (moves : List (Move (Call Context) Unit)) set,
    (run (move (exec cedar) (program cedar reg)) (start s) moves).world.compiled = some set →
    ∃ visited rest, moves = visited ++ rest ∧
      ∃ found : Store, found = (run (move (exec cedar) (program cedar reg)) (start s)
          visited).world.store ∧
        compile cedar reg found.version found.docs = .ok set ∧ set.version = found.version

theorem authorize_never_stale (cedar : Cedar Statement Context) (reg : Registry) (s : Store) :
    Current cedar reg s where
  decided earlier later p action resource context decision answered := by
    rw [run_append, run_cons] at answered
    have before : Kept (exec cedar) Later (Good cedar reg) (fun _ _ => True)
        (run (move (exec cedar) (program cedar reg)) (start s) earlier) :=
      run_kept disciplined (start_kept s) earlier
    obtain ⟨-, began⟩ := move_kept disciplined before (.start (.authorize p action resource context))
    have placed : (move (exec cedar) (program cedar reg)
        (run (move (exec cedar) (program cedar reg)) (start s) earlier)
        (.start (.authorize p action resource context))).pool[
          (run (move (exec cedar) (program cedar reg)) (start s) earlier).pool.length]? =
        some (authorize cedar reg p action resource context) := by
      simp [move, program]
    obtain ⟨proc, there, met⟩ := run_meets disciplined began
      (fun result w w' decides moved decision same => by
        obtain ⟨set, ⟨m, held, compiled⟩, authorized⟩ := decides decision same
        exact ⟨set, ⟨m, held.later (later_trans moved), compiled⟩, authorized⟩)
      placed (authorize_decides p action resource context) later
    rw [there] at answered
    obtain rfl := Option.some.inj answered
    obtain ⟨set, ⟨m, ⟨k, since, held⟩, compiled⟩, authorized⟩ := met decision rfl
    obtain ⟨during, rest, rfl, found⟩ := seen_visited began since held
    subst found
    refine ⟨during, rest, rfl, _, rfl, set, ?_, authorized, ?_⟩
    · rw [run_append, run_cons]
      exact compiled
    · rw [run_append, run_cons, authorized, PolicySet.authorize_version,
        compile_version cedar reg compiled]
      rfl
  labelled moves set held := by
    have kept : Kept (exec cedar) Later (Good cedar reg) (fun _ _ => True)
        (run (move (exec cedar) (program cedar reg)) (start s) moves) :=
      run_kept disciplined (start_kept s) moves
    obtain ⟨m, member, compiled⟩ := kept.1.labelled set held
    obtain ⟨k, there⟩ := List.mem_iff_getElem?.1 member
    obtain ⟨visited, rest, rfl, found⟩ := seen_visited (start_kept s) (by simp [start]) there
    subst found
    exact ⟨visited, rest, rfl, _, rfl, compiled, compile_version cedar reg compiled⟩

end Runs

end AppleDM.AdminAuth
