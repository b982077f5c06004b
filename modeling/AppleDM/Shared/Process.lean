import AppleDM.Shared.Run
import Mathlib.Logic.Relation

set_option autoImplicit false

namespace AppleDM.Process

open Run Relation

/-- A request under way: the next action it asks of the world, and how it goes on with the
answer. -/
inductive Proc (Act : Type) (Ans : Act → Type) (Result : Type) where
  | done (result : Result)
  | act (action : Act) (next : Ans action → Proc Act Ans Result)

namespace Proc

variable {Act : Type} {Ans : Act → Type} {A B C : Type}

def bind : Proc Act Ans A → (A → Proc Act Ans B) → Proc Act Ans B
  | .done result, rest => rest result
  | .act action next, rest => .act action fun answer => (next answer).bind rest

instance : Monad (Proc Act Ans) where
  pure := .done
  bind := bind

def perform (action : Act) : Proc Act Ans (Ans action) := .act action .done

theorem bind_done (p : Proc Act Ans A) : p.bind .done = p := by
  induction p with
  | done result => rfl
  | act action next ih => simp only [bind, ih]

theorem bind_assoc (p : Proc Act Ans A) (first : A → Proc Act Ans B)
    (second : B → Proc Act Ans C) :
    (p.bind first).bind second = p.bind fun result => (first result).bind second := by
  induction p with
  | done result => rfl
  | act action next ih => simp only [bind, ih]

instance : LawfulMonad (Proc Act Ans) :=
  LawfulMonad.mk' _ bind_done (fun _ _ => rfl) bind_assoc

end Proc

theorem answered {A World : Type} {answer answer' : A} {w w' : World}
    (performed : some (answer, w) = some (answer', w')) : answer = answer' ∧ w = w' :=
  Prod.mk.inj (Option.some.inj performed)

theorem answered_if {A World : Type} {p : Prop} [Decidable p] {answer answer' : A} {w w' : World}
    (performed : (if p then some (answer, w) else none) = some (answer', w')) :
    p ∧ answer = answer' ∧ w = w' := by
  split at performed
  · next holds => exact ⟨holds, answered performed⟩
  · cases performed

theorem answered_unless {A World : Type} {p : Prop} [Decidable p] {answer answer' : A}
    {w w' : World} (performed : (if p then none else some (answer, w)) = some (answer', w')) :
    ¬ p ∧ answer = answer' ∧ w = w' := by
  split at performed
  · cases performed
  · next fails => exact ⟨fails, answered performed⟩

section System

variable {Act : Type} {Ans : Act → Type} {Result World Choice Request : Type}

structure Config (Act : Type) (Ans : Act → Type) (Result World : Type) where
  world : World
  pool : List (Proc Act Ans Result) := []

inductive Move (Request Choice : Type) where
  | start (request : Request)
  | advance (n : Nat) (choice : Choice)

variable (exec : (action : Act) → Choice → World → Option (Ans action × World))
  (program : Request → Proc Act Ans Result)
  (c : Config Act Ans Result World) (m : Move Request Choice)

/-- One move: a request arrives, or one under way performs its next action. `exec` is `none` when
the world would not answer that way; then nothing happens. -/
def move : Move Request Choice → Config Act Ans Result World
  | .start request => { c with pool := c.pool ++ [program request] }
  | .advance n choice =>
    match c.pool[n]? with
    | some (.act action next) =>
      match exec action choice c.world with
      | some (answer, world) => ⟨world, c.pool.set n (next answer)⟩
      | none => c
    | _ => c

theorem move_cases : move exec program c m = c ∨
      (∃ request, m = .start request ∧
        move exec program c m = { c with pool := c.pool ++ [program request] }) ∨
      ∃ n choice action next answer world, m = .advance n choice ∧
        c.pool[n]? = some (.act action next) ∧
        exec action choice c.world = some (answer, world) ∧
        move exec program c m = ⟨world, c.pool.set n (next answer)⟩ := by
  cases m with
  | start request => exact .inr (.inl ⟨request, rfl, rfl⟩)
  | advance n choice =>
    dsimp only [move]
    split
    · next action next there =>
      split
      · next answer world performed =>
        exact .inr (.inr ⟨n, choice, action, next, answer, world, rfl, there, performed, rfl⟩)
      · exact .inl rfl
    · exact .inl rfl

theorem move_world : (move exec program c m).world = c.world ∨
      ∃ n choice action next answer, m = .advance n choice ∧
        c.pool[n]? = some (.act action next) ∧
        exec action choice c.world = some (answer, (move exec program c m).world) := by
  obtain same | ⟨request, -, started⟩ |
    ⟨n, choice, action, next, answer, world, same, there, performed, moved⟩ :=
    move_cases exec program c m
  · exact .inl (by rw [same])
  · exact .inl (by rw [started])
  · exact .inr ⟨n, choice, action, next, answer, same, there, by rw [performed, moved]⟩

theorem move_pool {c : Config Act Ans Result World} {n : Nat} {p : Proc Act Ans Result} (there : c.pool[n]? = some p)
    (m : Move Request Choice) :
    (move exec program c m).pool[n]? = some p ∧
        (∀ choice, m = .advance n choice →
          (move exec program c m).world = c.world) ∨
      ∃ choice action next answer world, m = .advance n choice ∧ p = .act action next ∧
        exec action choice c.world = some (answer, world) ∧
        move exec program c m = ⟨world, c.pool.set n (next answer)⟩ := by
  obtain same | ⟨request, rfl, started⟩ |
    ⟨k, choice, action, next, answer, world, rfl, found, performed, moved⟩ :=
    move_cases exec program c m
  · exact .inl ⟨by rw [same, there], fun _ _ => by rw [same]⟩
  · refine .inl ⟨?_, fun choice same => by cases same⟩
    rw [started, List.getElem?_append_left (List.getElem?_eq_some_iff.1 there).1, there]
  · by_cases mine : k = n
    · subst mine
      obtain rfl := Option.some.inj (there.symm.trans found)
      exact .inr ⟨choice, action, next, answer, world, rfl, rfl, performed, moved⟩
    · refine .inl ⟨?_, fun other same => ?_⟩
      · rw [moved, List.getElem?_set_ne mine, there]
      · cases same
        exact absurd rfl mine

end System

section Discipline

variable {Act : Type} {Ans : Act → Type} {A B Result World Choice Request : Type}
  (exec : (action : Act) → Choice → World → Option (Ans action × World))
  (Guar : World → World → Prop) (Inv : World → Prop)

/-- From this world on, whatever the others do within the guarantee between two of its actions,
each action of the process stays within the guarantee and keeps the invariant, and the result it
ends with satisfies `post`. -/
def Meets : Proc Act Ans A → (A → World → Prop) → World → Prop
  | .done result, post, world => post result world
  | .act action next, post, world =>
    ∀ found, ReflTransGen Guar world found → Inv found →
      ∀ choice answer after, exec action choice found = some (answer, after) →
        Guar found after ∧ Inv after ∧ Meets (next answer) post after

variable {exec Guar Inv} {world : World}

theorem meets_bind {p : Proc Act Ans A} {rest : A → Proc Act Ans B} {post : B → World → Prop} :
    Meets exec Guar Inv (p >>= rest) post world ↔
      Meets exec Guar Inv p (fun result => Meets exec Guar Inv (rest result) post) world := by
  change Meets exec Guar Inv (p.bind rest) post world ↔ _
  induction p generalizing world with
  | done result => rfl
  | act action next ih => simp only [Proc.bind, Meets, ih]

theorem Meets.imp {p : Proc Act Ans A} {post post' : A → World → Prop} {start : World}
    (met : Meets exec Guar Inv p post world) (began : ReflTransGen Guar start world)
    (weaker : ∀ result after, post result after → ReflTransGen Guar start after →
      post' result after) : Meets exec Guar Inv p post' world := by
  induction p generalizing world with
  | done result => exact weaker result world met began
  | act action next ih =>
    intro found later good choice answer after performed
    obtain ⟨allowed, kept, rest⟩ := met found later good choice answer after performed
    exact ⟨allowed, kept, ih answer rest ((began.trans later).tail allowed)⟩

theorem Meets.mono {p : Proc Act Ans A} {post post' : A → World → Prop}
    (met : Meets exec Guar Inv p post world)
    (weaker : ∀ result world, post result world → post' result world) :
    Meets exec Guar Inv p post' world :=
  met.imp .refl fun result after holds _ => weaker result after holds

variable {post : A → World → Prop}

theorem Meets.later {p : Proc Act Ans A} {world' : World}
    (stable : ∀ result world world', post result world → ReflTransGen Guar world world' →
      post result world')
    (met : Meets exec Guar Inv p post world) (moved : ReflTransGen Guar world world') :
    Meets exec Guar Inv p post world' := by
  cases p with
  | done result => exact stable result world world' met moved
  | act action next => exact fun found later => met found (moved.trans later)

theorem Meets.frame {p : Proc Act Ans A} (met : Meets exec Guar Inv p post world) :
    Meets exec Guar Inv p (fun result after => post result after ∧ ReflTransGen Guar world after)
      world :=
  met.imp .refl fun _ _ => And.intro

variable (exec Guar Inv)

structure Disciplined (program : Request → Proc Act Ans Result)
    (post : Result → World → Prop) : Prop where
  reflexive : ∀ world, Inv world → Guar world world
  starts : ∀ request world, Inv world → Meets exec Guar Inv (program request) post world
  stable : ∀ result world world', post result world → ReflTransGen Guar world world' →
    post result world'

variable {exec Guar Inv} {program : Request → Proc Act Ans Result}
  {post : Result → World → Prop}

def Kept (exec : (action : Act) → Choice → World → Option (Ans action × World))
    (Guar : World → World → Prop) (Inv : World → Prop) (post : Result → World → Prop)
    (c : Config Act Ans Result World) : Prop :=
  Inv c.world ∧ ∀ p ∈ c.pool, Meets exec Guar Inv p post c.world

theorem move_kept (disciplined : Disciplined exec Guar Inv program post)
    {c : Config Act Ans Result World} (kept : Kept exec Guar Inv post c)
    (m : Move Request Choice) :
    Guar c.world (move exec program c m).world ∧
      Kept exec Guar Inv post (move exec program c m) := by
  obtain same | ⟨request, -, started⟩ |
    ⟨n, choice, action, next, answer, world, -, there, performed, moved⟩ :=
    move_cases exec program c m
  · rw [same]
    exact ⟨disciplined.reflexive _ kept.1, kept⟩
  · rw [started]
    refine ⟨disciplined.reflexive _ kept.1, kept.1, fun p member => ?_⟩
    obtain old | new := List.mem_append.1 member
    · exact kept.2 p old
    · rw [List.mem_singleton.1 new]
      exact disciplined.starts request c.world kept.1
  · rw [moved]
    have own := kept.2 _ (List.mem_of_getElem? there) c.world .refl kept.1 choice answer world
      performed
    refine ⟨own.1, own.2.1, fun p member => ?_⟩
    obtain old | rfl := List.mem_or_eq_of_mem_set member
    · exact (kept.2 p old).later disciplined.stable (.single own.1)
    · exact own.2.2

section Runs

variable (disciplined : Disciplined exec Guar Inv program post)
  {c : Config Act Ans Result World} (kept : Kept exec Guar Inv post c)
include disciplined kept

variable (moves : List (Move Request Choice))

theorem run_kept : Kept exec Guar Inv post (run (move exec program) c moves) :=
  run_invariant (Kept exec Guar Inv post)
    (fun _ m kept => (move_kept disciplined kept m).2) kept moves

theorem run_later : ReflTransGen Guar c.world (run (move exec program) c moves).world := by
  induction moves generalizing c with
  | nil => exact .refl
  | cons m rest ih =>
    obtain ⟨allowed, after⟩ := move_kept disciplined kept m
    exact .head allowed (ih after)

theorem run_meets {own : Result → World → Prop}
    (stable : ∀ result world world', own result world → ReflTransGen Guar world world' →
      own result world')
    {n : Nat} {p : Proc Act Ans Result} (there : c.pool[n]? = some p)
    (met : Meets exec Guar Inv p own c.world) (moves : List (Move Request Choice)) :
    ∃ p', (run (move exec program) c moves).pool[n]? = some p' ∧
      Meets exec Guar Inv p' own (run (move exec program) c moves).world := by
  induction moves generalizing c p with
  | nil => exact ⟨p, there, met⟩
  | cons m rest ih =>
    obtain ⟨allowed, after⟩ := move_kept disciplined kept m
    suffices next : ∃ p', (move exec program c m).pool[n]? = some p' ∧
        Meets exec Guar Inv p' own (move exec program c m).world by
      obtain ⟨p', there', met'⟩ := next
      exact ih after there' met'
    obtain ⟨waits, -⟩ | ⟨choice, action, next, answer, world, -, rfl, performed, moved⟩ :=
      move_pool exec program there m
    · exact ⟨p, waits, met.later stable (.single allowed)⟩
    · obtain ⟨-, -, rest⟩ := met c.world .refl kept.1 choice answer world performed
      rw [moved]
      refine ⟨next answer, ?_, rest⟩
      simp [(List.getElem?_eq_some_iff.1 there).1]

end Runs

end Discipline

section Failing

variable {Act : Type} {Ans : Act → Type} {Error A B World Choice : Type}
  (exec : (action : Act) → Choice → World → Option (Ans action × World))
  (Guar : World → World → Prop) (Inv : World → Prop)

def Safe (p : ExceptT Error (Proc Act Ans) A) (post : A → World → Prop) (world : World) : Prop :=
  Meets exec Guar Inv p.run
    (fun result after => match result with
      | .ok value => post value after
      | .error _ => True) world

variable {exec Guar Inv} {world : World}

@[simp] theorem safe_ok {value : A} {post : A → World → Prop} :
    Safe exec Guar Inv (ExceptT.mk (pure (.ok value)) : ExceptT Error (Proc Act Ans) A) post
      world ↔ post value world :=
  .rfl

theorem safe_pure {r : Except Error A} {post : A → World → Prop} :
    Safe exec Guar Inv (ExceptT.mk (pure r) : ExceptT Error (Proc Act Ans) A) post world ↔
      ∀ value, r = .ok value → post value world := by
  cases r with
  | ok value =>
    refine ⟨fun holds other same => ?_, fun holds => holds value rfl⟩
    exact Except.ok.inj same ▸ holds
  | error error => exact ⟨fun _ value same => (by cases same), fun _ => trivial⟩

variable {p : ExceptT Error (Proc Act Ans) A}

theorem safe_bind {rest : A → ExceptT Error (Proc Act Ans) B} {post : B → World → Prop} :
    Safe exec Guar Inv (p >>= rest) post world ↔
      Safe exec Guar Inv p (fun value => Safe exec Guar Inv (rest value) post) world := by
  unfold Safe
  rw [ExceptT.run_bind, meets_bind]
  constructor <;> refine fun met => met.mono fun result after => ?_ <;> cases result <;> exact id

theorem safe_lift {post : A → World → Prop} {after : Except Error A → World → Prop}
    (met : Safe exec Guar Inv p post world)
    (returned : ∀ value world', ReflTransGen Guar world world' → post value world' →
      after (.ok value) world')
    (failed : ∀ error world', ReflTransGen Guar world world' → after (.error error) world') :
    Safe exec Guar Inv (ExceptT.lift p.run : ExceptT Error (Proc Act Ans) (Except Error A)) after
      world := by
  unfold Safe
  rw [ExceptT.run_lift, map_eq_pure_bind, meets_bind]
  refine met.frame.mono fun result world' ⟨holds, later⟩ => ?_
  cases result with
  | ok value => exact returned value world' later holds
  | error error => exact failed error world' later

theorem Safe.mono {post post' : A → World → Prop} (met : Safe exec Guar Inv p post world)
    (weaker : ∀ value world', ReflTransGen Guar world world' → post value world' →
      post' value world') :
    Safe exec Guar Inv p post' world := by
  refine (Meets.frame met).mono fun result world' ⟨holds, later⟩ => ?_
  cases result with
  | ok value => exact weaker value world' later holds
  | error error => trivial

theorem safe_act {action : Act} {post : Ans action → World → Prop}
    {Needs : World → Prop} {Tells : Ans action → World → Prop}
    (spec : ∀ found choice answer after, Inv found → Needs found →
      exec action choice found = some (answer, after) →
      Guar found after ∧ Inv after ∧ Tells answer after)
    (needed : ∀ found, ReflTransGen Guar world found → Inv found → Needs found)
    (next : ∀ answer after, ReflTransGen Guar world after → Inv after → Tells answer after →
      post answer after) :
    Safe exec Guar Inv (ExceptT.lift (Proc.perform action) :
      ExceptT Error (Proc Act Ans) (Ans action)) post world := by
  intro found later good choice answer after performed
  obtain ⟨allowed, kept, told⟩ :=
    spec found choice answer after good (needed found later good) performed
  exact ⟨allowed, kept, next answer after (later.tail allowed) kept told⟩

end Failing

section Stepwise

variable {Act : Type} {Ans : Act → Type} {Error A B World Choice : Type}

def invoke (action : Act) : ExceptT Error (Proc Act Ans) (Ans action) :=
  ExceptT.lift (Proc.perform action)

def early (r : Except Error A) : ExceptT Error (Proc Act Ans) A := ExceptT.mk (pure r)

structure Stepwise (exec : (action : Act) → Choice → World → Option (Ans action × World))
    (Guar : World → World → Prop) (Inv : World → Prop) (Needs : Act → World → Prop)
    (Tells : (action : Act) → Ans action → World → Prop) : Prop where
  keeps : ∀ action choice world answer after, Inv world → Needs action world →
    exec action choice world = some (answer, after) →
    Guar world after ∧ Inv after ∧ Tells action answer after

variable {exec : (action : Act) → Choice → World → Option (Ans action × World)}
  {Guar : World → World → Prop} {Inv : World → Prop} {Needs : Act → World → Prop}
  {Tells : (action : Act) → Ans action → World → Prop} {world : World}
  {post : B → World → Prop}

theorem Stepwise.invoke (stepwise : Stepwise exec Guar Inv Needs Tells) {action : Act}
    {next : Ans action → ExceptT Error (Proc Act Ans) B}
    (needed : ∀ found, ReflTransGen Guar world found → Needs action found)
    (rest : ∀ answer after, ReflTransGen Guar world after → Tells action answer after →
      Safe exec Guar Inv (next answer) post after) :
    Safe exec Guar Inv (invoke action >>= next) post world :=
  safe_bind.2 (safe_act (fun found choice answer after good needs performed =>
      stepwise.keeps action choice found answer after good needs performed)
    (fun found since _ => needed found since) fun answer after since _ => rest answer after since)

theorem safe_early {r : Except Error A} {next : A → ExceptT Error (Proc Act Ans) B}
    (rest : ∀ value, r = .ok value → Safe exec Guar Inv (next value) post world) :
    Safe exec Guar Inv (early r >>= next) post world :=
  safe_bind.2 (safe_pure.2 rest)

end Stepwise

section Quiet

variable {Act : Type} {Ans : Act → Type} {A B Error Result World Choice Request View : Type}
  (exec : (action : Act) → Choice → World → Option (Ans action × World)) (view : World → View)

def Ends (post : A → Prop) : Proc Act Ans A → Prop
  | .done result => post result
  | .act action next => ∀ choice world answer after,
      exec action choice world = some (answer, after) → Ends post (next answer)

def Reads (action : Act) : Prop :=
  ∀ choice world answer after, exec action choice world = some (answer, after) →
    view after = view world

def Quiet (Fails : A → Prop) : Proc Act Ans A → Prop
  | .done _ => True
  | .act action next => ∀ choice world answer after,
      exec action choice world = some (answer, after) →
      view after = view world ∧ Quiet Fails (next answer) ∨
        Ends exec (fun result => ¬ Fails result) (next answer)

variable {exec view} {Fails : A → Prop}

theorem ends_map {f : B → A} {post : A → Prop} {p : Proc Act Ans B} :
    Ends exec post (f <$> p) ↔ Ends exec (fun result => post (f result)) p := by
  change Ends exec post (p.bind fun result => .done (f result)) ↔ _
  induction p with
  | done result => rfl
  | act action next ih => simp only [Proc.bind, Ends, ih]

theorem quiet_map {f : B → A} {p : Proc Act Ans B} :
    Quiet exec view Fails (f <$> p) ↔ Quiet exec view (fun result => Fails (f result)) p := by
  change Quiet exec view Fails (p.bind fun result => .done (f result)) ↔ _
  induction p with
  | done result => rfl
  | act action next ih =>
    simp only [Proc.bind, Quiet, ih]
    refine forall_congr' fun choice => forall_congr' fun world => forall_congr' fun answer =>
      forall_congr' fun after => imp_congr_right fun _ => or_congr_right ?_
    exact ends_map

theorem ends_bind {p : Proc Act Ans B} {rest : B → Proc Act Ans A} {post : A → Prop}
    (never : Ends exec (fun _ => False) p) : Ends exec post (p >>= rest) := by
  change Ends exec post (p.bind rest)
  induction p with
  | done result => exact never.elim
  | act action next ih =>
    intro choice world answer after performed
    exact ih answer (never choice world answer after performed)

theorem quiet_bind {p : Proc Act Ans B} {rest : B → Proc Act Ans A}
    (reads : Quiet exec view (fun _ => True) p) (others : ∀ b, Quiet exec view Fails (rest b)) :
    Quiet exec view Fails (p >>= rest) := by
  change Quiet exec view Fails (p.bind rest)
  induction p with
  | done result => exact others result
  | act action next ih =>
    intro choice world answer after performed
    obtain ⟨same, quiet⟩ | never := reads choice world answer after performed
    · exact .inl ⟨same, ih answer quiet⟩
    · exact .inr (ends_bind (by simpa only [not_true_eq_false] using never))

section Early

variable {Fails : Except Error B → Prop}

theorem quiet_then {p : ExceptT Error (Proc Act Ans) A} {next : A → ExceptT Error (Proc Act Ans) B}
    (reads : Quiet exec view (fun _ => True) p.run)
    (rest : ∀ value, Quiet exec view Fails (next value).run) :
    Quiet exec view Fails (p >>= next : ExceptT Error (Proc Act Ans) B).run := by
  rw [ExceptT.run_bind]
  refine quiet_bind reads fun result => ?_
  cases result with
  | ok value => exact rest value
  | error error => trivial

theorem quiet_early {r : Except Error A} {next : A → ExceptT Error (Proc Act Ans) B}
    (rest : ∀ value, r = .ok value → Quiet exec view Fails (next value).run) :
    Quiet exec view Fails (early r >>= next : ExceptT Error (Proc Act Ans) B).run := by
  cases r with
  | ok value => exact rest value rfl
  | error error => trivial

theorem quiet_invoke {action : Act} {next : Ans action → ExceptT Error (Proc Act Ans) B}
    (reads : Reads exec view action) (rest : ∀ answer, Quiet exec view Fails (next answer).run) :
    Quiet exec view Fails (invoke action >>= next : ExceptT Error (Proc Act Ans) B).run :=
  fun choice world answer after performed =>
    .inl ⟨reads choice world answer after performed, rest answer⟩

theorem quiet_commit {action : Act} {next : Ans action → ExceptT Error (Proc Act Ans) B}
    (rest : ∀ choice world answer after, exec action choice world = some (answer, after) →
      view after = view world ∧ Quiet exec view Fails (next answer).run ∨
        Ends exec (fun result => ¬ Fails result) (next answer).run) :
    Quiet exec view Fails (invoke action >>= next : ExceptT Error (Proc Act Ans) B).run :=
  rest

end Early

variable (program : Request → Proc Act Ans Result) {Fails : Result → Prop}
  {c : Config Act Ans Result World}

theorem run_ends {post : Result → Prop} {n : Nat} {p : Proc Act Ans Result}
    (there : c.pool[n]? = some p) (ends : Ends exec post p) (moves : List (Move Request Choice)) :
    ∃ p', (run (move exec program) c moves).pool[n]? = some p' ∧ Ends exec post p' := by
  induction moves generalizing c p with
  | nil => exact ⟨p, there, ends⟩
  | cons m rest ih =>
    obtain ⟨kept, -⟩ | ⟨choice, action, next, answer, world, -, rfl, performed, moved⟩ :=
      move_pool exec program there m
    · exact ih kept ends
    · refine ih ?_ (ends choice c.world answer world performed)
      rw [moved]
      simp [(List.getElem?_eq_some_iff.1 there).1]

theorem run_quiet {n : Nat} {p : Proc Act Ans Result} (there : c.pool[n]? = some p)
    (quiet : Quiet exec view Fails p) {moves : List (Move Request Choice)} {result : Result}
    (ended : (run (move exec program) c moves).pool[n]? = some (.done result))
    (failed : Fails result) :
    ∀ entry ∈ history (move exec program) c moves, ∀ choice, entry.2 = .advance n choice →
      view (move exec program entry.1 entry.2).world = view entry.1.world := by
  induction moves generalizing c p with
  | nil => intro entry member; cases member
  | cons m rest ih =>
    intro entry member choice own
    obtain ⟨kept, idle⟩ | ⟨choice', action, next, answer, world, same, rfl, performed, moved⟩ :=
      move_pool exec program there m
    · obtain rfl | later := List.mem_cons.1 member
      · exact congrArg view (idle choice own)
      · exact ih kept quiet ended entry later choice own
    · have next_there : (move exec program c m).pool[n]? = some (next answer) := by
        rw [moved]
        simp [(List.getElem?_eq_some_iff.1 there).1]
      obtain ⟨unchanged, quiet'⟩ | sure := quiet choice' c.world answer world performed
      · obtain rfl | later := List.mem_cons.1 member
        · rw [moved]
          exact unchanged
        · exact ih next_there quiet' ended entry later choice own
      · obtain ⟨p', there', ends⟩ := run_ends program next_there sure rest
        obtain rfl := Option.some.inj (there'.symm.trans ended)
        exact absurd failed ends

end Quiet

end AppleDM.Process
