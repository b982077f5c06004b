import Mathlib.Data.List.Infix

set_option autoImplicit false

namespace AppleDM.Run

variable {State Event : Type}

def run (step : State → Event → State) (state : State) (events : List Event) : State :=
  events.foldl step state

def history (step : State → Event → State) : State → List Event → List (State × Event)
  | _, [] => []
  | state, event :: rest => (state, event) :: history step (step state event) rest

variable (step : State → Event → State) (state : State)

@[simp] theorem run_nil : run step state [] = state := rfl

@[simp] theorem run_cons (event : Event) (rest : List Event) :
    run step state (event :: rest) = run step (step state event) rest := rfl

@[simp] theorem history_nil : history step state [] = [] := rfl

@[simp] theorem history_cons (event : Event) (rest : List Event) :
    history step state (event :: rest) =
      (state, event) :: history step (step state event) rest := rfl

theorem run_append (first second : List Event) :
    run step state (first ++ second) = run step (run step state first) second := by
  simp [run]

theorem history_append (first second : List Event) :
    history step state (first ++ second) =
      history step state first ++ history step (run step state first) second := by
  induction first generalizing state with
  | nil => simp
  | cons event rest ih => simp [ih]

variable {step state} {events : List Event}

theorem run_invariant (Inv : State → Prop)
    (preserved : ∀ state event, Inv state → Inv (step state event)) (initial : Inv state) (events : List Event) :
    Inv (run step state events) := by
  induction events generalizing state with
  | nil => exact initial
  | cons event rest ih => exact ih (preserved state event initial)

theorem run_project {Other Event' : Type}
    {step' : Other → Event' → Other} (part : State → Other) (seen : Event → Event')
    (each : ∀ state event, part (step state event) = step' (part state) (seen event))
    (state : State) (events : List Event) :
    part (run step state events) = run step' (part state) (events.map seen) := by
  induction events generalizing state with
  | nil => rfl
  | cons event rest ih => rw [run_cons, ih, each, List.map_cons, run_cons]

theorem run_related {Other : Type} {step' : Other → Event → Other} (Related : State → Other → Prop)
    (preserved : ∀ state other event, event ∈ events → Related state other →
      Related (step state event) (step' other event)) {other : Other} (initial : Related state other) :
    Related (run step state events) (run step' other events) := by
  induction events generalizing state other with
  | nil => exact initial
  | cons event rest ih =>
    exact ih (fun state other event member => preserved state other event
      (List.mem_cons_of_mem _ member)) (preserved state other event (by simp) initial)

theorem allowed_invariant (Allowed : State → Event → Prop) (Inv : State → Prop)
    (preserved : ∀ state event, Allowed state event → Inv state → Inv (step state event)) (initial : Inv state)
    (allowed : ∀ entry ∈ history step state events, Allowed entry.1 entry.2) :
    Inv (run step state events) := by
  induction events generalizing state with
  | nil => exact initial
  | cons event rest ih =>
    simp only [history_cons, List.mem_cons, forall_eq_or_imp] at allowed
    exact ih (preserved state event allowed.1 initial) allowed.2

theorem history_invariant (Inv : List (State × Event) → State → Prop)
    (preserved : ∀ past state event, Inv past state →
      Inv (past ++ [(state, event)]) (step state event)) (initial : Inv [] state) (events : List Event) :
    Inv (history step state events) (run step state events) := by
  have carried (past : List (State × Event)) (state : State) (now : Inv past state) :
      Inv (past ++ history step state events) (run step state events) := by
    induction events generalizing past state with
    | nil => simpa using now
    | cons event rest ih =>
      simpa using ih (past ++ [(state, event)]) (step state event)
        (preserved past state event now)
  simpa using carried [] state initial

theorem history_split {state found : State} {event : Event} {before after : List (State × Event)}
    (split : history step state events = before ++ (found, event) :: after) :
    ∃ earlier later, events = earlier ++ event :: later ∧
      before = history step state earlier ∧ found = run step state earlier := by
  induction events generalizing state before with
  | nil => simp at split
  | cons head rest ih =>
    cases before with
    | nil =>
      simp only [history_cons, List.nil_append, List.cons.injEq, Prod.mk.injEq] at split
      obtain ⟨⟨rfl, rfl⟩, -⟩ := split
      exact ⟨[], rest, rfl, rfl, rfl⟩
    | cons entry before =>
      simp only [history_cons, List.cons_append, List.cons.injEq] at split
      obtain ⟨rfl, split⟩ := split
      obtain ⟨earlier, later, rfl, rfl, rfl⟩ := ih split
      exact ⟨head :: earlier, later, rfl, rfl, rfl⟩

theorem mem_history {state found : State} {event : Event} (member : (found, event) ∈ history step state events) :
    ∃ earlier later, events = earlier ++ event :: later ∧ found = run step state earlier := by
  obtain ⟨before, after, split⟩ := List.append_of_mem member
  obtain ⟨earlier, later, same, -, met⟩ := history_split split
  exact ⟨earlier, later, same, met⟩

theorem event_mem_of_history
    {entry : State × Event} (member : entry ∈ history step state events) : entry.2 ∈ events := by
  obtain ⟨earlier, later, rfl, -⟩ := mem_history member
  simp

theorem safe_iff {Good Holds : State → Prop}
    {Allowed : State → Event → Prop} (holds : ∀ state, Good state → Holds state)
    (exact_step : ∀ state event, Good state → (Holds (step state event) ↔ Allowed state event))
    (kept : ∀ state event, Good state → Allowed state event → Good (step state event)) (initial : Good state) (events : List Event) :
    (∀ visited, visited <+: events → Holds (run step state visited)) ↔
      ∀ entry ∈ history step state events, Allowed entry.1 entry.2 := by
  induction events generalizing state with
  | nil => simp [holds state initial]
  | cons event rest ih =>
    constructor
    · intro safe
      have allowed : Allowed state event := (exact_step state event initial).1 (safe [event] (by simp))
      have later : ∀ visited, visited <+: rest → Holds (run step (step state event) visited) :=
        fun visited inside => safe (event :: visited) (by simpa using inside)
      simp only [history_cons, List.mem_cons, forall_eq_or_imp]
      exact ⟨allowed, (ih (kept state event initial allowed)).1 later⟩
    · intro allowed visited inside
      simp only [history_cons, List.mem_cons, forall_eq_or_imp] at allowed
      cases visited with
      | nil => exact holds state initial
      | cons head visited =>
        obtain ⟨rfl, remaining⟩ := List.cons_prefix_cons.1 inside
        exact (ih (kept state head initial allowed.1)).2 allowed.2 visited remaining

theorem history_iff (Good : State → Prop) {First Second : State → Event → Prop}
    (exact_step : ∀ state, ∀ event ∈ events, Good state → (First state event ↔ Second state event))
    (kept : ∀ state, ∀ event ∈ events, Good state → Second state event → Good (step state event)) (initial : Good state) :
    (∀ entry ∈ history step state events, First entry.1 entry.2) ↔
      ∀ entry ∈ history step state events, Second entry.1 entry.2 := by
  induction events generalizing state with
  | nil => simp
  | cons event rest ih =>
    simp only [List.mem_cons, forall_eq_or_imp] at exact_step kept
    simp only [history_cons, List.mem_cons, forall_eq_or_imp]
    have here := (exact_step state).1 initial
    have later (second : Second state event) := ih (fun state => (exact_step state).2)
      (fun state => (kept state).2) ((kept state).1 initial second)
    constructor
    · rintro ⟨first, rest_⟩
      exact ⟨here.1 first, (later (here.1 first)).1 rest_⟩
    · rintro ⟨second, rest_⟩
      exact ⟨here.2 second, (later second).2 rest_⟩

end AppleDM.Run
