import Mathlib.Control.Monad.Basic
import Mathlib.Logic.Basic

set_option autoImplicit false

namespace AppleDM.Checked

instance decidableEqExcept {E A : Type} [DecidableEq E] [DecidableEq A] : DecidableEq (Except E A)
  | .ok a, .ok b => decidable_of_iff (a = b) (by simp)
  | .error e, .error f => decidable_of_iff (e = f) (by simp)
  | .ok _, .error _ => isFalse (by simp)
  | .error _, .ok _ => isFalse (by simp)

variable {Error A B : Type}

def reject (failed : Prop) [Decidable failed] (error : Error) : Except Error Unit :=
  if failed then .error error else .ok ()

@[simp] theorem reject_ok (failed : Prop) [Decidable failed] (error : Error) (done : Unit) :
    reject failed error = .ok done ↔ ¬ failed := by
  unfold reject
  split <;> simp_all

@[simp] theorem reject_error (failed : Prop) [Decidable failed] (error found : Error) :
    reject failed error = .error found ↔ failed ∧ error = found := by
  unfold reject
  split <;> simp_all

@[simp] theorem bind_ok (value : Except Error A) (next : A → Except Error B) (result : B) :
    (value >>= next) = .ok result ↔ ∃ input, value = .ok input ∧ next input = .ok result := by
  cases value <;> simp [bind, Except.bind]

@[simp] theorem ok_bind (value : A) (next : A → Except Error B) :
    ((.ok value : Except Error A) >>= next) = next value := rfl

@[simp] theorem bind_error (value : Except Error A) (next : A → Except Error B) (error : Error) :
    (value >>= next) = .error error ↔
      value = .error error ∨ ∃ input, value = .ok input ∧ next input = .error error := by
  cases value <;> simp [bind, Except.bind]

@[simp] theorem pure_ok (value result : A) :
    (pure value : Except Error A) = .ok result ↔ value = result := by
  simp [pure, Except.pure]

@[simp] theorem map_ok (f : A → B) (value : Except Error A) (result : B) :
    (f <$> value) = .ok result ↔ ∃ input, value = .ok input ∧ f input = result := by
  cases value <;> simp [Functor.map, Except.map]

def onlyIf (needed : Prop) [Decidable needed] (check : Except Error Unit) : Except Error Unit :=
  if needed then check else .ok ()

@[simp] theorem onlyIf_ok (needed : Prop) [Decidable needed] (check : Except Error Unit)
    (done : Unit) :
    onlyIf needed check = .ok done ↔ (needed → check = .ok ()) := by
  unfold onlyIf
  split <;> simp_all

theorem mapM_ok {f : A → Except Error B} {values : List A} {results : List B} :
    values.mapM f = .ok results ↔ values.map f = results.map .ok := by
  induction values generalizing results with
  | nil =>
    rw [List.mapM_nil, pure_ok, List.map_nil, eq_comm, eq_comm (a := []), List.map_eq_nil_iff]
  | cons value rest ih =>
    simp only [List.mapM_cons, bind_ok, pure_ok, ih, List.map_cons]
    constructor
    · rintro ⟨first, found, others, same, rfl⟩
      rw [found, same, List.map_cons]
    · intro same
      cases results with
      | nil => cases same
      | cons first others =>
        obtain ⟨found, later⟩ := List.cons.inj same
        exact ⟨first, found, others, later, rfl⟩

theorem forM_ok {check : A → Except Error Unit} {values : List A} (done : Unit) :
    values.forM check = .ok done ↔ ∀ value ∈ values, check value = .ok () := by
  induction values with
  | nil => simp
  | cons value rest ih =>
    simp only [List.forM_eq_forM, List.forM_cons, bind_ok] at ih ⊢
    simp only [ih, List.mem_cons, forall_eq_or_imp]
    exact ⟨fun ⟨_, first, later⟩ => ⟨first, later⟩, fun ⟨first, later⟩ => ⟨(), first, later⟩⟩

def settle {State : Type} (state : State) (outcome : Except Error State) : State :=
  match outcome with
  | .ok next => next
  | .error _ => state

@[simp] theorem settle_ok {State : Type} (state next : State) :
    settle state (.ok next : Except Error State) = next := rfl

@[simp] theorem settle_error {State : Type} (state : State) (error : Error) :
    settle state (.error error) = state := rfl

theorem settle_preserves {State : Type} (Inv : State → Prop) {state : State}
    {outcome : Except Error State} (held : Inv state)
    (kept : ∀ next, outcome = .ok next → Inv next) :
    Inv (settle state outcome) := by
  cases outcome with
  | error error => exact held
  | ok next => exact kept next rfl

section Loading

variable {State Item : Type} {load : State → Item → Except Error State}
  (Loaded : State → List Item → Prop) (Accepts : List Item → Item → Prop) (start : State)
  {items : List Item}

theorem foldlM_loaded {final : State}
    (step : ∀ state done item rest next, items = done ++ item :: rest → Loaded state done →
      load state item = .ok next → Loaded next (done ++ [item]))
    (empty : Loaded start []) (finished : items.foldlM load start = .ok final) :
    Loaded final items := by
  suffices continued : ∀ (rest done : List Item) (state : State), items = done ++ rest →
      Loaded state done → rest.foldlM load state = .ok final → Loaded final items from
    continued items [] start rfl empty finished
  intro rest
  induction rest with
  | nil =>
    intro done state split loaded finished
    obtain rfl : state = final := by simpa using finished
    rwa [split, List.append_nil]
  | cons item rest ih =>
    intro done state split loaded finished
    simp only [List.foldlM_cons, bind_ok] at finished
    obtain ⟨next, accepted, finished⟩ := finished
    exact ih (done ++ [item]) next (by simpa using split)
      (step state done item rest next split loaded accepted) finished

theorem foldlM_iff (empty : Loaded start [])
    (step : ∀ state done item rest, items = done ++ item :: rest → Loaded state done →
      ∃ next, Loaded next (done ++ [item]) ∧
        ∀ result, load state item = .ok result ↔ Accepts done item ∧ next = result) :
    ((∃ final, items.foldlM load start = .ok final) ↔
      ∀ done item rest, items = done ++ item :: rest → Accepts done item) ∧
      ∀ final, items.foldlM load start = .ok final → Loaded final items := by
  suffices continued : ∀ (rest done : List Item) (state : State), items = done ++ rest →
      Loaded state done →
      ((∃ final, rest.foldlM load state = .ok final) ↔
        ∀ loaded item later, rest = loaded ++ item :: later → Accepts (done ++ loaded) item) ∧
        ∀ final, rest.foldlM load state = .ok final → Loaded final items by
    simpa using continued items [] start rfl empty
  intro rest
  induction rest with
  | nil =>
    intro done state split loaded
    refine ⟨iff_of_true ⟨state, rfl⟩ (by simp), fun final finished => ?_⟩
    obtain rfl : state = final := by simpa using finished
    rwa [split, List.append_nil]
  | cons item rest ih =>
    intro done state split loaded
    obtain ⟨next, loaded, accepted⟩ := step state done item rest split loaded
    obtain ⟨later, held⟩ := ih (done ++ [item]) next (by simpa using split) loaded
    simp only [List.foldlM_cons, bind_ok, accepted]
    refine ⟨⟨?_, fun all => ?_⟩, ?_⟩
    · rintro ⟨final, _, ⟨accepts, rfl⟩, finished⟩
      rintro (_ | ⟨head, before⟩) found after here <;> cases here
      · simpa using accepts
      · simpa using later.1 ⟨final, finished⟩ before found after rfl
    · obtain ⟨final, finished⟩ := later.2 fun before found after here => by
        simpa using all (item :: before) found after (by rw [here]; rfl)
      exact ⟨final, next, ⟨by simpa using all [] item rest rfl, rfl⟩, finished⟩
    · rintro final ⟨_, ⟨-, rfl⟩, finished⟩
      exact held final finished

end Loading

end AppleDM.Checked
