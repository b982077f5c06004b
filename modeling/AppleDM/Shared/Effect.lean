import Mathlib.Logic.Basic

set_option autoImplicit false

namespace AppleDM.Effect

variable {Error State View A B : Type}

def refuseIf (failed : Prop) [Decidable failed] (error : Error) : EStateM Error State Unit :=
  if failed then throw error else pure ()

def Refuses (view : State → View) (action : EStateM Error State A) (state : State) : Prop :=
  ∃ error next, action state = .error error next ∧ view next = view state

def Reads (action : EStateM Error State A) (state : State) (value : A) : Prop :=
  action state = .ok value state

section Rules

variable {view : State → View} {action : EStateM Error State A} {state : State} {value : A}
  {next : A → EStateM Error State B}

theorem refuses_throw (view : State → View) (error : Error) (state : State) :
    Refuses view (throw error : EStateM Error State A) state :=
  ⟨error, state, rfl, rfl⟩

theorem refuses_refuseIf {failed : Prop} [Decidable failed] (held : failed) (error : Error)
    (state : State) : Refuses view (refuseIf failed error) state := by
  rw [refuseIf, if_pos held]
  exact refuses_throw view error state

theorem reads_refuseIf {failed : Prop} [Decidable failed] (passed : ¬ failed) (error : Error)
    (state : State) : Reads (refuseIf failed error) state () := by
  rw [refuseIf, if_neg passed]
  rfl

theorem Refuses.bind (refused : Refuses view action state) : Refuses view (action >>= next) state := by
  obtain ⟨error, after, failed, kept⟩ := refused
  refine ⟨error, after, ?_, kept⟩
  change EStateM.bind action next state = _
  rw [EStateM.bind, failed]

theorem bind_of_ok {after : State} (returned : action state = .ok value after) :
    (action >>= next) state = next value after := by
  change EStateM.bind action next state = _
  rw [EStateM.bind, returned]

theorem Refuses.after {after : State} (returned : action state = .ok value after)
    (same : view after = view state) (refused : Refuses view (next value) after) :
    Refuses view (action >>= next) state := by
  obtain ⟨error, last, failed, kept⟩ := refused
  exact ⟨error, last, (bind_of_ok returned).trans failed, kept.trans same⟩

theorem Reads.refuses (read : Reads action state value) (refused : Refuses view (next value) state) :
    Refuses view (action >>= next) state :=
  Refuses.after read rfl refused

def Looks (view : State → View) (action : EStateM Error State A) (state : State) : Prop :=
  Refuses view action state ∨ ∃ value, Reads action state value

theorem looks_refuseIf (view : State → View) (failed : Prop) [Decidable failed] (error : Error)
    (state : State) : Looks view (refuseIf failed error) state := by
  by_cases held : failed
  · exact .inl (refuses_refuseIf held error state)
  · exact .inr ⟨(), reads_refuseIf held error state⟩

theorem Looks.refuses (looks : Looks view action state)
    (refused : ∀ value, Reads action state value → Refuses view (next value) state) :
    Refuses view (action >>= next) state := by
  rcases looks with failed | ⟨value, read⟩
  · exact failed.bind
  · exact read.refuses (refused value read)

theorem Looks.bind (looks : Looks view action state)
    (then_ : ∀ value, Reads action state value → Looks view (next value) state) :
    Looks view (action >>= next) state := by
  rcases looks with failed | ⟨value, read⟩
  · exact .inl failed.bind
  · rcases then_ value read with failed | ⟨last, reads⟩
    · exact .inl (read.refuses failed)
    · exact .inr ⟨last, (bind_of_ok read).trans reads⟩

theorem bind_result {after : State} {result : B}
    (returned : (action >>= next) state = .ok result after) :
    ∃ input mid, action state = .ok input mid ∧ next input mid = .ok result after := by
  change EStateM.bind action next state = _ at returned
  unfold EStateM.bind at returned
  cases first : action state with
  | ok input mid => exact ⟨input, mid, rfl, by simpa [first] using returned⟩
  | error failure mid => simp [first] at returned

theorem refuseIf_result {failed : Prop} [Decidable failed] {error : Error} {after : State}
    {done : Unit} (returned : refuseIf failed error state = .ok done after) :
    ¬ failed ∧ after = state := by
  unfold refuseIf at returned
  split at returned
  · cases returned
  · next passed =>
    cases returned
    exact ⟨passed, rfl⟩

end Rules

end AppleDM.Effect
