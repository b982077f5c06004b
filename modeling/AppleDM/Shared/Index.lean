import Mathlib.Logic.Function.Basic
import Mathlib.Data.Option.Basic

set_option autoImplicit false

namespace AppleDM.Index

variable {Owner Value : Type}

def Exact (index : Value → Option Owner) (held : Owner → Option Value) : Prop :=
  ∀ value owner, index value = some owner ↔ held owner = some value

variable {held : Owner → Option Value} {index : Value → Option Owner}

theorem Exact.exclusive (exact : Exact index held) {first second : Owner} {value : Value}
    (a : held first = some value) (b : held second = some value) : first = second := by
  have named := (exact value first).2 a
  rw [(exact value second).2 b] at named
  exact (Option.some.inj named).symm

variable [DecidableEq Owner]

def release (index : Value → Option Owner) (owner : Owner) : Value → Option Owner :=
  fun value => (index value).filter fun found => decide (found ≠ owner)

theorem Exact.release (exact : Exact index held) (owner : Owner) :
    Exact (release index owner) (Function.update held owner none) := by
  intro value other
  by_cases same : other = owner
  · subst same
    simp [Index.release, Option.filter_eq_some_iff]
  · simp [Index.release, Option.filter_eq_some_iff, same, exact value other]

variable [DecidableEq Value]

theorem Exact.assign_iff (exact : Exact index held) (owner : Owner) (value : Value) :
    Exact (Function.update (Index.release index owner) value (some owner))
        (Function.update held owner (some value)) ↔
      ∀ other, held other = some value → other = owner := by
  constructor
  · intro after other holds
    by_contra different
    have named := (after value other).2 (by simpa [different] using holds)
    simp only [Function.update_self, Option.some.injEq] at named
    exact different named.symm
  · intro free wanted other
    by_cases here : wanted = value
    · subst here
      by_cases same : other = owner
      · simp [same]
      · have absent : held other ≠ some wanted := fun holds => same (free other holds)
        simp [same, absent, Ne.symm same]
    · by_cases same : other = owner
      · subst same
        have different : value ≠ wanted := fun equal => here equal.symm
        simp [here, different, Index.release, Option.filter_eq_some_iff]
      · simp [here, same, Index.release, Option.filter_eq_some_iff, exact wanted other]

end AppleDM.Index
