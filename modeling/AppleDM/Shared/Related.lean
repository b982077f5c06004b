import Mathlib.Data.List.Forall2

set_option autoImplicit false

namespace AppleDM.Related

variable {A B : Type} {R : A → B → Prop} {xs : List A} {ys : List B}

theorem forall₂_left (related : List.Forall₂ R xs ys) {x : A} (member : x ∈ xs) :
    ∃ y ∈ ys, R x y := by
  induction related with
  | nil => cases member
  | cons first _ ih =>
    rcases List.mem_cons.1 member with rfl | later
    · exact ⟨_, by simp, first⟩
    · obtain ⟨y, found, held⟩ := ih later
      exact ⟨y, by simp [found], held⟩

theorem forall₂_right (related : List.Forall₂ R xs ys) {y : B} (member : y ∈ ys) :
    ∃ x ∈ xs, R x y :=
  forall₂_left (List.Forall₂.flip related) member

theorem forall₂_split {before after : List A} {x : A}
    (related : List.Forall₂ R (before ++ x :: after) ys) :
    ∃ before' y after', ys = before' ++ y :: after' ∧ List.Forall₂ R before before' ∧ R x y ∧
      List.Forall₂ R after after' := by
  induction before generalizing ys with
  | nil =>
    obtain ⟨y, after', first, later, rfl⟩ := List.forall₂_cons_left_iff.1 related
    exact ⟨[], y, after', rfl, .nil, first, later⟩
  | cons a before ih =>
    obtain ⟨b, rest, first, later, rfl⟩ := List.forall₂_cons_left_iff.1 related
    obtain ⟨before', y, after', rfl, front, here, back⟩ := ih later
    exact ⟨b :: before', y, after', rfl, .cons first front, here, back⟩

theorem forall₂_and {P : B → Prop} (each : ∀ b ∈ ys, P b)
    (related : List.Forall₂ R xs ys) :
    List.Forall₂ (fun a b => R a b ∧ P b) xs ys := by
  induction related with
  | nil => exact .nil
  | cons head _ ih =>
    simp only [List.mem_cons, forall_eq_or_imp] at each
    exact .cons ⟨head, each.1⟩ (ih each.2)

theorem forall₂_first {p : A → Bool} {p' : B → Bool} (agree : ∀ a b, R a b → p a = p' b)
    (related : List.Forall₂ R xs ys) :
    (∃ position a b, xs.findIdx? p = some position ∧ xs[position]? = some a ∧
      ys[position]? = some b ∧ R a b ∧ ys.find? p' = some b) ∨
    xs.findIdx? p = none ∧ ys.find? p' = none := by
  induction related with
  | nil => exact .inr ⟨rfl, rfl⟩
  | @cons a b rest rest' head _ ih =>
    cases chosen : p a with
    | true =>
      exact .inl ⟨0, a, b, by simp [List.findIdx?_cons, chosen], rfl, rfl, head,
        by simp [← agree a b head, chosen]⟩
    | false =>
      have skipped : p' b = false := by rw [← agree a b head, chosen]
      simp only [List.findIdx?_cons, chosen, List.find?_cons, skipped]
      rcases ih with ⟨position, a', b', place, there, there', related, found⟩ | ⟨none_, none_'⟩
      · exact .inl ⟨position + 1, a', b', by simp [place], by simpa using there,
          by simpa using there', related, found⟩
      · exact .inr ⟨by simp [none_], none_'⟩

theorem forall₂_modify_both {f : A → A} {g : B → B} (each : ∀ a b, R a b → R (f a) (g b))
    (related : List.Forall₂ R xs ys) (position : Nat) :
    List.Forall₂ R (xs.modify position f) (ys.modify position g) := by
  induction related generalizing position with
  | nil => simp
  | cons head rest ih =>
    cases position with
    | zero => exact .cons (each _ _ head) rest
    | succ position => exact .cons head (ih position)

theorem forall₂_countP {p : A → Bool} {p' : B → Bool} (agree : ∀ a b, R a b → p a = p' b)
    (related : List.Forall₂ R xs ys) : xs.countP p = ys.countP p' := by
  induction related with
  | nil => rfl
  | cons head _ ih => simp only [List.countP_cons, agree _ _ head, ih]

theorem forall₂_any {p : A → Bool} {p' : B → Bool} (agree : ∀ a b, R a b → p a = p' b)
    (related : List.Forall₂ R xs ys) : xs.any p = ys.any p' := by
  induction related with
  | nil => rfl
  | cons head _ ih => simp only [List.any_cons, agree _ _ head, ih]

theorem forall₂_modify {S : A → A → Prop} (refl : ∀ x, S x x) {f : A → A}
    (values : List A) (position : Nat)
    (here : ∀ x, values[position]? = some x → S x (f x)) :
    List.Forall₂ S values (values.modify position f) := by
  induction values generalizing position with
  | nil => simp
  | cons head rest ih =>
    cases position with
    | zero => exact .cons (here head (by simp)) (List.forall₂_same.2 fun x _ => refl x)
    | succ position => exact .cons (refl head) (ih position (by simpa using here))

theorem forall₂_getElem?
    (related : List.Forall₂ R xs ys) (position : Nat) :
    Option.Rel R xs[position]? ys[position]? := by
  induction related generalizing position with
  | nil => exact .none
  | cons head _ ih =>
    cases position with
    | zero => simpa using Option.Rel.some head
    | succ position => simpa using ih position

end AppleDM.Related
