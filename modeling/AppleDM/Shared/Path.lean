import Mathlib.Data.List.Basic
import Mathlib.Data.String.Basic

set_option autoImplicit false

-- Keys that are texts joined by slashes.
namespace AppleDM.Path

def Plain (part : String) : Prop := '/' ∉ part.toList

theorem plain_repr (n : Nat) : Plain n.repr := by
  intro member
  rw [Nat.toList_repr] at member
  have digit := Nat.isDigit_of_mem_toDigits (by decide) (by decide) member
  revert digit
  decide

theorem repr_inj {n n' : Nat} : n.repr = n'.repr ↔ n = n' := by
  refine ⟨fun same => ?_, fun same => by rw [same]⟩
  have letters := congrArg String.toList same
  rw [Nat.toList_repr, Nat.toList_repr] at letters
  rw [← Nat.ofDigitChars_toDigits (b := 10) (n := n) (by decide) (by decide), letters,
    Nat.ofDigitChars_toDigits (by decide) (by decide)]

theorem cons_inj {Letter : Type} {slash : Letter} {first first' rest rest' : List Letter}
    (plain : slash ∉ first) (plain' : slash ∉ first') :
    first ++ slash :: rest = first' ++ slash :: rest' ↔ first = first' ∧ rest = rest' := by
  induction first generalizing first' with
  | nil =>
    cases first' with
    | nil => simp
    | cons letter others =>
      have apart : slash ≠ letter := fun same => plain' (same ▸ List.mem_cons_self)
      simp [apart]
  | cons letter others ih =>
    cases first' with
    | nil =>
      have apart : letter ≠ slash := fun same => plain (same ▸ List.mem_cons_self)
      simp [apart]
    | cons letter' others' =>
      have free : slash ∉ others := fun member => plain (List.mem_cons_of_mem _ member)
      have free' : slash ∉ others' := fun member => plain' (List.mem_cons_of_mem _ member)
      simp only [List.cons_append, List.cons.injEq, ih free free', and_assoc]

theorem joined_inj {Letter : Type} {slash : Letter} {first first' : List Letter}
    {rest rest' : List (List Letter)} (plain : ∀ part ∈ first :: rest, slash ∉ part)
    (plain' : ∀ part ∈ first' :: rest', slash ∉ part)
    (same : first ++ rest.flatMap (slash :: ·) = first' ++ rest'.flatMap (slash :: ·)) :
    first :: rest = first' :: rest' := by
  induction rest generalizing first first' rest' with
  | nil =>
    cases rest' with
    | nil => simpa using same
    | cons next rest' =>
      refine absurd ?_ (plain first (by simp))
      rw [show first = _ by simpa using same]
      simp
  | cons next rest ih =>
    cases rest' with
    | nil =>
      refine absurd ?_ (plain' first' (by simp))
      rw [show first' = _ by simpa using same.symm]
      simp
    | cons next' rest' =>
      rw [List.flatMap_cons, List.flatMap_cons, List.cons_append, List.cons_append,
        cons_inj (plain first (by simp)) (plain' first' (by simp))] at same
      rw [same.1, ih (fun part member => plain part (List.mem_cons_of_mem _ member))
        (fun part member => plain' part (List.mem_cons_of_mem _ member)) same.2]

theorem slash : "/".toList = ['/'] := by decide

variable {root first first' rest rest' : String}

theorem root_inj : root ++ first = root ++ first' ↔ first = first' := by
  rw [← String.toList_inj, ← String.toList_inj, String.toList_append, String.toList_append,
    List.append_cancel_left_eq]

theorem pair_inj (plain : Plain first) (plainRest : Plain rest) :
    root ++ first ++ "/" ++ rest = root ++ first' ++ "/" ++ rest' ↔
      first = first' ∧ rest = rest' := by
  rw [← String.toList_inj, ← String.toList_inj, ← String.toList_inj]
  simp only [String.toList_append, List.append_assoc, List.append_cancel_left_eq, slash,
    List.singleton_append]
  exact (List.append_cons_inj_of_notMem plain plainRest).trans (by simp)

theorem triple_inj {last last' : String} (plain : Plain first) (plainRest : Plain rest)
    (plainLast : Plain last) :
    root ++ first ++ "/" ++ rest ++ "/" ++ last = root ++ first' ++ "/" ++ rest' ++ "/" ++ last' ↔
      first = first' ∧ rest = rest' ∧ last = last' := by
  refine ⟨fun same => ?_, fun ⟨a, b, c⟩ => by rw [a, b, c]⟩
  have letters := congrArg String.toList same
  simp only [String.toList_append, List.append_assoc, List.append_cancel_left_eq, slash,
    List.singleton_append] at letters
  have slashes := congrArg (List.count '/') letters
  simp only [List.count_append, List.count_cons_self, List.count_eq_zero.2 plain,
    List.count_eq_zero.2 plainRest, List.count_eq_zero.2 plainLast] at slashes
  have plain' : Plain first' := List.count_eq_zero.1 (by omega)
  have plainRest' : Plain rest' := List.count_eq_zero.1 (by omega)
  obtain ⟨firsts, letters⟩ := (cons_inj plain plain').1 letters
  obtain ⟨rests, lasts⟩ := (cons_inj plainRest plainRest').1 letters
  exact ⟨String.toList_inj.1 firsts, String.toList_inj.1 rests, String.toList_inj.1 lasts⟩

end AppleDM.Path
