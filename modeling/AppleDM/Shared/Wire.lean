import Mathlib.Algebra.Group.Nat.Defs
import Mathlib.Algebra.Group.Int.Defs
import Mathlib.Data.List.Lex
import AppleDM.Shared.Checked

set_option autoImplicit false

namespace AppleDM.Wire

open Checked

def bigEndian : Nat → Nat → List UInt8
  | 0, _ => []
  | width + 1, n => bigEndian width (n / 256) ++ [UInt8.ofNat n]

def number (digits : List UInt8) : Nat := digits.foldl (fun n b => 256 * n + b.toNat) 0

@[simp] theorem length_bigEndian (width n : Nat) : (bigEndian width n).length = width := by
  induction width generalizing n with
  | zero => rfl
  | succ width ih => simp [bigEndian, ih]

theorem number_bigEndian {width n : Nat} (small : n < 256 ^ width) :
    number (bigEndian width n) = n := by
  induction width generalizing n with
  | zero => simp at small; simp [small, bigEndian, number]
  | succ width ih =>
    have above : n / 256 < 256 ^ width := Nat.div_lt_of_lt_mul (by rwa [← Nat.pow_succ'])
    have before := ih above
    simp only [number] at before ⊢
    simp only [bigEndian, List.foldl_append, before, List.foldl_cons, List.foldl_nil,
      UInt8.toNat_ofNat']
    omega

theorem append_lt {A : Type} [LT A] {xs ys : List A} (x y : List A) (same : xs.length = ys.length) (below : xs < ys) :
    xs ++ x < ys ++ y := by
  induction xs generalizing ys with
  | nil => cases ys with
    | nil => exact absurd below (List.not_lt_nil _)
    | cons => cases same
  | cons first rest ih => cases ys with
    | nil => cases same
    | cons =>
      rw [List.cons_append, List.cons_append, List.cons_lt_cons_iff]
      exact (List.cons_lt_cons_iff.1 below).imp_right (.imp_right (ih (Nat.succ.inj same)))

theorem bigEndian_lt {width n m : Nat} (below : n < m) (small : m < 256 ^ width) :
    (bigEndian width n).map (·.toNat) < (bigEndian width m).map (·.toNat) := by
  induction width generalizing n m with
  | zero => omega
  | succ width ih =>
    have above : m / 256 < 256 ^ width := Nat.div_lt_of_lt_mul (by rwa [← Nat.pow_succ'])
    simp only [bigEndian, List.map_append]
    by_cases same : n / 256 = m / 256
    · rw [same]
      refine List.Lex.append_left _ ?_ _
      refine List.cons_lt_cons_iff.2 (.inl ?_)
      simp only [UInt8.toNat_ofNat']
      omega
    · exact append_lt _ _ (by simp) (ih (by omega) above)

section Lists

variable {A B : Type} {R : A → B → Prop} {xs : List A} {ys : List B}

theorem length_le_flatten {pieces : List (List A)} {size : Nat}
    (each : ∀ piece ∈ pieces, size ≤ piece.length) :
    pieces.length * size ≤ pieces.flatten.length := by
  induction pieces with
  | nil => simp
  | cons piece rest ih =>
    have first := each piece (by simp)
    have later := ih fun piece member => each piece (by simp [member])
    simp only [List.length_cons, List.flatten_cons, List.length_append, Nat.add_mul, Nat.one_mul]
    omega

theorem length_le_of_mem {pieces : List (List A)} {piece : List A} (member : piece ∈ pieces) :
    piece.length ≤ pieces.flatten.length := by
  obtain ⟨before, after, rfl⟩ := List.append_of_mem member
  simp
  omega

end Lists

section Codes

variable {X A : Type}

def Delimited (enc : X → List A) (P : X → Prop) : Prop :=
  ∀ x y, P x → P y → ∀ rest rest', enc x ++ rest = enc y ++ rest' → x = y ∧ rest = rest'

theorem Delimited.flatMap {enc : X → List A} {P : X → Prop} (delimited : Delimited enc P)
    (nonempty : ∀ x, enc x ≠ []) {xs ys : List X} (each : ∀ x ∈ xs, P x) (each' : ∀ y ∈ ys, P y)
    (same : xs.flatMap enc = ys.flatMap enc) : xs = ys := by
  induction xs generalizing ys with
  | nil =>
    cases ys with
    | nil => rfl
    | cons y ys => simp [nonempty] at same
  | cons x xs ih =>
    cases ys with
    | nil => simp [nonempty] at same
    | cons y ys =>
      rw [List.flatMap_cons, List.flatMap_cons] at same
      obtain ⟨rfl, rest⟩ := delimited x y (each x (by simp)) (each' y (by simp)) _ _ same
      rw [ih (fun x member => each x (by simp [member])) (fun y member => each' y (by simp [member]))
        rest]

end Codes

section Loops

variable {State Error Item : Type}

def times : Nat → (State → Except Error State) → State → Except Error State
  | 0, _, state => .ok state
  | n + 1, step, state => step state >>= times n step

theorem times_run (items : List Item) (step : State → Except Error State)
    (reached : List Item → State)
    (next : ∀ done item rest, items = done ++ item :: rest →
      step (reached done) = .ok (reached (done ++ [item]))) :
    times items.length step (reached []) = .ok (reached items) := by
  suffices continued : ∀ rest done, items = done ++ rest →
      times rest.length step (reached done) = .ok (reached items) from continued items [] rfl
  intro rest
  induction rest with
  | nil =>
    intro done whole
    rw [whole, List.append_nil]
    rfl
  | cons item rest ih =>
    intro done whole
    rw [List.length_cons, times, next done item rest whole, ok_bind]
    exact ih (done ++ [item]) (by simpa using whole)

end Loops

structure Cursor (A : Type) where
  off : Nat
  rest : List A
deriving DecidableEq

namespace Cursor

variable {A Error : Type}

def Passes (d : Cursor A) (used : List A) (after : Cursor A) : Prop :=
  d.rest = used ++ after.rest ∧ after.off = d.off + used.length

variable {d after : Cursor A}

theorem passes_nil : d.Passes [] after ↔ after = d := by
  cases d
  cases after
  simp [Passes, and_comm, eq_comm]

theorem passes_append {first second : List A} : d.Passes (first ++ second) after ↔
      ∃ middle : Cursor A, d.Passes first middle ∧ middle.Passes second after := by
  constructor
  · rintro ⟨rest, off⟩
    exact ⟨⟨d.off + first.length, second ++ after.rest⟩, ⟨by simp [rest], rfl⟩, rfl,
      by simp [off]; omega⟩
  · rintro ⟨middle, ⟨rest, off⟩, rest', off'⟩
    exact ⟨by simp [rest, rest'], by simp [off, off']; omega⟩

theorem Passes.eq {used : List A} (passes : d.Passes used after) :
    d = ⟨d.off, used ++ after.rest⟩ ∧ after = ⟨d.off + used.length, after.rest⟩ := by
  cases d
  cases after
  exact ⟨by rw [← passes.1], by rw [← passes.2]⟩

def Reads (read : Cursor A → Except Error (Cursor A)) (form : List A → Prop) : Prop :=
  ∀ d after, read d = .ok after ↔ ∃ used, form used ∧ d.Passes used after

variable {read read' : Cursor A → Except Error (Cursor A)} {form form' : List A → Prop}

theorem Reads.seq (first : Reads read form) (second : Reads read' form') :
    Reads (fun d => read d >>= read')
      fun used => ∃ a b, form a ∧ form' b ∧ used = a ++ b := by
  intro d after
  simp only [bind_ok, first _ _, second _ _]
  constructor
  · rintro ⟨middle, ⟨a, formed, passes⟩, b, formed', passes'⟩
    exact ⟨a ++ b, ⟨a, b, formed, formed', rfl⟩, passes_append.2 ⟨middle, passes, passes'⟩⟩
  · rintro ⟨_, ⟨a, b, formed, formed', rfl⟩, passes⟩
    obtain ⟨middle, passes, passes'⟩ := passes_append.1 passes
    exact ⟨middle, ⟨a, formed, passes⟩, b, formed', passes'⟩

theorem Reads.times (each : Reads read form) (n : Nat) :
    Reads (Wire.times n read) fun used =>
      ∃ pieces : List (List A), pieces.length = n ∧ (∀ piece ∈ pieces, form piece) ∧
        used = pieces.flatten := by
  induction n with
  | zero =>
    intro d after
    constructor
    · intro done
      obtain rfl : d = after := by simpa [Wire.times] using done
      exact ⟨[], ⟨[], rfl, by simp, rfl⟩, passes_nil.2 rfl⟩
    · rintro ⟨_, ⟨pieces, none_, -, rfl⟩, passes⟩
      obtain rfl := List.length_eq_zero_iff.1 none_
      rw [passes_nil.1 passes]
      rfl
  | succ n ih =>
    intro d after
    refine (each.seq ih d after).trans ?_
    constructor
    · rintro ⟨used, ⟨a, _, formed, ⟨pieces, count, all, rfl⟩, rfl⟩, passes⟩
      exact ⟨_, ⟨a :: pieces, by simp [count], by simpa using ⟨formed, all⟩, rfl⟩, passes⟩
    · rintro ⟨_, ⟨pieces, count, all, rfl⟩, passes⟩
      obtain ⟨a, pieces, rfl⟩ := List.exists_cons_of_length_eq_add_one count
      simp only [List.mem_cons, forall_eq_or_imp] at all
      exact ⟨_, ⟨a, _, all.1, ⟨pieces, by simpa using count, all.2, rfl⟩, rfl⟩, passes⟩

section Along

variable {X : Type} (enc : X → List A) (items : List X) (off : Nat) (rest : List A)

def along (done : List X) : Cursor A :=
  ⟨off + (done.flatMap enc).length, (items.drop done.length).flatMap enc ++ rest⟩

theorem along_nil : along enc items off rest [] = ⟨off, items.flatMap enc ++ rest⟩ := by
  simp [along]

theorem along_all : along enc items off rest items = ⟨off + (items.flatMap enc).length, rest⟩ := by
  simp [along]

theorem along_next {done todo : List X} {x : X} (whole : items = done ++ x :: todo) :
    ∃ left, along enc items off rest done = ⟨off + (done.flatMap enc).length, enc x ++ left⟩ ∧
      along enc items off rest (done ++ [x]) =
        ⟨off + (done.flatMap enc).length + (enc x).length, left⟩ := by
  have after : items = done ++ [x] ++ todo := by simpa using whole
  refine ⟨todo.flatMap enc ++ rest, ?_, ?_⟩
  · rw [along, whole, List.drop_left]
    simp
  · rw [along, after, List.drop_left]
    simp [Nat.add_assoc]

end Along

theorem Reads.unique (reads : Reads read form) {a b x y : List A} (first : form a)
    (second : form b) (same : a ++ x = b ++ y) : a = b ∧ x = y := by
  have one : read ⟨0, a ++ x⟩ = .ok ⟨0 + a.length, x⟩ := (reads _ _).2 ⟨a, first, rfl, rfl⟩
  have other : read ⟨0, b ++ y⟩ = .ok ⟨0 + b.length, y⟩ := (reads _ _).2 ⟨b, second, rfl, rfl⟩
  rw [same, other, Except.ok.injEq, Cursor.mk.injEq] at one
  rw [one.2] at same ⊢
  exact ⟨List.append_cancel_right same, rfl⟩

theorem Reads.flatten_unique (reads : Reads read form) {pieces pieces' : List (List A)}
    (all : ∀ piece ∈ pieces, form piece) (all' : ∀ piece ∈ pieces', form piece)
    (count : pieces.length = pieces'.length) (same : pieces.flatten = pieces'.flatten) :
    pieces = pieces' := by
  induction pieces generalizing pieces' with
  | nil => exact (List.length_eq_zero_iff.1 count.symm).symm
  | cons piece rest ih =>
    obtain ⟨piece', rest', rfl⟩ := List.exists_cons_of_length_eq_add_one count.symm
    simp only [List.mem_cons, forall_eq_or_imp] at all all'
    obtain ⟨rfl, later⟩ := reads.unique all.1 all'.1 same
    rw [ih all.2 all'.2 (by simpa using count) later]

end Cursor

end AppleDM.Wire
