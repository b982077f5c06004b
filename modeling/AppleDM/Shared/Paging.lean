import Mathlib.Order.Lattice
import Mathlib.Data.List.Pairwise
import Mathlib.Tactic.Common

set_option autoImplicit false

namespace AppleDM.Paging

variable {Row Key : Type} [LinearOrder Key]

def page (key : Row → Key) (size : Nat) (rows : List Row) (cursor : Option Key) :
    List Row × Option Key :=
  let rest := match cursor with
    | none => rows
    | some cursor => rows.filter fun row => cursor < key row
  (rest.take size, if size < rest.length then (rest[size - 1]?).map key else none)

def collect (fetch : Option Key → List Row × Option Key) : Nat → Option Key → Option (List Row)
  | 0, _ => none
  | fuel + 1, cursor =>
    match fetch cursor with
    | (rows, none) => some rows
    | (rows, some next) => (collect fetch fuel (some next)).map (rows ++ ·)

variable {key : Row → Key} {rows : List Row} {size : Nat}

theorem after_cursor {before after : List Row} {last : Row}
    (sorted : (before ++ last :: after).Pairwise fun a b => key a < key b) :
    (before ++ last :: after).filter (fun row => key last < key row) = after := by
  obtain ⟨-, later, across⟩ := List.pairwise_append.1 sorted
  have dropped : before.filter (fun row => key last < key row) = [] := by
    rw [List.filter_eq_nil_iff]
    intro row member
    simpa using (across row member last (by simp)).le
  have kept : after.filter (fun row => key last < key row) = after := by
    rw [List.filter_eq_self]
    intro row member
    simpa using (List.pairwise_cons.1 later).1 row member
  simp [dropped, kept]

theorem collect_from (positive : 0 < size)
    (sorted : rows.Pairwise fun a b => key a < key b) (fuel : Nat) (cursor : Option Key)
    (rest : List Row) (enough : rest.length ≤ fuel * size) (started : 0 < fuel)
    (remaining : (page key size rows cursor) =
      (rest.take size, if size < rest.length then (rest[size - 1]?).map key else none))
    (suffix : ∃ before, rows = before ++ rest) :
    collect (page key size rows) fuel cursor = some rest := by
  induction fuel generalizing cursor rest with
  | zero => simp at started
  | succ fuel ih =>
    unfold collect
    rw [remaining]
    by_cases more : size < rest.length
    · obtain ⟨before, same⟩ := suffix
      have inside : size - 1 < rest.length := by omega
      have cut : rest = rest.take (size - 1) ++ rest[size - 1] :: rest.drop size := by
        have next : size - 1 + 1 = size := by omega
        conv_lhs => rw [← List.take_append_drop (size - 1) rest]
        rw [List.drop_eq_getElem_cons inside, next]
      have split : rows = (before ++ rest.take (size - 1)) ++ rest[size - 1] :: rest.drop size := by
        rw [List.append_assoc, ← cut, same]
      simp only [more, if_true, List.getElem?_eq_getElem inside, Option.map_some]
      have bound : (rest.drop size).length ≤ fuel * size := by
        rw [List.length_drop]
        have : (fuel + 1) * size = fuel * size + size := Nat.succ_mul fuel size
        omega
      have positiveFuel : 0 < fuel := by
        by_contra none_left
        have zero : fuel = 0 := by omega
        subst zero
        omega
      rw [ih (some (key rest[size - 1])) (rest.drop size) bound positiveFuel ?_ ?_]
      · rw [Option.map_some, List.take_append_drop]
      · have follows := after_cursor (split ▸ sorted)
        rw [← split] at follows
        simp only [page, follows]
      · exact ⟨before ++ rest.take size, by rw [List.append_assoc, List.take_append_drop, same]⟩
    · simp only [more, if_false]
      rw [List.take_of_length_le (by omega)]

theorem collect_page (positive : 0 < size)
    (sorted : rows.Pairwise fun a b => key a < key b) {fuel : Nat}
    (enough : rows.length < fuel) :
    collect (page key size rows) fuel none = some rows := by
  refine collect_from positive sorted fuel none rows ?_ (by omega) rfl ⟨[], rfl⟩
  calc rows.length ≤ fuel * 1 := by omega
    _ ≤ fuel * size := Nat.mul_le_mul_left fuel positive

def after (key : Row → Key) (size : Nat) (rows : List Row) (cursor : Key) : List Row :=
  (rows.filter fun row => cursor < key row).take size

/-- Reads pages until one is short, each from the key of the last row before it; `fuel` bounds the
number of pages. -/
def scan (key : Row → Key) (size : Nat) (fetch : Key → List Row) : Nat → Key → Option (List Row)
  | 0, _ => none
  | fuel + 1, cursor =>
    let rows := fetch cursor
    if rows.length < size then some rows
    else
      (scan key size fetch fuel ((rows.getLast?.map key).getD cursor)).map (rows ++ ·)

theorem filter_after {cursor : Key} {last : Row} (sorted : rows.Pairwise fun a b => key a < key b)
    (ends : (after key size rows cursor).getLast? = some last) :
    rows.filter (fun row => key last < key row) =
      (rows.filter fun row => cursor < key row).drop size := by
  unfold after at ends
  have beyond : cursor < key last := by
    have member := List.mem_of_mem_take (List.mem_of_getLast? ends)
    simpa using (List.mem_filter.1 member).2
  have narrowed : rows.filter (fun row => key last < key row) =
      (rows.filter fun row => cursor < key row).filter fun row => key last < key row := by
    rw [List.filter_filter]
    refine List.filter_congr fun row _ => ?_
    by_cases later : key last < key row
    · simp [later, beyond.trans later]
    · simp [later]
  have rest := sorted.filter fun row => decide (cursor < key row)
  rw [narrowed]
  generalize rows.filter (fun row => cursor < key row) = found at ends rest ⊢
  obtain ⟨front, split⟩ := List.getLast?_eq_some_iff.1 ends
  have cut : found = front ++ last :: found.drop size := by
    have whole := List.take_append_drop size found
    rw [split] at whole
    simpa using whole.symm
  rw [cut] at rest
  conv_lhs => rw [cut]
  exact after_cursor rest

theorem scan_after (positive : 0 < size)
    (sorted : rows.Pairwise fun a b => key a < key b) (fuel : Nat) (cursor : Key)
    (enough : (rows.filter fun row => cursor < key row).length < fuel) :
    scan key size (after key size rows) fuel cursor =
      some (rows.filter fun row => cursor < key row) := by
  induction fuel generalizing cursor with
  | zero => simp at enough
  | succ fuel ih =>
    unfold scan
    dsimp only
    split
    · next short =>
      rw [after, List.length_take] at short
      rw [after, List.take_of_length_le (by omega)]
    · next full =>
      have length : (after key size rows cursor).length = size := by
        rw [after, List.length_take] at full ⊢
        omega
      obtain ⟨last, ends⟩ : ∃ last, (after key size rows cursor).getLast? = some last := by
        cases ends : (after key size rows cursor).getLast? with
        | some last => exact ⟨last, rfl⟩
        | none =>
          rw [List.getLast?_eq_none_iff.1 ends, List.length_nil] at length
          omega
      have rest := filter_after sorted ends
      have bound : size ≤ (rows.filter fun row => cursor < key row).length := by
        rw [after, List.length_take] at length
        omega
      rw [ends, Option.map_some, Option.getD_some, ih, rest, Option.map_some, after,
        List.take_append_drop]
      rw [rest, List.length_drop]
      omega

theorem probe (positive : 0 < size) (rest : List Row) :
    (rest.take (size + 1)).take size = rest.take size ∧
      (size < (rest.take (size + 1)).length ↔ size < rest.length) ∧
      ((rest.take (size + 1)).take size)[size - 1]? = rest[size - 1]? := by
  refine ⟨?_, ?_, ?_⟩
  · rw [List.take_take, Nat.min_eq_left (by omega)]
  · rw [List.length_take]
    omega
  · rw [List.take_take, Nat.min_eq_left (by omega), List.getElem?_take_of_lt (by omega)]

theorem next_mem {cursor : Option Key} {next : Key}
    (found : (page key size rows cursor).2 = some next) : ∃ row ∈ rows, key row = next := by
  have among {rest : List Row} (part : rest ⊆ rows)
      (found : (if size < rest.length then (rest[size - 1]?).map key else none) = some next) :
      ∃ row ∈ rows, key row = next := by
    obtain ⟨-, found⟩ := Option.ite_none_right_eq_some.1 found
    obtain ⟨row, there, same⟩ := Option.map_eq_some_iff.1 found
    exact ⟨row, part (List.mem_of_getElem? there), same⟩
  cases cursor with
  | none => exact among (List.Subset.refl rows) found
  | some cursor => exact among List.filter_sublist.subset found

theorem join_lt_join {Letter : Type} [LinearOrder Letter] {separator : Letter}
    (least : ∀ letter, separator ≤ letter) {first first' second second' : List Letter}
    (free : separator ∉ first) (free' : separator ∉ first')
    (below : first < first' ∨ first = first' ∧ second < second') :
    first ++ separator :: second < first' ++ separator :: second' := by
  induction first generalizing first' with
  | nil =>
    cases first' with
    | nil =>
      obtain below | ⟨-, below⟩ := below
      · exact absurd below (List.not_lt_nil _)
      · exact List.cons_lt_cons_iff.2 (.inr ⟨rfl, below⟩)
    | cons letter rest =>
      have apart : separator ≠ letter := fun same => free' (same ▸ List.mem_cons_self)
      exact List.cons_lt_cons_iff.2 (.inl (lt_of_le_of_ne (least letter) apart))
  | cons letter rest ih =>
    cases first' with
    | nil =>
      obtain below | ⟨same, -⟩ := below
      · exact absurd below (List.not_lt_nil _)
      · simp at same
    | cons letter' rest' =>
      have here : separator ∉ rest := fun member => free (List.mem_cons_of_mem _ member)
      have there : separator ∉ rest' := fun member => free' (List.mem_cons_of_mem _ member)
      simp only [List.cons_append, List.cons_lt_cons_iff, List.cons.injEq] at below ⊢
      rcases below with (before | ⟨rfl, below⟩) | ⟨⟨rfl, same⟩, below⟩
      · exact .inl before
      · exact .inr ⟨rfl, ih here there (.inl below)⟩
      · exact .inr ⟨rfl, ih here there (.inr ⟨same, below⟩)⟩

end AppleDM.Paging
