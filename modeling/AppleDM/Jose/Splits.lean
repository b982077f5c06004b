import Mathlib.Tactic.Common
import AppleDM.Mdm.Identity
import AppleDM.Shared.Checked

set_option autoImplicit false

namespace AppleDM.Jose

open Mdm Checked

inductive Panic
  | index

def maxOmittedZeroBytes : Nat := 3

def cut (sig : Bytes) (n : Nat) : Except Panic (Bytes × Bytes) := do
  reject (sig.length < n) .index
  pure (sig.take n, sig.drop n)

def padded (size offset : Nat) (src : Bytes) : Except Panic Bytes := do
  reject (size < offset) .index
  pure (List.replicate offset 0 ++ src.take (size - offset) ++
    List.replicate (size - offset - src.length) 0)

def candidate (sig : Bytes) (size deficit fromR : Nat) : Except Panic (Bytes × Bytes) := do
  -- `rLen` would be negative
  reject (size < fromR) .index
  let parts ← cut sig (size - fromR)
  let r ← padded size fromR parts.1
  let s ← padded size (deficit - fromR) parts.2
  pure (r, s)

def candidateSplits (sig : Bytes) (size : Nat) : Except Panic (List (Bytes × Bytes)) :=
  let want := 2 * size
  if sig.length = want then ([·]) <$> cut sig size
  else if sig.length > want ∨ sig.length + maxOmittedZeroBytes < want then .ok []
  else (List.range (want - sig.length + 1)).mapM (candidate sig size (want - sig.length))

def Omitted (size : Nat) (sig : Bytes) (i j : Nat) (pair : Bytes × Bytes) : Prop :=
  pair.1.length = size ∧ pair.2.length = size ∧
    ∃ r s, pair = (List.replicate i 0 ++ r, List.replicate j 0 ++ s) ∧ sig = r ++ s

def restored (sig : Bytes) (size i j : Nat) : Bytes × Bytes :=
  (List.replicate i 0 ++ sig.take (size - i), List.replicate j 0 ++ sig.drop (size - i))

variable {sig : Bytes} {size i j : Nat}

theorem omitted_iff {pair : Bytes × Bytes} (inside : i ≤ size) (inside' : j ≤ size) :
    Omitted size sig i j pair ↔ sig.length + (i + j) = 2 * size ∧ pair = restored sig size i j := by
  constructor
  · rintro ⟨first, second, r, s, rfl, rfl⟩
    simp only [List.length_append, List.length_replicate] at first second ⊢
    have long : size - i = r.length := by omega
    exact ⟨by omega, by rw [restored, long, List.take_left, List.drop_left]⟩
  · rintro ⟨total, rfl⟩
    refine ⟨?_, ?_, sig.take (size - i), sig.drop (size - i), rfl, by simp⟩
    · simp only [restored, List.length_append, List.length_replicate, List.length_take]
      omega
    · simp only [restored, List.length_append, List.length_replicate, List.length_drop]
      omega

theorem candidate_eq (total : sig.length + (i + j) = 2 * size) (inside : i ≤ size)
    (inside' : j ≤ size) : candidate sig size (i + j) i = .ok (restored sig size i j) := by
  have first : ¬ size < i := by omega
  have second : ¬ sig.length < size - i := by omega
  have third : ¬ size < j := by omega
  have left : size - i - min (size - i) sig.length = 0 := by omega
  have right : size - j - (sig.length - (size - i)) = 0 := by omega
  have whole : (sig.drop (size - i)).length ≤ size - j := by
    rw [List.length_drop]
    omega
  simp only [candidate, cut, padded, reject, first, second, Nat.add_sub_cancel_left, third,
    if_false, ok_bind, pure, Except.pure, List.length_take, List.length_drop, left, right, restored,
    List.take_take, Nat.min_self, List.take_of_length_le whole, List.replicate_zero,
    List.append_nil]

theorem candidateSplits_short {deficit : Nat} (total : sig.length + deficit = 2 * size)
    (few : deficit ≤ 3) (wide : 4 ≤ size) : candidateSplits sig size =
      .ok ((List.range (deficit + 1)).map fun i => restored sig size i (deficit - i)) := by
  unfold candidateSplits
  have missing : 2 * size - sig.length = deficit := by omega
  simp only [missing]
  split_ifs with full outside
  · obtain rfl : deficit = 0 := by omega
    have inside : ¬ sig.length < size := by omega
    simp [cut, reject, inside, restored, pure, Except.pure, Functor.map, Except.map]
  · unfold maxOmittedZeroBytes at outside
    omega
  · rw [mapM_ok, List.map_map]
    refine List.map_congr_left fun i member => ?_
    have below : i + (deficit - i) = deficit := by
      have := List.mem_range.1 member
      omega
    rw [Function.comp_apply, ← candidate_eq (by omega) (by omega) (by omega), below]

theorem candidateSplits_recover (wide : 4 ≤ size) (sig : Bytes) :
    ∃ found, candidateSplits sig size = .ok found ∧ found.length ≤ 4 ∧
      (sig.length + 3 < 2 * size ∨ 2 * size < sig.length → found = []) ∧
      (∀ pair ∈ found, ∃ i j, Omitted size sig i j pair) ∧
      ∀ i j pair, i + j ≤ 3 → Omitted size sig i j pair →
        pair ∈ found ∧ (i + j = 0 → found = [pair]) := by
  by_cases outside : sig.length + 3 < 2 * size ∨ 2 * size < sig.length
  · refine ⟨[], ?_, by simp, by simp, by simp, fun i j pair few omitted => ?_⟩
    · have uneven : sig.length ≠ 2 * size := by omega
      have refused : sig.length > 2 * size ∨ sig.length + maxOmittedZeroBytes < 2 * size :=
        outside.symm
      simp only [candidateSplits, uneven, refused, if_true, if_false]
    · have total := ((omitted_iff (by omega) (by omega)).1 omitted).1
      omega
  · obtain ⟨deficit, total⟩ : ∃ deficit, sig.length + deficit = 2 * size :=
      ⟨2 * size - sig.length, by omega⟩
    refine ⟨_, candidateSplits_short total (by omega) wide, ?_, fun off => absurd off outside,
      fun pair member => ?_, fun i j pair few omitted => ?_⟩
    · rw [List.length_map, List.length_range]
      omega
    · obtain ⟨i, below, rfl⟩ := List.mem_map.1 member
      have inside := List.mem_range.1 below
      exact ⟨i, deficit - i, (omitted_iff (by omega) (by omega)).2 ⟨by omega, rfl⟩⟩
    · obtain ⟨same, rfl⟩ := (omitted_iff (by omega) (by omega)).1 omitted
      obtain rfl : deficit = i + j := by omega
      refine ⟨List.mem_map.2 ⟨i, List.mem_range.2 (by omega), by rw [Nat.add_sub_cancel_left]⟩, ?_⟩
      intro none
      obtain ⟨rfl, rfl⟩ : i = 0 ∧ j = 0 := by omega
      rfl

theorem candidateSplits_recover_zero : ∃ found,
    candidateSplits [1, 2, 3, 4, 5, 6, 7] 4 = .ok found ∧ found.length ≤ 4 ∧
      ([1, 2, 3, 4], [0, 5, 6, 7]) ∈ found := by
  obtain ⟨found, done, short, -, -, complete⟩ :=
    candidateSplits_recover (show 4 ≤ 4 by decide) [1, 2, 3, 4, 5, 6, 7]
  refine ⟨found, done, short, (complete 0 1 _ (by decide) ?_).1⟩
  exact ⟨rfl, rfl, [1, 2, 3, 4], [5, 6, 7], rfl, rfl⟩

end AppleDM.Jose
