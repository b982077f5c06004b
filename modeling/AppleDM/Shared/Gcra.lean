import Mathlib.Algebra.Order.Group.Int
import Mathlib.Algebra.Ring.Int.Defs
import Mathlib.Tactic.Ring
import Mathlib.Tactic.Linarith

set_option autoImplicit false

-- The generic cell rate algorithm: one time per bucket, the arrival time of the next request of
-- a source that sends at exactly the rate.
namespace AppleDM.Gcra

variable {interval burst tat tat' now : Int}

def wait (interval burst now tat : Int) : Int := tat - (burst - 1) * interval - now

def charge (interval now tat : Int) : Int := max tat now + interval

def Paced (interval burst : Int) : Int → List Int → Prop
  | _, [] => True
  | tat, now :: rest => wait interval burst now tat ≤ 0 ∧ Paced interval burst (charge interval now tat) rest

theorem charge_mono (earlier : tat' ≤ tat) : charge interval now tat' ≤ charge interval now tat := by
  unfold charge
  omega

theorem Paced.earlier {times : List Int} (paced : Paced interval burst tat times)
    (earlier : tat' ≤ tat) : Paced interval burst tat' times := by
  induction times generalizing tat tat' with
  | nil => trivial
  | cons now rest hypothesis =>
    refine ⟨?_, hypothesis paced.2 (charge_mono earlier)⟩
    have admitted := paced.1
    unfold wait at admitted ⊢
    omega

theorem Paced.sublist {times fewer : List Int} (positive : 0 ≤ interval)
    (inside : fewer.Sublist times) (paced : Paced interval burst tat times) :
    Paced interval burst tat fewer := by
  induction inside generalizing tat with
  | slnil => trivial
  | cons now _ hypothesis =>
    have later : tat ≤ charge interval now tat := by
      unfold charge
      omega
    exact hypothesis (paced.2.earlier later)
  | cons_cons now _ hypothesis => exact ⟨paced.1, hypothesis paced.2⟩

theorem Paced.last_ge {before : List Int} {last : Int}
    (paced : Paced interval burst tat (before ++ [last])) :
    tat + before.length * interval - (burst - 1) * interval ≤ last := by
  induction before generalizing tat with
  | nil =>
    have admitted : wait interval burst last tat ≤ 0 := paced.1
    simp only [wait] at admitted
    simp only [List.length_nil]
    push_cast
    omega
  | cons now rest hypothesis =>
    have later := hypothesis paced.2
    have pushed : tat + interval ≤ charge interval now tat := by
      unfold charge
      omega
    simp only [List.length_cons]
    push_cast
    linarith

theorem Paced.window {times : List Int} {start stop : Int} (positive : 0 < interval)
    (some : 1 ≤ burst) (forward : start ≤ stop) (paced : Paced interval burst tat times)
    (inside : ∀ time ∈ times, start ≤ time ∧ time ≤ stop) :
    (times.length : Int) ≤ burst + (stop - start) / interval := by
  have enough : 0 ≤ (stop - start) / interval := Int.ediv_nonneg (by omega) positive.le
  rcases times with _ | ⟨first, rest⟩
  · simp only [List.length_nil]
    push_cast
    omega
  rcases List.eq_nil_or_concat rest with rfl | ⟨before, last, rfl⟩
  · simp only [List.length_cons, List.length_nil]
    push_cast
    omega
  have begun := (inside first (by simp)).1
  have ended := (inside last (by simp)).2
  have span := (List.concat_eq_append ▸ paced.2 : Paced interval burst _ (before ++ [last])).last_ge
  have pushed : start + interval ≤ charge interval first tat := by
    unfold charge
    omega
  have gap : (before.length + 2 - burst) * interval ≤ stop - start := by
    linarith
  have quotient := (Int.le_ediv_iff_mul_le positive).mpr gap
  simp only [List.length_cons, List.concat_eq_append, List.length_append, List.length_nil]
  push_cast
  omega

end AppleDM.Gcra
