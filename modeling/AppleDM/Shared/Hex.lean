import Mathlib.Data.Nat.Init
import Mathlib.Data.String.Basic
import Mathlib.Tactic.Common

set_option autoImplicit false

namespace AppleDM.Hex

def text (n : Nat) : String := String.ofList (Nat.toDigits 16 n)

def digits : List Char := "0123456789abcdef".toList

def digitValue (c : Char) : Option Nat := digits.findIdx? (· = c)

def readDigits (acc : Nat) : List Char → Option Nat
  | [] => some acc
  | c :: rest => do
    let value ← digitValue c
    readDigits (acc * 16 + value) rest

def parse (s : String) : Option Nat :=
  if s = "" then none else readDigits 0 s.toList

theorem digitValue_digitChar {n : Nat} (small : n < 16) : digitValue n.digitChar = some n := by
  have all : ∀ n < 16, digitValue n.digitChar = some n := by decide +kernel
  exact all n small

theorem readDigits_append (acc : Nat) (first second : List Char) :
    readDigits acc (first ++ second) = (readDigits acc first).bind (readDigits · second) := by
  induction first generalizing acc with
  | nil => rfl
  | cons c rest ih =>
    simp only [List.cons_append, readDigits, Option.bind_eq_bind]
    cases digitValue c with
    | none => rfl
    | some value => exact ih _

theorem readDigits_toDigits (n : Nat) : readDigits 0 (Nat.toDigits 16 n) = some n := by
  induction n using Nat.strongRecOn with
  | ind n ih =>
    by_cases small : n < 16
    · rw [Nat.toDigits_of_lt_base small]
      simp [readDigits, digitValue_digitChar small]
    · have cut : 16 * (n / 16) + n % 16 = n := Nat.div_add_mod n 16
      have below : n % 16 < 16 := Nat.mod_lt n (by decide)
      rw [← cut, ← Nat.toDigits_append_toDigits (by decide) (by omega) below, readDigits_append,
        ih (n / 16) (by omega), Nat.toDigits_of_lt_base below]
      simp only [Option.bind_some, readDigits, digitValue_digitChar below, Option.bind_eq_bind]
      rw [Nat.mul_comm]

theorem readDigits_mem {acc n : Nat} {text : List Char} (read : readDigits acc text = some n) :
    ∀ c ∈ text, c ∈ digits := by
  induction text generalizing acc with
  | nil => simp
  | cons first rest ih =>
    obtain ⟨value, found, later⟩ := Option.bind_eq_some_iff.1 read
    obtain ⟨_, same, -⟩ := List.findIdx?_eq_some_iff_getElem.1 found
    intro c member
    obtain rfl | inside := List.mem_cons.1 member
    · rw [← of_decide_eq_true same]
      exact List.getElem_mem _
    · exact ih later c inside

theorem text_mem {n : Nat} {c : Char} (member : c ∈ (text n).toList) : c ∈ digits := by
  rw [text, String.toList_ofList] at member
  exact readDigits_mem (readDigits_toDigits n) c member

theorem text_ne_empty (n : Nat) : text n ≠ "" := by
  intro empty
  simp [text, String.ext_iff] at empty

theorem parse_text (n : Nat) : parse (text n) = some n := by
  rw [parse, if_neg (text_ne_empty n), text, String.toList_ofList, readDigits_toDigits]

theorem text_injective : Function.Injective text := by
  intro m n same
  have read := parse_text m
  rw [same, parse_text] at read
  exact (Option.some.inj read).symm

end AppleDM.Hex
