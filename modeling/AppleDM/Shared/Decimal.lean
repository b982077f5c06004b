import Mathlib.Data.Nat.Init
import Mathlib.Tactic.Common

set_option autoImplicit false

-- Whole numbers as decimal text, in the bytes of strconv.FormatInt and strconv.ParseInt.
namespace AppleDM.Decimal

abbrev Bytes := List UInt8

def plus : UInt8 := 0x2B
def minus : UInt8 := 0x2D

def digits (n : Nat) : Bytes := (Nat.toDigits 10 n).map fun c => UInt8.ofNat c.toNat

def formatInt : Int → Bytes
  | .ofNat n => digits n
  | .negSucc n => minus :: digits (n + 1)

def isDigit (b : UInt8) : Bool := 0x30 ≤ b && b ≤ 0x39

def value (acc : Nat) : Bytes → Option Nat
  | [] => some acc
  | b :: rest => if isDigit b then value (acc * 10 + (b.toNat - 0x30)) rest else none

def magnitude (text : Bytes) : Option Nat := if text = [] then none else value 0 text

def signed (text : Bytes) : Option Int :=
  match text with
  | [] => none
  | b :: rest =>
    if b = minus then (magnitude rest).map fun n : Nat => -Int.ofNat n
    else if b = plus then (magnitude rest).map Int.ofNat
    else (magnitude (b :: rest)).map Int.ofNat

def parseInt (text : Bytes) : Option Int :=
  (signed text).filter fun n => -9223372036854775808 ≤ n ∧ n ≤ 9223372036854775807

theorem value_append (acc : Nat) (first second : Bytes) :
    value acc (first ++ second) = (value acc first).bind (value · second) := by
  induction first generalizing acc with
  | nil => rfl
  | cons b rest ih =>
    simp only [List.cons_append, value]
    split
    · exact ih _
    · rfl

theorem digit_byte {n : Nat} (small : n < 10) :
    isDigit (UInt8.ofNat n.digitChar.toNat) = true ∧
      (UInt8.ofNat n.digitChar.toNat).toNat - 0x30 = n := by
  have all : ∀ n < 10, isDigit (UInt8.ofNat n.digitChar.toNat) = true ∧
      (UInt8.ofNat n.digitChar.toNat).toNat - 0x30 = n := by decide +kernel
  exact all n small

theorem digits_small {n : Nat} (small : n < 10) :
    digits n = [UInt8.ofNat n.digitChar.toNat] := by
  rw [digits, Nat.toDigits_of_lt_base small]
  rfl

theorem digits_large {n : Nat} (large : ¬ n < 10) :
    digits n = digits (n / 10) ++ digits (n % 10) := by
  have cut : 10 * (n / 10) + n % 10 = n := Nat.div_add_mod n 10
  have below : n % 10 < 10 := Nat.mod_lt n (by decide)
  unfold digits
  rw [← List.map_append, Nat.toDigits_append_toDigits (by decide) (by omega) below, cut]

theorem value_digits (n : Nat) : value 0 (digits n) = some n := by
  induction n using Nat.strongRecOn with
  | ind n ih =>
    by_cases small : n < 10
    · rw [digits_small small, value, if_pos (digit_byte small).1, (digit_byte small).2,
        Nat.zero_mul, Nat.zero_add]
      rfl
    · have below : n % 10 < 10 := Nat.mod_lt n (by decide)
      rw [digits_large small, value_append, ih (n / 10) (by omega), Option.bind_some,
        digits_small below, value, if_pos (digit_byte below).1, (digit_byte below).2, value]
      congr 1
      omega

theorem value_mem {acc n : Nat} {text : Bytes} (read : value acc text = some n) :
    ∀ b ∈ text, isDigit b = true := by
  induction text generalizing acc with
  | nil => simp
  | cons first rest ih =>
    intro b member
    unfold value at read
    split at read
    · next digit =>
      obtain rfl | later := List.mem_cons.1 member
      · exact digit
      · exact ih read b later
    · cases read

theorem digits_ne_nil (n : Nat) : digits n ≠ [] := by
  by_cases small : n < 10
  · simp [digits_small small]
  · simp [digits_large small, digits_small (Nat.mod_lt n (by decide))]

theorem magnitude_digits (n : Nat) : magnitude (digits n) = some n := by
  rw [magnitude, if_neg (digits_ne_nil n), value_digits]

theorem isDigit_plain {b : UInt8} (digit : isDigit b = true) : b ≠ minus ∧ b ≠ plus := by
  refine ⟨?_, ?_⟩ <;> rintro rfl <;> simp [isDigit, minus, plus] at digit

theorem signed_formatInt (n : Int) : signed (formatInt n) = some n := by
  cases n with
  | ofNat n =>
    obtain ⟨first, rest, text⟩ := List.exists_cons_of_ne_nil (digits_ne_nil n)
    have digit : isDigit first = true :=
      value_mem (value_digits n) first (by rw [text]; exact List.mem_cons_self ..)
    have read := magnitude_digits n
    rw [formatInt, text] at *
    rw [signed, if_neg (isDigit_plain digit).1, if_neg (isDigit_plain digit).2, read]
    rfl
  | negSucc n =>
    rw [formatInt, signed, if_pos rfl, magnitude_digits]
    rfl

theorem formatInt_mem {n : Int} {b : UInt8} (member : b ∈ formatInt n) :
    isDigit b = true ∨ b = minus ∨ b = plus := by
  cases n with
  | ofNat n => exact .inl (value_mem (value_digits n) b member)
  | negSucc n =>
    obtain rfl | digit := List.mem_cons.1 member
    · exact .inr (.inl rfl)
    · exact .inl (value_mem (value_digits (n + 1)) b digit)

theorem parseInt_formatInt {n read : Int} (parsed : parseInt (formatInt n) = some read) :
    read = n := by
  rw [parseInt, signed_formatInt, Option.filter_some] at parsed
  split at parsed
  · exact (Option.some.inj parsed).symm
  · cases parsed

theorem parseInt_mem {text : Bytes} {n : Int} (parsed : parseInt text = some n) :
    ∀ b ∈ text, isDigit b = true ∨ b = minus ∨ b = plus := by
  have some : ∃ n, signed text = some n := by
    cases read : signed text with
    | none => simp [parseInt, read] at parsed
    | some n => exact ⟨n, rfl⟩
  obtain ⟨n, read⟩ := some
  have inside {n : Nat} {text : Bytes} (read : magnitude text = some n) :
      ∀ b ∈ text, isDigit b = true := by
    unfold magnitude at read
    split at read
    · cases read
    · exact value_mem read
  cases text with
  | nil => simp
  | cons first rest =>
    intro b member
    dsimp only [signed] at read
    split_ifs at read with negative positive
    · obtain ⟨n, read, -⟩ := Option.map_eq_some_iff.1 read
      obtain rfl | later := List.mem_cons.1 member
      · exact .inr (.inl negative)
      · exact .inl (inside read b later)
    · obtain ⟨n, read, -⟩ := Option.map_eq_some_iff.1 read
      obtain rfl | later := List.mem_cons.1 member
      · exact .inr (.inr positive)
      · exact .inl (inside read b later)
    · obtain ⟨n, read, -⟩ := Option.map_eq_some_iff.1 read
      exact .inl (inside read b member)

end AppleDM.Decimal
