import Mathlib.Tactic.IntervalCases
import Mathlib.Tactic.Common

set_option autoImplicit false

-- base64.RawURLEncoding: the URL alphabet without padding, decoded as Go does.
namespace AppleDM.Base64

abbrev Bytes := List UInt8

def alphabet : List Char :=
  "ABCDEFGHIJKLMNOPQRSTUVWXYZabcdefghijklmnopqrstuvwxyz0123456789-_".toList

def digit (n : Nat) : Char := alphabet.getD n 'A'

def digitValue (c : Char) : Option Nat := alphabet.findIdx? (· = c)

def encodeDigits : Bytes → List Nat
  | [] => []
  | [a] => [a.toNat / 4, a.toNat % 4 * 16]
  | [a, b] => [a.toNat / 4, a.toNat % 4 * 16 + b.toNat / 16, b.toNat % 16 * 4]
  | a :: b :: c :: rest =>
    a.toNat / 4 :: (a.toNat % 4 * 16 + b.toNat / 16) :: (b.toNat % 16 * 4 + c.toNat / 64) ::
      c.toNat % 64 :: encodeDigits rest

def encodeToString (bytes : Bytes) : String := String.ofList ((encodeDigits bytes).map digit)

def decodeDigits : List Nat → Option Bytes
  | [] => some []
  | [_] => none
  | [p, q] => some [.ofNat (p * 4 + q / 16)]
  | [p, q, r] => some [.ofNat (p * 4 + q / 16), .ofNat (q % 16 * 16 + r / 4)]
  | p :: q :: r :: s :: rest => do
    let bytes ← decodeDigits rest
    some (.ofNat (p * 4 + q / 16) :: .ofNat (q % 16 * 16 + r / 4) :: .ofNat (r % 4 * 64 + s) ::
      bytes)

def decodeString (text : String) : Option Bytes := do
  let digits ← (text.toList.filter fun c => c ≠ '\n' && c ≠ '\r').mapM digitValue
  decodeDigits digits

theorem digitValue_digit {n : Nat} (small : n < 64) : digitValue (digit n) = some n := by
  have all : ∀ n < 64, digitValue (digit n) = some n := by decide +kernel
  exact all n small

theorem digit_plain {n : Nat} (small : n < 64) : digit n ≠ '\n' ∧ digit n ≠ '\r' := by
  have all : ∀ n < 64, digit n ≠ '\n' ∧ digit n ≠ '\r' := by decide +kernel
  exact all n small

theorem digit_mem {n : Nat} (small : n < 64) : digit n ∈ alphabet := by
  have all : ∀ n < 64, digit n ∈ alphabet := by decide +kernel
  exact all n small

theorem encodeDigits_small (bytes : Bytes) : ∀ n ∈ encodeDigits bytes, n < 64 := by
  fun_induction encodeDigits bytes with
  | case1 => simp
  | case2 a =>
    have := a.toNat_lt
    simp only [List.mem_cons, List.not_mem_nil, or_false, forall_eq_or_imp, forall_eq]
    omega
  | case3 a b =>
    have := a.toNat_lt
    have := b.toNat_lt
    simp only [List.mem_cons, List.not_mem_nil, or_false, forall_eq_or_imp, forall_eq]
    omega
  | case4 a b c rest ih =>
    have := a.toNat_lt
    have := b.toNat_lt
    have := c.toNat_lt
    simp only [List.mem_cons, forall_eq_or_imp]
    exact ⟨by omega, by omega, by omega, by omega, ih⟩

theorem first_byte (a b : UInt8) :
    UInt8.ofNat (a.toNat / 4 * 4 + (a.toNat % 4 * 16 + b.toNat / 16) / 16) = a := by
  have := b.toNat_lt
  have same : a.toNat / 4 * 4 + (a.toNat % 4 * 16 + b.toNat / 16) / 16 = a.toNat := by omega
  rw [same, UInt8.ofNat_toNat]

theorem middle_byte (a b c : UInt8) :
    UInt8.ofNat ((a.toNat % 4 * 16 + b.toNat / 16) % 16 * 16 +
      (b.toNat % 16 * 4 + c.toNat / 64) / 4) = b := by
  have := b.toNat_lt
  have := c.toNat_lt
  have same : (a.toNat % 4 * 16 + b.toNat / 16) % 16 * 16 +
      (b.toNat % 16 * 4 + c.toNat / 64) / 4 = b.toNat := by omega
  rw [same, UInt8.ofNat_toNat]

theorem last_byte (b c : UInt8) :
    UInt8.ofNat ((b.toNat % 16 * 4 + c.toNat / 64) % 4 * 64 + c.toNat % 64) = c := by
  have := c.toNat_lt
  have same : (b.toNat % 16 * 4 + c.toNat / 64) % 4 * 64 + c.toNat % 64 = c.toNat := by omega
  rw [same, UInt8.ofNat_toNat]

theorem decodeDigits_encodeDigits (bytes : Bytes) :
    decodeDigits (encodeDigits bytes) = some bytes := by
  fun_induction encodeDigits bytes with
  | case1 => rfl
  -- The digits that are missing at the end count as zero.
  | case2 a => exact congrArg (fun byte => some [byte]) (first_byte a 0)
  | case3 a b =>
    exact congrArg₂ (fun one two => some [one, two]) (first_byte a b) (middle_byte a b 0)
  | case4 a b c rest ih =>
    simp only [decodeDigits, ih, Option.bind_eq_bind, Option.bind_some, first_byte, middle_byte,
      last_byte]

theorem mapM_digits {digits : List Nat} (small : ∀ n ∈ digits, n < 64) :
    (digits.map digit).mapM digitValue = some digits := by
  induction digits with
  | nil => rfl
  | cons n rest ih =>
    have first := digitValue_digit (small n (by simp))
    have later := ih fun m member => small m (List.mem_cons_of_mem n member)
    simp [List.mapM_cons, first, later]

theorem decodeString_encodeToString (bytes : Bytes) :
    decodeString (encodeToString bytes) = some bytes := by
  have small := encodeDigits_small bytes
  have plain : ((encodeDigits bytes).map digit).filter (fun c => c ≠ '\n' && c ≠ '\r') =
      (encodeDigits bytes).map digit := by
    rw [List.filter_eq_self]
    intro c member
    obtain ⟨n, there, rfl⟩ := List.mem_map.1 member
    simpa using digit_plain (small n there)
  unfold decodeString encodeToString
  rw [String.toList_ofList, plain, mapM_digits small]
  exact decodeDigits_encodeDigits bytes

theorem encodeToString_mem {bytes : Bytes} {c : Char}
    (member : c ∈ (encodeToString bytes).toList) : c ∈ alphabet := by
  unfold encodeToString at member
  rw [String.toList_ofList] at member
  obtain ⟨n, there, rfl⟩ := List.mem_map.1 member
  exact digit_mem (encodeDigits_small bytes n there)

theorem encodeToString_injective : Function.Injective encodeToString := by
  intro first second same
  have decoded := decodeString_encodeToString first
  rw [same, decodeString_encodeToString] at decoded
  exact (Option.some.inj decoded).symm

end AppleDM.Base64
