import Mathlib.Data.Nat.Bitwise
import Mathlib.Tactic.Common
import AppleDM.Mdm.Identity
import AppleDM.Shared.Checked

set_option autoImplicit false

namespace AppleDM.ActivationLock

open Mdm Checked

def bytes (text : String) : Bytes := text.toList.map fun c => UInt8.ofNat c.toNat

def alphabet : Bytes := bytes "0123456789ACDEFGHJKLMNPQRTUVWXYZ"

def dash : UInt8 := 0x2D

/-- The 16 bytes of a secret, bit 0 being the high bit of the first one. -/
abbrev Raw := BitVec 128

def bit (raw : Raw) (n : Nat) : Bool := raw.getMsbD n

inductive Error
  | code

def fill (value : Nat) : Nat → Nat → Raw → Raw
  | 0, _, raw => raw
  | width + 1, bits, raw =>
    fill value width (bits + 1)
      (if value.testBit width then raw ||| BitVec.twoPow 128 (127 - bits) else raw)

def hashFrom (i bits : Nat) (raw : Raw) : Bytes → Except Error Raw
  | [] => .ok raw
  | char :: rest =>
    if i ∈ [5, 11, 16, 21, 26] then
      if char ≠ dash then .error .code else hashFrom (i + 1) bits raw rest
    else
      let width := if bits = 125 then 3 else 5
      match alphabet.idxOf? char with
      | none => .error .code
      | some value =>
        if value ≥ 1 <<< width then .error .code
        else hashFrom (i + 1) (bits + width) (fill value width bits raw) rest

/-- `Hash` up to the derivation of the hash from the secret. -/
def decode (code : Bytes) : Except Error Raw := do
  reject (code.length ≠ 31) .code
  hashFrom 0 0 0 code

def gather (raw : Raw) : Nat → Nat → Nat → Nat
  | 0, _, value => value
  | width + 1, bits, value => gather raw width (bits + 1) (value <<< 1 ||| (bit raw bits).toNat)

/-- `rounds` bounds the number of symbols. -/
def encodeFrom (raw : Raw) : Nat → Nat → Nat → Bytes
  | 0, _, _ => []
  | rounds + 1, bits, symbol =>
    if bits < 128 then
      let width := min 5 (128 - bits)
      (if symbol ∈ [5, 10, 14, 18, 22] then [dash] else []) ++
        alphabet.getD (gather raw width bits 0) 0 ::
          encodeFrom raw rounds (bits + width) (symbol + 1)
    else []

def encode (raw : Raw) : Bytes := encodeFrom raw 128 0 0

def encoded (raw : Raw) : Nat → List (Option Nat) → Bytes
  | _, [] => []
  | bits, none :: rest => dash :: encoded raw bits rest
  | bits, some width :: rest =>
    alphabet.getD (gather raw width bits 0) 0 :: encoded raw (bits + width) rest

def layout : Nat → Nat → Nat → List (Option Nat)
  | 0, _, _ => []
  | length + 1, i, bits =>
    if i ∈ [5, 11, 16, 21, 26] then none :: layout length (i + 1) bits
    else
      let width := if bits = 125 then 3 else 5
      some width :: layout length (i + 1) (bits + width)

def room (layout : List (Option Nat)) : Nat := (layout.map (·.getD 0)).sum

theorem encode_eq (raw : Raw) : encode raw = encoded raw 0 (layout 31 0 0) := rfl

variable {raw acc : Raw} {value width bits : Nat}

theorem testBit_gather (raw : Raw) (width bits value n : Nat) :
    (gather raw width bits value).testBit n =
      if n < width then bit raw (bits + (width - 1 - n)) else value.testBit (n - width) := by
  induction width generalizing bits value with
  | zero => simp [gather]
  | succ width ih =>
    rw [gather, ih]
    rcases Nat.lt_trichotomy n width with below | rfl | above
    · rw [if_pos below, if_pos (by omega)]
      congr 1
      omega
    · cases first : bit raw bits <;> simp [first]
    · obtain ⟨k, rfl⟩ : ∃ k, n = width + 1 + k := ⟨n - (width + 1), by omega⟩
      have shift : width + 1 + k - width = k + 1 := by omega
      have high : (bit raw bits).toNat.testBit (k + 1) = false := by
        cases bit raw bits <;> simp [Nat.testBit_succ]
      rw [if_neg (by omega), if_neg (by omega), shift]
      simp [high]

theorem gather_eq (small : value < 2 ^ width) : gather raw width bits 0 = value ↔
    ∀ k < width, bit raw (bits + k) = value.testBit (width - 1 - k) := by
  constructor
  · rintro rfl k below
    rw [testBit_gather, if_pos (by omega)]
    congr 1
    omega
  · intro same
    refine Nat.eq_of_testBit_eq fun n => ?_
    rw [testBit_gather]
    split
    · next below =>
      rw [same _ (by omega)]
      congr 1
      omega
    · next above =>
      have wide : 2 ^ width ≤ 2 ^ n := Nat.pow_le_pow_right (by decide) (by omega)
      rw [Nat.zero_testBit, Nat.testBit_lt_two_pow (by omega)]

theorem bit_fill (inside : bits + width ≤ 128) (j : Nat) : bit (fill value width bits acc) j =
    if bits ≤ j ∧ j < bits + width then bit acc j || value.testBit (bits + width - 1 - j)
    else bit acc j := by
  induction width generalizing bits acc with
  | zero => rw [fill, if_neg (by omega)]
  | succ width ih =>
    have here :
        bit (if value.testBit width then acc ||| BitVec.twoPow 128 (127 - bits) else acc) j =
          (bit acc j || (value.testBit width && decide (j = bits))) := by
      have last : 128 - (127 - bits) - 1 = bits := by omega
      have low : 127 - bits < 128 := by omega
      unfold bit
      split <;> simp [*]
    rw [fill, ih (by omega), here]
    grind

theorem fill_iff (inside : bits + width ≤ 128) (small : value < 2 ^ width)
    (clear : ∀ j ≥ bits, bit acc j = false) :
    (∀ j < bits + width, bit raw j = bit (fill value width bits acc) j) ↔
      gather raw width bits 0 = value ∧ ∀ j < bits, bit raw j = bit acc j := by
  rw [gather_eq small]
  constructor
  · refine fun same => ⟨fun k below => ?_, fun j below => ?_⟩
    · rw [same _ (by omega), bit_fill inside, if_pos (by omega), clear _ (by omega), Bool.false_or]
      congr 1
      omega
    · rw [same j (by omega), bit_fill inside, if_neg (by omega)]
  · rintro ⟨own, before⟩ j below
    rw [bit_fill inside]
    split
    · obtain ⟨k, rfl⟩ : ∃ k, j = bits + k := ⟨j - bits, by omega⟩
      rw [own k (by omega), clear _ (by omega), Bool.false_or]
      congr 1
      omega
    · exact before j (by omega)

theorem gather_lt (raw : Raw) (width bits : Nat) : gather raw width bits 0 < 2 ^ width := by
  refine Nat.lt_pow_two_of_testBit _ fun n beyond => ?_
  rw [testBit_gather, if_neg (by omega), Nat.zero_testBit]

theorem symbol_iff {char : UInt8} : alphabet.idxOf? char = some value ↔
    value < 32 ∧ char = alphabet.getD value 0 := by
  have listed : ∀ value < 32, alphabet.idxOf? (alphabet.getD value 0) = some value := by decide
  constructor
  · intro found
    obtain ⟨inside, same, -⟩ := List.idxOf?_eq_some_iff.1 found
    exact ⟨inside, by rw [List.getD_eq_getElem _ _ inside, same]⟩
  · rintro ⟨inside, rfl⟩
    exact listed value inside

theorem hashFrom_iff (code : Bytes) {i : Nat}
    (whole : bits + room (layout code.length i bits) = 128)
    (clear : ∀ j ≥ bits, bit acc j = false) :
    hashFrom i bits acc code = .ok raw ↔
      code = encoded raw bits (layout code.length i bits) ∧ ∀ j < bits, bit raw j = bit acc j := by
  induction code generalizing i bits acc with
  | nil =>
    obtain rfl : bits = 128 := by simpa [layout, room] using whole
    rw [hashFrom, List.length_nil, layout, encoded, Except.ok.injEq]
    exact ⟨fun same => same ▸ by simp, fun same => (BitVec.eq_of_getMsbD_eq same.2).symm⟩
  | cons char rest ih =>
    rw [List.length_cons, layout] at whole ⊢
    rw [hashFrom]
    split at whole
    · next separated =>
      rw [if_pos separated, if_pos separated, encoded, List.cons.injEq]
      by_cases dashed : char = dash
      · simp only [dashed, ne_eq, not_true_eq_false, if_false, true_and]
        exact ih (by simpa [room] using whole) clear
      · simp [dashed]
    · next symbol =>
      rw [if_neg symbol, if_neg symbol]
      have few : (if bits = 125 then 3 else 5) ≤ 5 := by split <;> decide
      generalize (if bits = 125 then 3 else 5) = width at whole few ⊢
      have rest_room : bits + width + room (layout rest.length (i + 1) (bits + width)) = 128 := by
        simpa [room, Nat.add_assoc] using whole
      have below := (gather_lt raw width bits).trans_le (Nat.pow_le_pow_right (by decide) few)
      have symbols : char = alphabet.getD (gather raw width bits 0) 0 ↔
          alphabet.idxOf? char = some (gather raw width bits 0) :=
        ⟨fun same => symbol_iff.2 ⟨below, same⟩, fun found => (symbol_iff.1 found).2⟩
      rw [encoded, List.cons.injEq, symbols]
      cases alphabet.idxOf? char with
      | none => simp
      | some value =>
        dsimp only
        rw [Nat.one_shiftLeft, Option.some.injEq]
        split
        · next large =>
          have apart : value ≠ gather raw width bits 0 := by
            have := gather_lt raw width bits
            omega
          simp [apart]
        · next small =>
          rw [ih rest_room, fill_iff (by omega) (by omega) clear]
          · tauto
          · intro j beyond
            rw [bit_fill (by omega), if_neg (by omega)]
            exact clear j (by omega)

theorem decode_iff {code : Bytes} : decode code = .ok raw ↔ code = encode raw := by
  have fixed : (encode raw).length = 31 := rfl
  simp only [decode, bind_ok, reject_ok, not_not, exists_const]
  by_cases long : code.length = 31
  · rw [hashFrom_iff code (by rw [long]; rfl) (by simp [bit]), long, ← encode_eq]
    simp
  · refine iff_of_false (fun done => long done.1) fun same => long (same ▸ fixed)

/-- The derivation by PBKDF2, as given. -/
def hash (hashBytes : Raw → String) (code : Bytes) : Except Error String :=
  hashBytes <$> decode code

def generate (hashBytes : Raw → String) (raw : Raw) : Bytes × String := (encode raw, hashBytes raw)

theorem bypass_bijection (hashBytes : Raw → String) :
    (∀ raw, decode (encode raw) = .ok raw ∧
      hash hashBytes (generate hashBytes raw).1 = .ok (generate hashBytes raw).2) ∧
    ∀ code, match hash hashBytes code with
      | .ok _ => ∃! raw, code = encode raw
      | .error _ => ∀ raw, code ≠ encode raw := by
  refine ⟨fun raw => ?_, fun code => ?_⟩
  · have done : decode (encode raw) = .ok raw := decode_iff.2 rfl
    exact ⟨done, by rw [hash, generate, done]; rfl⟩
  · unfold hash
    cases done : decode code with
    | ok raw =>
      refine ⟨raw, decode_iff.1 done, fun other same => ?_⟩
      exact (Except.ok.inj (done.symm.trans (decode_iff.2 same))).symm
    | error error =>
      intro raw same
      rw [decode_iff.2 same] at done
      cases done

end AppleDM.ActivationLock
