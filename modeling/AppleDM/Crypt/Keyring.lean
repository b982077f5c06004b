import AppleDM.Mdm.Identity
import AppleDM.Shared.Aead
import AppleDM.Shared.Checked

set_option autoImplicit false

-- The format of sealed values, and the ring of keys that seals and opens them. A key name is a
-- Go string: any bytes.
namespace AppleDM.Crypt

open Checked Mdm Shared

def nonceLen : Nat := 12
def tagLen : Nat := 16
def maxNameLen : Nat := 255

def formatVersion : UInt8 := 0x01

def magic : Bytes := [0x00, 0x67, 0x61, 0x6D, 0x63, formatVersion]

def magicLen : Nat := 6
def headerLen : Nat := magicLen + 1

inductive Failure where
  | noKeyring
  | unknownKey (name : Bytes)
  | tampered (name : Bytes)
  | unsealed
  | badHeader
  | badLength (found needed : Nat)
  | nonce
  deriving DecidableEq

variable {name : Bytes}

section Keyring

variable {Key : Type}

def Named (name : Bytes) : Prop := 0 < name.length ∧ name.length ≤ maxNameLen ∧ 0 ∉ name

structure Keyring (Key : Type) where
  active : Bytes
  strict : Bool
  keys : List (Bytes × Key)
  named : ∀ entry ∈ keys, Named entry.1
  held : ∃ key, keys.lookup active = some key

def Keyring.activeKey (k : Keyring Key) : Key :=
  (k.keys.lookup k.active).get (Option.isSome_iff_exists.mpr k.held)

theorem Keyring.lookup_active (k : Keyring Key) :
    k.keys.lookup k.active = some k.activeKey :=
  (Option.some_get _).symm

theorem Keyring.active_named (k : Keyring Key) : Named k.active := by
  obtain ⟨before, after, same, -⟩ := List.lookup_eq_some_iff.mp k.lookup_active
  exact k.named (k.active, k.activeKey) (by simp [same])

end Keyring

section Values

def isSealed (b : Bytes) : Bool := b.take magicLen == magic

def keyName (b : Bytes) : Option Bytes :=
  if isSealed b = false ∨ b.length < headerLen then none
  else
    let n := (b.getD magicLen 0).toNat
    if n = 0 ∨ b.length < headerLen + n then none else some ((b.drop headerLen).take n)

def split (b : Bytes) : Except Failure (Bytes × Bytes) :=
  match keyName b with
  | none => .error .badHeader
  | some name =>
    let rest := b.drop (headerLen + name.length)
    if rest.length < nonceLen + tagLen then .error (.badLength rest.length (nonceLen + tagLen))
    else .ok (name, rest)

variable {Key : Type} (aead : Aead Key)

def header (name : Bytes) : Bytes := magic ++ (UInt8.ofNat name.length :: name)

def Keyring.enclose (k : Option (Keyring Key)) (entropy : Option (Fin nonceLen → UInt8))
    (plain aad : Bytes) : Except Failure Bytes :=
  match k with
  | none => .error .noKeyring
  | some k =>
    match entropy with
    | none => .error .nonce
    | some bytes =>
      let nonce := List.ofFn bytes
      .ok (header k.active ++ (nonce ++ aead.enclose k.activeKey nonce plain aad))

def Keyring.disclose (k : Option (Keyring Key)) (sealed aad : Bytes) :
    Except Failure (Bytes × Bytes) :=
  match k with
  | none => .error .noKeyring
  | some k => do
    let (name, body) ← split sealed
    match k.keys.lookup name with
    | none => .error (.unknownKey name)
    | some key =>
      match aead.disclose key (body.take nonceLen) (body.drop nonceLen) aad with
      | none => .error (.tampered name)
      | some plain => .ok (plain, name)

def aad (purpose rowID : Bytes) : Bytes := purpose ++ 0 :: rowID

theorem isSealed_header (name rest : Bytes) : isSealed (header name ++ rest) = true := by
  simp [isSealed, header, magic, magicLen]

theorem keyName_header (valid : Named name) (rest : Bytes) :
    keyName (header name ++ rest) = some name := by
  have small : (UInt8.ofNat name.length).toNat = name.length := by
    rw [UInt8.toNat_ofNat']
    exact Nat.mod_eq_of_lt (Nat.lt_succ_of_le valid.2.1)
  have known : (header name ++ rest).getD magicLen 0 = UInt8.ofNat name.length := by
    simp [header, magic, magicLen]
  have long : (header name ++ rest).length = headerLen + name.length + rest.length := by
    simp [header, magic, headerLen, magicLen]
    omega
  have tail : (header name ++ rest).drop headerLen = name ++ rest := by
    simp [header, magic, headerLen, magicLen]
  have some := valid.1
  unfold keyName
  rw [if_neg (by rw [isSealed_header, long]; simp; omega)]
  dsimp only
  rw [known, small, if_neg (by rw [long]; omega), tail, List.take_left]

theorem split_header (valid : Named name) (rest : Bytes)
    (long : nonceLen + tagLen ≤ rest.length) : split (header name ++ rest) = .ok (name, rest) := by
  have tail : (header name ++ rest).drop (headerLen + name.length) = rest := by
    have size : headerLen + name.length = (header name).length := by
      simp [header, magic, headerLen, magicLen]
      omega
    rw [size, List.drop_left]
  unfold split
  rw [keyName_header valid]
  dsimp only
  rw [tail, if_neg (Nat.not_lt.mpr long)]

theorem split_length {b body : Bytes} (ran : split b = .ok (name, body)) :
    body.length < b.length := by
  unfold split at ran
  split at ran
  · cases ran
  · dsimp only at ran
    split at ran
    · cases ran
    · next long =>
      obtain ⟨-, rfl⟩ := Prod.mk.inj (Except.ok.inj ran)
      simp only [List.length_drop, headerLen, magicLen, nonceLen] at long ⊢
      omega

end Values

end AppleDM.Crypt
