import Mathlib.Data.List.Basic
import Mathlib.Tactic.Common

set_option autoImplicit false

namespace AppleDM.Shared

/-- An authenticated cipher as ideal as its users take it to be: it opens exactly what was sealed,
and only under the key and the associated data it was sealed with. A tag makes what is sealed
longer. -/
structure Aead (Key : Type) where
  tagLen : Nat
  enclose : Key → List UInt8 → List UInt8 → List UInt8 → List UInt8
  disclose : Key → List UInt8 → List UInt8 → List UInt8 → Option (List UInt8)
  opens : ∀ key nonce sealed aad plain,
    disclose key nonce sealed aad = some plain ↔ enclose key nonce plain aad = sealed
  binds : ∀ key nonce plain aad key' plain' aad',
    enclose key nonce plain aad = enclose key' nonce plain' aad' → key = key' ∧ aad = aad'
  tagged : ∀ key nonce plain aad, plain.length + tagLen ≤ (enclose key nonce plain aad).length

namespace Aead

variable {Key : Type} (aead : Aead Key)

theorem disclose_enclose (key : Key) (nonce plain aad : List UInt8) :
    aead.disclose key nonce (aead.enclose key nonce plain aad) aad = some plain :=
  (aead.opens ..).mpr rfl

theorem disclose_elsewhere {key key' : Key} {nonce plain aad aad' plain' : List UInt8}
    (opened : aead.disclose key' nonce (aead.enclose key nonce plain aad) aad' = some plain') :
    key = key' ∧ aad = aad' := by
  obtain ⟨sameKey, sameAad⟩ := aead.binds _ _ _ _ _ _ _ ((aead.opens ..).mp opened)
  exact ⟨sameKey.symm, sameAad.symm⟩

end Aead

def frame (text rest : List UInt8) : List UInt8 :=
  match text with
  | [] => 0 :: rest
  | a :: text => 1 :: a :: frame text rest

def unframe : List UInt8 → Option (List UInt8 × List UInt8)
  | 0 :: rest => some ([], rest)
  | 1 :: a :: rest => (unframe rest).map fun found => (a :: found.1, found.2)
  | _ => none

theorem unframe_frame (text rest : List UInt8) : unframe (frame text rest) = some (text, rest) := by
  induction text with
  | nil => rfl
  | cons a text hypothesis => simp [frame, unframe, hypothesis]

theorem frame_length (text rest : List UInt8) : text.length ≤ (frame text rest).length := by
  induction text with
  | nil => simp
  | cons a text hypothesis => simpa [frame] using Nat.le_succ_of_le hypothesis

def plainAead (tagLen : Nat) : Aead UInt8 where
  tagLen := tagLen
  enclose key _ plain aad := List.replicate tagLen 0 ++ key :: frame plain aad
  disclose key _ sealed aad :=
    ((unframe (sealed.drop (tagLen + 1))).map (·.1)).filter fun plain =>
      List.replicate tagLen 0 ++ key :: frame plain aad = sealed
  opens := by
    intro key nonce sealed aad plain
    rw [Option.filter_eq_some_iff, Option.map_eq_some_iff]
    constructor
    · rintro ⟨-, same⟩
      simpa using same
    · rintro rfl
      simp [List.drop_append, unframe_frame]
  binds := by
    intro key nonce plain aad key' plain' aad' same
    obtain ⟨sameKey, framed⟩ := List.cons.inj (List.append_cancel_left same)
    have read := congrArg unframe framed
    rw [unframe_frame, unframe_frame] at read
    exact ⟨sameKey, (Prod.mk.inj (Option.some.inj read)).2⟩
  tagged := by
    intro key nonce plain aad
    have long := frame_length plain aad
    simp only [List.length_append, List.length_replicate, List.length_cons]
    omega

end AppleDM.Shared
