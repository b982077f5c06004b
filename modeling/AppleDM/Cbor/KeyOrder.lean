import Mathlib.Order.Compare
import AppleDM.Cbor.Restored

set_option autoImplicit false

namespace AppleDM.Cbor.Encoder

open Mdm Wire

abbrev bytewise (key : Bytes) : List Nat := key.map (·.toNat)

def compareKeys (a b : Bytes) : Ordering :=
  (cmp a.length b.length).then (cmp (bytewise a) (bytewise b))

theorem cmp_bytewise {a b : Bytes} :
    cmp (bytewise a) (bytewise b) = .lt ↔ bytewise a < bytewise b := by
  unfold cmp cmpUsing
  split_ifs with below
  · simp only [below]
  · simp only [below]
  · simp only [below]

theorem keyOrder_lt {p q : Pair} : keyOrder p < keyOrder q ↔ compareKeys p.key q.key = .lt := by
  rw [keyOrder, keyOrder, List.cons_lt_cons_iff, compareKeys, Ordering.then_eq_lt]
  rw [cmp_eq_lt_iff, cmp_eq_eq_iff, cmp_bytewise]

def info (arg : Nat) : Nat :=
  if arg < 24 then arg
  else if arg < 2 ^ 8 then 24
  else if arg < 2 ^ 16 then 25
  else if arg < 2 ^ 32 then 26
  else 27

theorem bytewise_head (arg : Nat) : bytewise (head .text arg) =
    (96 + info arg) :: bytewise (bigEndian (headSize arg - 1) arg) := by
  have tiny : ∀ arg < 24, (Major.text.code <<< 5 ||| UInt8.ofNat arg).toNat = 96 + arg := by decide
  unfold head info headSize
  split_ifs with below
  · simp [bigEndian, tiny arg below]
  all_goals simp [bigEndian]; decide

theorem info_lt {arg larger : Nat} (below : arg < larger) (small : larger < 2 ^ 64) :
    info arg < info larger ∨
      info arg = info larger ∧ headSize arg = headSize larger ∧
        larger < 256 ^ (headSize larger - 1) := by
  unfold info headSize
  split_ifs <;> simp <;> omega

variable {s t : Bytes}

theorem textKey_lt (shorter : s.length < t.length) (small : t.length < 2 ^ 63) :
    (textKey s).length < (textKey t).length ∧ bytewise (textKey s) < bytewise (textKey t) := by
  have room : t.length < 2 ^ 64 := by omega
  refine ⟨?_, ?_⟩
  · rw [length_textKey, length_textKey, textSize, textSize]
    have : headSize s.length ≤ headSize t.length := by
      unfold headSize
      split_ifs <;> omega
    omega
  · simp only [textKey, List.map_append, bytewise_head, List.cons_append, List.cons_lt_cons_iff]
    obtain lower | ⟨same, width, fits⟩ := info_lt shorter room
    · exact .inl (by omega)
    · rw [same, width]
      exact .inr ⟨rfl, append_lt _ _ (by simp) (bigEndian_lt shorter fits)⟩

theorem compareKeys_textKey (small : s.length < 2 ^ 63) (small' : t.length < 2 ^ 63) :
    compareKeys (textKey s) (textKey t) = cmp (bytewise (textKey s)) (bytewise (textKey t)) := by
  unfold compareKeys
  rcases lt_trichotomy s.length t.length with below | same | above
  · obtain ⟨shorter, first⟩ := textKey_lt below small'
    unfold cmp cmpUsing
    simp [shorter, first]
  · have alike : (textKey s).length = (textKey t).length := by simp [textKey, same]
    rw [(cmp_eq_eq_iff ..).2 alike, Ordering.then]
  · obtain ⟨shorter, first⟩ := textKey_lt above small
    unfold cmp cmpUsing
    simp [shorter.not_gt, shorter, first, first.not_gt]

theorem writePairs_bytewise :
    (∀ s t : Bytes, s.length < 2 ^ 63 → t.length < 2 ^ 63 →
      compareKeys (textKey s) (textKey t) = cmp (bytewise (textKey s)) (bytewise (textKey t))) ∧
    ∀ (pairs : List Pair) (names : List Bytes), pairs.map (·.key) = names.map textKey →
      (∀ name ∈ names, name.length < 2 ^ 63) →
      ∃ emitted : List Pair, emitted.Perm pairs ∧
        writePairs pairs = head .map pairs.length ++ emitted.flatMap (fun p => p.key ++ p.value) ∧
        (emitted.Pairwise fun p q => bytewise p.key ≤ bytewise q.key) ∧
        (names.Nodup → emitted.Pairwise fun p q => bytewise p.key < bytewise q.key) := by
  refine ⟨fun s t => compareKeys_textKey, fun pairs names keys short => ?_⟩
  have perm : (Rows.orderBy keyOrder pairs).Perm pairs := Rows.perm_orderBy pairs
  have order : ∀ p ∈ pairs, ∀ q ∈ pairs,
      (keyOrder p < keyOrder q ↔ bytewise p.key < bytewise q.key) := by
    have named : ∀ p ∈ pairs, ∃ name ∈ names, textKey name = p.key := by
      intro p member
      rw [← List.mem_map, ← keys]
      exact List.mem_map_of_mem member
    intro p first q second
    obtain ⟨s, hs, left⟩ := named p first
    obtain ⟨t, ht, right⟩ := named q second
    rw [keyOrder_lt, ← left, ← right, compareKeys_textKey (short s hs) (short t ht), cmp_bytewise]
  refine ⟨_, perm, rfl, ?_, fun distinct => ?_⟩
  · refine (List.pairwise_insertionSort _ pairs).imp_of_mem ?_
    intro p q first second below
    rw [← not_lt, ← order q (perm.mem_iff.1 second) p (perm.mem_iff.1 first)]
    exact not_lt.2 below
  · have apart : (pairs.map keyOrder).Nodup := by
      have keyed : (pairs.map (·.key)).Nodup := keys ▸ distinct.map Val.textKey_injective
      refine (List.nodup_map_iff_inj_on (.of_map _ keyed)).2 fun p first q second same => ?_
      have bytes := (List.cons.inj same).2
      refine List.inj_on_of_nodup_map keyed first second ?_
      exact List.map_injective_iff.2 (fun _ _ => UInt8.toNat_inj.1) bytes
    refine (Rows.increasing_orderBy apart).imp_of_mem ?_
    intro p q first second
    exact (order p (perm.mem_iff.1 first) q (perm.mem_iff.1 second)).1

end AppleDM.Cbor.Encoder
