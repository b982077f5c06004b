import AppleDM.RateLimit.Limiter
import AppleDM.Shared.Gcra
import AppleDM.State.Held
import Mathlib.Data.Set.Card

set_option autoImplicit false

-- What a limiter is for: a ledger that keeps the time of every bucket and forgets none.
namespace AppleDM.RateLimit

open Checked Mdm State State.Memory Wire

abbrev Ledger := String → Int

def month : Int := 30 * 24 * hour

section Spec

def Ledger.wait (ledger : Ledger) (now : Int) (entry : Bucket × String) : Int :=
  Gcra.wait entry.1.interval entry.1.burst now (ledger entry.2)

def Ledger.judge (ledger : Ledger) (now : Int) (d : Decision) (entry : Bucket × String) :
    Decision :=
  if 0 < ledger.wait now entry then
    { allowed := false, retryAfter := max d.retryAfter (ledger.wait now entry) }
  else d

def Ledger.verdict (ledger : Ledger) (now : Int) (entries : List (Bucket × String)) : Decision :=
  entries.foldl (ledger.judge now) { allowed := true }

def Ledger.charge (ledger : Ledger) (now : Int) (entries : List (Bucket × String)) : Ledger :=
  fun key =>
    match entries.find? (fun entry => entry.2 = key) with
    | some entry => Gcra.charge entry.1.interval now (ledger key)
    | none => ledger key

noncomputable def Ledger.others (ledger : Ledger) (pre : String) (now : Int)
    (seen : List String) : Nat :=
  Set.ncard {key | Under pre key ∧ now < ledger key ∧ key ∉ seen}

variable (digest : Digest) (maxEntries : Int)

noncomputable def Ledger.check (ledger : Ledger) (l : Limiter) (time : Int) (cancelled : Bool)
    (buckets : List Bucket) : Except CheckError Decision × Ledger :=
  if buckets = [] ∨ 32 < buckets.length then (.error .invalid, ledger)
  else if l.limit < 1 ∨ 10000 < l.limit then (.error .invalid, ledger)
  else
    match l.entries digest buckets with
    | .error error => (.error error, ledger)
    | .ok entries =>
      let now := truncate time
      let d := ledger.verdict now entries
      if d.allowed = false then
        (if cancelled then .error (.unavailable .context) else .ok d, ledger)
      else if l.limit < ledger.others (l.pre digest) now (entries.map (·.2)) + entries.length then
        (.error (.unavailable .capacity), ledger)
      else if cancelled then (.error (.unavailable .context), ledger)
      else (.ok d, ledger.charge now entries)

noncomputable def Ledger.perform (ledger : Ledger) (event : Event) :
    Option (Except CheckError Decision) × Ledger :=
  match event.call with
  | .check space buckets cancelled =>
    let (result, after) := ledger.check digest { maxEntries, space } event.time cancelled buckets
    (some result, after)
  | .prune _ _ => (none, ledger)

end Spec

section Verdict

variable {ledger : Ledger} {now : Int}

theorem judge_fold (entries : List (Bucket × String)) (d : Decision) (waited : 0 ≤ d.retryAfter) :
    entries.foldl (ledger.judge now) d =
      { allowed := d.allowed && entries.all fun entry => ledger.wait now entry ≤ 0
        retryAfter := (entries.map (ledger.wait now)).foldl max d.retryAfter } := by
  induction entries generalizing d with
  | nil => simp
  | cons entry entries hypothesis =>
    rw [List.foldl_cons, Ledger.judge]
    split
    · next positive =>
      rw [hypothesis _ (le_trans waited (le_max_left _ _))]
      simp [not_le.mpr positive]
    · next none =>
      rw [hypothesis _ waited]
      have same : max d.retryAfter (ledger.wait now entry) = d.retryAfter := by omega
      simp [not_lt.mp none, same]

theorem foldl_max_le (waits : List Int) (start bound : Int) :
    waits.foldl max start ≤ bound ↔ start ≤ bound ∧ ∀ wait ∈ waits, wait ≤ bound := by
  induction waits generalizing start with
  | nil => simp
  | cons wait waits hypothesis =>
    rw [List.foldl_cons, hypothesis, max_le_iff]
    simp [and_assoc]

theorem verdict_allowed (entries : List (Bucket × String)) :
    (ledger.verdict now entries).allowed = true ↔
      ∀ entry ∈ entries, ledger.wait now entry ≤ 0 := by
  rw [Ledger.verdict, judge_fold _ _ le_rfl]
  simp

theorem verdict_retryAfter (entries : List (Bucket × String)) (bound : Int) :
    (ledger.verdict now entries).retryAfter ≤ bound ↔
      0 ≤ bound ∧ ∀ entry ∈ entries, ledger.wait now entry ≤ bound := by
  rw [Ledger.verdict, judge_fold _ _ le_rfl]
  rw [foldl_max_le, List.forall_mem_map]

theorem verdict_granted {entries : List (Bucket × String)}
    (allowed : (ledger.verdict now entries).allowed = true) :
    ledger.verdict now entries = { allowed := true } := by
  have none := (verdict_allowed entries).mp allowed
  have least : (ledger.verdict now entries).retryAfter ≤ 0 :=
    (verdict_retryAfter entries 0).mpr ⟨le_rfl, none⟩
  have most : 0 ≤ (ledger.verdict now entries).retryAfter := by
    by_contra negative
    have := (verdict_retryAfter entries _).mp (le_refl (ledger.verdict now entries).retryAfter)
    omega
  cases found : ledger.verdict now entries with
  | mk permitted delay =>
    rw [found] at allowed least most
    obtain rfl : delay = 0 := le_antisymm least most
    rw [show permitted = true from allowed]

theorem wait_later (now' : Int) (entry : Bucket × String) :
    ledger.wait now' entry = ledger.wait now entry - (now' - now) := by
  simp only [Ledger.wait, Gcra.wait]
  omega

end Verdict

structure Storable (time : Int) : Prop where
  whole : time % microsecond = 0
  since : unixEpoch ≤ time
  fits : time < unixEpoch + 2 ^ 63 * microsecond

theorem stamp_encode {time : Int} (storable : Storable time) : stamp (encode time) = .ok time := by
  obtain ⟨whole, since, fits⟩ := storable
  have micros : unixMicro time * microsecond = time - unixEpoch := by
    simp only [unixMicro, microsecond, unixEpoch] at *
    omega
  have positive : 0 ≤ unixMicro time := by
    simp only [unixMicro, microsecond, unixEpoch] at *
    omega
  have below : unixMicro time < 2 ^ 63 := by
    simp only [unixMicro, microsecond, unixEpoch] at *
    omega
  have same : number (encode time) = (unixMicro time).toNat := by
    rw [encode, Int.emod_eq_of_lt positive (by omega), number_bigEndian]
    omega
  have small : ¬ maxInt64 < number (encode time) := by
    rw [same, maxInt64]
    omega
  have eight : (encode time).length = 8 := length_bigEndian _ _
  have back : ofUnixMicro (number (encode time)) = time := by
    rw [same, ofUnixMicro, Int.toNat_of_nonneg positive, micros]
    omega
  simp only [stamp, reject, eight, small, ne_eq, not_true_eq_false, if_false, ok_bind, back]
  rfl

theorem truncate_spec (time : Int) :
    truncate time ≤ time ∧ time < truncate time + microsecond ∧ truncate time % microsecond = 0 := by
  simp only [truncate, microsecond]
  omega

theorem le_truncate {whole time : Int} (aligned : whole % microsecond = 0) :
    whole ≤ truncate time ↔ whole ≤ time := by
  simp only [truncate, microsecond] at *
  omega

theorem truncate_mono {time time' : Int} (later : time ≤ time') : truncate time ≤ truncate time' :=
  (le_truncate (truncate_spec time).2.2).mpr (le_trans (truncate_spec time).1 later)

end AppleDM.RateLimit
