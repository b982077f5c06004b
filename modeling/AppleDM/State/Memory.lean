import AppleDM.Shared.Checked
import AppleDM.Shared.Table
import AppleDM.Mdm.Identity
import Mathlib.Data.List.Dedup

set_option autoImplicit false

namespace AppleDM.State

open Mdm Checked

inductive StateError where
  | notFound
  | invalid
  deriving DecidableEq

/-- A record with its decoded value. A zero expiry means that it is kept. -/
structure Record (Value : Type) where
  value : Value
  expiresAt : Time := 0
  deriving DecidableEq

abbrev Memory (Value : Type) := Table String (Record Value)

def validKey (key : String) : Bool :=
  0 < key.length && key.length ≤ 255 && key.toList.all fun c => 33 ≤ c.toNat && c.toNat ≤ 126

namespace Memory

variable {Value : Type} (m : Memory Value)

def get (key : String) : Except StateError (Record Value) := do
  reject (¬ validKey key) .invalid
  match m[key]? with
  | some record => .ok record
  | none => .error .notFound

def put (key : String) (record : Record Value) : Except StateError (Memory Value) := do
  reject (¬ validKey key) .invalid
  pure (m.insert key record)

def delete (key : String) : Except StateError (Memory Value) := do
  reject (¬ validKey key) .invalid
  pure (m.erase key)

def list (pre after : String) (limit : Int) : Except StateError (List (String × Record Value)) := do
  reject (limit ≤ 0 ∨ 10000 < limit) .invalid
  let live := m.toList.filter fun entry => pre.toList.isPrefixOf entry.1.toList && after < entry.1
  pure (live.take limit.toNat)

def update {Error A : Type} (invalid : Error) (keys : List String)
    (fn : Memory Value → Except Error (A × Memory Value)) : Except Error A × Memory Value :=
  if keys = [] ∨ ¬ keys.all validKey then (.error invalid, m)
  else
    match fn m with
    | .ok (value, after) => (.ok value, after)
    | .error error => (.error error, m)

def expired (now : Time) (record : Record Value) : Bool :=
  record.expiresAt ≠ 0 && record.expiresAt ≤ now

/-- Deletes up to `limit` expired records; `order` is the order in which the records are met. -/
def prune (now : Time) (limit : Int) (order : List String) : Except StateError Nat × Memory Value :=
  if limit ≤ 0 ∨ 10000 < limit then (.error .invalid, m)
  else
    let victims := (order.dedup.filter fun key => m[key]?.any (expired now)).take limit.toNat
    (.ok victims.length, victims.foldl (fun m key => m.erase key) m)

variable {m} {key : String}

theorem get_ok {record : Record Value} :
    m.get key = .ok record ↔ validKey key = true ∧ m[key]? = some record := by
  unfold get
  simp only [bind_ok, reject_ok, not_not, exists_const]
  refine and_congr_right fun _ => ?_
  cases m[key]? <;> simp

theorem put_ok {record : Record Value} {after : Memory Value} :
    m.put key record = .ok after ↔ validKey key = true ∧ m.insert key record = after := by
  simp [put]

theorem delete_ok {after : Memory Value} :
    m.delete key = .ok after ↔ validKey key = true ∧ m.erase key = after := by
  simp [delete]

theorem update_cases {Error A : Type} (m : Memory Value) (invalid : Error) (keys : List String)
    (fn : Memory Value → Except Error (A × Memory Value)) :
    (∃ value after, fn m = .ok (value, after) ∧ m.update invalid keys fn = (.ok value, after)) ∨
      ∃ error, m.update invalid keys fn = (.error error, m) := by
  unfold update
  split
  · exact .inr ⟨invalid, rfl⟩
  · cases result : fn m with
    | ok pair => exact .inl ⟨pair.1, pair.2, rfl, rfl⟩
    | error error => exact .inr ⟨error, rfl⟩

theorem getElem?_foldl_erase (keys : List String) (m : Memory Value) (key : String) :
    (keys.foldl (fun m key => m.erase key) m)[key]? = if key ∈ keys then none else m[key]? := by
  induction keys generalizing m with
  | nil => simp
  | cons head rest ih =>
    rw [List.foldl_cons, ih, Std.ExtTreeMap.getElem?_erase]
    by_cases same : head = key
    · simp [same]
    · have apart : compare head key ≠ .eq := fun equal => same (Std.compare_eq_iff_eq.1 equal)
      simp [apart, Ne.symm same]

theorem prune_cases (m : Memory Value) (now : Time) (limit : Int) (order : List String)
    (key : String) :
    (m.prune now limit order).2[key]? = m[key]? ∨
      (m.prune now limit order).2[key]? = none ∧
        ∃ record, m[key]? = some record ∧ record.expiresAt ≠ 0 ∧ record.expiresAt ≤ now := by
  unfold prune
  split
  · exact .inl rfl
  · dsimp only
    rw [getElem?_foldl_erase]
    split
    · next member =>
      right
      have chosen := (List.mem_filter.1 (List.mem_of_mem_take member)).2
      cases there : m[key]? with
      | none => simp [there] at chosen
      | some record =>
        simp only [there, Option.any_some, expired, Bool.and_eq_true, decide_eq_true_eq] at chosen
        exact ⟨rfl, record, rfl, chosen⟩
    · exact .inl rfl

end Memory

end AppleDM.State
