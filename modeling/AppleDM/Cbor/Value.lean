import Mathlib.Data.List.Infix
import AppleDM.Mdm.Identity

set_option autoImplicit false

namespace AppleDM.Cbor

open Mdm

structure Field where
  name : Bytes
  exported : Bool
  tag : Bytes
deriving DecidableEq

/-- A Go value as `reflect` shows it, with its type; `T` names the types of elements. The bytes
are a slice whose elements are of kind `uint8`, and `other` is of a kind that has no encoding. A
map is given in one of the orders it can be iterated in. -/
inductive Val (T : Type) where
  | bool (b : Bool)
  | uint (bits : Nat) (n : UInt64)
  | int (bits : Nat) (n : Int64)
  | string (s : Bytes)
  | raw (data : Option Bytes)
  | bytes (data : Option Bytes)
  | pointer (elem : T) (p : Option (Val T))
  | interface (v : Option (Val T))
  | slice (elem : T) (items : Option (List (Val T)))
  | array (elem : T) (items : List (Val T))
  | map (stringKeys : Bool) (elem : T) (entries : Option (List (Bytes × Val T)))
  | struct (fields : List (Field × Val T))
  | other (zero : Bool)

inductive Ty (T : Type) where
  | bool
  | uint (bits : Nat)
  | int (bits : Nat)
  | string
  | raw
  | bytes
  | pointer (elem : T)
  | interface
  | slice (elem : T)
  | array (elem : T) (length : Nat)
  | map (stringKeys : Bool) (elem : T)
  | struct (fields : List (Field × Ty T))
  | other

namespace Field

def cut (tag : Bytes) : Bytes × Bytes :=
  (tag.takeWhile (· ≠ 44), (tag.dropWhile (· ≠ 44)).tail)

def encodedName (f : Field) : Option Bytes :=
  if f.exported = false then none
  else if (cut f.tag).1 = [45] then none
  else if (cut f.tag).1 = [] then some f.name
  else some (cut f.tag).1

def omitempty (f : Field) : Bool := "omitempty".toUTF8.toList <:+: (cut f.tag).2

end Field

namespace Val

variable {T : Type}

mutual

def isZero : Val T → Bool
  | .bool b => !b
  | .uint _ n => n = 0
  | .int _ n => n = 0
  | .string s => s = []
  | .raw data => data.isNone
  | .bytes data => data.isNone
  | .pointer _ p => p.isNone
  | .interface v => v.isNone
  | .slice _ items => items.isNone
  | .array _ items => itemsZero items
  | .map _ _ entries => entries.isNone
  | .struct fields => fieldsZero fields
  | .other zero => zero

def itemsZero : List (Val T) → Bool
  | [] => true
  | v :: rest => isZero v && itemsZero rest

def fieldsZero : List (Field × Val T) → Bool
  | [] => true
  | (_, v) :: rest => isZero v && fieldsZero rest

end

mutual

def typeOf : Val T → Ty T
  | .bool _ => .bool
  | .uint bits _ => .uint bits
  | .int bits _ => .int bits
  | .string _ => .string
  | .raw _ => .raw
  | .bytes _ => .bytes
  | .pointer elem _ => .pointer elem
  | .interface _ => .interface
  | .slice elem _ => .slice elem
  | .array elem items => .array elem items.length
  | .map stringKeys elem _ => .map stringKeys elem
  | .struct fields => .struct (fieldTypes fields)
  | .other _ => .other

def fieldTypes : List (Field × Val T) → List (Field × Ty T)
  | [] => []
  | (f, v) :: rest => (f, typeOf v) :: fieldTypes rest

end

mutual

def zeroed : Val T → Val T
  | .bool _ => .bool false
  | .uint bits _ => .uint bits 0
  | .int bits _ => .int bits 0
  | .string _ => .string []
  | .raw _ => .raw none
  | .bytes _ => .bytes none
  | .pointer elem _ => .pointer elem none
  | .interface _ => .interface none
  | .slice elem _ => .slice elem none
  | .array elem items => .array elem (itemsZeroed items)
  | .map stringKeys elem _ => .map stringKeys elem none
  | .struct fields => .struct (fieldsZeroed fields)
  | .other _ => .other true

def itemsZeroed : List (Val T) → List (Val T)
  | [] => []
  | v :: rest => zeroed v :: itemsZeroed rest

def fieldsZeroed : List (Field × Val T) → List (Field × Val T)
  | [] => []
  | (f, v) :: rest => (f, zeroed v) :: fieldsZeroed rest

end

theorem ind {P : Val T → Prop} (bool : ∀ b, P (.bool b)) (uint : ∀ bits n, P (.uint bits n))
    (int : ∀ bits n, P (.int bits n)) (string : ∀ s, P (.string s)) (raw : ∀ data, P (.raw data))
    (bytes : ∀ data, P (.bytes data))
    (pointer : ∀ elem p, (∀ v, p = some v → P v) → P (.pointer elem p))
    (interface : ∀ p, (∀ v, p = some v → P v) → P (.interface p))
    (slice : ∀ elem items, (∀ v ∈ items.getD [], P v) → P (.slice elem items))
    (array : ∀ elem items, (∀ v ∈ items, P v) → P (.array elem items))
    (map : ∀ stringKeys elem entries, (∀ e ∈ entries.getD [], P e.2) →
      P (.map stringKeys elem entries))
    (struct : ∀ fields, (∀ f ∈ fields, P f.2) → P (.struct fields))
    (other : ∀ zero, P (.other zero)) : ∀ v, P v := by
  intro v
  refine @Val.rec T P (fun p => ∀ v, p = some v → P v) (fun items => ∀ v ∈ items.getD [], P v)
    (fun items => ∀ v ∈ items, P v) (fun entries => ∀ e ∈ entries.getD [], P e.2)
    (fun fields => ∀ f ∈ fields, P f.2) (fun entries => ∀ e ∈ entries, P e.2)
    (fun f => P f.2) (fun e => P e.2)
    bool uint int string raw bytes pointer interface slice array map struct other
    ?_ ?_ ?_ ?_ ?_ ?_ ?_ ?_ ?_ ?_ ?_ ?_ ?_ ?_ v
  all_goals simp_all

end Val

end AppleDM.Cbor
