import Mathlib.Data.List.Lex
import AppleDM.Shared.Rows
import AppleDM.Shared.Wire
import AppleDM.Cbor.Value

set_option autoImplicit false

namespace AppleDM.Cbor

open Mdm Checked Wire

def maxBytes : Nat := 2 ^ 20

def maxDepth : Nat := 16

inductive Error where
  | tooLarge (size : Nat)
  | target
  | trailing (left : Nat)
  | header (off : Nat)
  | indefinite (off : Nat)
  | reserved (ai : Nat)
  | tag (arg : Nat)
  | float
  | simple (arg : Nat)
  | argument (off : Nat)
  | length (n remaining off : Nat)
  | depth
  | negative
  | into (what : String)
  | overflows (n : Int)
  | mapKeys
  | duplicate (key : Bytes)
  | keyMajor (code : Nat)
  | unencodable
  | raw (cause : Error)
  | member (name : Bytes) (cause : Error)
  /-- no error of the code: a pointer type whose elements are pointers without end is never done -/
  | endless
deriving DecidableEq

inductive Major where
  | uint
  | negInt
  | bytes
  | text
  | array
  | map
  | tag
  | simple
deriving DecidableEq

def Major.code : Major → UInt8
  | .uint => 0
  | .negInt => 1
  | .bytes => 2
  | .text => 3
  | .array => 4
  | .map => 5
  | .tag => 6
  | .simple => 7

def Major.ofCode (code : UInt8) : Major :=
  if code = 0 then .uint
  else if code = 1 then .negInt
  else if code = 2 then .bytes
  else if code = 3 then .text
  else if code = 4 then .array
  else if code = 5 then .map
  else if code = 6 then .tag
  else .simple

def simpleFalse : Nat := 20

def simpleTrue : Nat := 21

def simpleNull : Nat := 22

def maxInt64 : Nat := 2 ^ 63 - 1

abbrev Decoder := Cursor UInt8

namespace Decoder

variable (d : Decoder)

def readArg (n : Nat) : Except Error (Nat × Decoder) :=
  if n > d.rest.length then .error (.argument d.off)
  else .ok (number (d.rest.take n), ⟨d.off + n, d.rest.drop n⟩)

def argument (ai : Nat) : Except Error (Nat × Decoder) :=
  if ai < 24 then .ok (ai, d)
  else if ai = 24 then d.readArg 1
  else if ai = 25 then d.readArg 2
  else if ai = 26 then d.readArg 4
  else if ai = 27 then d.readArg 8
  else if ai = 31 then .error (.indefinite (d.off - 1))
  else .error (.reserved ai)

def refused (major : Major) (ai arg : Nat) : Option Error :=
  if major = .tag then some (.tag arg)
  else if major = .simple ∧ ai ≥ 24 then some .float
  else if major = .simple ∧ arg ≠ simpleFalse ∧ arg ≠ simpleTrue ∧ arg ≠ simpleNull then
    some (.simple arg)
  else none

def head : Except Error (Major × Nat × Decoder) :=
  match d.rest with
  | [] => .error (.header d.off)
  | b :: rest => do
    let major := Major.ofCode (b >>> 5)
    let ai := (b &&& 0x1f).toNat
    let (arg, d) ← argument ⟨d.off + 1, rest⟩ ai
    match refused major ai arg with
    | some error => .error error
    | none => pure (major, arg, d)

def fits (n perItem : Nat) : Except Error Nat :=
  if n > d.rest.length / perItem then .error (.length n d.rest.length d.off) else .ok n

def bytes (n : Nat) : Except Error (Bytes × Decoder) := do
  let size ← d.fits n 1
  pure (d.rest.take size, ⟨d.off + size, d.rest.drop size⟩)

def key : Except Error (Bytes × Decoder) := do
  let (major, arg, d) ← d.head
  if major ≠ .text then .error (.keyMajor major.code.toNat) else d.bytes arg

def contents (skip : Decoder → Except Error Decoder) (major : Major) (arg : Nat) (d : Decoder) :
    Except Error Decoder :=
  match major with
  | .bytes | .text => Prod.snd <$> d.bytes arg
  | .array => do
    let n ← d.fits arg 1
    times n skip d
  | .map => do
    let n ← d.fits arg 2
    times n (fun d => d.key >>= fun (_, d) => skip d) d
  | _ => pure d

def skip : Nat → Decoder → Except Error Decoder
  | 0, _ => .error .depth
  | levels + 1, d => do
    let (major, arg, d) ← d.head
    contents (skip levels) major arg d

abbrev levelsAt (depth : Nat) : Nat := maxDepth + 1 - depth

end Decoder

def wellformed (data : Bytes) : Except Error Unit := do
  reject (data.length > maxBytes) (.tooLarge data.length)
  let d ← Decoder.skip (Decoder.levelsAt 0) ⟨0, data⟩
  reject (d.off ≠ data.length) (.trailing (data.length - d.off))

/-- The types a program names, given by their zero values: `reflect.New(t).Elem()`. -/
structure Types where
  Name : Type
  zero : Name → Val Name
  isZero_zero : ∀ name, (zero name).isZero = true

def copied (b : Bytes) : Option Bytes := if b = [] then none else some b

namespace Decoder

section Setting

variable {T : Type} (rv : Val T)

def setUint (n : Nat) : Except Error (Val T) :=
  match rv with
  | .uint bits _ => if n ≥ 2 ^ bits then .error (.overflows n) else .ok (.uint bits (UInt64.ofNat n))
  | .int bits _ =>
    if n > maxInt64 ∨ n ≥ 2 ^ (bits - 1) then .error (.overflows n)
    else .ok (.int bits (Int64.ofInt n))
  | _ => .error (.into "integer")

def setInt (n : Int) : Except Error (Val T) :=
  match rv with
  | .int bits _ =>
    if n < -2 ^ (bits - 1) ∨ n ≥ 2 ^ (bits - 1) then .error (.overflows n)
    else .ok (.int bits (Int64.ofInt n))
  | _ => .error (.into "negative integer")

def setBytes (b : Bytes) : Except Error (Val T) :=
  match rv with
  | .bytes _ => .ok (.bytes (copied b))
  | _ => .error (.into "byte string")

def setText (b : Bytes) : Except Error (Val T) :=
  match rv with
  | .string _ => .ok (.string b)
  | _ => .error (.into "text string")

def setBool (b : Bool) : Except Error (Val T) :=
  match rv with
  | .bool _ => .ok (.bool b)
  | _ => .error (.into "boolean")

def fieldsOf (fields : List (Field × Val T)) (key : Bytes) : Option ((Field × Val T) × Nat) :=
  fields.zipIdx.foldl
    (fun found field => if field.1.1.encodedName = some key then some field else found) none

end Setting

abbrev Reading (t : Types) := Val t.Name → Nat → Decoder → Except Error (Val t.Name × Decoder)

section Containers

variable {t : Types} (value : Reading t)

def element (zero : Val t.Name) (depth : Nat) (items : List (Val t.Name) × Decoder) :
    Except Error (List (Val t.Name) × Decoder) := do
  let (v, d) ← value zero (depth + 1) items.2
  pure (items.1 ++ [v], d)

def byteOf : Val t.Name → UInt8
  | .uint _ n => n.toUInt8
  | _ => 0

def array (rv : Val t.Name) (arg depth : Nat) (d : Decoder) :
    Except Error (Val t.Name × Decoder) :=
  match rv with
  | .slice elem _ => do
    let n ← d.fits arg 1
    let (items, d) ← times n (element value (t.zero elem) depth) ([], d)
    pure (.slice elem (some items), d)
  | .bytes _ => do
    let n ← d.fits arg 1
    let (items, d) ← times n (element value (.uint 8 0) depth) ([], d)
    pure (.bytes (some (items.map byteOf)), d)
  | _ => .error (.into "array")

def entry (zero : Val t.Name) (depth : Nat) (entries : List (Bytes × Val t.Name) × Decoder) :
    Except Error (List (Bytes × Val t.Name) × Decoder) := do
  let (key, d) ← entries.2.key
  reject (key ∈ entries.1.map (·.1)) (.duplicate key)
  let (v, d) ← value zero (depth + 1) d
  pure (entries.1 ++ [(key, v)], d)

structure Progress (T : Type) where
  seen : List Bytes
  fields : List (Field × Val T)
  d : Decoder

def member (depth : Nat) (p : Progress t.Name) : Except Error (Progress t.Name) := do
  let (key, d) ← p.d.key
  reject (key ∈ p.seen) (.duplicate key)
  let seen := key :: p.seen
  match fieldsOf p.fields key with
  | none => do
    let d ← skip (levelsAt (depth + 1)) d
    pure { p with seen, d }
  | some ((f, rv), index) => do
    let (v, d) ← (value rv (depth + 1) d).mapError (.member key)
    pure { seen, fields := p.fields.set index (f, v), d }

def structured (fields : List (Field × Val t.Name)) (n depth : Nat) (d : Decoder) :
    Except Error (Val t.Name × Decoder) := do
  let p ← times n (member value depth) ⟨[], fields, d⟩
  pure (.struct p.fields, p.d)

def mapping (rv : Val t.Name) (arg depth : Nat) (d : Decoder) :
    Except Error (Val t.Name × Decoder) := do
  let n ← d.fits arg 2
  match rv with
  | .struct fields => structured value fields n depth d
  | .map stringKeys elem _ => do
    reject (stringKeys = false) .mapKeys
    let (entries, d) ← times n (entry value (t.zero elem) depth) ([], d)
    pure (.map true elem (some entries), d)
  | _ => .error (.into "map")

def assign (rv : Val t.Name) (major : Major) (arg depth : Nat) (d : Decoder) :
    Except Error (Val t.Name × Decoder) :=
  match major with
  | .uint => (·, d) <$> setUint rv arg
  | .negInt => do
    reject (arg > maxInt64) .negative
    (·, d) <$> setInt rv (-1 - arg)
  | .bytes => do
    let (b, d) ← d.bytes arg
    (·, d) <$> setBytes rv b
  | .text => do
    let (b, d) ← d.bytes arg
    (·, d) <$> setText rv b
  | .array => array value rv arg depth d
  | .map => mapping value rv arg depth d
  | _ => (·, d) <$> setBool rv (arg = simpleTrue)

end Containers

def value (t : Types) : Nat → Reading t
  | 0, _, _, _ => .error .endless
  | fuel + 1, rv, depth, d => do
    reject (depth > maxDepth) .depth
    match rv with
    | .raw _ => do
      let after ← skip (levelsAt depth) d
      pure (.raw (copied (d.rest.take (after.off - d.off))), after)
    | .pointer elem p => do
      let (major, arg, after) ← d.head
      if major = .simple ∧ arg = simpleNull then pure (.pointer elem none, after)
      else do
        let (v, after) ← value t fuel (p.getD (t.zero elem)) depth d
        pure (.pointer elem (some v), after)
    | rv => do
      let (major, arg, after) ← d.head
      if major = .simple ∧ arg = simpleNull then pure (rv.zeroed, after)
      else assign (value t fuel) rv major arg depth after

end Decoder

def unmarshal (t : Types) (fuel : Nat) (data : Bytes) (v : Option (Val t.Name)) :
    Except Error (Val t.Name) := do
  reject (data.length > maxBytes) (.tooLarge data.length)
  match v with
  | some (.pointer _ (some rv)) => do
    let (rv, d) ← Decoder.value t fuel rv 0 ⟨0, data⟩
    reject (d.off ≠ data.length) (.trailing (data.length - d.off))
    pure rv
  | _ => .error .target

namespace Encoder

def head (major : Major) (arg : Nat) : Bytes :=
  if arg < 24 then [major.code <<< 5 ||| UInt8.ofNat arg]
  else if arg < 2 ^ 8 then [major.code <<< 5 ||| 24, UInt8.ofNat arg]
  else if arg < 2 ^ 16 then (major.code <<< 5 ||| 25) :: bigEndian 2 arg
  else if arg < 2 ^ 32 then (major.code <<< 5 ||| 26) :: bigEndian 4 arg
  else (major.code <<< 5 ||| 27) :: bigEndian 8 arg

structure Pair where
  key : Bytes
  value : Bytes

abbrev keyOrder (p : Pair) : List Nat := p.key.length :: p.key.map (·.toNat)

def writePairs (pairs : List Pair) : Bytes :=
  head .map pairs.length ++ (Rows.orderBy keyOrder pairs).flatMap fun p => p.key ++ p.value

def textKey (name : Bytes) : Bytes := head .text name.length ++ name

variable {T : Type}

mutual

def value (v : Val T) (depth : Nat) : Except Error Bytes :=
  if depth > maxDepth then .error .depth
  else
    match v with
    | .raw data =>
      match wellformed (data.getD []) with
      | .error cause => .error (.raw cause)
      | .ok _ => .ok (data.getD [])
    | .pointer _ none => .ok (head .simple simpleNull)
    | .pointer _ (some v) => value v depth
    | .interface none => .ok (head .simple simpleNull)
    | .interface (some v) => value v depth
    | .bool b => .ok (head .simple (if b then simpleTrue else simpleFalse))
    | .uint _ n => .ok (head .uint n.toNat)
    | .int _ n =>
      .ok (if n.toInt < 0 then head .negInt (-1 - n.toInt).toNat else head .uint n.toInt.toNat)
    | .string s => .ok (textKey s)
    | .bytes data => .ok (head .bytes (data.getD []).length ++ data.getD [])
    | .slice _ none => .ok (head .array 0)
    | .slice _ (some items) => (head .array items.length ++ ·) <$> sequence items depth
    | .array _ items => (head .array items.length ++ ·) <$> sequence items depth
    | .map false _ _ => .error .mapKeys
    | .map true _ none => .ok (writePairs [])
    | .map true _ (some entries) => writePairs <$> mapping entries depth
    | .struct fields => writePairs <$> structured fields depth
    | .other _ => .error .unencodable

def sequence : List (Val T) → Nat → Except Error Bytes
  | [], _ => .ok []
  | v :: rest, depth => do
    let first ← value v (depth + 1)
    let later ← sequence rest depth
    pure (first ++ later)

def mapping : List (Bytes × Val T) → Nat → Except Error (List Pair)
  | [], _ => .ok []
  | (name, v) :: rest, depth => do
    let written ← value v (depth + 1)
    let later ← mapping rest depth
    pure (⟨textKey name, written⟩ :: later)

def structured : List (Field × Val T) → Nat → Except Error (List Pair)
  | [], _ => .ok []
  | (f, v) :: rest, depth =>
    match f.encodedName with
    | none => structured rest depth
    | some name =>
      if f.omitempty ∧ v.isZero then structured rest depth
      else do
        let written ← (value v (depth + 1)).mapError (.member name)
        let later ← structured rest depth
        pure (⟨textKey name, written⟩ :: later)

end

end Encoder

def marshal {T : Type} (v : Option (Val T)) : Except Error Bytes :=
  match v with
  | none => .ok (Encoder.head .simple simpleNull)
  | some v => Encoder.value v 0

end AppleDM.Cbor
