import AppleDM.Shared.Related
import AppleDM.Cbor.Wellformed

set_option autoImplicit false

namespace AppleDM.Cbor

open Mdm Checked Wire Related Decoder

variable {levels : Nat}

namespace Decoder

variable {arg : Nat}

theorem header_unique {hd hd' x y : Bytes} {major major' : Major} {arg' : Nat}
    (first : Header hd major arg) (second : Header hd' major' arg') (same : hd ++ x = hd' ++ y) :
    hd = hd' ∧ major = major' ∧ arg = arg' ∧ x = y := by
  have one := first 0 x
  rw [same, second 0 y] at one
  simp only [Except.ok.injEq, Prod.mk.injEq, Cursor.mk.injEq] at one
  obtain ⟨rfl, rfl, -, rfl⟩ := one
  exact ⟨List.append_cancel_right same, rfl, rfl, rfl⟩

variable {major : Major}

theorem item_iff {hd body : Bytes} (header : Header hd major arg) :
    Item (levels + 1) (hd ++ body) ↔ Contents (Item levels) major arg body := by
  constructor
  · rintro ⟨hd', major', arg', body', header', same, formed⟩
    obtain ⟨rfl, rfl, rfl, rfl⟩ := header_unique header header' same
    exact formed
  · exact fun formed => ⟨hd, major, arg, body, header, rfl, formed⟩

theorem allowed_length {n : Nat} (small : n < 2 ^ 64) (untagged : major ≠ .tag)
    (compound : major ≠ .simple) : Allowed major n :=
  ⟨small, untagged, fun simple => absurd simple compound⟩

theorem stringy_item {payload : Bytes}
    (small : payload.length < 2 ^ 64) (string : major = .bytes ∨ major = .text) :
    Item (levels + 1) (Encoder.head major payload.length ++ payload) := by
  have allowed : Allowed major payload.length := by
    rcases string with rfl | rfl <;> exact allowed_length small (by decide) (by decide)
  rw [item_iff (header_head allowed)]
  rcases string with rfl | rfl <;> rfl

theorem array_item {known : Nat} {pieces : List Bytes} (few : pieces.length < 2 ^ 64)
    (each : ∀ piece ∈ pieces, Item known piece) :
    Item (levels + 1) (Encoder.head .array pieces.length ++ pieces.flatten) ↔
      ∀ piece ∈ pieces, Item levels piece := by
  rw [item_iff (header_head (allowed_length few (by decide) (by decide)))]
  constructor
  · rintro ⟨items, count, all, same⟩
    have alike : pieces = items :=
      (skip_reads (max known levels)).flatten_unique
        (fun piece member => (each piece member).mono (le_max_left _ _))
        (fun piece member => (all piece member).mono (le_max_right _ _)) count.symm same
    exact alike ▸ all
  · exact fun all => ⟨pieces, rfl, all, rfl⟩

end Decoder

namespace Encoder

variable {T : Type}

theorem textKey_stringy {name : Bytes} (small : name.length < 2 ^ 64) :
    Stringy .text (textKey name) :=
  ⟨_, name, header_head (allowed_length small (by decide) (by decide)), rfl⟩

variable {pairs : List Pair} {depth : Nat} {items : List (Val T)} {out : Bytes}
  {entries : List (Bytes × Val T)} {fields : List (Field × Val T)}

theorem pairs_item {known : Nat} (few : pairs.length < 2 ^ 64)
    (keys : ∀ p ∈ pairs, Stringy .text p.key) (each : ∀ p ∈ pairs, Item known p.value) :
    Item (levels + 1) (writePairs pairs) ↔ ∀ p ∈ pairs, Item levels p.value := by
  have perm : (Rows.orderBy keyOrder pairs).Perm pairs := Rows.perm_orderBy pairs
  unfold writePairs
  rw [item_iff (header_head (allowed_length few (by decide) (by decide))), List.flatMap]
  constructor
  · rintro ⟨entries, count, all, same⟩ p member
    have alike : (Rows.orderBy keyOrder pairs).map (fun p => p.key ++ p.value) = entries := by
      refine (entry_reads (skip_reads (max known levels))).flatten_unique ?_ ?_
        (by rw [List.length_map, perm.length_eq, count]) same
      · intro _ found
        obtain ⟨p, member, rfl⟩ := List.mem_map.1 found
        have member := perm.mem_iff.1 member
        exact ⟨p.key, p.value, keys p member, (each p member).mono (le_max_left _ _), rfl⟩
      · intro piece found
        obtain ⟨key, value, text, formed, rfl⟩ := all piece found
        exact ⟨key, value, text, formed.mono (le_max_right _ _), rfl⟩
    obtain ⟨key, value, ⟨hd, name, header, rfl⟩, formed, same⟩ := all (p.key ++ p.value) (by
      rw [← alike]
      exact List.mem_map.2 ⟨p, perm.mem_iff.2 member, rfl⟩)
    obtain ⟨hd', name', header', text⟩ := keys p member
    -- the key ends where its header says, so the rest of the piece is the value
    rw [text, List.append_assoc, List.append_assoc] at same
    obtain ⟨rfl, -, long, same⟩ := header_unique header' header same
    rw [(List.append_inj same long).2]
    exact formed
  · intro all
    refine ⟨_, by rw [List.length_map, perm.length_eq], fun piece found => ?_, rfl⟩
    obtain ⟨p, member, rfl⟩ := List.mem_map.1 found
    have member := perm.mem_iff.1 member
    exact ⟨p.key, p.value, keys p member, all p member, rfl⟩

theorem sequence_ok : sequence items depth = .ok out ↔ ∃ pieces,
      List.Forall₂ (fun v piece => value v (depth + 1) = .ok piece) items pieces ∧
        out = pieces.flatten := by
  induction items generalizing out with
  | nil => simp [sequence, eq_comm]
  | cons v rest ih =>
    simp only [sequence, bind_ok, pure_ok, ih, List.forall₂_cons_left_iff]
    constructor
    · rintro ⟨first, written, _, ⟨pieces, each, rfl⟩, rfl⟩
      exact ⟨first :: pieces, ⟨first, pieces, written, each, rfl⟩, rfl⟩
    · rintro ⟨_, ⟨first, pieces, written, each, rfl⟩, rfl⟩
      exact ⟨first, written, _, ⟨pieces, each, rfl⟩, rfl⟩

def Paired (depth : Nat) (e : Bytes × Val T) (p : Pair) : Prop :=
  p.key = textKey e.1 ∧ value e.2 (depth + 1) = .ok p.value

theorem mapping_ok :
    mapping entries depth = .ok pairs ↔ List.Forall₂ (Paired depth) entries pairs := by
  induction entries generalizing pairs with
  | nil => simp [mapping, eq_comm]
  | cons e rest ih =>
    simp only [mapping, bind_ok, pure_ok, ih, List.forall₂_cons_left_iff, Paired]
    constructor
    · rintro ⟨written, found, later, each, rfl⟩
      exact ⟨⟨textKey e.1, written⟩, later, ⟨rfl, found⟩, each, rfl⟩
    · rintro ⟨⟨_, written⟩, later, ⟨rfl, found⟩, each, rfl⟩
      exact ⟨written, found, later, each, rfl⟩

def members (fields : List (Field × Val T)) : List (Bytes × Val T) :=
  fields.filterMap fun (f, v) =>
    f.encodedName.bind fun name => if f.omitempty ∧ v.isZero then none else some (name, v)

theorem mem_members {m : Bytes × Val T} : m ∈ members fields ↔
      ∃ f, (f, m.2) ∈ fields ∧ f.encodedName = some m.1 ∧ ¬ (f.omitempty ∧ m.2.isZero) := by
  simp only [members, List.mem_filterMap, Option.bind_eq_some_iff, Prod.exists]
  constructor
  · rintro ⟨f, v, member, name, named, kept⟩
    split at kept
    · cases kept
    · next present =>
      cases kept
      exact ⟨f, member, named, present⟩
  · rintro ⟨f, member, named, present⟩
    exact ⟨f, m.2, member, m.1, named, if_neg present⟩

theorem structured_ok :
    structured fields depth = .ok pairs ↔ mapping (members fields) depth = .ok pairs := by
  have wrapped : ∀ (written : Except Error Bytes) (name out : Bytes),
      written.mapError (Error.member name) = .ok out ↔ written = .ok out := by
    intro written name out
    cases written <;> simp [Except.mapError]
  induction fields generalizing pairs with
  | nil => rfl
  | cons field rest ih =>
    obtain ⟨f, v⟩ := field
    rw [structured]
    split
    · next unnamed => simp [members, unnamed, ih]
    · next name named =>
      split
      · next omitted => simp [members, named, omitted, ih]
      · next present =>
        have first : members ((f, v) :: rest) = (name, v) :: members rest := by
          simp [members, named, present]
        rw [first, mapping]
        simp only [bind_ok, wrapped, ih]

theorem value_depth {v : Val T} (written : value v depth = .ok out) : depth ≤ maxDepth := by
  rw [value.eq_def] at written
  split at written
  · cases written
  · next shallow => exact not_lt.1 shallow

section Shallow

variable {depth : Nat} (shallow : depth ≤ maxDepth)
include shallow

theorem value_slice (elem : T) (items : Option (List (Val T))) :
    value (.slice elem items) depth =
      (head .array (items.getD []).length ++ ·) <$> sequence (items.getD []) depth := by
  cases items <;> simp [value, not_lt.2 shallow, sequence, Functor.map, Except.map]

theorem value_array (elem : T) (items : List (Val T)) :
    value (.array elem items) depth = (head .array items.length ++ ·) <$> sequence items depth := by
  simp [value, not_lt.2 shallow]

theorem value_map (elem : T) (entries : Option (List (Bytes × Val T))) :
    value (.map true elem entries) depth = writePairs <$> mapping (entries.getD []) depth := by
  cases entries <;> simp [value, not_lt.2 shallow, mapping, Functor.map, Except.map]

theorem value_struct {fields : List (Field × Val T)} : value (.struct fields) depth = .ok out ↔
      (writePairs <$> mapping (members fields) depth) = .ok out := by
  rw [value, if_neg (not_lt.2 shallow)]
  simp only [map_ok, structured_ok]

end Shallow

mutual

def RawsFit : Val T → Nat → Prop
  | .raw data, depth => ∃ after, skip (levelsAt depth) ⟨0, data.getD []⟩ = .ok after
  | .pointer _ (some v), depth => RawsFit v depth
  | .interface (some v), depth => RawsFit v depth
  | .slice _ (some items), depth => ItemsFit items (depth + 1)
  | .array _ items, depth => ItemsFit items (depth + 1)
  | .map _ _ (some entries), depth => EntriesFit entries (depth + 1)
  | .struct fields, depth => FieldsFit fields (depth + 1)
  | _, _ => True

def ItemsFit : List (Val T) → Nat → Prop
  | [], _ => True
  | v :: rest, depth => RawsFit v depth ∧ ItemsFit rest depth

def EntriesFit : List (Bytes × Val T) → Nat → Prop
  | [], _ => True
  | (_, v) :: rest, depth => RawsFit v depth ∧ EntriesFit rest depth

def FieldsFit : List (Field × Val T) → Nat → Prop
  | [], _ => True
  | (f, v) :: rest, depth =>
    (f.encodedName = none ∨ (f.omitempty ∧ v.isZero) ∨ RawsFit v depth) ∧ FieldsFit rest depth

end

theorem itemsFit_iff : ItemsFit items depth ↔ ∀ v ∈ items, RawsFit v depth := by
  induction items with
  | nil => simp [ItemsFit]
  | cons v rest ih => simp [ItemsFit, ih]

theorem entriesFit_iff : EntriesFit entries depth ↔ ∀ e ∈ entries, RawsFit e.2 depth := by
  induction entries with
  | nil => simp [EntriesFit]
  | cons e rest ih => simp [EntriesFit, ih]

theorem fieldsFit_iff : FieldsFit fields depth ↔ ∀ m ∈ members fields, RawsFit m.2 depth := by
  induction fields with
  | nil => simp [FieldsFit, members]
  | cons field rest ih =>
    obtain ⟨f, v⟩ := field
    rw [FieldsFit, ih]
    cases named : f.encodedName with
    | none => simp [members, named]
    | some name =>
      by_cases omitted : f.omitempty ∧ v.isZero <;> simp [members, named, omitted]

theorem rawsFit_slice {elem : T} {items : Option (List (Val T))} :
    RawsFit (.slice elem items) depth ↔ ∀ v ∈ items.getD [], RawsFit v (depth + 1) := by
  cases items <;> simp [RawsFit, itemsFit_iff]

theorem rawsFit_map {stringKeys : Bool} {elem : T} {entries : Option (List (Bytes × Val T))} :
    RawsFit (.map stringKeys elem entries) depth ↔
      ∀ e ∈ entries.getD [], RawsFit e.2 (depth + 1) := by
  cases entries <;> simp [RawsFit, entriesFit_iff]

abbrev ample (depth : Nat) : Nat := levelsAt depth + (maxDepth + 1)

variable (major : Major) (arg : Nat) (v : Val T)

def Writes (depth : Nat) : Prop :=
  ∀ out, value v depth = .ok out → out.length < 2 ^ 64 →
    Item (ample depth) out ∧ (Item (levelsAt depth) out ↔ RawsFit v depth)

theorem levelsAt_succ (shallow : depth ≤ maxDepth) : levelsAt depth = levelsAt (depth + 1) + 1 := by
  unfold levelsAt
  omega

theorem sequence_item (shallow : depth ≤ maxDepth) (each : ∀ v ∈ items, Writes v (depth + 1))
    (written : ((head .array items.length ++ ·) <$> sequence items depth) = .ok out)
    (small : out.length < 2 ^ 64) :
    Item (ample depth) out ∧
      (Item (levelsAt depth) out ↔ ∀ v ∈ items, RawsFit v (depth + 1)) := by
  simp only [map_ok, sequence_ok] at written
  obtain ⟨_, ⟨pieces, parts, rfl⟩, rfl⟩ := written
  have short : ∀ piece ∈ pieces, piece.length < 2 ^ 64 := fun piece member => by
    have inside := length_le_of_mem member
    simp only [List.length_append] at small
    omega
  have known : ∀ piece ∈ pieces, Item (ample (depth + 1)) piece := fun piece member => by
    obtain ⟨v, among, written⟩ := forall₂_right parts member
    exact (each v among piece written (short piece member)).1
  have few : pieces.length < 2 ^ 64 := by
    have enough := length_le_flatten fun piece member => item_nonempty (known piece member)
    simp only [List.length_append] at small
    omega
  rw [parts.length_eq, ample, levelsAt_succ shallow, Nat.add_right_comm,
    array_item few known, array_item few known]
  refine ⟨known, fun all v member => ?_, fun all piece member => ?_⟩
  · obtain ⟨piece, among, written⟩ := forall₂_left parts member
    exact (each v member piece written (short piece among)).2.1 (all piece among)
  · obtain ⟨v, among, written⟩ := forall₂_right parts member
    exact (each v among piece written (short piece member)).2.2 (all v among)

theorem mapping_item (shallow : depth ≤ maxDepth) (each : ∀ e ∈ entries, Writes e.2 (depth + 1))
    (written : (writePairs <$> mapping entries depth) = .ok out) (small : out.length < 2 ^ 64) :
    Item (ample depth) out ∧
      (Item (levelsAt depth) out ↔ ∀ e ∈ entries, RawsFit e.2 (depth + 1)) := by
  simp only [map_ok, mapping_ok] at written
  obtain ⟨pairs, parts, rfl⟩ := written
  have perm : (Rows.orderBy keyOrder pairs).Perm pairs := Rows.perm_orderBy pairs
  have same := (perm.flatMap_right fun p : Pair => p.key ++ p.value).length_eq
  have room : (pairs.flatMap fun p => p.key ++ p.value).length < 2 ^ 64 := by
    simp only [writePairs, List.length_append, same] at small
    omega
  have short : ∀ p ∈ pairs, p.key.length + p.value.length < 2 ^ 64 := fun p member => by
    have inside := length_le_of_mem (List.mem_map.2 ⟨p, member, rfl⟩ :
      p.key ++ p.value ∈ pairs.map fun p => p.key ++ p.value)
    rw [← List.flatMap, List.length_append] at inside
    omega
  have keys : ∀ p ∈ pairs, Stringy .text p.key := fun p member => by
    obtain ⟨e, -, named, -⟩ := forall₂_right parts member
    have limit := short p member
    rw [named] at limit ⊢
    refine textKey_stringy ?_
    simp only [textKey, List.length_append] at limit
    omega
  have known : ∀ p ∈ pairs, Item (ample (depth + 1)) p.value := fun p member => by
    obtain ⟨e, among, -, written⟩ := forall₂_right parts member
    exact (each e among p.value written (by have := short p member; omega)).1
  have few : pairs.length < 2 ^ 64 := by
    have nonempty : ∀ piece ∈ pairs.map fun p => p.key ++ p.value, 1 ≤ piece.length := by
      intro piece member
      obtain ⟨p, among, rfl⟩ := List.mem_map.1 member
      have inside := item_nonempty (known p among)
      rw [List.length_append]
      omega
    have enough := length_le_flatten nonempty
    rw [← List.flatMap, List.length_map] at enough
    omega
  rw [ample, levelsAt_succ shallow, Nat.add_right_comm, pairs_item few keys known,
    pairs_item few keys known]
  refine ⟨known, fun all e member => ?_, fun all p member => ?_⟩
  · obtain ⟨p, among, -, written⟩ := forall₂_left parts member
    exact (each e member _ written (by have := short p among; omega)).2.1 (all p among)
  · obtain ⟨e, among, -, written⟩ := forall₂_right parts member
    exact (each e among _ written (by have := short p member; omega)).2.2 (all e among)

theorem formed_writes {v : Val T} {text : Bytes}
    (encoded : depth ≤ maxDepth → value v depth = .ok text)
    (formed : depth ≤ maxDepth → text.length < 2 ^ 64 → Item (levelsAt depth) text)
    (plain : RawsFit v depth) : Writes v depth := by
  intro out written small
  have shallow := value_depth written
  rw [encoded shallow, Except.ok.injEq] at written
  subst written
  have formed := formed shallow small
  exact ⟨formed.mono (Nat.le_add_right _ _), iff_of_true formed plain⟩

theorem scalar_writes {v : Val T}
    (encoded : depth ≤ maxDepth → value v depth = .ok (head major arg))
    (allowed : Allowed major arg) (scalar : major = .uint ∨ major = .negInt ∨ major = .simple) :
    RawsFit v depth → Writes v depth := by
  refine formed_writes encoded fun shallow _ => ?_
  rw [levelsAt_succ shallow, ← List.append_nil (head major arg), item_iff (header_head allowed)]
  rcases scalar with rfl | rfl | rfl <;> rfl

theorem stringy_writes {v : Val T} (payload : Bytes)
    (encoded : depth ≤ maxDepth → value v depth = .ok (head major payload.length ++ payload))
    (string : major = .bytes ∨ major = .text) : RawsFit v depth → Writes v depth := by
  refine formed_writes encoded fun shallow small => ?_
  rw [levelsAt_succ shallow]
  refine stringy_item ?_ string
  rw [List.length_append] at small
  omega

theorem raw_writes (data : Option Bytes) (depth : Nat) : Writes (.raw data : Val T) depth := by
  intro out written small
  have shallow := value_depth written
  rw [value, if_neg (not_lt.2 shallow)] at written
  split at written
  · cases written
  next checked =>
  simp only [Except.ok.injEq] at written
  subst written
  have formed := (wellformed_iff.1 checked).2
  refine ⟨formed.mono (by unfold ample levelsAt; omega), fun inside => ?_, fun fits => ?_⟩
  · exact ⟨⟨(data.getD []).length, []⟩, (skip_reads _ _ _).2 ⟨_, inside, by simp, by simp⟩⟩
  · obtain ⟨after, skipped⟩ := fits
    obtain ⟨used, found, starts, -⟩ := (skip_reads _ _ _).1 skipped
    obtain ⟨rfl, -⟩ := (skip_reads _).unique (formed.mono (le_max_left _ _))
      (found.mono (le_max_right _ _)) ((List.append_nil _).trans starts)
    exact found

theorem writes (depth : Nat) : Writes v depth := by
  induction v using Val.ind generalizing depth with
  | bool b =>
    refine scalar_writes .simple (if b then simpleTrue else simpleFalse)
      (fun shallow => by rw [value, if_neg (not_lt.2 shallow)])
      ⟨by cases b <;> decide, by decide, fun _ => ?_⟩ (by simp) trivial
    cases b <;> simp
  | uint bits n =>
    exact scalar_writes .uint n.toNat (fun shallow => by rw [value, if_neg (not_lt.2 shallow)])
      (allowed_length n.toNat_lt (by decide) (by decide)) (by simp) trivial
  | int bits n =>
    have below := n.toInt_lt
    have above := n.le_toInt
    by_cases negative : n.toInt < 0
    · exact scalar_writes .negInt (-1 - n.toInt).toNat
        (fun shallow => by rw [value, if_neg (not_lt.2 shallow), if_pos negative])
        (allowed_length (by omega) (by decide) (by decide)) (by simp) trivial
    · exact scalar_writes .uint n.toInt.toNat
        (fun shallow => by rw [value, if_neg (not_lt.2 shallow), if_neg negative])
        (allowed_length (by omega) (by decide) (by decide)) (by simp) trivial
  | string s =>
    exact stringy_writes .text s (fun shallow => by rw [value, if_neg (not_lt.2 shallow), textKey])
      (.inr rfl) trivial
  | raw data => exact raw_writes data depth
  | bytes data =>
    exact stringy_writes .bytes (data.getD [])
      (fun shallow => by rw [value, if_neg (not_lt.2 shallow)]) (.inl rfl) trivial
  | pointer elem p ih | interface p ih =>
    cases p with
    | none =>
      exact scalar_writes .simple simpleNull
        (fun shallow => by rw [value, if_neg (not_lt.2 shallow)])
        ⟨by decide, by decide, fun _ => .inr (.inr rfl)⟩ (by simp) trivial
    | some v =>
      intro out written small
      have shallow := value_depth written
      rw [value, if_neg (not_lt.2 shallow)] at written
      exact ih v rfl depth out written small
  | slice elem items ih =>
    intro out written small
    have shallow := value_depth written
    rw [value_slice shallow] at written
    rw [rawsFit_slice]
    exact sequence_item shallow (fun v member => ih v member _) written small
  | array elem items ih =>
    intro out written small
    have shallow := value_depth written
    rw [value_array shallow] at written
    rw [RawsFit, itemsFit_iff]
    exact sequence_item shallow (fun v member => ih v member _) written small
  | map stringKeys elem entries ih =>
    intro out written small
    have shallow := value_depth written
    cases stringKeys with
    | false => simp [value, not_lt.2 shallow] at written
    | true =>
      rw [value_map shallow] at written
      rw [rawsFit_map]
      exact mapping_item shallow (fun e member => ih e member _) written small
  | struct fields ih =>
    intro out written small
    have shallow := value_depth written
    rw [value_struct shallow] at written
    rw [RawsFit, fieldsFit_iff]
    refine mapping_item shallow (fun e member => ?_) written small
    obtain ⟨f, among, -⟩ := mem_members.1 member
    exact ih _ among _
  | other zero =>
    intro out written small
    simp [value, not_lt.2 (value_depth written)] at written

def headSize : Nat :=
  if arg < 24 then 1 else if arg < 2 ^ 8 then 2 else if arg < 2 ^ 16 then 3
  else if arg < 2 ^ 32 then 5 else 9

def textSize (name : Bytes) : Nat := headSize name.length + name.length

mutual

def size : Val T → Nat
  | .raw data => (data.getD []).length
  | .pointer _ (some v) => size v
  | .interface (some v) => size v
  | .uint _ n => headSize n.toNat
  | .int _ n => headSize (if n.toInt < 0 then (-1 - n.toInt).toNat else n.toInt.toNat)
  | .string s => textSize s
  | .bytes data => textSize (data.getD [])
  | .slice _ (some items) => headSize items.length + itemsSize items
  | .array _ items => headSize items.length + itemsSize items
  | .map _ _ (some entries) => headSize entries.length + entriesSize entries
  | .struct fields => headSize (members fields).length + fieldsSize fields
  | _ => 1

def itemsSize : List (Val T) → Nat
  | [] => 0
  | v :: rest => size v + itemsSize rest

def entriesSize : List (Bytes × Val T) → Nat
  | [] => 0
  | (name, v) :: rest => textSize name + size v + entriesSize rest

def fieldsSize : List (Field × Val T) → Nat
  | [] => 0
  | (f, v) :: rest =>
    (match f.encodedName with
    | none => 0
    | some name => if f.omitempty ∧ v.isZero then 0 else textSize name + size v) + fieldsSize rest

end

theorem length_head : (head major arg).length = headSize arg := by
  unfold head headSize
  split
  · rfl
  split
  · rfl
  split
  · simp
  split <;> simp

theorem length_textKey (name : Bytes) : (textKey name).length = textSize name := by
  rw [textKey, List.length_append, length_head, textSize]

theorem fieldsSize_eq (fields : List (Field × Val T)) :
    fieldsSize fields = entriesSize (members fields) := by
  induction fields with
  | nil => rfl
  | cons field rest ih =>
    obtain ⟨f, v⟩ := field
    rw [fieldsSize, ih]
    cases named : f.encodedName with
    | none => simp [members, named]
    | some name =>
      by_cases omitted : f.omitempty ∧ v.isZero <;> simp [members, named, omitted, entriesSize]

def Sized (depth : Nat) : Prop := ∀ out, value v depth = .ok out → out.length = size v

theorem sequence_length {items : List (Val T)} (each : ∀ v ∈ items, Sized v (depth + 1))
    (written : ((head .array items.length ++ ·) <$> sequence items depth) = .ok out) :
    out.length = headSize items.length + itemsSize items := by
  simp only [map_ok, sequence_ok] at written
  obtain ⟨_, ⟨pieces, parts, rfl⟩, rfl⟩ := written
  rw [List.length_append, length_head]
  congr 1
  induction parts with
  | nil => rfl
  | cons first _ ih =>
    simp only [List.mem_cons, forall_eq_or_imp] at each
    simp [itemsSize, each.1 _ first, ih each.2]

theorem mapping_length {entries : List (Bytes × Val T)}
    (each : ∀ e ∈ entries, Sized e.2 (depth + 1))
    (written : (writePairs <$> mapping entries depth) = .ok out) :
    out.length = headSize entries.length + entriesSize entries := by
  simp only [map_ok, mapping_ok] at written
  obtain ⟨pairs, parts, rfl⟩ := written
  have perm : (Rows.orderBy keyOrder pairs).Perm pairs := Rows.perm_orderBy pairs
  rw [writePairs, List.length_append, length_head, parts.length_eq,
    (perm.flatMap_right fun p : Pair => p.key ++ p.value).length_eq]
  clear perm
  congr 1
  induction parts with
  | nil => rfl
  | cons first _ ih =>
    simp only [List.mem_cons, forall_eq_or_imp] at each
    rw [List.flatMap_cons, List.length_append, List.length_append, ih each.2, entriesSize,
      each.1 _ first.2, first.1, length_textKey]

theorem sized (depth : Nat) : Sized v depth := by
  induction v using Val.ind generalizing depth with
  | slice elem items ih =>
    intro out written
    rw [value_slice (value_depth written)] at written
    rw [sequence_length (fun v member => ih v member _) written]
    cases items <;> simp [size, itemsSize, headSize]
  | array elem items ih =>
    intro out written
    rw [value_array (value_depth written)] at written
    rw [sequence_length (fun v member => ih v member _) written, size]
  | map stringKeys elem entries ih =>
    intro out written
    cases stringKeys with
    | false => simp [value, not_lt.2 (value_depth written)] at written
    | true =>
      rw [value_map (value_depth written)] at written
      rw [mapping_length (fun e member => ih e member _) written]
      cases entries <;> simp [size, entriesSize, headSize]
  | struct fields ih =>
    intro out written
    rw [value_struct (value_depth written)] at written
    rw [mapping_length (fun e member => ?_) written, size, fieldsSize_eq]
    obtain ⟨f, among, -⟩ := mem_members.1 member
    exact ih _ among _
  | pointer elem p ih | interface p ih =>
    intro out written
    have shallow := value_depth written
    cases p with
    | none =>
      rw [value, if_neg (not_lt.2 shallow)] at written
      cases written
      rfl
    | some v =>
      rw [value, if_neg (not_lt.2 shallow)] at written
      exact ih v rfl depth out written
  | raw data =>
    intro out written
    have shallow := value_depth written
    rw [value, if_neg (not_lt.2 shallow)] at written
    split at written
    · cases written
    · cases written
      rfl
  | int bits n =>
    intro out written
    have shallow := value_depth written
    rw [value, if_neg (not_lt.2 shallow)] at written
    cases written
    rw [size]
    split <;> rw [length_head]
  | bool b =>
    intro out written
    have shallow := value_depth written
    rw [value, if_neg (not_lt.2 shallow)] at written
    cases written
    cases b <;> rfl
  | other zero =>
    intro out written
    simp [value, not_lt.2 (value_depth written)] at written
  | _ =>
    intro out written
    have shallow := value_depth written
    rw [value, if_neg (not_lt.2 shallow)] at written
    cases written
    simp [size, textSize, length_head, length_textKey]

end Encoder

def Acceptable {T : Type} : Option (Val T) → Prop
  | none => True
  | some v => Encoder.size v ≤ maxBytes ∧ Encoder.RawsFit v 0

theorem marshal_wellformed {T : Type} {v : Option (Val T)} {out : Bytes}
    (encoded : marshal v = .ok out) : wellformed out = .ok () ↔ Acceptable v := by
  cases v with
  | none =>
    cases encoded
    exact iff_of_true (by decide +kernel) trivial
  | some v =>
    rw [wellformed_iff, Acceptable, Encoder.sized v 0 out encoded]
    refine and_congr_right fun small => ?_
    rw [← Encoder.sized v 0 out encoded] at small
    exact (Encoder.writes v 0 out encoded (by unfold maxBytes at small; omega)).2

def sixteenArrays : Bytes := List.replicate 16 0x81 ++ [0x01]

theorem marshal_shallow :
    let v : Val Unit := .slice () (some [.raw (some [0x81, 0x01])])
    marshal (some v) = .ok [0x81, 0x81, 0x01] ∧ wellformed [0x81, 0x81, 0x01] = .ok () := by
  have encoded : marshal (some (.slice () (some [.raw (some [0x81, 0x01])]) : Val Unit)) =
      .ok [0x81, 0x81, 0x01] := by decide +kernel
  refine ⟨encoded, (marshal_wellformed encoded).2 ⟨by decide +kernel, ?_, trivial⟩⟩
  exact ⟨⟨2, []⟩, by decide +kernel⟩

theorem marshal_too_deep :
    let v : Val Unit := .slice () (some [.raw (some sixteenArrays)])
    marshal (some v) = .ok (0x81 :: sixteenArrays) ∧
      wellformed (0x81 :: sixteenArrays) = .error .depth := by
  decide +kernel

end AppleDM.Cbor
