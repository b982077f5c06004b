import AppleDM.Cbor.Encoded

set_option autoImplicit false

namespace AppleDM.Cbor

open Mdm Checked Wire Related Decoder

namespace Val

section Shape

variable {T : Type}

mutual

def deep (w : Nat) : Val T → Nat
  | .pointer _ (some v) => deep w v + w
  | .interface (some v) => deep w v + w
  | .slice _ (some items) => itemsDeep w items
  | .array _ items => itemsDeep w items
  | .map _ _ (some entries) => entriesDeep w entries
  | .struct fields => fieldsDeep w fields
  | _ => 0

def itemsDeep (w : Nat) : List (Val T) → Nat
  | [] => 0
  | v :: rest => max (deep w v + 1) (itemsDeep w rest)

def entriesDeep (w : Nat) : List (Bytes × Val T) → Nat
  | [] => 0
  | (_, v) :: rest => max (deep w v + 1) (entriesDeep w rest)

def fieldsDeep (w : Nat) : List (Field × Val T) → Nat
  | [] => 0
  | (_, v) :: rest => max (deep w v + 1) (fieldsDeep w rest)

end

variable {limit : Nat}

theorem itemsDeep_le {w : Nat} {items : List (Val T)} :
    itemsDeep w items ≤ limit ↔ ∀ v ∈ items, deep w v + 1 ≤ limit := by
  induction items with
  | nil => simp [itemsDeep]
  | cons v rest ih => simp [itemsDeep, ih]

theorem entriesDeep_le {w : Nat} {entries : List (Bytes × Val T)} :
    entriesDeep w entries ≤ limit ↔ ∀ e ∈ entries, deep w e.2 + 1 ≤ limit := by
  induction entries with
  | nil => simp [entriesDeep]
  | cons e rest ih => simp [entriesDeep, ih]

theorem fieldsDeep_le {w : Nat} {fields : List (Field × Val T)} :
    fieldsDeep w fields ≤ limit ↔ ∀ f ∈ fields, deep w f.2 + 1 ≤ limit := by
  induction fields with
  | nil => simp [fieldsDeep]
  | cons f rest ih => simp [fieldsDeep, ih]

abbrev entryOrder (e : Bytes × Val T) : List Nat := Encoder.keyOrder ⟨Encoder.textKey e.1, []⟩

mutual

def arranged (fill : Bool) : Val T → Val T
  | .bytes none => .bytes (if fill then some [] else none)
  | .pointer elem (some v) => .pointer elem (some (arranged fill v))
  | .interface (some v) => .interface (some (arranged fill v))
  | .slice elem none => .slice elem (if fill then some [] else none)
  | .slice elem (some items) => .slice elem (some (itemsArranged fill items))
  | .array elem items => .array elem (itemsArranged fill items)
  | .map stringKeys elem none => .map stringKeys elem (if fill then some [] else none)
  | .map stringKeys elem (some entries) =>
    .map stringKeys elem (some (Rows.orderBy entryOrder (entriesArranged fill entries)))
  | .struct fields => .struct (fieldsArranged fill fields)
  | v => v

def itemsArranged (fill : Bool) : List (Val T) → List (Val T)
  | [] => []
  | v :: rest => arranged fill v :: itemsArranged fill rest

def entriesArranged (fill : Bool) : List (Bytes × Val T) → List (Bytes × Val T)
  | [] => []
  | (name, v) :: rest => (name, arranged fill v) :: entriesArranged fill rest

def fieldsArranged (fill : Bool) : List (Field × Val T) → List (Field × Val T)
  | [] => []
  | (f, v) :: rest => (f, arranged fill v) :: fieldsArranged fill rest

end

mutual

def Plain : Val T → Prop
  | .pointer _ (some v) => Plain v ∧ ∀ elem, v ≠ .pointer elem none
  | .slice _ (some items) => ItemsPlain items
  | .map stringKeys _ none => stringKeys = true
  | .map stringKeys _ (some entries) => stringKeys = true ∧ EntriesPlain entries
  | .struct fields => (fields.map (·.1.encodedName)).Nodup ∧ FieldsPlain fields
  | .raw _ | .interface _ | .array _ _ | .other _ => False
  | _ => True

def ItemsPlain : List (Val T) → Prop
  | [] => True
  | v :: rest => Plain v ∧ ItemsPlain rest

def EntriesPlain : List (Bytes × Val T) → Prop
  | [] => True
  | (_, v) :: rest => Plain v ∧ EntriesPlain rest

def FieldsPlain : List (Field × Val T) → Prop
  | [] => True
  | (f, v) :: rest => f.encodedName.isSome ∧ Plain v ∧ FieldsPlain rest

end

mutual

def Total : Val T → Prop
  | .pointer _ (some v) => Total v
  | .struct fields => FieldsTotal fields
  | _ => True

def FieldsTotal : List (Field × Val T) → Prop
  | [] => True
  | (f, v) :: rest => f.omitempty = false ∧ Total v ∧ FieldsTotal rest

end

end Shape

variable (t : Types)

mutual

def Typed : Val t.Name → Prop
  | .uint bits n => n.toNat < 2 ^ bits
  | .int bits n => -2 ^ (bits - 1) ≤ n.toInt ∧ n.toInt < 2 ^ (bits - 1)
  | .pointer elem (some v) => typeOf v = typeOf (t.zero elem) ∧ Typed v
  | .interface (some v) => Typed v
  | .slice elem (some items) => ItemsTyped elem items
  | .array elem items => ItemsTyped elem items
  | .map _ elem (some entries) => (entries.map (·.1)).Nodup ∧ EntriesTyped elem entries
  | .struct fields => FieldsTyped fields
  | _ => True

def ItemsTyped (elem : t.Name) : List (Val t.Name) → Prop
  | [] => True
  | v :: rest => (typeOf v = typeOf (t.zero elem) ∧ Typed v) ∧ ItemsTyped elem rest

def EntriesTyped (elem : t.Name) : List (Bytes × Val t.Name) → Prop
  | [] => True
  | (_, v) :: rest => (typeOf v = typeOf (t.zero elem) ∧ Typed v) ∧ EntriesTyped elem rest

def FieldsTyped : List (Field × Val t.Name) → Prop
  | [] => True
  | (_, v) :: rest => Typed v ∧ FieldsTyped rest

end

section Parts

variable {T : Type} {fill : Bool}

theorem itemsArranged_eq (items : List (Val T)) :
    itemsArranged fill items = items.map (arranged fill) := by
  induction items with
  | nil => rfl
  | cons v rest ih => simp [itemsArranged, ih]

theorem entriesArranged_eq (entries : List (Bytes × Val T)) :
    entriesArranged fill entries = entries.map fun e => (e.1, arranged fill e.2) := by
  induction entries with
  | nil => rfl
  | cons e rest ih => simp [entriesArranged, ih]

theorem fieldsArranged_eq (fields : List (Field × Val T)) :
    fieldsArranged fill fields = fields.map fun f => (f.1, arranged fill f.2) := by
  induction fields with
  | nil => rfl
  | cons f rest ih => simp [fieldsArranged, ih]

theorem itemsPlain_iff {items : List (Val T)} : ItemsPlain items ↔ ∀ v ∈ items, Plain v := by
  induction items with
  | nil => simp [ItemsPlain]
  | cons v rest ih => simp [ItemsPlain, ih]

theorem entriesPlain_iff {entries : List (Bytes × Val T)} :
    EntriesPlain entries ↔ ∀ e ∈ entries, Plain e.2 := by
  induction entries with
  | nil => simp [EntriesPlain]
  | cons e rest ih => simp [EntriesPlain, ih]

variable {fields : List (Field × Val T)}

theorem fieldsPlain_iff :
    FieldsPlain fields ↔ ∀ f ∈ fields, f.1.encodedName.isSome ∧ Plain f.2 := by
  induction fields with
  | nil => simp [FieldsPlain]
  | cons f rest ih => simp [FieldsPlain, ih, and_assoc]

theorem fieldsTotal_iff : FieldsTotal fields ↔ ∀ f ∈ fields, f.1.omitempty = false ∧ Total f.2 := by
  induction fields with
  | nil => simp [FieldsTotal]
  | cons f rest ih => simp [FieldsTotal, ih, and_assoc]

theorem fieldsZero_iff : fieldsZero fields = true ↔ ∀ f ∈ fields, f.2.isZero = true := by
  induction fields with
  | nil => simp [fieldsZero]
  | cons f rest ih => simp [fieldsZero, ih]

theorem fieldTypes_eq (fields : List (Field × Val T)) :
    fieldTypes fields = fields.map fun f => (f.1, typeOf f.2) := by
  induction fields with
  | nil => rfl
  | cons f rest ih => simp [fieldTypes, ih]

variable {t} {elem : t.Name}

theorem itemsTyped_iff {items : List (Val t.Name)} :
    ItemsTyped t elem items ↔ ∀ v ∈ items, typeOf v = typeOf (t.zero elem) ∧ Typed t v := by
  induction items with
  | nil => simp [ItemsTyped]
  | cons v rest ih => simp [ItemsTyped, ih]

theorem entriesTyped_iff {entries : List (Bytes × Val t.Name)} :
    EntriesTyped t elem entries ↔
      ∀ e ∈ entries, typeOf e.2 = typeOf (t.zero elem) ∧ Typed t e.2 := by
  induction entries with
  | nil => simp [EntriesTyped]
  | cons e rest ih => simp [EntriesTyped, ih]

theorem fieldsTyped_iff {fields : List (Field × Val t.Name)} :
    FieldsTyped t fields ↔ ∀ f ∈ fields, Typed t f.2 := by
  induction fields with
  | nil => simp [FieldsTyped]
  | cons f rest ih => simp [FieldsTyped, ih]

end Parts

section Restored

variable {T : Type}

mutual

def restored : Val T → Val T
  | .bytes data => .bytes (copied (data.getD []))
  | .pointer elem (some v) => .pointer elem (some (restored v))
  | .slice elem none => .slice elem (some [])
  | .slice elem (some items) => .slice elem (some (itemsRestored items))
  | .map stringKeys elem none => .map stringKeys elem (some [])
  | .map stringKeys elem (some entries) =>
    .map stringKeys elem (some (Rows.orderBy entryOrder (entriesRestored entries)))
  | .struct fields => .struct (fieldsRestored fields)
  | v => v

def itemsRestored : List (Val T) → List (Val T)
  | [] => []
  | v :: rest => restored v :: itemsRestored rest

def entriesRestored : List (Bytes × Val T) → List (Bytes × Val T)
  | [] => []
  | (name, v) :: rest => (name, restored v) :: entriesRestored rest

def fieldsRestored : List (Field × Val T) → List (Field × Val T)
  | [] => []
  | (f, v) :: rest =>
    (f, if f.omitempty ∧ v.isZero then v else restored v) :: fieldsRestored rest

end

theorem itemsRestored_eq (items : List (Val T)) : itemsRestored items = items.map restored := by
  induction items with
  | nil => rfl
  | cons v rest ih => simp [itemsRestored, ih]

theorem entriesRestored_eq (entries : List (Bytes × Val T)) :
    entriesRestored entries = entries.map fun e => (e.1, restored e.2) := by
  induction entries with
  | nil => rfl
  | cons e rest ih => simp [entriesRestored, ih]

theorem fieldsRestored_eq (fields : List (Field × Val T)) :
    fieldsRestored fields =
      fields.map fun f => (f.1, if f.1.omitempty ∧ f.2.isZero then f.2 else restored f.2) := by
  induction fields with
  | nil => rfl
  | cons f rest ih => simp [fieldsRestored, ih]

theorem textKey_injective : Function.Injective Encoder.textKey := by
  intro a b same
  have long := congrArg List.length same
  rw [Encoder.length_textKey, Encoder.length_textKey, Encoder.textSize, Encoder.textSize] at long
  have lengths : a.length = b.length := by
    unfold Encoder.headSize at long
    grind
  unfold Encoder.textKey at same
  rw [lengths] at same
  exact List.append_cancel_left same

theorem entryOrder_injective {e e' : Bytes × Val T} (same : entryOrder e = entryOrder e') :
    e.1 = e'.1 := by
  refine textKey_injective ?_
  have bytes := (List.cons.inj same).2
  exact List.map_injective_iff.2 (fun _ _ => UInt8.toNat_inj.1) bytes

theorem entryOrder_nodup {entries : List (Bytes × Val T)} (distinct : (entries.map (·.1)).Nodup) :
    (entries.map entryOrder).Nodup := by
  refine (List.nodup_map_iff_inj_on (List.Nodup.of_map _ distinct)).2 fun e member e' member' same => ?_
  exact List.inj_on_of_nodup_map distinct member member' (entryOrder_injective same)

theorem orderBy_entries {entries entries' : List (Bytes × Val T)} {f : Val T → Val T}
    (distinct : (entries.map (·.1)).Nodup) (perm : entries'.Perm entries) :
    Rows.orderBy entryOrder (entries'.map fun e => (e.1, f e.2)) =
      (Rows.orderBy entryOrder entries).map fun e => (e.1, f e.2) := by
  rw [Rows.orderBy_map]
  congr 1
  exact Rows.orderBy_perm (Rows.increasing_orderBy (entryOrder_nodup distinct))
    (perm.trans (Rows.perm_orderBy entries).symm)

end Restored

theorem arranged_restored {t : Types} {v : Val t.Name} (plain : Plain v) (typed : Typed t v) :
    arranged true (restored v) = arranged true v := by
  induction v using Val.ind with
  | bytes data => rcases data with _ | _ | ⟨b, rest⟩ <;> simp [restored, arranged, copied]
  | pointer elem p ih =>
    cases p with
    | none => rfl
    | some v => rw [restored, arranged, arranged, ih v rfl plain.1 typed.2]
  | slice elem items ih =>
    cases items with
    | none => rfl
    | some items =>
      have each := itemsPlain_iff.1 plain
      have each' := itemsTyped_iff.1 typed
      rw [restored, arranged, arranged, itemsRestored_eq, itemsArranged_eq, itemsArranged_eq,
        List.map_map]
      congr 2
      exact List.map_congr_left fun v member => ih v member (each v member) (each' v member).2
  | map stringKeys elem entries ih =>
    cases entries with
    | none => rfl
    | some entries =>
      have each := entriesPlain_iff.1 plain.2
      have each' := entriesTyped_iff.1 typed.2
      have perm : (Rows.orderBy entryOrder entries).Perm entries := Rows.perm_orderBy entries
      have inner : ((Rows.orderBy entryOrder entries).map fun e => (e.1, arranged true (restored e.2))) =
          (Rows.orderBy entryOrder entries).map fun e => (e.1, arranged true e.2) := by
        refine List.map_congr_left fun e member => ?_
        have member := perm.mem_iff.1 member
        rw [ih e member (each e member) (each' e member).2]
      rw [restored, arranged, arranged, entriesRestored_eq, entriesArranged_eq, entriesArranged_eq,
        orderBy_entries typed.1 (.refl _), List.map_map]
      simp only [Function.comp_def]
      rw [inner, orderBy_entries typed.1 perm, orderBy_entries typed.1 (.refl _)]
  | struct fields ih =>
    have each := fieldsPlain_iff.1 plain.2
    have each' := fieldsTyped_iff.1 typed
    rw [restored, arranged, arranged, fieldsRestored_eq, fieldsArranged_eq, fieldsArranged_eq,
      List.map_map]
    congr 1
    refine List.map_congr_left fun f member => ?_
    simp only [Function.comp_apply]
    split
    · rfl
    · rw [ih f member (each f member).2 (each' f member)]
  | _ => rfl

theorem isZero_unique {T : Type} {a b : Val T} (plain : Plain b) (first : a.isZero = true)
    (second : b.isZero = true) (same : typeOf a = typeOf b) : a = b := by
  induction b using Val.ind generalizing a with
  | struct fields ih =>
    cases a with
    | struct fields' =>
      have each := fieldsPlain_iff.1 plain.2
      simp only [typeOf, Ty.struct.injEq, fieldTypes_eq] at same
      rw [isZero, fieldsZero_iff] at first second
      rw [Val.struct.injEq]
      have zipped : List.Forall₂ (fun f g => (f.1, typeOf f.2) = (g.1, typeOf g.2)) fields' fields := by
        rw [← List.forall₂_eq_eq_eq, List.forall₂_map_left_iff, List.forall₂_map_right_iff] at same
        exact same
      rw [← List.forall₂_eq_eq_eq, List.forall₂_iff_zip]
      refine ⟨zipped.length_eq, fun {f g} pair => ?_⟩
      have inside := List.of_mem_zip pair
      have related := Prod.mk.inj (List.forall₂_zip zipped pair)
      exact Prod.ext related.1
        (ih g inside.2 (each g inside.2).2 (first f inside.1) (second g inside.2) related.2)
    | _ => simp [typeOf] at same
  | _ => cases a <;> simp_all [typeOf, isZero, Plain]

end Val

namespace Encoder

open Val

variable {T : Type}

def text (depth : Nat) (v : Val T) : Bytes :=
  match value v depth with
  | .ok out => out
  | .error _ => []

variable {depth : Nat} {out : Bytes}

theorem value_text {v : Val T} (written : value v depth = .ok out) :
    value v depth = .ok (text depth v) := by
  rw [text, written]

theorem sequence_text {items : List (Val T)}
    (each : ∀ v ∈ items, ∃ out, value v (depth + 1) = .ok out) :
    sequence items depth = .ok (items.flatMap (text (depth + 1))) := by
  rw [sequence_ok]
  refine ⟨items.map (text (depth + 1)), ?_, rfl⟩
  rw [List.forall₂_map_right_iff, List.forall₂_same]
  intro v member
  obtain ⟨out, written⟩ := each v member
  exact value_text written

variable {body : Bytes}

theorem sequence_known {items : List (Val T)} (written : sequence items depth = .ok body) :
    (∀ v ∈ items, value v (depth + 1) = .ok (text (depth + 1) v)) ∧
      body = items.flatMap (text (depth + 1)) := by
  have each : ∀ v ∈ items, ∃ out, value v (depth + 1) = .ok out := by
    obtain ⟨pieces, parts, -⟩ := sequence_ok.1 written
    intro v member
    obtain ⟨piece, -, found⟩ := forall₂_left parts member
    exact ⟨piece, found⟩
  rw [sequence_text each, Except.ok.injEq] at written
  refine ⟨fun v member => ?_, written.symm⟩
  obtain ⟨out, found⟩ := each v member
  exact value_text found

abbrev pairOf (depth : Nat) (e : Bytes × Val T) : Pair := ⟨textKey e.1, text (depth + 1) e.2⟩

theorem mapping_text {entries : List (Bytes × Val T)}
    (each : ∀ e ∈ entries, ∃ out, value e.2 (depth + 1) = .ok out) :
    mapping entries depth = .ok (entries.map (pairOf depth)) := by
  rw [mapping_ok, List.forall₂_map_right_iff, List.forall₂_same]
  intro e member
  obtain ⟨out, written⟩ := each e member
  exact ⟨rfl, value_text written⟩

theorem mapping_known {entries : List (Bytes × Val T)} {pairs : List Pair}
    (written : mapping entries depth = .ok pairs) :
    (∀ e ∈ entries, value e.2 (depth + 1) = .ok (text (depth + 1) e.2)) ∧
      pairs = entries.map (pairOf depth) := by
  have each : ∀ e ∈ entries, ∃ out, value e.2 (depth + 1) = .ok out := by
    intro e member
    obtain ⟨p, -, -, found⟩ := forall₂_left (mapping_ok.1 written) member
    exact ⟨p.value, found⟩
  rw [mapping_text each, Except.ok.injEq] at written
  refine ⟨fun e member => ?_, written.symm⟩
  obtain ⟨out, found⟩ := each e member
  exact value_text found

abbrev entryText (depth : Nat) (e : Bytes × Val T) : Bytes := textKey e.1 ++ text (depth + 1) e.2

theorem writePairs_text (entries : List (Bytes × Val T)) (depth : Nat) :
    writePairs (entries.map (pairOf depth)) = head .map entries.length ++
      (Rows.orderBy entryOrder entries).flatMap (entryText depth) := by
  rw [writePairs, List.length_map, Rows.orderBy_map, List.flatMap_map]

theorem value_total {v : Val T} (plain : Plain v)
    (shallow : depth + deep 0 v ≤ maxDepth) : ∃ out, value v depth = .ok out := by
  induction v using Val.ind generalizing depth with
  | pointer elem p ih =>
    cases p with
    | none => exact ⟨_, by rw [value, if_neg (by omega)]⟩
    | some v =>
      rw [deep] at shallow
      have inner : depth + deep 0 v ≤ maxDepth := by omega
      obtain ⟨out, written⟩ := ih v rfl plain.1 inner
      exact ⟨out, by rw [value, if_neg (by omega), written]⟩
  | slice elem items ih =>
    rw [value_slice (by omega)]
    have each : ∀ v ∈ items.getD [], ∃ out, value v (depth + 1) = .ok out := by
      cases items with
      | none => simp
      | some items =>
        have plain := itemsPlain_iff.1 plain
        rw [deep] at shallow
        have inner := itemsDeep_le.1 (Nat.le_sub_of_add_le' shallow)
        intro v member
        have below := inner v member
        exact ih v member (plain v member) (by omega)
    exact ⟨_, by rw [sequence_text each]; rfl⟩
  | map stringKeys elem entries ih =>
    obtain rfl : stringKeys = true := by
      cases entries with
      | none => exact plain
      | some entries => exact plain.1
    rw [value_map (by omega)]
    have each : ∀ e ∈ entries.getD [], ∃ out, value e.2 (depth + 1) = .ok out := by
      cases entries with
      | none => simp
      | some entries =>
        have plain := entriesPlain_iff.1 plain.2
        rw [deep] at shallow
        have inner := entriesDeep_le.1 (Nat.le_sub_of_add_le' shallow)
        intro e member
        have below := inner e member
        exact ih e member (plain e member) (by omega)
    exact ⟨_, by rw [mapping_text each]; rfl⟩
  | struct fields ih =>
    have each := fieldsPlain_iff.1 plain.2
    rw [deep] at shallow
    have inner := fieldsDeep_le.1 (Nat.le_sub_of_add_le' shallow)
    have each' : ∀ e ∈ members fields, ∃ out, value e.2 (depth + 1) = .ok out := by
      intro e member
      obtain ⟨f, among, -⟩ := mem_members.1 member
      have below := inner _ among
      exact ih _ among (each _ among).2 (by omega)
    exact ⟨_, (value_struct (by omega)).2 (by rw [mapping_text each']; rfl)⟩
  | raw | interface | array | other => exact plain.elim
  | _ => exact ⟨_, by rw [value, if_neg (by omega)]⟩

theorem head_first (major : Major) (arg : Nat) : ∃ ai < 32, ∃ tail,
    head major arg = (major.code <<< 5 ||| UInt8.ofNat ai) :: tail := by
  unfold head
  split
  · next tiny => exact ⟨arg, by omega, _, rfl⟩
  split
  · exact ⟨24, by decide, _, rfl⟩
  split
  · exact ⟨25, by decide, _, rfl⟩
  split
  · exact ⟨26, by decide, _, rfl⟩
  · exact ⟨27, by decide, _, rfl⟩

theorem header_major {hd body' : Bytes} {major major' : Major} {arg arg' : Nat}
    (header : Header hd major arg) (same : hd ++ body = head major' arg' ++ body') :
    major = major' := by
  obtain ⟨ai, below, tail, first⟩ := head_first major' arg'
  rw [first] at same
  have read := header 0 body
  rw [same, Decoder.head] at read
  simp only [List.cons_append, bind_ok] at read
  obtain ⟨⟨found, after⟩, -, read⟩ := read
  split at read
  · cases read
  · simp only [pure_ok, Prod.mk.injEq] at read
    rw [← read.1, (first_byte major' ai below).1]

theorem value_nonempty {v : Val T} (written : value v depth = .ok out)
    (small : out.length < 2 ^ 64) : 0 < out.length :=
  item_nonempty (writes v depth out written small).1

theorem value_starts {v : Val T} (plain : Plain v) (pointed : ∀ elem, v ≠ .pointer elem none) (written : value v depth = .ok out) (small : out.length < 2 ^ 64) :
    ∃ hd major arg body, Header hd major arg ∧ out = hd ++ body ∧
      ¬ (major = .simple ∧ arg = simpleNull) := by
  have formed := (writes v depth out written small).1
  have shallow := value_depth written
  rw [ample, levelsAt_succ shallow, Nat.add_right_comm] at formed
  obtain ⟨hd, major, arg, body, header, rfl, -⟩ := formed
  refine ⟨hd, major, arg, body, header, rfl, ?_⟩
  have other : ∀ (major' : Major) (arg' : Nat) (body' : Bytes), major' ≠ .simple →
      head major' arg' ++ body' = hd ++ body → ¬ (major = .simple ∧ arg = simpleNull) := by
    rintro major' arg' body' compound same ⟨rfl, -⟩
    exact compound (header_major header same.symm).symm
  have deep := not_lt.2 shallow
  induction v using Val.ind with
  | bool b =>
    rw [value, if_neg deep, Except.ok.injEq, ← List.append_nil (head _ _)] at written
    have allowed : Allowed .simple (if b = true then simpleTrue else simpleFalse) :=
      ⟨by cases b <;> decide, by decide, fun _ => by cases b <;> simp⟩
    obtain ⟨-, -, rfl, -⟩ := header_unique header (header_head allowed) written.symm
    cases b <;> simp [simpleTrue, simpleFalse, simpleNull]
  | uint bits n =>
    rw [value, if_neg deep, Except.ok.injEq, ← List.append_nil (head _ _)] at written
    exact other _ _ _ (by decide) written
  | int bits n =>
    rw [value, if_neg deep, Except.ok.injEq] at written
    split at written <;> rw [← List.append_nil (head _ _)] at written
    · exact other _ _ _ (by decide) written
    · exact other _ _ _ (by decide) written
  | string | bytes =>
    rw [value, if_neg deep, Except.ok.injEq] at written
    exact other _ _ _ (by decide) written
  | pointer elem p ih =>
    cases p with
    | none => exact absurd rfl (pointed elem)
    | some v =>
      rw [value, if_neg deep] at written
      exact ih v rfl plain.1 plain.2 written
  | slice elem items ih =>
    rw [value_slice shallow, map_ok] at written
    obtain ⟨_, -, written⟩ := written
    exact other _ _ _ (by decide) written
  | map stringKeys elem entries ih =>
    obtain rfl : stringKeys = true := by
      cases entries with
      | none => exact plain
      | some entries => exact plain.1
    rw [value_map shallow, map_ok] at written
    obtain ⟨_, -, written⟩ := written
    exact other _ _ _ (by decide) written
  | struct fields ih =>
    rw [value_struct shallow, map_ok] at written
    obtain ⟨_, -, written⟩ := written
    exact other _ _ _ (by decide) written
  | raw | interface | array | other => exact plain.elim

end Encoder

end AppleDM.Cbor
