import AppleDM.Cbor.Restored

set_option autoImplicit false

namespace AppleDM.Cbor

open Mdm Checked Wire Related Decoder

variable {out : Bytes}

namespace Decoder

open Val Encoder

variable (t : Types)

def Ready (target v : Val t.Name) : Prop := target.isZero = true ∨ Typed t target ∧ Total v

def Decodes (v : Val t.Name) : Prop :=
  ∀ depth out, Encoder.value v depth = .ok out → out.length < 2 ^ 64 → ∀ fuel, deep 1 v < fuel →
    ∀ target, typeOf target = typeOf v → Ready t target v → ∀ off rest,
      Decoder.value t fuel target depth ⟨off, out ++ rest⟩ =
        .ok (restored v, ⟨off + out.length, rest⟩)

variable {t}

theorem value_assign {target : Val t.Name} {depth fuel off : Nat} {major : Major} {arg : Nat}
    {rest : Bytes} (shallow : depth ≤ maxDepth) (allowed : Allowed major arg)
    (present : ¬ (major = .simple ∧ arg = simpleNull)) (kept : typeOf target ≠ .raw)
    (direct : ∀ elem, typeOf target ≠ .pointer elem) :
    Decoder.value t (fuel + 1) target depth ⟨off, Encoder.head major arg ++ rest⟩ =
      assign (Decoder.value t fuel) target major arg depth
        ⟨off + (Encoder.head major arg).length, rest⟩ := by
  have read := header_head allowed off rest
  have checked : reject (depth > maxDepth) Error.depth = .ok () := by
    rw [reject, if_neg (by omega)]
  rw [Decoder.value, checked, ok_bind, read, ok_bind]
  · exact if_neg present
  · exact fun data same => kept (by rw [same, typeOf])
  · exact fun elem p same => direct elem (by rw [same, typeOf])

theorem bytes_at (b rest : Bytes) (off : Nat) :
    Decoder.bytes ⟨off, b ++ rest⟩ b.length = .ok (b, ⟨off + b.length, rest⟩) :=
  bytes_reads.2 ⟨rfl, rfl, rfl⟩

theorem key_at {name : Bytes} (small : name.length < 2 ^ 64) (off : Nat) (rest : Bytes) :
    Decoder.key ⟨off, textKey name ++ rest⟩ = .ok (name, ⟨off + (textKey name).length, rest⟩) :=
  key_reads.2 ⟨_, header_head (allowed_length small (by decide) (by decide)), rfl, rfl⟩

variable {perItem : Nat}

theorem fits_at {d : Decoder} {n : Nat} (enough : n ≤ d.rest.length / perItem) :
    d.fits n perItem = .ok n :=
  fits_iff.2 ⟨rfl, enough⟩

variable {depth : Nat} {read : Reading t} {zero : Val t.Name}

def Reads (read : Reading t) (depth : Nat) (target v : Val t.Name) : Prop :=
  ∀ off rest, read target (depth + 1) ⟨off, text (depth + 1) v ++ rest⟩ =
    .ok (restored v, ⟨off + (text (depth + 1) v).length, rest⟩)

theorem elements_run {items : List (Val t.Name)}
    (each : ∀ v ∈ items, Reads read depth zero v) (off : Nat) (rest : Bytes) :
    times items.length (element read zero depth)
        ([], ⟨off, items.flatMap (text (depth + 1)) ++ rest⟩) =
      .ok (items.map restored, ⟨off + (items.flatMap (text (depth + 1))).length, rest⟩) := by
  have run := times_run items (element read zero depth)
    (fun done => (done.map restored, Cursor.along (text (depth + 1)) items off rest done))
  simp only [List.map_nil, Cursor.along_nil, Cursor.along_all] at run
  refine run fun done v todo whole => ?_
  obtain ⟨left, before, after⟩ := Cursor.along_next (text (depth + 1)) items off rest whole
  simp only [element, before, after, each v (by simp [whole]) _ _, ok_bind]
  simp [pure, Except.pure]

theorem entries_run {entries : List (Bytes × Val t.Name)} (distinct : (entries.map (·.1)).Nodup)
    (names : ∀ e ∈ entries, e.1.length < 2 ^ 64)
    (each : ∀ e ∈ entries, Reads read depth zero e.2) (off : Nat) (rest : Bytes) :
    times entries.length (entry read zero depth)
        ([], ⟨off, entries.flatMap (entryText depth) ++ rest⟩) =
      .ok (entries.map fun e => (e.1, restored e.2),
        ⟨off + (entries.flatMap (entryText depth)).length, rest⟩) := by
  have run := times_run entries (entry read zero depth)
    (fun done => (done.map fun e => (e.1, restored e.2),
      Cursor.along (entryText depth) entries off rest done))
  simp only [List.map_nil, Cursor.along_nil, Cursor.along_all] at run
  refine run fun done e todo whole => ?_
  have member : e ∈ entries := by simp [whole]
  obtain ⟨left, before, after⟩ := Cursor.along_next (entryText depth) entries off rest whole
  have fresh : e.1 ∉ (done.map fun e => (e.1, restored e.2)).map (·.1) := by
    rw [whole, List.map_append, List.map_cons] at distinct
    rw [List.map_map]
    intro found
    exact (List.nodup_append.1 distinct).2.2 e.1 found e.1 (by simp) rfl
  simp only [entry, before, after, entryText, List.append_assoc, key_at (names e member), ok_bind,
    reject, if_neg fresh, each e member _ _]
  simp [pure, Except.pure, Nat.add_assoc]

section Struct

def fieldsAfter (done : List (Bytes × Val t.Name)) (fields targets : List (Field × Val t.Name)) :
    List (Field × Val t.Name) :=
  List.zipWith (fun f g => (f.1,
    if f.1.encodedName ∈ done.map fun m => some m.1 then restored f.2 else g.2)) fields targets

abbrev Aligned (fields targets : List (Field × Val t.Name)) : Prop :=
  List.Forall₂ (fun f g => g.1 = f.1 ∧ typeOf g.2 = typeOf f.2) fields targets

theorem aligned_of_types {fields targets : List (Field × Val t.Name)}
    (same : fieldTypes targets = fieldTypes fields) : Aligned fields targets := by
  rw [fieldTypes_eq, fieldTypes_eq, eq_comm, ← List.forall₂_eq_eq_eq, List.forall₂_map_left_iff,
    List.forall₂_map_right_iff] at same
  exact same.imp fun f g both => ⟨(Prod.mk.inj both).1.symm, (Prod.mk.inj both).2.symm⟩

variable {fields targets : List (Field × Val t.Name)} {done : List (Bytes × Val t.Name)}

theorem members_nodup (distinct : (fields.map (·.1.encodedName)).Nodup) :
    ((members fields).map (·.1)).Nodup := by
  have inside : ((members fields).map fun m => some m.1).Sublist
      (fields.map (·.1.encodedName)) := by
    clear distinct
    induction fields with
    | nil => simp [members]
    | cons f rest ih =>
      cases named : f.1.encodedName with
      | none => simpa [members, named] using ih.cons none
      | some name =>
        by_cases omitted : f.1.omitempty ∧ f.2.isZero
        · simpa [members, named, omitted] using ih.cons (some name)
        · simpa [members, named, omitted] using ih
  have names := inside.nodup distinct
  rw [show (fun m : Bytes × Val t.Name => some m.1) = some ∘ (·.1) from rfl, ← List.map_map] at names
  exact names.of_map some

theorem fieldsAfter_nil (aligned : Aligned fields targets) : fieldsAfter [] fields targets = targets := by
  induction aligned with
  | nil => rfl
  | cons first _ ih =>
    rw [fieldsAfter, List.zipWith_cons_cons]
    rw [fieldsAfter] at ih
    rw [ih, ← first.1]
    simp

theorem fieldsAfter_fst (aligned : Aligned fields targets) :
    (fieldsAfter done fields targets).map (·.1) = fields.map (·.1) := by
  induction aligned with
  | nil => rfl
  | cons first _ ih =>
    rw [fieldsAfter] at ih
    simp [fieldsAfter, ih]

theorem fieldsAfter_other {m : Bytes × Val t.Name}
    (other : ∀ f ∈ fields, f.1.encodedName ≠ some m.1) :
    fieldsAfter (done ++ [m]) fields targets = fieldsAfter done fields targets := by
  induction fields generalizing targets with
  | nil => rfl
  | cons f rest ih =>
    simp only [List.mem_cons, forall_eq_or_imp] at other
    cases targets with
    | nil => rfl
    | cons g targets =>
      rw [fieldsAfter, fieldsAfter, List.zipWith_cons_cons, List.zipWith_cons_cons]
      congr 1
      · simp only [List.map_append, List.map_cons, List.map_nil, List.mem_append,
          List.mem_singleton, other.1, or_false]
      · exact ih other.2

theorem fieldsOf_here {before after : List (Field × Val t.Name)} {f : Field} {w : Val t.Name}
    {key : Bytes} (named : f.encodedName = some key)
    (other : ∀ g ∈ before ++ after, g.1.encodedName ≠ some key) :
    fieldsOf (before ++ (f, w) :: after) key = some ((f, w), before.length) := by
  have skipped : ∀ (found : Option ((Field × Val t.Name) × Nat)) (gs : List (Field × Val t.Name))
      (start : Nat), (∀ g ∈ gs, g.1.encodedName ≠ some key) →
      (gs.zipIdx start).foldl
        (fun found field => if field.1.1.encodedName = some key then some field else found) found =
          found := by
    intro found gs
    induction gs with
    | nil => simp
    | cons g rest ih =>
      intro start none_
      simp only [List.mem_cons, forall_eq_or_imp] at none_
      simp only [List.zipIdx_cons, List.foldl_cons, none_.1, if_false]
      exact ih (start + 1) none_.2
  rw [fieldsOf, List.zipIdx_append, List.foldl_append,
    skipped none before 0 fun g member => other g (by simp [member]), List.zipIdx_cons,
    List.foldl_cons, skipped _ after _ fun g member => other g (by simp [member]), if_pos named]
  simp

theorem member_step (aligned : Aligned fields targets)
    (distinct : (fields.map (·.1.encodedName)).Nodup) {m : Bytes × Val t.Name}
    (member_ : m ∈ members fields) (fresh : m.1 ∉ done.map (·.1)) (small : m.1.length < 2 ^ 64)
    (each : ∀ f g, (f, g) ∈ fields.zip targets → f.2 = m.2 → Reads read depth g.2 m.2)
    (off : Nat) (rest : Bytes) :
    member read depth ⟨(done.map (·.1)).reverse, fieldsAfter done fields targets,
        ⟨off, entryText depth m ++ rest⟩⟩ =
      .ok ⟨((done ++ [m]).map (·.1)).reverse, fieldsAfter (done ++ [m]) fields targets,
        ⟨off + (entryText depth m).length, rest⟩⟩ := by
  obtain ⟨f, among, named, -⟩ := mem_members.1 member_
  obtain ⟨before, after, rfl⟩ := List.append_of_mem among
  obtain ⟨before', ⟨f', w⟩, after', rfl, front, ⟨same, -⟩, back⟩ := forall₂_split aligned
  dsimp only at same
  subst same
  have other : ∀ g ∈ before ++ after, g.1.encodedName ≠ some m.1 := by
    intro g found
    have moved : (before ++ (f', m.2) :: after).Perm ((f', m.2) :: (before ++ after)) :=
      List.perm_middle
    have apart := (moved.map fun g => g.1.encodedName).nodup_iff.1 distinct
    rw [List.map_cons, List.nodup_cons, named] at apart
    exact fun clash => apart.1 (List.mem_map.2 ⟨g, found, clash⟩)
  have unread : f'.encodedName ∉ done.map fun m => some m.1 := by
    rw [named]
    intro found
    obtain ⟨m', earlier, same⟩ := List.mem_map.1 found
    exact fresh (List.mem_map.2 ⟨m', earlier, Option.some.inj same⟩)
  have split : ∀ done : List (Bytes × Val t.Name),
      fieldsAfter done (before ++ (f', m.2) :: after) (before' ++ (f', w) :: after') =
        fieldsAfter done before before' ++
          (f', if f'.encodedName ∈ done.map fun m => some m.1 then restored m.2 else w) ::
            fieldsAfter done after after' := by
    intro done
    rw [fieldsAfter, List.zipWith_append front.length_eq, List.zipWith_cons_cons]
    rfl
  have names : ∀ g ∈ fieldsAfter done before before' ++ fieldsAfter done after after',
      g.1.encodedName ≠ some m.1 := by
    intro g found
    have among : g.1 ∈ (before ++ after).map (·.1) := by
      rw [List.map_append, ← fieldsAfter_fst front, ← fieldsAfter_fst back, ← List.map_append]
      exact List.mem_map.2 ⟨g, found, rfl⟩
    obtain ⟨g', among', same⟩ := List.mem_map.1 among
    rw [← same]
    exact other g' among'
  have here := each (f', m.2) (f', w) (by simp [List.zip_append front.length_eq]) rfl
  rw [split, split, if_neg unread, fieldsAfter_other fun g found => other g (by simp [found]),
    fieldsAfter_other fun g found => other g (by simp [found])]
  simp only [member, entryText, List.append_assoc, key_at small, ok_bind, reject, List.mem_reverse,
    if_neg fresh, fieldsOf_here named names, here _ _]
  simp [Except.mapError, pure, Except.pure, named, Nat.add_assoc]

theorem members_run (aligned : Aligned fields targets)
    (distinct : (fields.map (·.1.encodedName)).Nodup) {ms : List (Bytes × Val t.Name)}
    (inside : ∀ m ∈ ms, m ∈ members fields) (once : (ms.map (·.1)).Nodup)
    (names : ∀ m ∈ ms, m.1.length < 2 ^ 64)
    (each : ∀ m ∈ ms, ∀ f g, (f, g) ∈ fields.zip targets → f.2 = m.2 → Reads read depth g.2 m.2)
    (off : Nat) (rest : Bytes) :
    structured read targets ms.length depth ⟨off, ms.flatMap (entryText depth) ++ rest⟩ =
      .ok (.struct (fieldsAfter ms fields targets),
        ⟨off + (ms.flatMap (entryText depth)).length, rest⟩) := by
  have run := times_run ms (member read depth)
    (fun done => ⟨(done.map (·.1)).reverse, fieldsAfter done fields targets,
      Cursor.along (entryText depth) ms off rest done⟩)
  simp only [List.map_nil, List.reverse_nil, fieldsAfter_nil aligned, Cursor.along_nil,
    Cursor.along_all] at run
  rw [structured, run fun done m todo whole => ?_]
  · rfl
  have member_ : m ∈ ms := by simp [whole]
  have fresh : m.1 ∉ done.map (·.1) := by
    rw [whole, List.map_append, List.map_cons] at once
    exact fun found => (List.nodup_append.1 once).2.2 m.1 found m.1 (by simp) rfl
  obtain ⟨left, before, after⟩ := Cursor.along_next (entryText depth) ms off rest whole
  rw [before, after]
  exact member_step aligned distinct (inside m member_) fresh (names m member_) (each m member_) _ _

theorem fieldsAfter_members (aligned : Aligned fields targets)
    (distinct : (fields.map (·.1.encodedName)).Nodup) {ms : List (Bytes × Val t.Name)}
    (all : ∀ m, m ∈ ms ↔ m ∈ members fields)
    (named : ∀ f ∈ fields, f.1.encodedName.isSome)
    (left : ∀ f g, (f, g) ∈ fields.zip targets → f.1.omitempty ∧ f.2.isZero → g.2 = f.2) :
    fieldsAfter ms fields targets = fieldsRestored fields := by
  have written : ∀ f ∈ fields, f.1.encodedName ∈ (ms.map fun m => some m.1) ↔
      ¬ (f.1.omitempty ∧ f.2.isZero) := by
    intro f member_
    obtain ⟨name, same⟩ := Option.isSome_iff_exists.1 (named f member_)
    rw [same, List.mem_map]
    constructor
    · rintro ⟨m, found, alike⟩
      obtain ⟨f', among, same', present⟩ := mem_members.1 ((all m).1 found)
      have one : (f', m.2) = f := List.inj_on_of_nodup_map distinct among member_ (by
        rw [same', same, alike])
      rw [← one]
      exact present
    · intro present
      exact ⟨(name, f.2), (all _).2 (mem_members.2 ⟨f.1, member_, same, present⟩), rfl⟩
  rw [fieldsRestored_eq, fieldsAfter]
  clear distinct all named
  induction aligned with
  | nil => rfl
  | @cons f g _ _ first _ ih =>
    simp only [List.zip_cons_cons, List.mem_cons, forall_eq_or_imp] at left written
    rw [List.zipWith_cons_cons, List.map_cons, ih (fun f g pair => left f g (.inr pair)) written.2]
    congr 2
    by_cases omitted : f.1.omitempty ∧ f.2.isZero
    · rw [if_neg fun found => written.1.1 found omitted, if_pos omitted]
      exact left f g (.inl rfl) omitted
    · rw [if_pos (written.1.2 omitted), if_neg omitted]

end Struct

section Value

theorem ready_zero (elem : t.Name) (v : Val t.Name) : Ready t (t.zero elem) v :=
  .inl (t.isZero_zero elem)

theorem items_fit {X : Type} {enc : X → Bytes} {items : List X}
    (each : ∀ x ∈ items, perItem ≤ (enc x).length) :
    items.length * perItem ≤ (items.flatMap enc).length := by
  have pieces : ∀ piece ∈ items.map enc, perItem ≤ piece.length := by
    intro piece member
    obtain ⟨x, among, rfl⟩ := List.mem_map.1 member
    exact each x among
  have enough := length_le_flatten pieces
  rwa [List.length_map] at enough

theorem length_le_flatMap {X : Type} (enc : X → Bytes) {items : List X} {x : X}
    (member : x ∈ items) : (enc x).length ≤ (items.flatMap enc).length :=
  length_le_of_mem (List.mem_map.2 ⟨x, member, rfl⟩)

theorem decodes_slice {elem : t.Name} {items : Option (List (Val t.Name))}
    (ih : ∀ v ∈ items.getD [], Decodes t v)
    (typed : ∀ v ∈ items.getD [], typeOf v = typeOf (t.zero elem)) :
    Decodes t (.slice elem items) := by
  intro depth out written small fuel enough target same ready off rest
  have shallow := value_depth written
  obtain ⟨old, rfl⟩ : ∃ old, target = .slice elem old := by
    cases target <;> simp_all [typeOf]
  rw [value_slice shallow, map_ok] at written
  obtain ⟨body, seq, rfl⟩ := written
  obtain ⟨each, rfl⟩ := sequence_known seq
  obtain ⟨fuel, rfl⟩ : ∃ more, fuel = more + 1 := ⟨fuel - 1, by omega⟩
  have deeper : ∀ v ∈ items.getD [], deep 1 v + 1 ≤ fuel := by
    have inner : deep 1 (.slice elem items : Val t.Name) = itemsDeep 1 (items.getD []) := by
      cases items <;> rfl
    exact itemsDeep_le.1 (by omega)
  have result : restored (.slice elem items) = .slice elem (some ((items.getD []).map restored)) := by
    cases items <;> simp [restored, itemsRestored_eq]
  rw [result]
  generalize items.getD [] = items at *
  rw [List.length_append] at small
  have short : ∀ v ∈ items, (text (depth + 1) v).length < 2 ^ 64 := fun v member => by
    have inside := length_le_flatMap (text (depth + 1)) member
    omega
  have room : items.length * 1 ≤ (items.flatMap (text (depth + 1))).length :=
    items_fit fun v member => value_nonempty (each v member) (short v member)
  have reads : ∀ v ∈ items, Reads (Decoder.value t fuel) depth (t.zero elem) v :=
    fun v member => ih v member (depth + 1) _ (each v member) (short v member) fuel
      (deeper v member) (t.zero elem) (typed v member).symm (ready_zero elem v)
  have allowed : Allowed .array items.length := allowed_length (by omega) (by decide) (by decide)
  have fits : Decoder.fits ⟨off + (Encoder.head .array items.length).length,
      items.flatMap (text (depth + 1)) ++ rest⟩ items.length 1 = .ok items.length :=
    fits_at (by simp only [Nat.div_one, List.length_append]; omega)
  rw [List.append_assoc, value_assign shallow allowed (by simp) (by simp [typeOf])
    (by simp [typeOf])]
  simp only [assign, array, fits, ok_bind, elements_run reads]
  simp [pure, Except.pure, Nat.add_assoc]

structure Laid (depth : Nat) (entries : List (Bytes × Val t.Name)) (out : Bytes) : Prop where
  written : out = Encoder.head .map entries.length ++
    (Rows.orderBy entryOrder entries).flatMap (entryText depth)
  values : ∀ e ∈ entries, Encoder.value e.2 (depth + 1) = .ok (text (depth + 1) e.2)
  short : ∀ e ∈ entries, (text (depth + 1) e.2).length < 2 ^ 64
  names : ∀ e ∈ entries, e.1.length < 2 ^ 64
  allowed : Allowed .map entries.length
  room : entries.length * 2 ≤ ((Rows.orderBy entryOrder entries).flatMap (entryText depth)).length

variable {entries : List (Bytes × Val t.Name)}

theorem laid (written : (writePairs <$> Encoder.mapping entries depth) = .ok out)
    (small : out.length < 2 ^ 64) :
    Laid depth entries out := by
  rw [map_ok] at written
  obtain ⟨pairs, mapped, rfl⟩ := written
  obtain ⟨each, rfl⟩ := mapping_known mapped
  have perm : (Rows.orderBy entryOrder entries).Perm entries := Rows.perm_orderBy entries
  rw [writePairs_text, List.length_append] at small
  have inside : ∀ e ∈ entries, (entryText depth e).length < 2 ^ 64 := fun e member => by
    have part := length_le_flatMap (entryText depth) (perm.mem_iff.2 member)
    omega
  have short : ∀ e ∈ entries, (text (depth + 1) e.2).length < 2 ^ 64 := fun e member => by
    have part := inside e member
    rw [List.length_append] at part
    omega
  have room : (Rows.orderBy entryOrder entries).length * 2 ≤
      ((Rows.orderBy entryOrder entries).flatMap (entryText depth)).length := by
    refine items_fit fun e member => ?_
    have member := perm.mem_iff.1 member
    have value := value_nonempty (each e member) (short e member)
    have key : 0 < (textKey e.1).length := by
      rw [length_textKey, textSize, headSize]
      split_ifs <;> omega
    rw [List.length_append]
    omega
  rw [perm.length_eq] at room
  refine ⟨writePairs_text entries depth, each, short, fun e member => ?_,
    allowed_length (by omega) (by decide) (by decide), room⟩
  have part := inside e member
  simp only [entryText, textKey, List.length_append] at part
  omega

theorem Laid.fits (laid : Laid depth entries out) (off : Nat) (rest : Bytes) :
    Decoder.fits ⟨off, (Rows.orderBy entryOrder entries).flatMap (entryText depth) ++ rest⟩
      entries.length 2 = .ok entries.length := by
  have room := laid.room
  refine fits_at ?_
  rw [Nat.le_div_iff_mul_le Nat.two_pos, List.length_append]
  omega

theorem decodes_map {elem : t.Name} {entries : Option (List (Bytes × Val t.Name))}
    (distinct : ((entries.getD []).map (·.1)).Nodup)
    (ih : ∀ e ∈ entries.getD [], Decodes t e.2)
    (typed : ∀ e ∈ entries.getD [], typeOf e.2 = typeOf (t.zero elem)) :
    Decodes t (.map true elem entries) := by
  intro depth out written small fuel enough target same ready off rest
  have shallow := value_depth written
  obtain ⟨old, rfl⟩ : ∃ old, target = .map true elem old := by
    cases target <;> simp_all [typeOf]
  rw [value_map shallow] at written
  have layout := laid written small
  obtain ⟨fuel, rfl⟩ : ∃ more, fuel = more + 1 := ⟨fuel - 1, by omega⟩
  have deeper : ∀ e ∈ entries.getD [], deep 1 e.2 + 1 ≤ fuel := by
    have inner : deep 1 (.map true elem entries : Val t.Name) = entriesDeep 1 (entries.getD []) := by
      cases entries <;> rfl
    exact entriesDeep_le.1 (by omega)
  have result : restored (.map true elem entries) = .map true elem (some
      ((Rows.orderBy entryOrder (entries.getD [])).map fun e => (e.1, restored e.2))) := by
    cases entries with
    | none => rfl
    | some entries =>
      rw [restored, entriesRestored_eq]
      exact congrArg (fun sorted => Val.map true elem (some sorted))
        (orderBy_entries distinct (.refl _))
  rw [result]
  generalize entries.getD [] = entries at *
  have perm : (Rows.orderBy entryOrder entries).Perm entries := Rows.perm_orderBy entries
  have reads : ∀ e ∈ Rows.orderBy entryOrder entries,
      Reads (Decoder.value t fuel) depth (t.zero elem) e.2 := fun e member =>
    have member := perm.mem_iff.1 member
    ih e member (depth + 1) _ (layout.values e member) (layout.short e member) fuel (deeper e member)
      (t.zero elem) (typed e member).symm (ready_zero elem e.2)
  have run := entries_run ((perm.map (·.1)).nodup_iff.2 distinct)
    (fun e member => layout.names e (perm.mem_iff.1 member)) reads
  rw [perm.length_eq] at run
  rw [layout.written, List.append_assoc, value_assign shallow layout.allowed (by simp)
    (by simp [typeOf]) (by simp [typeOf])]
  simp only [assign, mapping, layout.fits, ok_bind, run]
  simp [reject, pure, Except.pure, Nat.add_assoc]

theorem decodes_struct {fields : List (Field × Val t.Name)}
    (distinct : (fields.map (·.1.encodedName)).Nodup)
    (plain : ∀ f ∈ fields, f.1.encodedName.isSome ∧ Plain f.2)
    (ih : ∀ f ∈ fields, Decodes t f.2) : Decodes t (.struct fields) := by
  intro depth out written small fuel enough target same ready off rest
  have shallow := value_depth written
  obtain ⟨targets, rfl⟩ : ∃ targets, target = .struct targets := by
    cases target <;> simp_all [typeOf]
  rw [value_struct shallow] at written
  have layout := laid written small
  obtain ⟨fuel, rfl⟩ : ∃ more, fuel = more + 1 := ⟨fuel - 1, by omega⟩
  have deeper := fieldsDeep_le.1 (Nat.le_of_lt_succ enough : fieldsDeep 1 fields ≤ fuel)
  have aligned : Aligned fields targets := by
    rw [typeOf, typeOf, Ty.struct.injEq] at same
    exact aligned_of_types same
  have ready' : ∀ f g, (f, g) ∈ fields.zip targets → Ready t g.2 f.2 := by
    intro f g pair
    have inside := List.of_mem_zip pair
    rcases ready with zero | ⟨typed, total⟩
    · exact .inl (fieldsZero_iff.1 zero g inside.2)
    · exact .inr ⟨fieldsTyped_iff.1 typed g inside.2, (fieldsTotal_iff.1 total f inside.1).2⟩
  have left : ∀ f g, (f, g) ∈ fields.zip targets → f.1.omitempty ∧ f.2.isZero → g.2 = f.2 := by
    rintro f g pair ⟨omitted, zero'⟩
    have inside := List.of_mem_zip pair
    rcases ready with zero | ⟨-, total⟩
    · exact isZero_unique (plain f inside.1).2 (fieldsZero_iff.1 zero g inside.2) zero'
        (List.forall₂_zip aligned pair).2
    · rw [(fieldsTotal_iff.1 total f inside.1).1] at omitted
      cases omitted
  have perm : (Rows.orderBy entryOrder (members fields)).Perm (members fields) :=
    Rows.perm_orderBy _
  have once := members_nodup distinct
  have reads : ∀ m ∈ Rows.orderBy entryOrder (members fields), ∀ f g,
      (f, g) ∈ fields.zip targets → f.2 = m.2 → Reads (Decoder.value t fuel) depth g.2 m.2 := by
    intro m member f g pair same
    have member := perm.mem_iff.1 member
    have inside := List.of_mem_zip pair
    rw [← same]
    have values := layout.values m member
    have short := layout.short m member
    rw [← same] at values short
    exact ih f inside.1 (depth + 1) _ values short fuel (deeper f inside.1) g.2
      (List.forall₂_zip aligned pair).2 (ready' f g pair)
  have run := members_run aligned distinct (fun m member => perm.mem_iff.1 member)
    ((perm.map (·.1)).nodup_iff.2 once) (fun m member => layout.names m (perm.mem_iff.1 member)) reads
  rw [perm.length_eq, fieldsAfter_members aligned distinct (fun m => perm.mem_iff)
    (fun f member => (plain f member).1) left] at run
  rw [layout.written, List.append_assoc, value_assign shallow layout.allowed (by simp)
    (by simp [typeOf]) (by simp [typeOf])]
  simp only [assign, mapping, layout.fits, ok_bind, run]
  simp [restored, Nat.add_assoc]

theorem decodes_head {v : Val t.Name} (major : Major) (arg : Nat) (body : Bytes)
    (encoded : ∀ depth ≤ maxDepth, Encoder.value v depth = .ok (Encoder.head major arg ++ body))
    (allowed : body.length < 2 ^ 64 → Allowed major arg)
    (direct : ¬ (major = .simple ∧ arg = simpleNull) ∧ typeOf v ≠ .raw ∧ ∀ elem, typeOf v ≠ .pointer elem)
    (assigned : ∀ fuel target depth off rest, typeOf target = typeOf v →
      assign (Decoder.value t fuel) target major arg depth ⟨off, body ++ rest⟩ =
        .ok (restored v, ⟨off + body.length, rest⟩)) : Decodes t v := by
  intro depth out written small fuel enough target same ready off rest
  have shallow := value_depth written
  obtain ⟨fuel, rfl⟩ : ∃ more, fuel = more + 1 := ⟨fuel - 1, by omega⟩
  obtain rfl := Except.ok.inj ((encoded depth shallow).symm.trans written)
  rw [List.length_append] at small ⊢
  rw [List.append_assoc, value_assign shallow (allowed (by omega)) direct.1 (same ▸ direct.2.1)
    (same ▸ direct.2.2), assigned _ _ _ _ _ same, Nat.add_assoc]

theorem decodes_int {bits : Nat} {n : Int64} (typed : Typed t (.int bits n)) :
    Decodes t (.int bits n) := by
  have below := n.toInt_lt
  have above := n.le_toInt
  obtain ⟨least, most⟩ : -2 ^ (bits - 1) ≤ n.toInt ∧ n.toInt < 2 ^ (bits - 1) := typed
  by_cases negative : n.toInt < 0
  · refine decodes_head .negInt (-1 - n.toInt).toNat []
      (fun _ shallow => by simp [Encoder.value, not_lt.2 shallow, negative])
      (fun _ => allowed_length (by omega) (by decide) (by decide)) (by simp [typeOf])
      fun _ target _ _ _ same => ?_
    have back : (-1 : Int) - ((-1 - n.toInt).toNat : Nat) = n.toInt := by omega
    have inside : ¬ (-1 - n.toInt).toNat > maxInt64 := by unfold maxInt64; omega
    have range : ¬ (n.toInt < -2 ^ (bits - 1) ∨ n.toInt ≥ 2 ^ (bits - 1)) := by omega
    cases target <;> simp only [typeOf, reduceCtorEq, Ty.int.injEq] at same
    subst same
    simp only [assign, reject, if_neg inside, ok_bind, back, setInt, if_neg range]
    simp [restored, Functor.map, Except.map]
  · refine decodes_head .uint n.toInt.toNat []
      (fun _ shallow => by simp [Encoder.value, not_lt.2 shallow, negative])
      (fun _ => allowed_length (by omega) (by decide) (by decide)) (by simp [typeOf])
      fun _ target _ _ _ same => ?_
    have back : (n.toInt.toNat : Int) = n.toInt := by omega
    have range : ¬ (n.toInt.toNat > maxInt64 ∨ n.toInt.toNat ≥ 2 ^ (bits - 1)) := by
      unfold maxInt64
      have cast : ((2 ^ (bits - 1) : Nat) : Int) = 2 ^ (bits - 1) := by push_cast; rfl
      omega
    cases target <;> simp only [typeOf, reduceCtorEq, Ty.int.injEq] at same
    subst same
    simp only [assign, setUint, if_neg range, back]
    simp [restored, Functor.map, Except.map]

theorem decodes_nil (elem : t.Name) : Decodes t (.pointer elem none) := by
  intro depth out written small fuel enough target same ready off rest
  have shallow := value_depth written
  obtain ⟨old, rfl⟩ : ∃ old, target = .pointer elem old := by cases target <;> simp_all [typeOf]
  obtain ⟨fuel, rfl⟩ : ∃ more, fuel = more + 1 := ⟨fuel - 1, by omega⟩
  rw [Encoder.value, if_neg (not_lt.2 shallow), Except.ok.injEq] at written
  subst written
  have allowed : Allowed .simple simpleNull := ⟨by decide, by decide, fun _ => .inr (.inr rfl)⟩
  have read := header_head allowed off rest
  simp only [Decoder.value, reject, if_neg (not_lt.2 shallow), ok_bind, read]
  rfl

theorem decodes_pointer {elem : t.Name} {v : Val t.Name} (ih : Decodes t v) (plain : Plain v)
    (pointed : ∀ elem, v ≠ .pointer elem none) (typed : typeOf v = typeOf (t.zero elem)) :
    Decodes t (.pointer elem (some v)) := by
  intro depth out written small fuel enough target same ready off rest
  have shallow := value_depth written
  obtain ⟨old, rfl⟩ : ∃ old, target = .pointer elem old := by cases target <;> simp_all [typeOf]
  obtain ⟨fuel, rfl⟩ : ∃ more, fuel = more + 1 := ⟨fuel - 1, by omega⟩
  rw [Encoder.value, if_neg (not_lt.2 shallow)] at written
  rw [deep] at enough
  obtain ⟨hd, major, arg, body, header, rfl, present⟩ := value_starts plain pointed written small
  have read := header off (body ++ rest)
  have inner : Decoder.value t fuel (old.getD (t.zero elem)) depth ⟨off, hd ++ body ++ rest⟩ =
      .ok (restored v, ⟨off + (hd ++ body).length, rest⟩) := by
    refine ih depth _ written small fuel (by omega) _ ?_ ?_ off rest
    · cases old with
      | none => exact typed.symm
      | some w =>
        rcases ready with zero | ⟨typed', -⟩
        · cases zero
        · exact typed'.1.trans typed.symm
    · cases old with
      | none => exact ready_zero elem v
      | some w =>
        rcases ready with zero | ⟨typed', total⟩
        · cases zero
        · exact .inr ⟨typed'.2, total⟩
  rw [List.append_assoc] at inner ⊢
  simp only [Decoder.value, reject, if_neg (not_lt.2 shallow), ok_bind, read, if_neg present, inner]
  rfl

theorem decodes {v : Val t.Name} (plain : Plain v) (typed : Typed t v) : Decodes t v := by
  induction v using Val.ind with
  | bool b =>
    refine decodes_head .simple (if b then simpleTrue else simpleFalse) []
      (fun _ shallow => by simp [Encoder.value, not_lt.2 shallow])
      (fun _ => ⟨by cases b <;> decide, by decide, fun _ => by cases b <;> simp⟩)
      (by cases b <;> simp [typeOf, simpleTrue, simpleFalse, simpleNull])
      fun _ target _ _ _ same => ?_
    cases target <;> simp only [typeOf, reduceCtorEq] at same
    cases b <;> rfl
  | uint bits n =>
    refine decodes_head .uint n.toNat []
      (fun _ shallow => by simp [Encoder.value, not_lt.2 shallow])
      (fun _ => allowed_length n.toNat_lt (by decide) (by decide)) (by simp [typeOf])
      fun _ target _ _ _ same => ?_
    have inside : n.toNat < 2 ^ bits := typed
    cases target <;> simp only [typeOf, reduceCtorEq, Ty.uint.injEq] at same
    simp [same, assign, setUint, not_le.2 inside, restored, Functor.map, Except.map]
  | int bits n => exact decodes_int typed
  | string s =>
    refine decodes_head .text s.length s
      (fun _ shallow => by rw [Encoder.value, if_neg (not_lt.2 shallow), textKey])
      (fun small => allowed_length small (by decide) (by decide)) (by simp [typeOf])
      fun _ target _ _ _ same => ?_
    cases target <;> simp only [typeOf, reduceCtorEq] at same
    simp [assign, bytes_at, setText, restored, Functor.map, Except.map]
  | bytes data =>
    refine decodes_head .bytes (data.getD []).length (data.getD [])
      (fun _ shallow => by rw [Encoder.value, if_neg (not_lt.2 shallow)])
      (fun small => allowed_length small (by decide) (by decide)) (by simp [typeOf])
      fun _ target _ _ _ same => ?_
    cases target <;> simp only [typeOf, reduceCtorEq] at same
    simp [assign, bytes_at, setBytes, restored, Functor.map, Except.map]
  | pointer elem p ih =>
    cases p with
    | none => exact decodes_nil elem
    | some v => exact decodes_pointer (ih v rfl plain.1 typed.2) plain.1 plain.2 typed.1
  | slice elem items ih =>
    cases items with
    | none => exact decodes_slice (by simp) (by simp)
    | some items =>
      have each := itemsPlain_iff.1 plain
      have each' := itemsTyped_iff.1 typed
      exact decodes_slice (fun v member => ih v member (each v member) (each' v member).2)
        fun v member => (each' v member).1
  | map stringKeys elem entries ih =>
    cases entries with
    | none =>
      obtain rfl : stringKeys = true := plain
      exact decodes_map (by simp) (by simp) (by simp)
    | some entries =>
      obtain ⟨rfl, plain⟩ := plain
      have each := entriesPlain_iff.1 plain
      have each' := entriesTyped_iff.1 typed.2
      exact decodes_map typed.1 (fun e member => ih e member (each e member) (each' e member).2)
        fun e member => (each' e member).1
  | struct fields ih =>
    have each := fieldsPlain_iff.1 plain.2
    have each' := fieldsTyped_iff.1 typed
    exact decodes_struct plain.1 each fun f member => ih f member (each f member).2 (each' f member)
  | raw | interface | array | other => exact plain.elim

end Value

end Decoder

section Order

open Val Encoder

variable {t : Types}

theorem isZero_arranged (v : Val t.Name) : (arranged false v).isZero = v.isZero := by
  induction v using Val.ind with
  | bytes data => cases data <;> rfl
  | pointer elem p ih | interface p ih => cases p <;> rfl
  | slice elem items ih => cases items <;> rfl
  | map stringKeys elem entries ih => cases entries <;> rfl
  | array elem items ih =>
    have all : ∀ items : List (Val t.Name), (∀ v ∈ items, (arranged false v).isZero = v.isZero) →
        itemsZero (itemsArranged false items) = itemsZero items := by
      intro items each
      induction items with
      | nil => rfl
      | cons v rest ih =>
        simp only [List.mem_cons, forall_eq_or_imp] at each
        rw [itemsArranged, itemsZero, itemsZero, each.1, ih each.2]
    exact all items ih
  | struct fields ih =>
    rw [arranged, Val.isZero, Val.isZero, Bool.eq_iff_iff, fieldsZero_iff, fieldsZero_iff,
      fieldsArranged_eq]
    simp only [List.mem_map, forall_exists_index, and_imp, forall_apply_eq_imp_iff₂]
    exact forall₂_congr fun f member => by rw [ih f member]
  | _ => rfl

theorem members_arranged (fields : List (Field × Val t.Name)) :
    members (fieldsArranged false fields) =
      (members fields).map fun m => (m.1, arranged false m.2) := by
  rw [fieldsArranged_eq, members, members, List.filterMap_map, List.map_filterMap]
  refine List.filterMap_congr fun f member => ?_
  obtain ⟨f, v⟩ := f
  simp only [Function.comp_apply, isZero_arranged]
  cases f.encodedName with
  | none => rfl
  | some name => by_cases omitted : f.omitempty ∧ v.isZero <;> simp [omitted]

def SameText (v w : Val t.Name) : Prop :=
  ∀ depth out, Encoder.value v depth = .ok out ↔ Encoder.value w depth = .ok out

theorem SameText.text {v w : Val t.Name} (same : SameText v w) (depth : Nat) :
    text depth v = text depth w := by
  unfold Encoder.text
  cases first : Encoder.value v depth with
  | ok out => rw [(same depth out).1 first]
  | error e =>
    cases second : Encoder.value w depth with
    | ok out =>
      rw [(same depth out).2 second] at first
      cases first
    | error e' => rfl

theorem pairs_iff {entries : List (Bytes × Val t.Name)} {depth : Nat} :
    (writePairs <$> Encoder.mapping entries depth) = .ok out ↔
      (∀ e ∈ entries, ∃ o, Encoder.value e.2 (depth + 1) = .ok o) ∧
        out = Encoder.head .map entries.length ++
          (Rows.orderBy entryOrder entries).flatMap (entryText depth) := by
  constructor
  · intro written
    rw [map_ok] at written
    obtain ⟨pairs, mapped, rfl⟩ := written
    obtain ⟨each, rfl⟩ := mapping_known mapped
    exact ⟨fun e member => ⟨_, each e member⟩, writePairs_text entries depth⟩
  · rintro ⟨each, rfl⟩
    rw [mapping_text each, ← writePairs_text]
    rfl

theorem pairs_arranged {entries sorted : List (Bytes × Val t.Name)} {depth : Nat}
    (perm : sorted.Perm entries)
    (ordered : Rows.orderBy entryOrder (sorted.map fun e => (e.1, arranged false e.2)) =
      (Rows.orderBy entryOrder entries).map fun e => (e.1, arranged false e.2))
    (same : ∀ e ∈ entries, SameText (arranged false e.2) e.2) :
    (writePairs <$> Encoder.mapping (sorted.map fun e => (e.1, arranged false e.2)) depth) = .ok out ↔
      (writePairs <$> Encoder.mapping entries depth) = .ok out := by
  have exists_ : (∀ e ∈ sorted.map fun e => (e.1, arranged false e.2),
      ∃ o, Encoder.value e.2 (depth + 1) = .ok o) ↔
      ∀ e ∈ entries, ∃ o, Encoder.value e.2 (depth + 1) = .ok o := by
    simp only [List.mem_map, forall_exists_index, and_imp, forall_apply_eq_imp_iff₂, perm.mem_iff]
    exact forall₂_congr fun e member => exists_congr fun o => same e member _ o
  have texts : ((Rows.orderBy entryOrder entries).map fun e => (e.1, arranged false e.2)).flatMap
      (entryText depth) = (Rows.orderBy entryOrder entries).flatMap (entryText depth) := by
    rw [List.flatMap_map, List.flatMap, List.flatMap]
    congr 1
    refine List.map_congr_left fun e member => ?_
    have member := (Rows.perm_orderBy entries).mem_iff.1 member
    rw [entryText, entryText, (same e member).text]
  rw [pairs_iff, pairs_iff, exists_, List.length_map, perm.length_eq, ordered, texts]

theorem sequence_arranged {items : List (Val t.Name)} {depth : Nat}
    (same : ∀ v ∈ items, SameText (arranged false v) v) :
    sequence (itemsArranged false items) depth = .ok out ↔ sequence items depth = .ok out := by
  induction items generalizing out with
  | nil => rfl
  | cons v rest ih =>
    simp only [List.mem_cons, forall_eq_or_imp] at same
    simp only [itemsArranged, Encoder.sequence, bind_ok, pure_ok, same.1 _ _, ih same.2]

theorem value_arranged {v : Val t.Name} (typed : Typed t v) : SameText (arranged false v) v := by
  induction v using Val.ind with
  | bytes data =>
    intro depth out
    cases data <;> rfl
  | pointer elem p ih | interface p ih =>
    intro depth out
    cases p with
    | none => rfl
    | some v =>
      rw [arranged, Encoder.value, Encoder.value]
      split
      · rfl
      · first | exact ih v rfl typed depth out | exact ih v rfl typed.2 depth out
  | slice elem items ih =>
    intro depth out
    cases items with
    | none => rfl
    | some items =>
      have each := itemsTyped_iff.1 typed
      rw [arranged, Encoder.value, Encoder.value]
      split
      · rfl
      · have inner : ∀ out, sequence (itemsArranged false items) depth = .ok out ↔
            sequence items depth = .ok out :=
          fun out => sequence_arranged fun v member => ih v member (each v member).2
        rw [itemsArranged_eq, List.length_map, ← itemsArranged_eq]
        simp only [map_ok, inner]
  | array elem items ih =>
    intro depth out
    have each := itemsTyped_iff.1 typed
    rw [arranged, Encoder.value, Encoder.value]
    split
    · rfl
    · rw [itemsArranged_eq, List.length_map, ← itemsArranged_eq]
      simp only [map_ok, sequence_arranged fun v member => ih v member (each v member).2]
  | map stringKeys elem entries ih =>
    intro depth out
    cases entries with
    | none => rfl
    | some entries =>
      have each := entriesTyped_iff.1 typed.2
      cases stringKeys with
      | false =>
        rw [arranged, Encoder.value, Encoder.value]
      | true =>
        rw [arranged, Encoder.value, Encoder.value]
        split
        · rfl
        · rw [entriesArranged_eq, orderBy_entries typed.1 (.refl _)]
          have perm : (Rows.orderBy entryOrder entries).Perm entries := Rows.perm_orderBy entries
          exact pairs_arranged perm (orderBy_entries typed.1 perm)
            fun e member => ih e member (each e member).2
  | struct fields ih =>
    intro depth out
    have each := fieldsTyped_iff.1 typed
    by_cases deep : depth ≤ maxDepth
    · rw [arranged, value_struct deep, value_struct deep, members_arranged]
      refine pairs_arranged (.refl _) (Rows.orderBy_map _ _ _) fun m member => ?_
      obtain ⟨f, among, -⟩ := mem_members.1 member
      exact ih _ among (each _ among)
    · rw [arranged, Encoder.value, Encoder.value, if_pos (not_le.1 deep), if_pos (not_le.1 deep)]
  | _ => exact fun depth out => .rfl

end Order

open Val in
theorem marshal_unmarshal {t : Types} {v : Val t.Name} (plain : Plain v) (typed : Typed t v)
    (shallow : deep 0 v ≤ maxDepth) (small : Encoder.size v ≤ maxBytes) :
    ∃ out, marshal (some v) = .ok out ∧
      (∀ fuel elem target, deep 1 v < fuel → typeOf target = typeOf v → Ready t target v →
        ∃ result, Decoder.value t fuel target 0 ⟨0, out⟩ = .ok (result, ⟨out.length, []⟩) ∧
          unmarshal t fuel out (some (.pointer elem (some target))) = .ok result ∧
          arranged true result = arranged true v) ∧
      ∀ w, Typed t w → arranged false w = arranged false v → marshal (some w) = .ok out := by
  have inside : 0 + deep 0 v ≤ maxDepth := by omega
  obtain ⟨out, written⟩ := Encoder.value_total plain inside
  have long := Encoder.sized v 0 out written
  refine ⟨out, written, fun fuel elem target enough same ready => ?_, fun w typed' alike => ?_⟩
  · have decoded := decodes plain typed 0 out written (by unfold maxBytes at small; omega) fuel
      enough target same ready 0 []
    rw [List.append_nil, Nat.zero_add] at decoded
    refine ⟨restored v, decoded, ?_, arranged_restored plain typed⟩
    have fits : ¬ out.length > maxBytes := by omega
    simp only [unmarshal, reject, if_neg fits, ok_bind, decoded]
    simp [pure, Except.pure]
  · have first := (value_arranged typed 0 out).2 written
    rw [← alike] at first
    exact (value_arranged typed' 0 out).1 first

def integers : Types where
  Name := Unit
  zero _ := .int 64 0
  isZero_zero _ := rfl

def counts : Val Unit :=
  .struct [(⟨[110], true, []⟩, .map true () (some [([98], .int 64 (-500)), ([97], .int 64 1000)]))]

theorem counts_unmarshal : ∃ out, marshal (some counts) = .ok out ∧
    ∃ result, unmarshal integers 3 out (some (.pointer () (some counts.zeroed))) = .ok result ∧
      result.arranged true = counts.arranged true := by
  have plain : counts.Plain := by
    refine ⟨by decide, ⟨by decide, ⟨rfl, trivial, trivial, trivial⟩, trivial⟩⟩
  have typed : Val.Typed integers counts :=
    ⟨⟨by decide, ⟨rfl, by decide, by decide⟩, ⟨rfl, by decide, by decide⟩, trivial⟩, trivial⟩
  obtain ⟨out, written, decoded, -⟩ := marshal_unmarshal plain typed (by decide) (by decide +kernel)
  obtain ⟨result, -, found, same⟩ := decoded 3 () counts.zeroed (by decide) rfl (.inl rfl)
  exact ⟨out, written, result, found, same⟩

end AppleDM.Cbor
