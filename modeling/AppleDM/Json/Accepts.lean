import AppleDM.Json.Canonical
import AppleDM.Json.Reads

set_option autoImplicit false

namespace AppleDM.Canonjson

open Mdm Jsontext Jsontext.Value Jsontext.Decoder

mutual

def plain : Value → List Char
  | .literal l => l.text
  | .number lexeme => lexeme
  | .string chars => quote chars
  | .array items => '[' :: (elements [','] false (itemTexts items) ++ [']'])
  | .object members => '\x7b' :: (elements [','] false (memberTexts members) ++ ['\x7d'])

def itemTexts : List Value → List (List Char)
  | [] => []
  | v :: rest => plain v :: itemTexts rest

def memberTexts : List (List Char × Value) → List (List Char)
  | [] => []
  | (name, v) :: rest => (quote name ++ ':' :: plain v) :: memberTexts rest

end

variable (s : Strconv)

def numberText (lexeme : List Char) : List Char :=
  match s.parseFloat lexeme with
  | none => lexeme
  | some f => doubleText s f

abbrev unitsOf (m : List Char × Value) : List Nat := utf16 m.1

mutual

def canon : Value → Value
  | .literal l => .literal l
  | .number lexeme => .number (numberText s lexeme)
  | .string chars => .string chars
  | .array items => .array (canonItems items)
  | .object members => .object (Rows.orderBy unitsOf (canonMembers members))

def canonItems : List Value → List Value
  | [] => []
  | v :: rest => canon v :: canonItems rest

def canonMembers : List (List Char × Value) → List (List Char × Value)
  | [] => []
  | (name, v) :: rest => (name, canon v) :: canonMembers rest

end

abbrev Sound : Value → Prop := Every (fun lexeme => (s.parseFloat lexeme).isSome = true) List.Nodup

theorem memberTexts_eq (members : List (List Char × Value)) :
    memberTexts members = members.map fun m => quote m.1 ++ ':' :: plain m.2 := by
  induction members with
  | nil => rfl
  | cons m rest ih => simp [memberTexts, ih]

theorem canonItems_eq (items : List Value) : canonItems s items = items.map (canon s) := by
  induction items with
  | nil => rfl
  | cons v rest ih => simp [canonItems, ih]

theorem canonMembers_eq (members : List (List Char × Value)) :
    canonMembers s members = members.map fun m => (m.1, canon s m.2) := by
  induction members with
  | nil => rfl
  | cons m rest ih => simp [canonMembers, ih]

@[simp] theorem utf8_append (first second : List Char) :
    utf8 (first ++ second) = utf8 first ++ utf8 second := by
  simp [utf8]

theorem utf8_cons (c : Char) (rest : List Char) : utf8 (c :: rest) = utf8 [c] ++ utf8 rest := by
  simp [utf8]

theorem utf8_elements (started : Bool) (parts : List (List Char)) :
    utf8 (elements [','] started parts) = elements (utf8 [',']) started (parts.map utf8) := by
  induction parts generalizing started with
  | nil => rfl
  | cons part rest ih =>
    cases started <;> simp [elements, ih, utf8_cons ',' (part ++ _)]

theorem emit_eq (dst : Bytes) (members : List (List Char × Value)) :
    emit dst (members.map fun m =>
        ⟨utf16 m.1, utf8 (quote m.1 ++ ':' :: plain (canon s m.2))⟩) =
      dst ++ utf8 (plain (canon s (.object members))) := by
  have ordered : Rows.orderBy Member.key (members.map fun m =>
        (⟨utf16 m.1, utf8 (quote m.1 ++ ':' :: plain (canon s m.2))⟩ : Member)) =
      (Rows.orderBy unitsOf (canonMembers s members)).map fun m =>
        ⟨utf16 m.1, utf8 (quote m.1 ++ ':' :: plain m.2)⟩ := by
    rw [canonMembers_eq, Rows.orderBy_map, Rows.orderBy_map, List.map_map]
    rfl
  have texts : utf8 (plain (canon s (.object members))) = utf8 ['\x7b'] ++
      elements (utf8 [',']) false (((Rows.orderBy unitsOf (canonMembers s members)).map fun m =>
        quote m.1 ++ ':' :: plain m.2).map utf8) ++ utf8 ['\x7d'] := by
    rw [canon, plain, memberTexts_eq, utf8_cons, utf8_append, utf8_elements, List.append_assoc]
  rw [emit, ordered, texts, List.map_map, List.map_map]
  simp only [List.append_assoc, Function.comp_def]

structure Walks (fuel : Nat) : Prop where
  value : ∀ {dst tok depth d out d' base}, Starts tok d base → depth ≤ maxDepth →
    value s fuel dst tok depth d = .ok (out, d') → ∃ v toks, tokens v = tok :: toks ∧
      d.Reads toks d' ∧ d'.stack = base ∧ depth + v.depth ≤ maxDepth ∧ Sound s v ∧
      out = dst ++ utf8 (plain (canon s v))
  items : ∀ {dst depth started d out d' base}, d.stack = .array started :: base →
    depth ≤ maxDepth → arrayLoop s fuel dst depth started d = .ok (out, d') →
    ∃ items, d.Reads (itemTokens items ++ [.closeArray]) d' ∧ d'.stack = base ∧
      (∀ v ∈ items, depth + v.depth ≤ maxDepth ∧ Sound s v) ∧
      out = dst ++ utf8 (elements [','] started (itemTexts (canonItems s items)) ++ [']'])
  members : ∀ {before depth d out d' base names}, d.stack = .object names false :: base →
    depth ≤ maxDepth → objectLoop s fuel before depth d = .ok (out, d') →
    ∃ members, d.Reads (memberTokens members ++ [.closeObject]) d' ∧ d'.stack = base ∧
      (∀ m ∈ members, depth + m.2.depth ≤ maxDepth ∧ Sound s m.2 ∧ m.1 ∉ names) ∧
      (members.map (·.1)).Nodup ∧ out = before ++ members.map fun m =>
        ⟨utf16 m.1, utf8 (quote m.1 ++ ':' :: plain (canon s m.2))⟩

variable {s} {d d' : Decoder} {depth : Nat}

variable {dst out : Bytes} {base : List Frame}

theorem walks_array {fuel : Nat} (less : ∀ smaller < fuel, Walks s smaller) (inside : d.stack = .array false :: base)
    (accepted : array s fuel dst depth d = .ok (out, d')) :
    ∃ items, d.Reads (itemTokens items ++ [.closeArray]) d' ∧ d'.stack = base ∧ depth ≤ maxDepth ∧
      (∀ v ∈ items, depth + v.depth ≤ maxDepth ∧ Sound s v) ∧
      out = dst ++ utf8 (plain (canon s (.array items))) := by
  cases fuel with
  | zero => simp [array] at accepted
  | succ fuel =>
    rw [array] at accepted
    split at accepted
    · cases accepted
    next within =>
    obtain ⟨items, reads, closed, fits, rfl⟩ :=
      (less fuel (by omega)).items inside (by omega) accepted
    refine ⟨items, reads, closed, by omega, fits, ?_⟩
    rw [canon, plain, utf8_cons '[' (_ ++ _), List.append_assoc]

theorem walks_object {fuel : Nat} (less : ∀ smaller < fuel, Walks s smaller)
    (inside : d.stack = .object [] false :: base)
    (accepted : object s fuel dst depth d = .ok (out, d')) :
    ∃ members, d.Reads (memberTokens members ++ [.closeObject]) d' ∧ d'.stack = base ∧
      depth ≤ maxDepth ∧ (∀ m ∈ members, depth + m.2.depth ≤ maxDepth ∧ Sound s m.2) ∧
      (members.map (·.1)).Nodup ∧ out = dst ++ utf8 (plain (canon s (.object members))) := by
  cases fuel with
  | zero => simp [object] at accepted
  | succ fuel =>
    rw [object] at accepted
    split at accepted
    · cases accepted
    next within =>
    simp only [Checked.bind_ok, Prod.exists, Checked.pure_ok, Prod.mk.injEq] at accepted
    obtain ⟨found, after, walked, rfl, rfl⟩ := accepted
    obtain ⟨members, reads, closed, fits, distinct, rfl⟩ :=
      (less fuel (by omega)).members inside (by omega) walked
    refine ⟨members, reads, closed, by omega, fun m member => ?_, distinct, ?_⟩
    · obtain ⟨deep, sound, -⟩ := fits m member
      exact ⟨deep, sound⟩
    · rw [List.nil_append, emit_eq]

theorem walks (fuel : Nat) : Walks s fuel := by
  induction fuel using Nat.strong_induction_on with
  | _ fuel less =>
  cases fuel with
  | zero => constructor <;> simp [value, arrayLoop, objectLoop]
  | succ fuel =>
  have before := less fuel (by omega)
  constructor
  case value =>
    intro dst tok depth d out d' base starts within accepted
    cases tok with
    | openObject =>
      have walked : object s fuel dst (depth + 1) d = .ok (out, d') := by
        simpa [value] using accepted
      obtain ⟨members, reads, closed, deep, fits, distinct, rfl⟩ :=
        walks_object (fun smaller lt => less smaller (by omega)) starts walked
      refine ⟨.object members, _, rfl, reads, closed, ?_, ?_, rfl⟩
      · have inner : memberDepth members ≤ maxDepth - (depth + 1) :=
          memberDepth_le.2 fun m member => by have := (fits m member).1; omega
        rw [Value.depth]
        omega
      · exact every_object.2 ⟨distinct, fun m member => (fits m member).2⟩
    | openArray =>
      have walked : array s fuel dst (depth + 1) d = .ok (out, d') := by
        simpa [value] using accepted
      obtain ⟨items, reads, closed, deep, fits, rfl⟩ :=
        walks_array (fun smaller lt => less smaller (by omega)) starts walked
      refine ⟨.array items, _, rfl, reads, closed, ?_, ?_, rfl⟩
      · have inner : itemDepth items ≤ maxDepth - (depth + 1) :=
          itemDepth_le.2 fun v member => by have := (fits v member).1; omega
        rw [Value.depth]
        omega
      · exact every_array.2 fun v member => (fits v member).2
    | closeObject | closeArray => exact starts.elim
    | string chars =>
      simp only [value, Except.ok.injEq, Prod.mk.injEq] at accepted
      obtain ⟨rfl, rfl⟩ := accepted
      exact ⟨.string chars, [], rfl, rfl, starts, by simpa [Value.depth] using within, by simp [Every],
        rfl⟩
    | number lexeme =>
      simp only [value, appendNumber] at accepted
      cases found : s.parseFloat lexeme with
      | none => simp [found] at accepted
      | some f =>
        simp only [found, Checked.map_ok, Except.ok.injEq, Prod.mk.injEq, exists_eq_left'] at accepted
        obtain ⟨rfl, rfl⟩ := accepted
        refine ⟨.number lexeme, [], rfl, rfl, starts, by simpa [Value.depth] using within,
          by simp [Every, found], ?_⟩
        simp [canon, plain, numberText, found]
    | literal l =>
      simp only [value, Except.ok.injEq, Prod.mk.injEq] at accepted
      obtain ⟨rfl, rfl⟩ := accepted
      exact ⟨.literal l, [], rfl, rfl, starts, by simpa [Value.depth] using within, by simp [Every], rfl⟩
  case items =>
    intro dst depth started d out d' base inside within accepted
    rw [arrayLoop] at accepted
    split at accepted
    · cases accepted
    next tok next read =>
    split at accepted
    · next last =>
      subst last
      obtain ⟨-, ⟨-, closed⟩ | ⟨other, -⟩⟩ := read_array inside read
      · cases accepted
        exact ⟨[], ⟨_, read, rfl⟩, closed, by simp, by simp [canonItems, itemTexts, elements]⟩
      · exact absurd rfl other
    next more =>
    obtain ⟨-, ⟨last, -⟩ | ⟨-, starts⟩⟩ := read_array inside read
    · exact absurd last more
    simp only [Checked.bind_ok, Prod.exists] at accepted
    obtain ⟨mid, after, first, rest⟩ := accepted
    obtain ⟨v, toks, spelt, reads, closed, deep, sound, rfl⟩ := before.value starts within first
    obtain ⟨items, later, done, fits, rfl⟩ := before.items closed within rest
    refine ⟨v :: items, ?_, done, ?_, ?_⟩
    · rw [itemTokens, spelt, List.append_assoc]
      exact ⟨_, read, reads_append reads later⟩
    · simpa using ⟨⟨deep, sound⟩, fits⟩
    · cases started <;> simp [canonItems, itemTexts, elements, utf8_cons ',' (_ ++ _)]
  case members =>
    intro earlier depth d out d' base names inside within accepted
    rw [objectLoop] at accepted
    split at accepted
    · cases accepted
    next tok next read =>
    split at accepted
    · next last =>
      subst last
      obtain ⟨-, ⟨-, closed⟩ | ⟨chars, other, -⟩⟩ := read_object inside read
      · cases accepted
        exact ⟨[], ⟨_, read, rfl⟩, closed, by simp, by simp, by simp⟩
      · cases other
    next more =>
    obtain ⟨-, ⟨last, -⟩ | ⟨name, rfl, new, due⟩⟩ := read_object inside read
    · exact absurd last more
    dsimp only at accepted
    split at accepted
    · cases accepted
    next valTok begun readValue =>
    obtain ⟨-, starts⟩ := read_member due readValue
    simp only [Checked.bind_ok, Prod.exists] at accepted
    obtain ⟨buf, after, first, rest⟩ := accepted
    obtain ⟨v, toks, spelt, reads, closed, deep, sound, rfl⟩ := before.value starts within first
    obtain ⟨members, later, done, fits, distinct, rfl⟩ := before.members closed within rest
    have fresh : ∀ m ∈ members, m.1 ≠ name ∧ m.1 ∉ names := fun m member => by
      simpa using (fits m member).2.2
    refine ⟨(name, v) :: members, ?_, done, ?_, ?_, ?_⟩
    · rw [memberTokens, spelt, List.cons_append, List.append_assoc]
      exact ⟨_, read, _, readValue, reads_append reads later⟩
    · intro m member
      rcases List.mem_cons.1 member with rfl | member
      · exact ⟨deep, sound, new⟩
      · exact ⟨(fits m member).1, (fits m member).2.1, (fresh m member).2⟩
    · rw [List.map_cons, List.nodup_cons]
      refine ⟨?_, distinct⟩
      rintro repeated
      obtain ⟨m, member, same⟩ := List.mem_map.1 repeated
      exact (fresh m member).1 same
    · simp [appendString, tokenText, utf8_cons ':' (plain _)]

def Taken (s : Strconv) (v : Value) : Prop :=
  ∀ (fuel : Nat) (dst : Bytes) {tok : Token} {toks : List Token} {depth : Nat} {d d' : Decoder},
    tokens v = tok :: toks → d.Reads toks d' → depth + v.depth ≤ maxDepth →
    3 * (tokens v).length ≤ fuel →
    value s fuel dst tok depth d = .ok (dst ++ utf8 (plain (canon s v)), d')

theorem walk_items {items : List Value} (each : ∀ v ∈ items, Taken s v) (fuel : Nat)
    (dst : Bytes) (started : Bool)
    (reads : d.Reads (itemTokens items ++ [.closeArray]) d')
    (deep : ∀ v ∈ items, depth + v.depth ≤ maxDepth)
    (enough : 3 * (itemTokens items).length < fuel) :
    arrayLoop s fuel dst depth started d = .ok (dst ++
      utf8 (elements [','] started (itemTexts (canonItems s items)) ++ [']']), d') := by
  induction items generalizing fuel dst started d with
  | nil =>
    obtain ⟨fuel, rfl⟩ := Nat.exists_eq_succ_of_ne_zero (Nat.ne_of_gt enough)
    obtain ⟨next, read, rfl⟩ := reads
    simp [arrayLoop, read, canonItems, itemTexts, elements]
  | cons v rest ih =>
    obtain ⟨fuel, rfl⟩ := Nat.exists_eq_succ_of_ne_zero (show fuel ≠ 0 by omega)
    obtain ⟨tok, toks, spelt, more, -⟩ := tokens_head v
    rw [itemTokens, List.append_assoc, spelt] at reads
    obtain ⟨next, read, reads⟩ := reads
    obtain ⟨mid, first, later⟩ := reads_split reads
    rw [itemTokens, List.length_append] at enough
    have some_ : 1 ≤ (tokens v).length := by simp [spelt]
    have walked := each v (by simp) fuel (if started then dst ++ utf8 [','] else dst) spelt first
      (deep v (by simp)) (by omega)
    have others := ih (fun w member => each w (by simp [member])) fuel
      ((if started then dst ++ utf8 [','] else dst) ++ utf8 (plain (canon s v))) true later
      (fun w member => deep w (by simp [member])) (by omega)
    rw [arrayLoop, read]
    simp only [more, if_false, walked, Checked.ok_bind, others]
    cases started <;> simp [canonItems, itemTexts, elements, utf8_cons ',' (_ ++ _)]

theorem walk_members {members : List (List Char × Value)} (each : ∀ m ∈ members, Taken s m.2)
    (fuel : Nat) (before : List Member)
    (reads : d.Reads (memberTokens members ++ [.closeObject]) d')
    (deep : ∀ m ∈ members, depth + m.2.depth ≤ maxDepth)
    (enough : 3 * (memberTokens members).length < fuel) :
    objectLoop s fuel before depth d = .ok (before ++ members.map fun m =>
      ⟨utf16 m.1, utf8 (quote m.1 ++ ':' :: plain (canon s m.2))⟩, d') := by
  induction members generalizing fuel before d with
  | nil =>
    obtain ⟨fuel, rfl⟩ := Nat.exists_eq_succ_of_ne_zero (Nat.ne_of_gt enough)
    obtain ⟨next, read, rfl⟩ := reads
    simp [objectLoop, read]
  | cons m rest ih =>
    obtain ⟨name, v⟩ := m
    obtain ⟨fuel, rfl⟩ := Nat.exists_eq_succ_of_ne_zero (show fuel ≠ 0 by omega)
    obtain ⟨tok, toks, spelt, -, more⟩ := tokens_head v
    rw [memberTokens, List.cons_append, List.append_assoc, spelt] at reads
    obtain ⟨named, readName, next, read, reads⟩ := reads
    obtain ⟨mid, first, later⟩ := reads_split reads
    rw [memberTokens, List.length_cons, List.length_append] at enough
    have some_ : 1 ≤ (tokens v).length := by simp [spelt]
    have walked := each (name, v) (by simp) fuel (appendString [] name ++ utf8 [':']) spelt first
      (deep (name, v) (by simp)) (by dsimp only; omega)
    have others := ih (fun w member => each w (by simp [member])) fuel
      (before ++ [⟨utf16 name, appendString [] name ++ utf8 [':'] ++ utf8 (plain (canon s v))⟩]) later
      (fun w member => deep w (by simp [member])) (by omega)
    rw [objectLoop, readName]
    simp only [reduceCtorEq, if_false, tokenText, read, walked, Checked.ok_bind, others]
    simp [appendString, utf8_cons ':' (plain _)]

theorem taken {v : Value} (sound : Sound s v) : Taken s v := by
  induction v using Value.ind with
  | literal l =>
    intro fuel dst tok toks depth d d' spelt reads deep enough
    obtain ⟨fuel, rfl⟩ := Nat.exists_eq_add_of_le enough
    cases spelt
    cases reads
    simp [tokens, Nat.add_comm _ fuel, value, canon, plain, tokenText]
  | number lexeme =>
    intro fuel dst tok toks depth d d' spelt reads deep enough
    obtain ⟨fuel, rfl⟩ := Nat.exists_eq_add_of_le enough
    cases spelt
    cases reads
    obtain ⟨f, found⟩ := Option.isSome_iff_exists.1 sound
    simp [tokens, Nat.add_comm _ fuel, value, appendNumber, found, canon, plain, numberText]
  | string chars =>
    intro fuel dst tok toks depth d d' spelt reads deep enough
    obtain ⟨fuel, rfl⟩ := Nat.exists_eq_add_of_le enough
    cases spelt
    cases reads
    simp [tokens, Nat.add_comm _ fuel, value, canon, plain, appendString]
  | array items ih =>
    intro fuel dst tok toks depth d d' spelt reads deep enough
    cases spelt
    have each : ∀ v ∈ items, Taken s v := fun v member => ih v member (every_array.1 sound v member)
    rw [tokens, List.length_cons, List.length_append] at enough
    obtain ⟨fuel, rfl⟩ := Nat.exists_eq_add_of_le' (show 2 ≤ fuel by omega)
    have inner : depth + 1 + itemDepth items ≤ maxDepth := by
      rw [Value.depth] at deep
      omega
    have fits : ∀ v ∈ items, depth + 1 + v.depth ≤ maxDepth := fun v member => by
      have := itemDepth_le.1 (Nat.le_refl (itemDepth items)) v member
      omega
    have open_ : ¬ depth + 1 > maxDepth := by omega
    rw [value, array, if_neg open_, walk_items each fuel _ false reads fits (by simp at enough; omega)]
    rw [canon, plain, utf8_cons '[' (_ ++ _), List.append_assoc]
  | object members ih =>
    intro fuel dst tok toks depth d d' spelt reads deep enough
    cases spelt
    have each : ∀ m ∈ members, Taken s m.2 := fun m member =>
      ih m member ((every_object.1 sound).2 m member)
    rw [tokens, List.length_cons, List.length_append] at enough
    obtain ⟨fuel, rfl⟩ := Nat.exists_eq_add_of_le' (show 2 ≤ fuel by omega)
    have inner : depth + 1 + memberDepth members ≤ maxDepth := by
      rw [Value.depth] at deep
      omega
    have fits : ∀ m ∈ members, depth + 1 + m.2.depth ≤ maxDepth := fun m member => by
      have := memberDepth_le.1 (Nat.le_refl (memberDepth members)) m member
      omega
    have open_ : ¬ depth + 1 > maxDepth := by omega
    rw [value, object, if_neg open_, walk_members each fuel [] reads fits (by simp at enough; omega)]
    simp only [Checked.ok_bind, List.nil_append, emit_eq]
    rfl

def Spells (text : List Char) (v : Value) : Prop :=
  ∃ d : Decoder, Reads ⟨text, []⟩ (tokens v) d ∧ d.readToken = .error .eof

def Denotes (src : Bytes) (v : Value) : Prop := ∃ text, decodeUtf8 src = some text ∧ Spells text v

theorem root_iff {text : List Char} : root s dst text = .ok out ↔
    ∃ v, Spells text v ∧ v.depth ≤ maxDepth ∧ Sound s v ∧ out = dst ++ utf8 (plain (canon s v)) := by
  constructor
  · intro accepted
    unfold root at accepted
    split at accepted
    · cases accepted
    next tok d read =>
    simp only [Checked.bind_ok, Prod.exists] at accepted
    obtain ⟨found, last, walked, ended⟩ := accepted
    have starts : Starts tok d [] := (read_top rfl read).2
    obtain ⟨v, toks, spelt, reads, -, deep, sound, rfl⟩ :=
      (walks _).value starts (Nat.zero_le _) walked
    split at ended
    · cases ended
    · cases ended
    next stopped =>
    obtain rfl := Except.ok.inj ended
    refine ⟨v, ⟨last, ?_, stopped⟩, by omega, sound, rfl⟩
    rw [spelt]
    exact ⟨d, read, reads⟩
  · rintro ⟨v, ⟨last, reads, stopped⟩, deep, sound, rfl⟩
    have bounded := reads_length reads
    obtain ⟨tok, toks, spelt, -, -⟩ := tokens_head v
    have all := reads
    rw [spelt] at all
    obtain ⟨next, read, later⟩ := all
    have walked : value s (3 * text.length + 3) dst tok 0 next =
        .ok (dst ++ utf8 (plain (canon s v)), last) :=
      taken sound _ dst spelt later (by omega) (by dsimp only at bounded; omega)
    rw [root, read]
    simp only [walked, Checked.ok_bind, stopped]
    rfl

theorem canonicalize_iff {src : Bytes} : canonicalize s src = .ok out ↔
    ∃ v, Denotes src v ∧ v.depth ≤ maxDepth ∧ Sound s v ∧ out = utf8 (plain (canon s v)) := by
  have walk : canonicalize s src = .ok out ↔ rootBytes s [] src = .ok out := by
    unfold canonicalize append
    cases rootBytes s [] src <;> simp
  rw [walk, rootBytes]
  cases found : decodeUtf8 src with
  | none => simp [Denotes, found]
  | some text => simp [root_iff, Denotes, found]

end AppleDM.Canonjson
