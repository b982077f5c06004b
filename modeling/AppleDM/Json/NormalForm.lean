import AppleDM.Json.Printed

set_option autoImplicit false

namespace AppleDM.Jsontext

open Decoder

theorem reads_unique {toks toks' : List Token} {d last last' : Decoder} (first : d.Reads toks last)
    (second : d.Reads toks' last') {stop stop' : Stop} (ended : last.readToken = .error stop)
    (ended' : last'.readToken = .error stop') : toks = toks' := by
  induction toks generalizing d toks' with
  | nil =>
    obtain rfl : d = last := first
    cases toks' with
    | nil => rfl
    | cons tok rest =>
      obtain ⟨next, read, -⟩ := second
      rw [ended] at read
      cases read
  | cons tok rest ih =>
    obtain ⟨next, read, later⟩ := first
    cases toks' with
    | nil =>
      obtain rfl : d = last' := second
      rw [ended'] at read
      cases read
    | cons tok' rest' =>
      obtain ⟨next', read', later'⟩ := second
      rw [read] at read'
      cases read'
      rw [ih later later']

namespace Value

def Apart (v : Value) : Prop :=
  ∀ {w : Value} {rest rest' : List Token}, tokens v ++ rest = tokens w ++ rest' →
    v = w ∧ rest = rest'

variable {rest rest' : List Token}

theorem itemTokens_inj {items items' : List Value} (each : ∀ v ∈ items, Apart v)
    (same : itemTokens items ++ .closeArray :: rest = itemTokens items' ++ .closeArray :: rest') :
    items = items' ∧ rest = rest' := by
  induction items generalizing items' with
  | nil =>
    cases items' with
    | nil => exact ⟨rfl, (List.cons.inj same).2⟩
    | cons w later =>
      obtain ⟨tok, toks, spelt, other, -⟩ := tokens_head w
      simp only [itemTokens, spelt, List.nil_append, List.cons_append, List.cons.injEq] at same
      exact absurd same.1.symm other
  | cons v items ih =>
    cases items' with
    | nil =>
      obtain ⟨tok, toks, spelt, other, -⟩ := tokens_head v
      simp only [itemTokens, spelt, List.nil_append, List.cons_append, List.cons.injEq] at same
      exact absurd same.1 other
    | cons w later =>
      rw [itemTokens, itemTokens, List.append_assoc, List.append_assoc] at same
      obtain ⟨rfl, tail⟩ := each v (by simp) same
      obtain ⟨rfl, rfl⟩ := ih (fun w member => each w (by simp [member])) tail
      exact ⟨rfl, rfl⟩

theorem memberTokens_inj {members members' : List (List Char × Value)}
    (each : ∀ m ∈ members, Apart m.2)
    (same : memberTokens members ++ .closeObject :: rest =
      memberTokens members' ++ .closeObject :: rest') : members = members' ∧ rest = rest' := by
  induction members generalizing members' with
  | nil =>
    cases members' with
    | nil => exact ⟨rfl, (List.cons.inj same).2⟩
    | cons m later => simp [memberTokens] at same
  | cons m members ih =>
    cases members' with
    | nil => simp [memberTokens] at same
    | cons m' later =>
      obtain ⟨name, v⟩ := m
      obtain ⟨name', w⟩ := m'
      simp only [memberTokens, List.cons_append, List.append_assoc, List.cons.injEq,
        Token.string.injEq] at same
      obtain ⟨rfl, same⟩ := same
      obtain ⟨rfl, tail⟩ := each (name, v) (by simp) same
      obtain ⟨rfl, rfl⟩ := ih (fun w member => each w (by simp [member])) tail
      exact ⟨rfl, rfl⟩

theorem apart (v : Value) : Apart v := by
  induction v using Value.ind with
  | literal | number | string => intro w; cases w <;> simp_all [tokens]
  | array items ih =>
    intro w rest rest' same
    cases w with
    | array items' =>
      simp only [tokens, List.cons_append, List.append_assoc, List.cons.injEq, true_and,
        List.nil_append] at same
      obtain ⟨rfl, rfl⟩ := itemTokens_inj ih same
      exact ⟨rfl, rfl⟩
    | _ => simp [tokens] at same
  | object members ih =>
    intro w rest rest' same
    cases w with
    | object members' =>
      simp only [tokens, List.cons_append, List.append_assoc, List.cons.injEq, true_and,
        List.nil_append] at same
      obtain ⟨rfl, rfl⟩ := memberTokens_inj ih same
      exact ⟨rfl, rfl⟩
    | _ => simp [tokens] at same

theorem tokens_injective {v w : Value} (same : tokens v = tokens w) : v = w := by
  have padded : tokens v ++ [] = tokens w ++ [] := by rw [same]
  exact (apart v padded).1

end Value

end AppleDM.Jsontext

namespace AppleDM.Canonjson

open Mdm Jsontext Jsontext.Value Jsontext.Decoder

theorem spells_unique {text : List Char} {v w : Value} (first : Spells text v)
    (second : Spells text w) : v = w := by
  obtain ⟨last, reads, ended⟩ := first
  obtain ⟨last', reads', ended'⟩ := second
  exact tokens_injective (reads_unique reads reads' ended ended')

variable {src : Bytes}

theorem denotes_unique {v w : Value} (first : Denotes src v) (second : Denotes src w) : v = w := by
  obtain ⟨text, decoded, spells⟩ := first
  obtain ⟨text', decoded', spells'⟩ := second
  rw [decoded] at decoded'
  cases decoded'
  exact spells_unique spells spells'

theorem decodeUtf8_utf8 (text : List Char) : decodeUtf8 (utf8 text) = some text := by
  have bytes : (utf8 text).toByteArray = text.utf8Encode := rfl
  rw [decodeUtf8, bytes, List.utf8Decode?_utf8Encode]
  simp

theorem denotes_plain {v : Value} (written : Written v) : Denotes (utf8 (plain v)) v :=
  ⟨plain v, decodeUtf8_utf8 _, spells_plain written⟩

section Numbers

variable (s : Strconv)

def denoted (lexeme : List Char) : Option (Option s.Double) :=
  (s.parseFloat lexeme).map fun f => if s.isZero f then none else some f

variable {s} {f : s.Double} {exp : List Char}

theorem dropZeros_shape (nonempty : exp ≠ []) :
    ∃ head rest, dropZeros exp = head :: rest ∧ ∀ c ∈ head :: rest, c ∈ exp := by
  fun_induction dropZeros exp with
  | case1 c rest ih =>
    obtain ⟨head, tail, same, inside⟩ := ih (by simp)
    exact ⟨head, tail, same, fun c member => by simp [inside c member]⟩
  | case2 digits other =>
    cases digits with
    | nil => exact absurd rfl nonempty
    | cons head rest => exact ⟨head, rest, rfl, fun c member => member⟩

theorem parse_dropZeros {mantissa : List Char} {expSign : Char}
    (signed : expSign = '+' ∨ expSign = '-') (exp : List Char) :
    s.parseFloat (mantissa ++ ['e', expSign] ++ dropZeros exp) =
      s.parseFloat (mantissa ++ ['e', expSign] ++ exp) := by
  fun_induction dropZeros exp with
  | case1 c rest ih =>
    rw [ih]
    simpa using (s.parse_exponent mantissa expSign c rest signed).symm
  | case2 digits other => rfl

theorem exponentText_eq {mantissa : List Char} {expSign : Char}
    (signed : expSign = '+' ∨ expSign = '-') (digits_ : ∀ c ∈ exp, isDigit c = true) :
    exponentText (mantissa ++ ['e', expSign] ++ exp) =
      mantissa ++ ['e', expSign] ++ dropZeros exp := by
  have none_ : exp.reverse.findIdx (· == 'e') = exp.length := by
    rw [← List.length_reverse, List.findIdx_eq_length]
    intro c member
    have digit := digits_ c (List.mem_reverse.1 member)
    rw [beq_eq_false_iff_ne]
    rintro rfl
    cases digit
  have other : (expSign == 'e') = false := by rcases signed with rfl | rfl <;> rfl
  have position : exponentAt (mantissa ++ ['e', expSign] ++ exp) = mantissa.length := by
    have reversed : (mantissa ++ ['e', expSign] ++ exp).reverse =
        exp.reverse ++ (expSign :: 'e' :: mantissa.reverse) := by simp
    rw [exponentAt, reversed, List.findIdx_append, none_, List.length_reverse, if_neg (by omega)]
    simp [List.findIdx_cons, other]
    omega
  have cut : (mantissa ++ ['e', expSign]).length = mantissa.length + 2 := by simp
  rw [exponentText, position, ← cut, List.take_left, List.drop_left]

theorem doubleText_isNumber (f : s.Double) : IsNumber (doubleText s f) := by
  unfold doubleText
  split
  · exact ⟨[], ['0'], [], [], rfl, .none, ⟨fun c member => by
      rw [List.mem_singleton.1 member]
      rfl, '0', [], rfl, fun _ => rfl⟩, .none, .none⟩
  next nonzero =>
  rw [Bool.not_eq_true] at nonzero
  split
  · next plain_ =>
    obtain ⟨sign, int, frac, same, signed, digits_, fraction⟩ := s.formatF_shape f nonzero plain_
    exact ⟨sign, int, frac, [], by simp [same], signed, digits_, fraction, .none⟩
  · next exponential =>
    rw [Bool.not_eq_true] at exponential
    obtain ⟨sign, head, frac, expSign, exp, same, signed, digit, fraction, expSigned, digits_,
      long⟩ := s.formatE_shape f nonzero exponential
    have nonempty : exp ≠ [] := by
      rintro rfl
      simp at long
    obtain ⟨first, rest, shape, inside⟩ := dropZeros_shape nonempty
    rw [same, exponentText_eq expSigned digits_, shape]
    exact ⟨sign, [head], frac, 'e' :: expSign :: first :: rest, by simp, signed,
      ⟨by simpa using digit, head, [], rfl, fun _ => rfl⟩, fraction,
      .some expSign first rest expSigned fun c member => digits_ c (inside c member)⟩

theorem denoted_doubleText (f : s.Double) :
    denoted s (doubleText s f) = some (if s.isZero f then none else some f) := by
  unfold doubleText denoted
  split
  · obtain ⟨zero, read, isZero⟩ := s.parse_zero
    simp [read, isZero]
  next nonzero =>
  rw [Bool.not_eq_true] at nonzero
  split
  · next plain_ => simp [s.parse_formatF f nonzero plain_, nonzero]
  · next exponential =>
    rw [Bool.not_eq_true] at exponential
    have read := s.parse_formatE f nonzero exponential
    obtain ⟨sign, head, frac, expSign, exp, same, -, -, -, expSigned, digits_, -⟩ :=
      s.formatE_shape f nonzero exponential
    rw [same] at read ⊢
    rw [exponentText_eq expSigned digits_, parse_dropZeros expSigned, read]
    simp [nonzero]

theorem numberText_of_parse {lexeme : List Char} (read : s.parseFloat lexeme = some f) :
    numberText s lexeme = doubleText s f := by
  simp [numberText, read]

theorem numberText_congr {lexeme lexeme' : List Char} (known : (s.parseFloat lexeme).isSome = true)
    (same : denoted s lexeme = denoted s lexeme') : numberText s lexeme = numberText s lexeme' := by
  obtain ⟨f, read⟩ := Option.isSome_iff_exists.1 known
  simp only [denoted, read, Option.map_some] at same
  cases read' : s.parseFloat lexeme' with
  | none => simp [read'] at same
  | some g =>
    rw [numberText_of_parse read, numberText_of_parse read']
    simp only [read', Option.map_some, Option.some.injEq] at same
    unfold doubleText
    by_cases zero : s.isZero f = true <;> by_cases zero' : s.isZero g = true <;> simp_all

end Numbers

section Names

def unitsOfChar (c : Char) : List Nat :=
  if c.toNat < 0x10000 then [c.toNat]
  else [0xd800 + (c.toNat - 0x10000) / 0x400, 0xdc00 + (c.toNat - 0x10000) % 0x400]

theorem utf16_cons (c : Char) (rest : List Char) :
    utf16 (c :: rest) = unitsOfChar c ++ utf16 rest := rfl

theorem char_range (c : Char) : c.toNat < 0xd800 ∨ 0xdfff < c.toNat ∧ c.toNat < 0x110000 := c.valid

theorem utf16_injective : Function.Injective utf16 := by
  intro name
  induction name with
  | nil =>
    intro name' same
    cases name' with
    | nil => rfl
    | cons c rest =>
      rw [utf16_cons, unitsOfChar] at same
      split at same <;> simp [utf16] at same
  | cons c rest ih =>
    intro name' same
    cases name' with
    | nil =>
      rw [utf16_cons, unitsOfChar] at same
      split at same <;> simp [utf16] at same
    | cons c' rest' =>
      have range := char_range c
      have range' := char_range c'
      suffices both : c.toNat = c'.toNat ∧ utf16 rest = utf16 rest' by
        rw [Char.toNat_inj.1 both.1, ih both.2]
      rw [utf16_cons, utf16_cons, unitsOfChar, unitsOfChar] at same
      split at same <;> split at same <;>
        simp only [List.cons_append, List.nil_append, List.cons.injEq] at same
      · exact same
      · omega
      · omega
      · exact ⟨by omega, same.2.2⟩

variable {members : List (List Char × Value)}

theorem units_nodup (distinct : (members.map (·.1)).Nodup) : (members.map unitsOf).Nodup := by
  have same : members.map unitsOf = (members.map (·.1)).map utf16 := by
    rw [List.map_map]
    rfl
  rw [same]
  exact distinct.map utf16_injective

theorem order_perm (members : List (List Char × Value)) :
    (Rows.orderBy unitsOf members).Perm members := Rows.perm_orderBy members

theorem order_nodup (distinct : (members.map (·.1)).Nodup) :
    ((Rows.orderBy unitsOf members).map (·.1)).Nodup :=
  ((order_perm members).map (·.1)).nodup_iff.2 distinct

end Names

section Meaning

variable {s : Strconv} {v : Value}

theorem every_canon {num : List Char → Prop} {names : List (List Char) → Prop}
    (texts : ∀ lexeme, (s.parseFloat lexeme).isSome = true → num (numberText s lexeme))
    (ordered : ∀ members : List (List Char × Value), (members.map (·.1)).Nodup →
      names ((Rows.orderBy unitsOf members).map (·.1))) (sound : Sound s v) : Every num names (canon s v) := by
  induction v using Value.ind with
  | literal | string => simp [canon, Every]
  | number lexeme => exact texts lexeme sound
  | array items ih =>
    rw [canon, canonItems_eq, every_array]
    intro w member
    obtain ⟨v, among, rfl⟩ := List.mem_map.1 member
    exact ih v among (every_array.1 sound v among)
  | object members ih =>
    obtain ⟨distinct, each⟩ := every_object.1 sound
    rw [canon, canonMembers_eq, every_object]
    refine ⟨ordered _ (by simpa [Function.comp_def] using distinct), fun m member => ?_⟩
    obtain ⟨m, among, rfl⟩ := List.mem_map.1 ((order_perm _).mem_iff.1 member)
    exact ih m among (each m among)

theorem written_canon (sound : Sound s v) : Written (canon s v) := by
  refine every_canon (fun lexeme known => ?_) (fun _ => order_nodup) sound
  obtain ⟨f, read⟩ := Option.isSome_iff_exists.1 known
  rw [numberText_of_parse read]
  exact doubleText_isNumber f

theorem denoted_numberText {lexeme : List Char} (known : (s.parseFloat lexeme).isSome = true) :
    denoted s (numberText s lexeme) = denoted s lexeme := by
  obtain ⟨f, read⟩ := Option.isSome_iff_exists.1 known
  rw [numberText_of_parse read, denoted_doubleText, denoted, read]
  rfl

theorem sound_canon (sound : Sound s v) : Sound s (canon s v) := by
  refine every_canon (fun lexeme known => ?_) (fun _ => order_nodup) sound
  have same := denoted_numberText known
  obtain ⟨f, read⟩ := Option.isSome_iff_exists.1 known
  rw [denoted, denoted, read] at same
  cases again : s.parseFloat (numberText s lexeme) with
  | none => simp [again] at same
  | some g => rfl

abbrev Ordered : Value → Prop :=
  Every (fun _ => True) fun names => names.Pairwise fun a b => utf16 a < utf16 b

theorem ordered_canon (sound : Sound s v) : Ordered (canon s v) := by
  refine every_canon (fun _ _ => trivial) (fun members distinct => ?_) sound
  rw [List.pairwise_map]
  exact Rows.increasing_orderBy (units_nodup distinct)

theorem depth_canon {limit : Nat} (deep : v.depth ≤ limit) : (canon s v).depth ≤ limit := by
  induction v using Value.ind generalizing limit with
  | literal | number | string => exact deep
  | array items ih =>
    rw [Value.depth] at deep
    have inner := itemDepth_le.1 (Nat.le_sub_of_add_le deep)
    have after : itemDepth (canonItems s items) ≤ limit - 1 := itemDepth_le.2 fun w member => by
      rw [canonItems_eq] at member
      obtain ⟨v, among, rfl⟩ := List.mem_map.1 member
      exact ih v among (inner v among)
    rw [canon, Value.depth]
    omega
  | object members ih =>
    rw [Value.depth] at deep
    have inner := memberDepth_le.1 (Nat.le_sub_of_add_le deep)
    have after : memberDepth (Rows.orderBy unitsOf (canonMembers s members)) ≤ limit - 1 :=
      memberDepth_le.2 fun m member => by
        rw [(order_perm _).mem_iff, canonMembers_eq] at member
        obtain ⟨m, among, rfl⟩ := List.mem_map.1 member
        exact ih m among (inner m among)
    rw [canon, Value.depth]
    omega

theorem findMember_iff {Num : Type} {num : List Char → Num} {members : List (List Char × Value)}
    (distinct : (members.map (·.1)).Nodup) {key : List Char} {m : Meaning Num} :
    findMember num members key = some m ↔ ∃ v, (key, v) ∈ members ∧ meaning num v = m := by
  induction members with
  | nil => simp [findMember]
  | cons entry rest ih =>
    obtain ⟨name, v⟩ := entry
    obtain ⟨apart, distinct⟩ := List.nodup_cons.1 distinct
    rw [findMember]
    split
    · next same =>
      subst same
      simp only [Option.some.injEq, List.mem_cons, Prod.mk.injEq, true_and]
      constructor
      · exact fun found => ⟨v, .inl rfl, found⟩
      · rintro ⟨w, rfl | member, found⟩
        · exact found
        · exact absurd (List.mem_map.2 ⟨_, member, rfl⟩) apart
    · next other =>
      rw [ih distinct]
      simp [Ne.symm other]

theorem meaning_canon (sound : Sound s v) :
    meaning (denoted s) (canon s v) = meaning (denoted s) v := by
  induction v using Value.ind with
  | literal l => rfl
  | number lexeme => rw [canon, meaning, meaning, denoted_numberText sound]
  | string chars => rfl
  | array items ih =>
    rw [canon, meaning, meaning, itemMeanings_eq, itemMeanings_eq, canonItems_eq, List.map_map]
    congr 1
    exact List.map_congr_left fun v member => ih v member (every_array.1 sound v member)
  | object members ih =>
    obtain ⟨distinct, each⟩ := every_object.1 sound
    have distinct' : ((canonMembers s members).map (·.1)).Nodup := by
      simpa [canonMembers_eq, Function.comp_def] using distinct
    rw [canon, meaning, meaning]
    congr 1
    funext key
    ext m
    rw [findMember_iff (order_nodup distinct'), findMember_iff distinct]
    simp only [(order_perm _).mem_iff, canonMembers_eq, List.mem_map, Prod.mk.injEq, Prod.exists]
    constructor
    · rintro ⟨w, ⟨name, v, member, rfl, rfl⟩, rfl⟩
      exact ⟨v, member, (ih (name, v) member (each (name, v) member)).symm⟩
    · rintro ⟨v, member, rfl⟩
      exact ⟨canon s v, ⟨key, v, member, rfl, rfl⟩, ih (key, v) member (each (key, v) member)⟩

theorem canon_eq_of_meaning {w : Value} (sound : Sound s v) (sound' : Sound s w)
    (same : meaning (denoted s) v = meaning (denoted s) w) : canon s v = canon s w := by
  induction v using Value.ind generalizing w with
  | literal l =>
    cases w with
    | literal l' =>
      simp only [meaning, Meaning.literal.injEq] at same
      rw [same]
    | _ => simp [meaning] at same
  | number lexeme =>
    cases w with
    | number lexeme' =>
      simp only [meaning, Meaning.number.injEq] at same
      rw [canon, canon, numberText_congr sound same]
    | _ => simp [meaning] at same
  | string chars =>
    cases w with
    | string chars' =>
      simp only [meaning, Meaning.string.injEq] at same
      rw [same]
    | _ => simp [meaning] at same
  | array items ih =>
    cases w with
    | array items' =>
      have each := every_array.1 sound
      have each' := every_array.1 sound'
      simp only [meaning, Meaning.array.injEq, itemMeanings_eq] at same
      rw [canon, canon, canonItems_eq, canonItems_eq, Value.array.injEq]
      rw [← List.forall₂_eq_eq_eq, List.forall₂_map_left_iff, List.forall₂_map_right_iff] at same ⊢
      rw [List.forall₂_iff_zip] at same ⊢
      refine ⟨same.1, fun {a b} pair => ?_⟩
      have inside := List.of_mem_zip pair
      exact ih a inside.1 (each a inside.1) (each' b inside.2) (same.2 pair)
    | _ => simp [meaning] at same
  | object members ih =>
    cases w with
    | object members' =>
      obtain ⟨distinct, each⟩ := every_object.1 sound
      obtain ⟨distinct', each'⟩ := every_object.1 sound'
      simp only [meaning, Meaning.object.injEq] at same
      have nodup : (canonMembers s members).Nodup :=
        List.Nodup.of_map (·.1) (by simpa [canonMembers_eq, Function.comp_def] using distinct)
      have units : ((canonMembers s members').map unitsOf).Nodup :=
        units_nodup (by simpa [canonMembers_eq, Function.comp_def] using distinct')
      have perm : (canonMembers s members).Perm (canonMembers s members') := by
        refine (List.perm_ext_iff_of_nodup nodup (List.Nodup.of_map _ units)).2 ?_
        rintro ⟨name, x⟩
        simp only [canonMembers_eq, List.mem_map, Prod.mk.injEq, Prod.exists]
        constructor
        · rintro ⟨key, v, member, rfl, rfl⟩
          have found : findMember (denoted s) members key = some (meaning (denoted s) v) :=
            (findMember_iff distinct).2 ⟨v, member, rfl⟩
          rw [same, findMember_iff distinct'] at found
          obtain ⟨w, member', alike⟩ := found
          exact ⟨_, w, member', rfl,
            (ih _ member (each _ member) (each' _ member') alike.symm).symm⟩
        · rintro ⟨key, w, member', rfl, rfl⟩
          have found : findMember (denoted s) members' key = some (meaning (denoted s) w) :=
            (findMember_iff distinct').2 ⟨w, member', rfl⟩
          rw [← same, findMember_iff distinct] at found
          obtain ⟨v, member, alike⟩ := found
          exact ⟨_, v, member, rfl, ih _ member (each _ member) (each' _ member') alike⟩
      rw [canon, canon, Value.object.injEq]
      exact Rows.orderBy_perm (Rows.increasing_orderBy units)
        (perm.trans (Rows.perm_orderBy _).symm)
    | _ => simp [meaning] at same

theorem canon_canon (sound : Sound s v) : canon s (canon s v) = canon s v :=
  canon_eq_of_meaning (sound_canon sound) sound (meaning_canon sound)

end Meaning

section Normal

variable (s : Strconv)

def Means (src : Bytes) (m : Meaning (Option (Option s.Double))) : Prop :=
  ∃ v, Denotes src v ∧ meaning (denoted s) v = m

variable {s}

theorem means_iff {v : Value} (spelt : Denotes src v)
    {m : Meaning (Option (Option s.Double))} : Means s src m ↔ meaning (denoted s) v = m := by
  constructor
  · rintro ⟨w, spelt', rfl⟩
    rw [denotes_unique spelt spelt']
  · exact fun same => ⟨v, spelt, same⟩

theorem canonicalize_canon {out : Bytes} (accepted : canonicalize s src = .ok out) :
    ∃ v, Denotes src v ∧ Sound s v ∧ Denotes out (canon s v) ∧ canonicalize s out = .ok out := by
  obtain ⟨v, spelt, deep, sound, rfl⟩ := canonicalize_iff.1 accepted
  have printed := denotes_plain (written_canon sound)
  refine ⟨v, spelt, sound, printed, canonicalize_iff.2 ?_⟩
  exact ⟨canon s v, printed, depth_canon deep, sound_canon sound, by rw [canon_canon sound]⟩

theorem append_failed {dst : Bytes} {e : Error} (failed : (append s dst src).2 = some e) :
    (append s dst src).1 = dst := by
  unfold append at failed ⊢
  split
  · exact List.take_length
  · next accepted => simp [accepted] at failed

theorem canonicalize_normalForm (s : Strconv) :
    (∀ a b x y, canonicalize s a = .ok x → canonicalize s b = .ok y →
      (x = y ↔ ∃ m, Means s a m ∧ Means s b m)) ∧
    (∀ a x, canonicalize s a = .ok x →
      canonicalize s x = .ok x ∧ valid s x = true ∧ (∀ m, Means s x m ↔ Means s a m) ∧
      ∃ v, Denotes x v ∧ Ordered v) ∧
    ∀ dst src e, (append s dst src).2 = some e → (append s dst src).1 = dst := by
  refine ⟨fun a b x y first second => ?_, fun a x accepted => ?_, fun _ _ _ => append_failed⟩
  · obtain ⟨v, spelt, sound, printed, -⟩ := canonicalize_canon first
    obtain ⟨w, spelt', sound', printed', -⟩ := canonicalize_canon second
    simp only [means_iff spelt, means_iff spelt', exists_eq_left']
    constructor
    · rintro rfl
      rw [← meaning_canon sound, ← meaning_canon sound', denotes_unique printed printed']
    · intro same
      obtain ⟨_, again, -, -, rfl⟩ := canonicalize_iff.1 first
      obtain ⟨_, again', -, -, rfl⟩ := canonicalize_iff.1 second
      rw [denotes_unique again spelt, denotes_unique again' spelt',
        canon_eq_of_meaning sound sound' same.symm]
  · obtain ⟨v, spelt, sound, printed, fixed⟩ := canonicalize_canon accepted
    refine ⟨fixed, by simp [valid, fixed], fun m => ?_, canon s v, printed, ordered_canon sound⟩
    rw [means_iff printed, means_iff spelt, meaning_canon sound]

theorem isDigit_digitChar : ∀ f : Fin 10, isDigit (Nat.digitChar f) = true := by decide

def oneDigit : Strconv where
  Double := Fin 10
  parseFloat lexeme :=
    match lexeme with
    | [c] => if isDigit c then some (Fin.ofNat 10 (c.toNat - '0'.toNat)) else none
    | _ => none
  isZero f := f = 0
  plain _ := true
  formatF f := [Nat.digitChar f]
  formatE _ := []
  parse_zero := ⟨0, by decide, by decide⟩
  parse_formatF := by decide
  parse_formatE := by simp
  formatF_shape f _ _ := ⟨[], [Nat.digitChar f], [], rfl, .none,
    ⟨fun c member => by
      rw [List.mem_singleton.1 member]
      exact isDigit_digitChar f, Nat.digitChar f, [], rfl, fun _ => rfl⟩, .none⟩
  formatE_shape := by simp
  parse_exponent mantissa expSign c exp _ := by
    cases mantissa <;> simp

theorem oneDigit_normalForm :
    let a := utf8 "\x7b \"b\" : 1, \"a\":[0]\x7d".toList
    let x := utf8 "\x7b\"a\":[0],\"b\":1\x7d".toList
    canonicalize oneDigit a = .ok x ∧ ∃ m, Means oneDigit a m ∧ Means oneDigit x m := by
  have accepted : canonicalize oneDigit (utf8 "\x7b \"b\" : 1, \"a\":[0]\x7d".toList) =
      .ok (utf8 "\x7b\"a\":[0],\"b\":1\x7d".toList) := by decide +kernel
  obtain ⟨same, fixed, -⟩ := canonicalize_normalForm oneDigit
  exact ⟨accepted, (same _ _ _ _ accepted (fixed _ _ accepted).1).1 rfl⟩

end Normal

end AppleDM.Canonjson
