import AppleDM.Json.Accepts

set_option autoImplicit false

namespace AppleDM.Canonjson

open Mdm Jsontext Jsontext.Value Jsontext.Decoder

inductive Exponent : List Char → Prop where
  | none : Exponent []
  | some (expSign head : Char) (rest : List Char) (signed : expSign = '+' ∨ expSign = '-')
    (digits : ∀ c ∈ head :: rest, isDigit c = true) : Exponent ('e' :: expSign :: head :: rest)

structure IsNumber (lexeme : List Char) : Prop where
  parts : ∃ sign int frac exp, lexeme = sign ++ int ++ frac ++ exp ∧ Sign sign ∧ Digits int ∧
    Fraction frac ∧ Exponent exp

def Ends (more : List Char) : Prop :=
  ∀ c rest, more = c :: rest → c = ',' ∨ c = ']' ∨ c = '\x7d'

def NoDigit (text : List Char) : Prop := ∀ c rest, text = c :: rest → isDigit c = false

variable {rest : List Char}

theorem digits_span {found : List Char} (all : ∀ c ∈ found, isDigit c = true)
    (stop : NoDigit rest) : digits (found ++ rest) = (found, rest) := by
  have nothing : rest.takeWhile isDigit = [] ∧ rest.dropWhile isDigit = rest := by
    cases rest with
    | nil => simp
    | cons c tail => simp [stop c tail rfl]
  rw [digits, List.takeWhile_append_of_pos all, List.dropWhile_append_of_pos all, nothing.1,
    nothing.2, List.append_nil]

variable {more : List Char}

theorem Ends.noDigit (ends : Ends more) : NoDigit more := by
  intro c rest same
  rcases ends c rest same with rfl | rfl | rfl <;> rfl

variable {exp : List Char}

theorem Exponent.noDigit (exponent : Exponent exp) (ends : Ends more) : NoDigit (exp ++ more) := by
  cases exponent with
  | none => exact ends.noDigit
  | some expSign head rest signed all =>
    rintro c tail ⟨⟩
    rfl

variable {frac : List Char}

theorem Fraction.noDigit (fraction : Fraction frac) (stop : NoDigit more) :
    NoDigit (frac ++ more) := by
  cases fraction with
  | none => exact stop
  | some head rest all =>
    rintro c tail ⟨⟩
    rfl

theorem expPart_read (exponent : Exponent exp) (ends : Ends more) :
    expPart (exp ++ more) = some (exp, more) := by
  cases exponent with
  | none =>
    rw [List.nil_append]
    unfold expPart
    split
    · next rest => rcases ends _ _ rfl with h | h | h <;> cases h
    · next rest => rcases ends _ _ rfl with h | h | h <;> cases h
    · rfl
  | some expSign_ head rest signed all =>
    have span : digits (head :: (rest ++ more)) = (head :: rest, more) :=
      digits_span all ends.noDigit
    rcases signed with rfl | rfl <;> simp [expPart, expDigits, expSign, span]

theorem fracPart_read (fraction : Fraction frac) (exponent : Exponent exp) (ends : Ends more) :
    fracPart (frac ++ (exp ++ more)) = some (frac, exp ++ more) := by
  cases fraction with
  | none =>
    rw [List.nil_append]
    cases exponent with
    | none =>
      rw [List.nil_append]
      unfold fracPart
      split
      · next rest => rcases ends _ _ rfl with h | h | h <;> cases h
      · rfl
    | some expSign head rest signed all => simp [fracPart]
  | some head rest all =>
    have span : digits (head :: (rest ++ (exp ++ more))) = (head :: rest, exp ++ more) :=
      digits_span all (exponent.noDigit ends)
    simp [fracPart, span]

theorem intPart_read {int : List Char} (digits_ : Digits int) (stop : NoDigit rest) :
    intPart (int ++ rest) = some (int, rest) := by
  obtain ⟨head, tail, rfl, zero⟩ := digits_.leading
  by_cases leading : head = '0'
  · obtain rfl := zero leading
    subst leading
    rfl
  · have span : digits (head :: (tail ++ rest)) = (head :: tail, rest) :=
      digits_span digits_.digits stop
    rw [List.cons_append]
    unfold intPart
    split
    · next same => exact absurd (List.cons.inj same).1 leading
    · rw [span]

variable {lexeme : List Char}

theorem number_read (number_ : IsNumber lexeme) (ends : Ends more) :
    Jsontext.number (lexeme ++ more) = some (lexeme, more) := by
  obtain ⟨sign, int, frac, exp, rfl, signed, digits_, fraction, exponent⟩ := number_.parts
  have signPart_read : signPart (sign ++ (int ++ (frac ++ (exp ++ more)))) =
      (sign, int ++ (frac ++ (exp ++ more))) := by
    cases signed with
    | minus => rfl
    | none =>
      obtain ⟨head, tail, rfl, -⟩ := digits_.leading
      have digit := digits_.digits head (by simp)
      simp only [List.nil_append, List.cons_append]
      unfold signPart
      split
      · next same =>
        rw [(List.cons.inj same).1] at digit
        cases digit
      · rfl
  simp only [List.append_assoc, Jsontext.number, signPart_read,
    intPart_read digits_ (fraction.noDigit (exponent.noDigit ends)),
    fracPart_read fraction exponent ends, expPart_read exponent ends, Option.bind_eq_bind,
    Option.bind_some, Option.pure_def]

theorem hexValue_hexDigit : ∀ n < 16, hexValue (hexDigit n) = some n := by decide

theorem codeUnit_escape {n : Nat} (small : n < 0x20) :
    codeUnit '0' '0' (hexDigit (n / 16)) (hexDigit (n % 16)) = some n := by
  have zero : hexValue '0' = some 0 := rfl
  simp only [codeUnit, zero, hexValue_hexDigit (n / 16) (by omega),
    hexValue_hexDigit (n % 16) (by omega), Option.bind_eq_bind, Option.bind_some, Option.pure_def,
    Option.some.injEq]
  omega

variable {c : Char}

theorem stringBody_escape (c : Char) (rest : List Char) :
    stringBody (escape c ++ rest) = consChar c (stringBody rest) := by
  unfold escape
  split
  · next special => rcases special with rfl | rfl <;> simp [stringBody, simpleEscape]
  next special =>
  iterate 5
    split
    · next same => subst same; simp [stringBody, simpleEscape]
  split
  · next control =>
    have unit := codeUnit_escape control
    have high : isHigh c.toNat = false := by simp [isHigh]; omega
    have low : isLow c.toNat = false := by simp [isLow]; omega
    simp [stringBody, unit, high, low]
  · next printable =>
    rw [List.singleton_append, stringBody.eq_def]
    split <;> simp_all

theorem stringBody_quote (chars rest : List Char) :
    stringBody (chars.flatMap escape ++ '"' :: rest) = some (chars, rest) := by
  induction chars with
  | nil => simp [stringBody]
  | cons c chars ih => rw [List.flatMap_cons, List.append_assoc, stringBody_escape, ih]; rfl

structure Head (c : Char) : Prop where
  space : isSpace c = false
  closed : c ≠ ']' ∧ c ≠ '\x7d'
  separator : c ≠ ',' ∧ c ≠ ':'

theorem Head.of_digit (digit : isDigit c = true) : Head c := by
  refine ⟨?_, ⟨?_, ?_⟩, ?_, ?_⟩
  · by_contra space
    simp only [isSpace, Bool.not_eq_false, Bool.or_eq_true, decide_eq_true_eq] at space
    rcases space with ((rfl | rfl) | rfl) | rfl <;> cases digit
  all_goals
    rintro rfl
    cases digit

theorem IsNumber.head (number_ : IsNumber lexeme) :
    ∃ c rest, lexeme = c :: rest ∧ (c = '-' ∨ isDigit c = true) := by
  obtain ⟨sign, int, frac, exp, rfl, signed, digits_, -, -⟩ := number_.parts
  cases signed with
  | minus => exact ⟨_, _, rfl, .inl rfl⟩
  | none =>
    obtain ⟨head, tail, rfl, -⟩ := digits_.leading
    exact ⟨_, _, rfl, .inr (digits_.digits head (by simp))⟩

abbrev Written : Value → Prop := Every IsNumber List.Nodup

variable {v : Value}

theorem plain_head (written : Written v) : ∃ c rest, plain v = c :: rest ∧ Head c := by
  have fixed {c : Char} (space : isSpace c = false) (closed : c ≠ ']' ∧ c ≠ '\x7d')
      (separator : c ≠ ',' ∧ c ≠ ':') : Head c := ⟨space, closed, separator⟩
  cases v with
  | literal l => cases l <;> exact ⟨_, _, rfl, fixed rfl (by decide) (by decide)⟩
  | number lexeme =>
    obtain ⟨c, rest, rfl, rfl | digit⟩ := IsNumber.head written
    · exact ⟨_, _, rfl, fixed rfl (by decide) (by decide)⟩
    · exact ⟨_, _, rfl, .of_digit digit⟩
  | string | array | object => exact ⟨_, _, rfl, fixed rfl (by decide) (by decide)⟩

theorem skipSpace_head (head : isSpace c = false) : skipSpace (c :: rest) = c :: rest := by
  simp [skipSpace, head]

def Readable (v : Value) : Prop :=
  ∀ (base : List Frame) {more : List Char}, Ends more → ∃ tok toks next, tokens v = tok :: toks ∧
    Decoder.value base (plain v ++ more) = .ok (tok, next) ∧ next.Reads toks ⟨more, base⟩

theorem ends_elements (texts : List (List Char)) {close : Char} (closes : close = ']' ∨ close = '\x7d')
    (more : List Char) : Ends (elements [','] true texts ++ close :: more) := by
  intro c rest same
  cases texts with
  | nil =>
    obtain rfl := (List.cons.inj same).1
    exact .inr closes
  | cons text others =>
    simp only [elements, if_true, List.cons_append, List.nil_append] at same
    exact .inl (List.cons.inj same).1.symm

theorem read_items {items : List Value} (written : ∀ v ∈ items, Written v)
    (each : ∀ v ∈ items, Readable v) (started : Bool) (base : List Frame) (more : List Char) :
    Reads ⟨elements [','] started (itemTexts items) ++ ']' :: more, .array started :: base⟩
      (itemTokens items ++ [.closeArray]) ⟨more, base⟩ := by
  induction items generalizing started with
  | nil => exact ⟨⟨more, base⟩, rfl, rfl⟩
  | cons v rest ih =>
    obtain ⟨c, tail, shape, head⟩ := plain_head (written v (by simp))
    obtain ⟨tok, toks, next, spelt, begun, inner⟩ := each v (by simp) (.array true :: base)
      (ends_elements (itemTexts rest) (.inl rfl) more)
    have later := ih (fun w member => written w (by simp [member]))
      (fun w member => each w (by simp [member])) true
    have read : Decoder.readToken
        ⟨elements [','] started (itemTexts (v :: rest)) ++ ']' :: more, .array started :: base⟩ =
          .ok (tok, next) := by
      rw [← begun, shape]
      cases started with
      | false =>
        simp only [Decoder.readToken, itemTexts, elements, Bool.false_eq_true, if_false, shape,
          List.cons_append, List.append_assoc, skipSpace_head head.space]
        unfold element
        split
        · next same => exact absurd (List.cons.inj same).1 head.closed.1
        · next same => exact absurd (List.cons.inj same).1 head.separator.1
        · rfl
      | true =>
        simp only [Decoder.readToken, itemTexts, elements, if_true, shape, List.cons_append,
          List.nil_append, List.append_assoc, skipSpace_head (show isSpace ',' = false from rfl),
          element, skipSpace_head head.space]
    rw [itemTokens, spelt, List.append_assoc, List.cons_append]
    exact ⟨next, read, reads_append inner later⟩

theorem read_members {members : List (List Char × Value)} (written : ∀ m ∈ members, Written m.2)
    (each : ∀ m ∈ members, Readable m.2) (names : List (List Char))
    (distinct : (members.map (·.1)).Nodup) (fresh : ∀ m ∈ members, m.1 ∉ names)
    (base : List Frame) (more : List Char) :
    Reads ⟨elements [','] (!names.isEmpty) (memberTexts members) ++ '\x7d' :: more,
        .object names false :: base⟩
      (memberTokens members ++ [.closeObject]) ⟨more, base⟩ := by
  induction members generalizing names with
  | nil => exact ⟨⟨more, base⟩, rfl, rfl⟩
  | cons m rest ih =>
    obtain ⟨key, v⟩ := m
    obtain ⟨apart, distinct⟩ := List.nodup_cons.1 distinct
    obtain ⟨c, tail, shape, head⟩ := plain_head (written (key, v) (by simp))
    obtain ⟨tok, toks, next, spelt, begun, inner⟩ := each (key, v) (by simp)
      (.object (key :: names) false :: base) (ends_elements (memberTexts rest) (.inr rfl) more)
    have later := ih (fun w member => written w (by simp [member]))
      (fun w member => each w (by simp [member])) (key :: names) distinct fun w member repeated => by
        rcases List.mem_cons.1 repeated with same | known
        · exact apart (List.mem_map.2 ⟨w, member, same⟩)
        · exact fresh w (by simp [member]) known
    have new : key ∉ names := fresh (key, v) (by simp)
    -- The name is read up to its colon, and the value after it.
    set after := plain v ++ (elements [','] true (memberTexts rest) ++ '\x7d' :: more) with shape'
    have named : Decoder.readToken ⟨elements [','] (!names.isEmpty) (memberTexts ((key, v) :: rest)) ++
          '\x7d' :: more, .object names false :: base⟩ =
        .ok (.string key, ⟨':' :: after, .object (key :: names) true :: base⟩) := by
      have body := stringBody_quote key (':' :: after)
      cases names <;>
        simp [Decoder.readToken, memberTexts, elements, quote, memberName, name,
          skipSpace_head (show isSpace '"' = false from rfl),
          skipSpace_head (show isSpace ',' = false from rfl), ← shape', body, new]
    have valued : Decoder.readToken ⟨':' :: after, .object (key :: names) true :: base⟩ =
        .ok (tok, next) := by
      rw [← begun, shape', shape]
      simp only [Decoder.readToken, skipSpace_head (show isSpace ':' = false from rfl), memberValue,
        List.cons_append, skipSpace_head head.space]
    rw [memberTokens, spelt, List.cons_append, List.append_assoc, List.cons_append]
    exact ⟨_, named, next, valued, reads_append inner later⟩

theorem readable (written : Written v) : Readable v := by
  induction v using Value.ind with
  | literal l =>
    intro base more ends
    refine ⟨_, _, ⟨more, base⟩, rfl, ?_, rfl⟩
    cases l <;> rfl
  | number lexeme =>
    intro base more ends
    refine ⟨_, _, ⟨more, base⟩, rfl, ?_, rfl⟩
    obtain ⟨c, rest, rfl, first⟩ := IsNumber.head written
    have read := number_read written ends
    have apart {other : Char} (sign : other ≠ '-') (digit : isDigit other = false) : c ≠ other := by
      rintro rfl
      rcases first with same | same
      · exact sign same
      · rw [digit] at same
        cases same
    have wordless : Jsontext.literal (c :: rest ++ more) = none := by
      unfold Jsontext.literal
      split <;> try rfl
      all_goals next same => exact absurd (List.cons.inj same).1 (apart (by decide) rfl)
    rw [plain]
    unfold Decoder.value
    split
    on_goal 4 => rw [wordless, read]
    all_goals next same => exact absurd (List.cons.inj same).1 (apart (by decide) rfl)
  | string chars =>
    intro base more ends
    refine ⟨_, _, ⟨more, base⟩, rfl, ?_, rfl⟩
    simp [plain, quote, Decoder.value, stringBody_quote]
  | array items ih =>
    intro base more ends
    have each := every_array.1 written
    refine ⟨_, _, ⟨_, .array false :: base⟩, rfl, ?_,
      read_items each (fun v member => ih v member (each v member)) false base more⟩
    simp [plain, Decoder.value]
  | object members ih =>
    intro base more ends
    obtain ⟨distinct, each⟩ := every_object.1 written
    refine ⟨_, _, ⟨_, .object [] false :: base⟩, rfl, ?_,
      read_members each (fun m member => ih m member (each m member)) [] distinct (by simp) base more⟩
    simp [plain, Decoder.value]

theorem spells_plain (written : Written v) : Spells (plain v) v := by
  obtain ⟨c, rest, shape, head⟩ := plain_head written
  have ended : Ends [] := by rintro c rest ⟨⟩
  obtain ⟨tok, toks, next, spelt, begun, inner⟩ := readable written [] ended
  refine ⟨⟨[], []⟩, ?_, rfl⟩
  rw [spelt]
  refine ⟨next, ?_, inner⟩
  rw [← begun, List.append_nil, shape]
  simp only [Decoder.readToken, skipSpace_head head.space, topLevel]

end AppleDM.Canonjson
