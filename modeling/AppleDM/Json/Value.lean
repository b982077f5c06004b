import AppleDM.Json.Decoder

set_option autoImplicit false

namespace AppleDM.Jsontext

inductive Value where
  | literal (l : Literal)
  | number (lexeme : List Char)
  | string (chars : List Char)
  | array (items : List Value)
  | object (members : List (List Char × Value))

inductive Meaning (Num : Type) where
  | literal (l : Literal)
  | number (n : Num)
  | string (chars : List Char)
  | array (items : List (Meaning Num))
  | object (find : List Char → Option (Meaning Num))

namespace Value

mutual

def tokens : Value → List Token
  | .literal l => [.literal l]
  | .number lexeme => [.number lexeme]
  | .string chars => [.string chars]
  | .array items => .openArray :: (itemTokens items ++ [.closeArray])
  | .object members => .openObject :: (memberTokens members ++ [.closeObject])

def itemTokens : List Value → List Token
  | [] => []
  | v :: rest => tokens v ++ itemTokens rest

def memberTokens : List (List Char × Value) → List Token
  | [] => []
  | (name, v) :: rest => .string name :: (tokens v ++ memberTokens rest)

end

mutual

def meaning {Num : Type} (num : List Char → Num) : Value → Meaning Num
  | .literal l => .literal l
  | .number lexeme => .number (num lexeme)
  | .string chars => .string chars
  | .array items => .array (itemMeanings num items)
  | .object members => .object (findMember num members)

def itemMeanings {Num : Type} (num : List Char → Num) : List Value → List (Meaning Num)
  | [] => []
  | v :: rest => meaning num v :: itemMeanings num rest

def findMember {Num : Type} (num : List Char → Num) :
    List (List Char × Value) → List Char → Option (Meaning Num)
  | [], _ => none
  | (name, v) :: rest, key => if name = key then some (meaning num v) else findMember num rest key

end

mutual

def depth : Value → Nat
  | .array items => itemDepth items + 1
  | .object members => memberDepth members + 1
  | _ => 0

def itemDepth : List Value → Nat
  | [] => 0
  | v :: rest => max (depth v) (itemDepth rest)

def memberDepth : List (List Char × Value) → Nat
  | [] => 0
  | (_, v) :: rest => max (depth v) (memberDepth rest)

end

mutual

def Every (num : List Char → Prop) (names : List (List Char) → Prop) : Value → Prop
  | .number lexeme => num lexeme
  | .array items => EveryItem num names items
  | .object members => names (members.map (·.1)) ∧ EveryMember num names members
  | _ => True

def EveryItem (num : List Char → Prop) (names : List (List Char) → Prop) : List Value → Prop
  | [] => True
  | v :: rest => Every num names v ∧ EveryItem num names rest

def EveryMember (num : List Char → Prop) (names : List (List Char) → Prop) :
    List (List Char × Value) → Prop
  | [] => True
  | (_, v) :: rest => Every num names v ∧ EveryMember num names rest

end

theorem ind {P : Value → Prop} (literal : ∀ l, P (.literal l)) (number : ∀ lexeme, P (.number lexeme))
    (string : ∀ chars, P (.string chars))
    (array : ∀ items, (∀ v ∈ items, P v) → P (.array items))
    (object : ∀ members, (∀ m ∈ members, P m.2) → P (.object members)) : ∀ v, P v
  | .literal l => literal l
  | .number lexeme => number lexeme
  | .string chars => string chars
  | .array items => array items fun v _ => ind literal number string array object v
  | .object members => object members fun m _ => ind literal number string array object m.2
termination_by v => sizeOf v
decreasing_by
  · have smaller := List.sizeOf_lt_of_mem ‹v ∈ items›
    simp only [Value.array.sizeOf_spec]
    omega
  · have smaller := List.sizeOf_lt_of_mem ‹m ∈ members›
    cases m
    simp only [Value.object.sizeOf_spec, Prod.mk.sizeOf_spec] at smaller ⊢
    omega

theorem itemMeanings_eq {Num : Type} (num : List Char → Num) (items : List Value) :
    itemMeanings num items = items.map (meaning num) := by
  induction items with
  | nil => rfl
  | cons v rest ih => simp [itemMeanings, ih]

variable {num : List Char → Prop} {names : List (List Char) → Prop}

variable {items : List Value} {members : List (List Char × Value)}

theorem everyItem_iff : EveryItem num names items ↔ ∀ v ∈ items, Every num names v := by
  induction items with
  | nil => simp [EveryItem]
  | cons v rest ih => simp [EveryItem, ih]

theorem everyMember_iff : EveryMember num names members ↔ ∀ m ∈ members, Every num names m.2 := by
  induction members with
  | nil => simp [EveryMember]
  | cons m rest ih => simp [EveryMember, ih]

@[simp] theorem every_array : Every num names (.array items) ↔ ∀ v ∈ items, Every num names v := by
  rw [Every, everyItem_iff]

@[simp] theorem every_object : Every num names (.object members) ↔
      names (members.map (·.1)) ∧ ∀ m ∈ members, Every num names m.2 := by
  rw [Every, everyMember_iff]

theorem itemDepth_le {limit : Nat} : itemDepth items ≤ limit ↔ ∀ v ∈ items, depth v ≤ limit := by
  induction items with
  | nil => simp [itemDepth]
  | cons v rest ih => simp [itemDepth, ih]

theorem memberDepth_le {limit : Nat} :
    memberDepth members ≤ limit ↔ ∀ m ∈ members, depth m.2 ≤ limit := by
  induction members with
  | nil => simp [memberDepth]
  | cons m rest ih => simp [memberDepth, ih]

theorem tokens_head (v : Value) : ∃ tok toks, tokens v = tok :: toks ∧ tok ≠ .closeArray ∧
    tok ≠ .closeObject := by
  cases v <;> exact ⟨_, _, rfl, by simp, by simp⟩

end Value

end AppleDM.Jsontext
