import Mathlib.Data.List.Basic
import Mathlib.Tactic.Common

set_option autoImplicit false

-- Byte strings as UTF-8 decoders and JSON encoders take them apart.
namespace AppleDM.GoText

variable (text : List UInt8) (a b : UInt8)

def continues : Bool := 0x80 ≤ b && b ≤ 0xBF

def second : Bool :=
  if a = 0xE0 then 0xA0 ≤ b && b ≤ 0xBF
  else if a = 0xED then 0x80 ≤ b && b ≤ 0x9F
  else if a = 0xF0 then 0x90 ≤ b && b ≤ 0xBF
  else if a = 0xF4 then 0x80 ≤ b && b ≤ 0x8F
  else continues b

def two : Bool := 0xC2 ≤ a && a ≤ 0xDF && continues b

def three (c : UInt8) : Bool := 0xE0 ≤ a && a ≤ 0xEF && second a b && continues c

def four (c d : UInt8) : Bool :=
  0xF0 ≤ a && a ≤ 0xF4 && second a b && continues c && continues d

inductive Chunk where
  | ascii (a : UInt8)
  | pair (a b : UInt8)
  | triple (a b c : UInt8)
  | quad (a b c d : UInt8)
  deriving DecidableEq

def Chunk.Valid : Chunk → Prop
  | ascii a => a < 0x80
  | pair a b => two a b = true
  | triple a b c => three a b c = true
  | quad a b c d => four a b c d = true

-- U+FFFD, which both stands for itself and for a byte that starts no character.
def replacement : Chunk := .triple 0xEF 0xBF 0xBD

theorem replacement_valid : three 0xEF 0xBF 0xBD = true := rfl

def chunks : List UInt8 → List Chunk
  | [] => []
  | a :: rest =>
    if a < 0x80 then .ascii a :: chunks rest
    else
      match rest with
      | b :: c :: d :: rest₃ =>
        if two a b then .pair a b :: chunks (c :: d :: rest₃)
        else if three a b c then .triple a b c :: chunks (d :: rest₃)
        else if four a b c d then .quad a b c d :: chunks rest₃
        else replacement :: chunks (b :: c :: d :: rest₃)
      | [b, c] =>
        if two a b then .pair a b :: chunks [c]
        else if three a b c then [.triple a b c]
        else replacement :: chunks [b, c]
      | [b] => if two a b then [.pair a b] else replacement :: chunks [b]
      | [] => [replacement]

theorem chunks_valid : ∀ chunk ∈ chunks text, chunk.Valid := by
  fun_induction chunks text <;> simp_all [Chunk.Valid, replacement, replacement_valid]

def hexDigit (n : UInt8) : UInt8 := if n < 10 then 0x30 + n else 0x57 + n

def digitValue (d : UInt8) : UInt8 := if d < 0x3A then d - 0x30 else d - 0x57

def escapes : List (UInt8 × UInt8) :=
  [(0x22, 0x22), (0x5C, 0x5C), (0x08, 0x62), (0x0C, 0x66), (0x0A, 0x6E), (0x0D, 0x72), (0x09, 0x74)]

def escaped : Bool := a < 0x20 || a = 0x3C || a = 0x3E || a = 0x26

def quoteAscii : List UInt8 :=
  match escapes.lookup a with
  | some letter => [0x5C, letter]
  | none =>
    if escaped a then [0x5C, 0x75, 0x30, 0x30, hexDigit (a >>> 4), hexDigit (a &&& 15)]
    else [a]

def quoteChunk : Chunk → List UInt8
  | .ascii a => quoteAscii a
  | .pair a b => [a, b]
  | .triple a b c =>
    if a = 0xE2 ∧ b = 0x80 ∧ (c = 0xA8 ∨ c = 0xA9) then
      [0x5C, 0x75, 0x32, 0x30, 0x32, hexDigit (c &&& 15)]
    else [a, b, c]
  | .quad a b c d => [a, b, c, d]

def quote : List UInt8 :=
  0x22 :: (((chunks text).flatMap quoteChunk) ++ [0x22])

def readChunk : List UInt8 → Option (Chunk × List UInt8)
  | 0x5C :: 0x75 :: h₁ :: _ :: h₃ :: h₄ :: rest =>
    if h₁ = 0x32 then some (.triple 0xE2 0x80 (0xA0 + digitValue h₄), rest)
    else some (.ascii (digitValue h₃ * 16 + digitValue h₄), rest)
  | 0x5C :: letter :: rest =>
    ((escapes.find? fun e => e.2 = letter).map (·.1)).map fun a => (.ascii a, rest)
  | a :: rest =>
    if a < 0x80 then some (.ascii a, rest)
    else
      match rest with
      | b :: c :: d :: rest₃ =>
        if a ≤ 0xDF then some (.pair a b, c :: d :: rest₃)
        else if a ≤ 0xEF then some (.triple a b c, d :: rest₃)
        else some (.quad a b c d, rest₃)
      | [b, c] => if a ≤ 0xDF then some (.pair a b, [c]) else some (.triple a b c, [])
      | [b] => some (.pair a b, [])
      | [] => none
  | [] => none

theorem quoteAscii_cases : ∀ n : Fin 128,
    let a := UInt8.ofNat n
    (∃ e ∈ escapes, e.1 = a ∧ quoteAscii a = [0x5C, e.2]) ∨
      (quoteAscii a = [0x5C, 0x75, 0x30, 0x30, hexDigit (a >>> 4), hexDigit (a &&& 15)] ∧
        digitValue (hexDigit (a >>> 4)) * 16 + digitValue (hexDigit (a &&& 15)) = a) ∨
      (quoteAscii a = [a] ∧ a ≠ 0x5C ∧ a ≠ 0x22 ∧ a ≠ 0 ∧ a < 0x80) := by
  decide

theorem readChunk_ascii (valid : (Chunk.ascii a).Valid) (rest : List UInt8) :
    readChunk (quoteAscii a ++ rest) = some (.ascii a, rest) := by
  have below : a.toNat < 128 := valid
  have value : UInt8.ofNat a.toNat = a := UInt8.ofNat_toNat
  have shape := quoteAscii_cases ⟨a.toNat, below⟩
  simp only [value] at shape
  rcases shape with ⟨e, known, rfl, quoted⟩ | ⟨quoted, number⟩ | ⟨quoted, plain, _, _, small⟩
  · simp only [escapes, List.mem_cons, List.not_mem_nil, or_false] at known
    rcases known with rfl | rfl | rfl | rfl | rfl | rfl | rfl <;> rfl
  · rw [quoted]
    simp [readChunk, number]
  · rw [quoted]
    simp [readChunk, plain, small]

theorem lead_ne (bound : UInt8) (low : 0x80 ≤ bound) (above : bound ≤ a) :
    a ≠ 0x5C ∧ a ≠ 0x22 ∧ a ≠ 0 ∧ ¬a < 0x80 := by
  have reached : 128 ≤ a.toNat := Nat.le_trans low above
  refine ⟨?_, ?_, ?_, fun small => Nat.not_lt.mpr reached small⟩ <;>
    · rintro rfl
      exact absurd reached (by decide)

theorem continues_ne (valid : continues b = true) : b ≠ 0x5C ∧ b ≠ 0x22 ∧ b ≠ 0 ∧ ¬b < 0x80 := by
  simp only [continues, Bool.and_eq_true, decide_eq_true_eq] at valid
  exact lead_ne b 0x80 (by decide) valid.1

theorem second_ne (valid : second a b = true) : b ≠ 0x5C ∧ b ≠ 0x22 ∧ b ≠ 0 ∧ ¬b < 0x80 := by
  unfold second at valid
  split_ifs at valid <;> simp only [continues, Bool.and_eq_true, decide_eq_true_eq] at valid
  · exact lead_ne b 0xA0 (by decide) valid.1
  · exact lead_ne b 0x80 (by decide) valid.1
  · exact lead_ne b 0x90 (by decide) valid.1
  · exact lead_ne b 0x80 (by decide) valid.1
  · exact lead_ne b 0x80 (by decide) valid.1

theorem readChunk_quoteChunk (chunk : Chunk) (valid : chunk.Valid) (rest : List UInt8)
    (more : rest ≠ []) : readChunk (quoteChunk chunk ++ rest) = some (chunk, rest) := by
  obtain ⟨next, rest, rfl⟩ := List.exists_cons_of_ne_nil more
  cases chunk with
  | ascii a => exact readChunk_ascii a valid _
  | pair a b =>
    simp only [Chunk.Valid, two, Bool.and_eq_true, decide_eq_true_eq] at valid
    obtain ⟨⟨above, below⟩, _⟩ := valid
    obtain ⟨plain, _, _, wide⟩ := lead_ne a 0xC2 (by decide) above
    cases rest <;> simp [quoteChunk, readChunk, plain, wide, below]
  | triple a b c =>
    simp only [Chunk.Valid, three, Bool.and_eq_true, decide_eq_true_eq] at valid
    obtain ⟨⟨⟨above, below⟩, _⟩, _⟩ := valid
    obtain ⟨plain, _, _, wide⟩ := lead_ne a 0xE0 (by decide) above
    have long : ¬a ≤ 0xDF := fun short => absurd (UInt8.le_trans above short) (by decide)
    by_cases separator : a = 0xE2 ∧ b = 0x80 ∧ (c = 0xA8 ∨ c = 0xA9)
    · obtain ⟨rfl, rfl, rfl | rfl⟩ := separator <;> rfl
    · simp [quoteChunk, separator, readChunk, plain, wide, below, long]
  | quad a b c d =>
    simp only [Chunk.Valid, four, Bool.and_eq_true, decide_eq_true_eq] at valid
    obtain ⟨⟨⟨⟨above, _⟩, _⟩, _⟩, _⟩ := valid
    obtain ⟨plain, _, _, wide⟩ := lead_ne a 0xF0 (by decide) above
    have long : ¬a ≤ 0xDF := fun short => absurd (UInt8.le_trans above short) (by decide)
    have longer : ¬a ≤ 0xEF := fun short => absurd (UInt8.le_trans above short) (by decide)
    simp [quoteChunk, readChunk, plain, wide, long, longer]

theorem quoteAscii_bytes : ∀ n : Fin 128, ∃ first more,
    quoteAscii (UInt8.ofNat n) = first :: more ∧ first ≠ 0x22 ∧ 0 ∉ first :: more := by
  intro n
  have known : quoteAscii (UInt8.ofNat n) ≠ [] ∧ (quoteAscii (UInt8.ofNat n)).head? ≠ some 0x22 ∧
      0 ∉ quoteAscii (UInt8.ofNat n) := by
    revert n
    decide
  cases quoted : quoteAscii (UInt8.ofNat n) with
  | nil => exact absurd quoted known.1
  | cons first more =>
    rw [quoted] at known
    exact ⟨first, more, rfl, fun same => known.2.1 (by rw [same]; rfl), known.2.2⟩

theorem quoteChunk_bytes (chunk : Chunk) (valid : chunk.Valid) : ∃ first more,
    quoteChunk chunk = first :: more ∧ first ≠ 0x22 ∧ 0 ∉ first :: more := by
  cases chunk with
  | ascii a =>
    have quoted := quoteAscii_bytes ⟨a.toNat, valid⟩
    rwa [show UInt8.ofNat ((⟨a.toNat, valid⟩ : Fin 128) : Nat) = a from UInt8.ofNat_toNat] at quoted
  | pair a b =>
    simp only [Chunk.Valid, two, Bool.and_eq_true, decide_eq_true_eq] at valid
    obtain ⟨_, unquoted, nonzero, _⟩ := lead_ne a 0xC2 (by decide) valid.1.1
    obtain ⟨_, _, later, _⟩ := continues_ne b valid.2
    exact ⟨a, [b], rfl, unquoted, by simp [nonzero.symm, later.symm]⟩
  | triple a b c =>
    simp only [Chunk.Valid, three, Bool.and_eq_true, decide_eq_true_eq] at valid
    obtain ⟨_, unquoted, nonzero, _⟩ := lead_ne a 0xE0 (by decide) valid.1.1.1
    obtain ⟨_, _, later, _⟩ := second_ne a b valid.1.2
    obtain ⟨_, _, last, _⟩ := continues_ne c valid.2
    by_cases separator : a = 0xE2 ∧ b = 0x80 ∧ (c = 0xA8 ∨ c = 0xA9)
    · obtain ⟨rfl, rfl, rfl | rfl⟩ := separator <;> exact ⟨_, _, rfl, by decide, by decide⟩
    · exact ⟨a, [b, c], by simp [quoteChunk, separator], unquoted,
        by simp [nonzero.symm, later.symm, last.symm]⟩
  | quad a b c d =>
    simp only [Chunk.Valid, four, Bool.and_eq_true, decide_eq_true_eq] at valid
    obtain ⟨_, unquoted, nonzero, _⟩ := lead_ne a 0xF0 (by decide) valid.1.1.1.1
    obtain ⟨_, _, later, _⟩ := second_ne a b valid.1.1.2
    obtain ⟨_, _, third, _⟩ := continues_ne c valid.1.2
    obtain ⟨_, _, last, _⟩ := continues_ne d valid.2
    exact ⟨a, [b, c, d], rfl, unquoted, by simp [nonzero.symm, later.symm, third.symm, last.symm]⟩

theorem flatMap_quoteChunk_injective (left right : List Chunk) (leftRest rightRest : List UInt8)
    (leftValid : ∀ chunk ∈ left, chunk.Valid) (rightValid : ∀ chunk ∈ right, chunk.Valid)
    (same : left.flatMap quoteChunk ++ 0x22 :: leftRest =
      right.flatMap quoteChunk ++ 0x22 :: rightRest) :
    left = right ∧ leftRest = rightRest := by
  induction left generalizing right with
  | nil =>
    cases right with
    | nil => exact ⟨rfl, (List.cons.inj same).2⟩
    | cons chunk right =>
      obtain ⟨first, more, quoted, unquoted, _⟩ := quoteChunk_bytes chunk (rightValid _ (by simp))
      rw [List.flatMap_cons, quoted] at same
      exact absurd (List.cons.inj same).1.symm unquoted
  | cons chunk left hypothesis =>
    have kept : ∀ other ∈ left, other.Valid := fun other member => leftValid other (by simp [member])
    cases right with
    | nil =>
      obtain ⟨first, more, quoted, unquoted, _⟩ := quoteChunk_bytes chunk (leftValid _ (by simp))
      rw [List.flatMap_cons, quoted] at same
      exact absurd (List.cons.inj same).1 unquoted
    | cons other right =>
      have read := congrArg readChunk same
      simp only [List.flatMap_cons, List.append_assoc] at read
      rw [readChunk_quoteChunk chunk (leftValid _ (by simp)) _ (by simp),
        readChunk_quoteChunk other (rightValid _ (by simp)) _ (by simp)] at read
      obtain ⟨rfl, rest⟩ := Prod.mk.inj (Option.some.inj read)
      obtain ⟨rfl, after⟩ := hypothesis right kept
        (fun later member => rightValid later (by simp [member])) rest
      exact ⟨rfl, after⟩

theorem quote_injective (left right leftRest rightRest : List UInt8)
    (same : quote left ++ leftRest = quote right ++ rightRest) :
    chunks left = chunks right ∧ leftRest = rightRest := by
  simp only [quote, List.cons_append, List.append_assoc, List.nil_append, List.cons.injEq,
    true_and] at same
  exact flatMap_quoteChunk_injective _ _ _ _ (chunks_valid left) (chunks_valid right) same

theorem quote_congr {left right : List UInt8} (same : chunks left = chunks right) :
    quote left = quote right := by
  rw [quote, quote, same]

theorem zero_not_mem_quote : 0 ∉ quote text := by
  intro member
  simp only [quote, List.mem_cons, List.mem_append, List.not_mem_nil, or_false] at member
  rcases member with clash | member | clash
  · exact absurd clash (by decide)
  · obtain ⟨chunk, listed, inside⟩ := List.mem_flatMap.mp member
    obtain ⟨first, more, quoted, _, nonzero⟩ := quoteChunk_bytes chunk (chunks_valid text _ listed)
    exact nonzero (quoted ▸ inside)
  · exact absurd clash (by decide)

def elements : List (List UInt8) → List UInt8
  | [] => [0x5D]
  | text :: texts => 0x2C :: (quote text ++ elements texts)

def marshal : Option (List (List UInt8)) → List UInt8
  | none => [0x6E, 0x75, 0x6C, 0x6C]
  | some [] => [0x5B, 0x5D]
  | some (text :: texts) => 0x5B :: (quote text ++ elements texts)

def runes (texts : Option (List (List UInt8))) : Option (List (List Chunk)) :=
  texts.map (·.map chunks)

theorem elements_injective (left right : List (List UInt8))
    (same : elements left = elements right) : left.map chunks = right.map chunks := by
  induction left generalizing right with
  | nil =>
    cases right with
    | nil => rfl
    | cons text right => exact absurd (List.cons.inj same).1 (by decide)
  | cons text left hypothesis =>
    cases right with
    | nil => exact absurd (List.cons.inj same).1 (by decide)
    | cons other right =>
      obtain ⟨first, rest⟩ := quote_injective text other _ _ (List.cons.inj same).2
      rw [List.map_cons, List.map_cons, first, hypothesis right rest]

theorem elements_congr (left right : List (List UInt8))
    (same : left.map chunks = right.map chunks) : elements left = elements right := by
  induction left generalizing right with
  | nil =>
    cases right with
    | nil => rfl
    | cons text right => cases same
  | cons text left hypothesis =>
    cases right with
    | nil => cases same
    | cons other right =>
      obtain ⟨first, rest⟩ := List.cons.inj same
      rw [elements, elements, quote_congr first, hypothesis right rest]

theorem marshal_eq_iff (left right : Option (List (List UInt8))) :
    marshal left = marshal right ↔ runes left = runes right := by
  rcases left with _ | _ | ⟨text, left⟩ <;> rcases right with _ | _ | ⟨other, right⟩ <;>
    simp [marshal, runes, quote]
  constructor
  · intro same
    have quoted : quote text ++ elements left = quote other ++ elements right := by
      simpa [quote] using same
    obtain ⟨first, rest⟩ := quote_injective text other _ _ quoted
    exact ⟨first, elements_injective left right rest⟩
  · rintro ⟨first, rest⟩
    rw [first, elements_congr left right rest]

theorem zero_not_mem_marshal (texts : Option (List (List UInt8))) : 0 ∉ marshal texts := by
  have later : ∀ texts, 0 ∉ elements texts := by
    intro texts
    induction texts with
    | nil => decide
    | cons text texts hypothesis => simp [elements, hypothesis, zero_not_mem_quote]
  rcases texts with _ | _ | ⟨text, texts⟩
  · decide
  · decide
  · simp [marshal, later, zero_not_mem_quote]

end AppleDM.GoText
