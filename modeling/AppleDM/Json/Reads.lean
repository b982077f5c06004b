import AppleDM.Json.Value

set_option autoImplicit false

namespace AppleDM.Jsontext

def Starts (tok : Token) (d : Decoder) (base : List Frame) : Prop :=
  match tok with
  | .openObject => d.stack = .object [] false :: base
  | .openArray => d.stack = .array false :: base
  | .closeObject => False
  | .closeArray => False
  | _ => d.stack = base

theorem skipSpace_length (text : List Char) : (skipSpace text).length ≤ text.length :=
  (List.dropWhile_sublist _).length_le

variable {text rest : List Char}

theorem stringBody_shorter {chars : List Char} (read : stringBody text = some (chars, rest)) :
    rest.length < text.length := by
  fun_induction stringBody text generalizing chars rest <;>
    simp_all [consChar] <;> grind

theorem digits_append (text : List Char) : (digits text).1 ++ (digits text).2 = text :=
  List.takeWhile_append_dropWhile

theorem signPart_append (text : List Char) : (signPart text).1 ++ (signPart text).2 = text := by
  unfold signPart
  split <;> simp

theorem intPart_append {int : List Char} (read : intPart text = some (int, rest)) :
    int ≠ [] ∧ int ++ rest = text := by
  unfold intPart at read
  split at read
  · cases read
    exact ⟨by simp, rfl⟩
  · have whole := digits_append text
    split at read
    · cases read
    · next other =>
      cases read
      refine ⟨?_, whole⟩
      intro none_
      exact other (digits text).2 (Prod.ext none_ rfl)

theorem fracPart_append {frac : List Char} (read : fracPart text = some (frac, rest)) :
    frac ++ rest = text := by
  unfold fracPart at read
  split at read
  · next tail =>
    have whole := digits_append tail
    split at read
    · cases read
    · next found after _ same =>
      cases read
      rw [same] at whole
      simp [← whole]
  · cases read
    rfl

variable {exp : List Char}

theorem expDigits_append {e : Char}
    (read : expDigits e text = some (exp, rest)) : exp ++ rest = e :: text := by
  unfold expDigits at read
  have signed : (expSign text).1 ++ (expSign text).2 = text := by
    unfold expSign
    split <;> simp
  have whole := digits_append (expSign text).2
  split at read
  · cases read
  · next found after _ same =>
    cases read
    rw [same] at whole
    simp only [List.cons_append, List.append_assoc, whole, signed]

theorem expPart_append (read : expPart text = some (exp, rest)) : exp ++ rest = text := by
  unfold expPart at read
  split at read
  · exact expDigits_append read
  · exact expDigits_append read
  · cases read
    rfl

theorem number_append {lexeme : List Char} (read : number text = some (lexeme, rest)) :
    lexeme ≠ [] ∧ lexeme ++ rest = text := by
  simp only [number, Option.bind_eq_bind, Option.bind_eq_some_iff, Option.pure_def,
    Option.some.injEq, Prod.exists, Prod.mk.injEq] at read
  obtain ⟨int, afterInt, readInt, frac, afterFrac, readFrac, exp, afterExp, readExp, rfl, rfl⟩ := read
  obtain ⟨nonempty, whole⟩ := intPart_append readInt
  refine ⟨by simp [nonempty], ?_⟩
  rw [List.append_assoc, List.append_assoc, List.append_assoc, expPart_append readExp,
    fracPart_append readFrac, whole, signPart_append]

theorem literal_append {l : Literal} (read : literal text = some (l, rest)) :
    l.text ++ rest = text := by
  unfold literal at read
  split at read <;> cases read <;> rfl

namespace Decoder

variable {base : List Frame} {text : List Char} {tok : Token} {d d' : Decoder}

theorem value_starts (read : value base text = .ok (tok, d)) : Starts tok d base := by
  unfold value at read
  split at read
  · cases read; rfl
  · cases read; rfl
  · split at read
    · cases read
    · cases read; rfl
  · split at read
    · cases read; rfl
    · split at read
      · cases read; rfl
      · cases read

theorem value_shorter (read : value base text = .ok (tok, d)) : d.rest.length < text.length := by
  unfold value at read
  split at read
  · cases read
    simp
  · cases read
    simp
  · split at read
    · cases read
    · next body =>
      cases read
      have := stringBody_shorter body
      simp only [List.length_cons]
      omega
  · split at read
    · next l rest found =>
      cases read
      have whole := literal_append found
      have nonempty : 0 < l.text.length := by cases l <;> simp [Literal.text]
      rw [← whole, List.length_append]
      exact Nat.lt_add_of_pos_left nonempty
    · split at read
      · next lexeme rest found =>
        cases read
        obtain ⟨nonempty, whole⟩ := number_append found
        rw [← whole, List.length_append]
        exact Nat.lt_add_of_pos_left (List.length_pos_iff.2 nonempty)
      · cases read

variable {names : List (List Char)}

theorem name_reads (read : name names base text = .ok (tok, d)) :
    d.rest.length < text.length ∧ ∃ chars, tok = .string chars ∧ chars ∉ names ∧
      d.stack = .object (chars :: names) true :: base := by
  unfold name at read
  split at read
  · split at read
    · cases read
    · next chars rest body =>
      split at read
      · cases read
      · next new =>
        cases read
        have := stringBody_shorter body
        simp only [List.length_cons]
        exact ⟨by omega, chars, rfl, new, rfl⟩
  · cases read

theorem read_array {started : Bool} (inside : d.stack = .array started :: base)
    (read : d.readToken = .ok (tok, d')) :
    d'.rest.length < d.rest.length ∧ (tok = .closeArray ∧ d'.stack = base ∨
      tok ≠ .closeArray ∧ Starts tok d' (.array true :: base)) := by
  have trimmed := skipSpace_length d.rest
  have begins {text : List Char} (read : value (.array true :: base) text = .ok (tok, d')) :
      tok ≠ .closeArray ∧ Starts tok d' (.array true :: base) := by
    have starts := value_starts read
    exact ⟨by rintro rfl; exact starts, starts⟩
  simp only [readToken, inside] at read
  unfold element at read
  split at read
  · next rest found =>
    cases read
    rw [found, List.length_cons] at trimmed
    exact ⟨trimmed, .inl ⟨rfl, rfl⟩⟩
  · next rest found =>
    split at read
    · have := value_shorter read
      have := skipSpace_length rest
      rw [found, List.length_cons] at trimmed
      exact ⟨by omega, .inr (begins read)⟩
    · cases read
  · split at read
    · cases read
    · have := value_shorter read
      exact ⟨by omega, .inr (begins read)⟩

theorem read_object (inside : d.stack = .object names false :: base)
    (read : d.readToken = .ok (tok, d')) :
    d'.rest.length < d.rest.length ∧ (tok = .closeObject ∧ d'.stack = base ∨
      ∃ chars, tok = .string chars ∧ chars ∉ names ∧
        d'.stack = .object (chars :: names) true :: base) := by
  have trimmed := skipSpace_length d.rest
  simp only [readToken, inside] at read
  unfold memberName at read
  split at read
  · next rest found =>
    cases read
    rw [found, List.length_cons] at trimmed
    exact ⟨trimmed, .inl ⟨rfl, rfl⟩⟩
  · next rest found =>
    split at read
    · cases read
    · obtain ⟨shorter, named⟩ := name_reads read
      have := skipSpace_length rest
      rw [found, List.length_cons] at trimmed
      exact ⟨by omega, .inr named⟩
  · split at read
    · obtain ⟨shorter, named⟩ := name_reads read
      exact ⟨by omega, .inr named⟩
    · cases read

theorem read_member (inside : d.stack = .object names true :: base)
    (read : d.readToken = .ok (tok, d')) :
    d'.rest.length < d.rest.length ∧ Starts tok d' (.object names false :: base) := by
  have trimmed := skipSpace_length d.rest
  simp only [readToken, inside] at read
  unfold memberValue at read
  split at read
  · next rest found =>
    have := value_shorter read
    have := skipSpace_length rest
    rw [found, List.length_cons] at trimmed
    exact ⟨by omega, value_starts read⟩
  · cases read

theorem read_top (outside : d.stack = []) (read : d.readToken = .ok (tok, d')) :
    d'.rest.length < d.rest.length ∧ Starts tok d' [] := by
  have trimmed := skipSpace_length d.rest
  simp only [readToken, outside] at read
  unfold topLevel at read
  split at read
  · cases read
  · have := value_shorter read
    exact ⟨by omega, value_starts read⟩

theorem readToken_shorter (read : d.readToken = .ok (tok, d')) : d'.rest.length < d.rest.length := by
  cases inside : d.stack with
  | nil => exact (read_top inside read).1
  | cons frame base =>
    cases frame with
    | array started => exact (read_array inside read).1
    | object names due =>
      cases due
      · exact (read_object inside read).1
      · exact (read_member inside read).1

variable {toks more : List Token}

theorem reads_append {mid : Decoder} (first : d.Reads toks mid)
    (second : mid.Reads more d') : d.Reads (toks ++ more) d' := by
  induction toks generalizing d with
  | nil =>
    obtain rfl : d = mid := first
    exact second
  | cons tok rest ih =>
    obtain ⟨next, read, later⟩ := first
    exact ⟨next, read, ih later⟩

theorem reads_split (all : d.Reads (toks ++ more) d') :
    ∃ mid, d.Reads toks mid ∧ mid.Reads more d' := by
  induction toks generalizing d with
  | nil => exact ⟨d, rfl, all⟩
  | cons tok rest ih =>
    obtain ⟨next, read, later⟩ := all
    obtain ⟨mid, first, second⟩ := ih later
    exact ⟨mid, ⟨next, read, first⟩, second⟩

theorem reads_length (all : d.Reads toks d') : toks.length + d'.rest.length ≤ d.rest.length := by
  induction toks generalizing d with
  | nil =>
    obtain rfl : d = d' := all
    simp
  | cons tok rest ih =>
    obtain ⟨next, read, later⟩ := all
    have := ih later
    have := readToken_shorter read
    simp only [List.length_cons]
    omega

end Decoder

end AppleDM.Jsontext
