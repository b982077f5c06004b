import Mathlib.Data.List.Lex
import AppleDM.Shared.Checked
import AppleDM.Json.Value

set_option autoImplicit false

namespace AppleDM.Canonjson

open Mdm Jsontext

structure Digits (int : List Char) : Prop where
  digits : ∀ c ∈ int, isDigit c = true
  leading : ∃ head rest, int = head :: rest ∧ (head = '0' → rest = [])

inductive Fraction : List Char → Prop where
  | none : Fraction []
  | some (head : Char) (rest : List Char) (digits : ∀ c ∈ head :: rest, isDigit c = true) :
    Fraction ('.' :: head :: rest)

inductive Sign : List Char → Prop where
  | none : Sign []
  | minus : Sign ['-']

/-- What `strconv` does with finite doubles. Parsing fails only outside their range, the two formats
are written as documented, a formatted number is read back, and the zeros between the sign of an
exponent and its digits make no difference to its reading. -/
structure Strconv where
  Double : Type
  parseFloat : List Char → Option Double
  /-- `f == 0`, of either sign -/
  isZero : Double → Bool
  /-- `abs >= 1e-6 && abs < 1e21` -/
  plain : Double → Bool
  /-- `FormatFloat(f, 'f', -1, 64)` -/
  formatF : Double → List Char
  /-- `FormatFloat(f, 'e', -1, 64)` -/
  formatE : Double → List Char
  parse_zero : ∃ zero, parseFloat ['0'] = some zero ∧ isZero zero = true
  parse_formatF : ∀ f, isZero f = false → plain f = true → parseFloat (formatF f) = some f
  parse_formatE : ∀ f, isZero f = false → plain f = false → parseFloat (formatE f) = some f
  formatF_shape : ∀ f, isZero f = false → plain f = true → ∃ sign int frac,
    formatF f = sign ++ int ++ frac ∧ Sign sign ∧ Digits int ∧ Fraction frac
  formatE_shape : ∀ f, isZero f = false → plain f = false → ∃ sign head frac expSign exp,
    formatE f = sign ++ [head] ++ frac ++ ['e', expSign] ++ exp ∧ Sign sign ∧
      isDigit head = true ∧ Fraction frac ∧ (expSign = '+' ∨ expSign = '-') ∧
      (∀ c ∈ exp, isDigit c = true) ∧ 2 ≤ exp.length
  parse_exponent : ∀ (mantissa : List Char) (expSign c : Char) (exp : List Char),
    (expSign = '+' ∨ expSign = '-') →
    parseFloat (mantissa ++ ['e', expSign, '0', c] ++ exp) =
      parseFloat (mantissa ++ ['e', expSign, c] ++ exp)

inductive Error where
  | empty
  | decoder
  | trailing
  | depth (found : Nat)
  | number (lexeme : List Char)
deriving DecidableEq

def maxDepth : Nat := 128

def invalid : Stop → Error
  | .eof => .empty
  | .invalid => .decoder

def utf8 (text : List Char) : Bytes := text.flatMap String.utf8EncodeChar

def decodeUtf8 (src : Bytes) : Option (List Char) := (src.toByteArray.utf8Decode?).map Array.toList

def utf16 (name : List Char) : List Nat :=
  name.flatMap fun c =>
    if c.toNat < 0x10000 then [c.toNat]
    else [0xd800 + (c.toNat - 0x10000) / 0x400, 0xdc00 + (c.toNat - 0x10000) % 0x400]

def hexDigit (n : Nat) : Char := ("0123456789abcdef".toList)[n]?.getD '0'

def escape (c : Char) : List Char :=
  if c = '"' ∨ c = '\\' then ['\\', c]
  else if c = '\x08' then ['\\', 'b']
  else if c = '\x0c' then ['\\', 'f']
  else if c = '\n' then ['\\', 'n']
  else if c = '\r' then ['\\', 'r']
  else if c = '\t' then ['\\', 't']
  else if c.toNat < 0x20 then
    ['\\', 'u', '0', '0', hexDigit (c.toNat / 16), hexDigit (c.toNat % 16)]
  else [c]

def quote (chars : List Char) : List Char := '"' :: (chars.flatMap escape ++ ['"'])

def appendString (dst : Bytes) (chars : List Char) : Bytes := dst ++ utf8 (quote chars)

def dropZeros : List Char → List Char
  | '0' :: c :: rest => dropZeros (c :: rest)
  | digits => digits

def exponentAt (text : List Char) : Nat := text.length - 1 - text.reverse.findIdx (· == 'e')

def exponentText (text : List Char) : List Char :=
  text.take (exponentAt text + 2) ++ dropZeros (text.drop (exponentAt text + 2))

variable (s : Strconv)

def doubleText (f : s.Double) : List Char :=
  if s.isZero f then ['0']
  else if s.plain f then s.formatF f
  else exponentText (s.formatE f)

def appendNumber (dst : Bytes) (lexeme : List Char) : Except Error Bytes :=
  match s.parseFloat lexeme with
  | none => .error (.number lexeme)
  | some f => .ok (dst ++ utf8 (doubleText s f))

structure Member where
  key : List Nat
  bytes : Bytes

def elements {A : Type} (comma : List A) (started : Bool) : List (List A) → List A
  | [] => []
  | part :: rest => (if started then comma ++ part else part) ++ elements comma true rest

def emit (dst : Bytes) (members : List Member) : Bytes :=
  dst ++ utf8 ['\x7b'] ++
    elements (utf8 [',']) false ((Rows.orderBy (·.key) members).map (·.bytes)) ++ utf8 ['\x7d']

def tokenText : Token → List Char
  | .literal l => l.text
  | .openObject => ['\x7b']
  | .closeObject => ['\x7d']
  | .openArray => ['[']
  | .closeArray => [']']
  | .string chars => chars
  | .number lexeme => lexeme

mutual

/-- `fuel` bounds the recursion; the tokens of the input do so in the code. -/
def value : Nat → Bytes → Token → Nat → Decoder → Except Error (Bytes × Decoder)
  | 0, _, _, _, _ => .error .decoder
  | fuel + 1, dst, tok, depth, d =>
    match tok with
    | .openObject => object fuel dst (depth + 1) d
    | .openArray => array fuel dst (depth + 1) d
    | .string chars => .ok (appendString dst chars, d)
    | .number lexeme => (·, d) <$> appendNumber s dst lexeme
    | tok => .ok (dst ++ utf8 (tokenText tok), d)

def array : Nat → Bytes → Nat → Decoder → Except Error (Bytes × Decoder)
  | 0, _, _, _ => .error .decoder
  | fuel + 1, dst, depth, d =>
    if depth > maxDepth then .error (.depth depth)
    else arrayLoop fuel (dst ++ utf8 ['[']) depth false d

def arrayLoop : Nat → Bytes → Nat → Bool → Decoder → Except Error (Bytes × Decoder)
  | 0, _, _, _, _ => .error .decoder
  | fuel + 1, dst, depth, started, d =>
    match d.readToken with
    | .error stop => .error (invalid stop)
    | .ok (tok, d) =>
      if tok = .closeArray then .ok (dst ++ utf8 [']'], d)
      else do
        let (dst, d) ← value fuel (if started then dst ++ utf8 [','] else dst) tok depth d
        arrayLoop fuel dst depth true d

def object : Nat → Bytes → Nat → Decoder → Except Error (Bytes × Decoder)
  | 0, _, _, _ => .error .decoder
  | fuel + 1, dst, depth, d =>
    if depth > maxDepth then .error (.depth depth)
    else do
      let (members, d) ← objectLoop fuel [] depth d
      pure (emit dst members, d)

def objectLoop : Nat → List Member → Nat → Decoder → Except Error (List Member × Decoder)
  | 0, _, _, _ => .error .decoder
  | fuel + 1, members, depth, d =>
    match d.readToken with
    | .error stop => .error (invalid stop)
    | .ok (tok, d) =>
      if tok = .closeObject then .ok (members, d)
      else
        let name := tokenText tok
        match d.readToken with
        | .error stop => .error (invalid stop)
        | .ok (valTok, d) => do
          let (buf, d) ← value fuel (appendString [] name ++ utf8 [':']) valTok depth d
          objectLoop fuel (members ++ [⟨utf16 name, buf⟩]) depth d

end

def root (dst : Bytes) (text : List Char) : Except Error Bytes :=
  match Decoder.readToken ⟨text, []⟩ with
  | .error stop => .error (invalid stop)
  | .ok (tok, d) => do
    let (dst, d) ← value s (3 * text.length + 3) dst tok 0 d
    match d.readToken with
    | .ok _ => .error .trailing
    | .error .invalid => .error .decoder
    | .error .eof => pure dst

def rootBytes (dst src : Bytes) : Except Error Bytes :=
  match decodeUtf8 src with
  | none => .error .decoder
  | some text => root s dst text

def append (dst src : Bytes) : Bytes × Option Error :=
  match rootBytes s dst src with
  | .error e => (dst.take dst.length, some e)
  | .ok out => (out, none)

def canonicalize (src : Bytes) : Except Error Bytes :=
  match append s [] src with
  | (_, some e) => .error e
  | (out, none) => .ok out

def valid (src : Bytes) : Bool :=
  match canonicalize s src with
  | .error _ => false
  | .ok out => out = src

end AppleDM.Canonjson
