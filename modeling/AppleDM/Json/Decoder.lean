import AppleDM.Shared.Rows
import AppleDM.Mdm.Identity

set_option autoImplicit false

namespace AppleDM.Jsontext

open Mdm

inductive Literal where
  | null
  | true
  | false
  deriving DecidableEq

def Literal.text : Literal → List Char
  | .null => ['n', 'u', 'l', 'l']
  | .true => ['t', 'r', 'u', 'e']
  | .false => ['f', 'a', 'l', 's', 'e']

inductive Token where
  | openObject
  | closeObject
  | openArray
  | closeArray
  | string (chars : List Char)
  | number (lexeme : List Char)
  | literal (l : Literal)
  deriving DecidableEq

/-- An open container. An array knows whether it has an element; an object knows its names and
whether the value of the last one is due. -/
inductive Frame where
  | array (started : Bool)
  | object (names : List (List Char)) (due : Bool)

structure Decoder where
  rest : List Char
  stack : List Frame := []

inductive Stop where
  | eof
  | invalid

variable (c : Char)

def isSpace : Bool := c = ' ' || c = '\t' || c = '\n' || c = '\r'

def skipSpace (text : List Char) : List Char := text.dropWhile isSpace

def hexValue : Option Nat :=
  if '0' ≤ c ∧ c ≤ '9' then some (c.toNat - '0'.toNat)
  else if 'a' ≤ c ∧ c ≤ 'f' then some (c.toNat - 'a'.toNat + 10)
  else if 'A' ≤ c ∧ c ≤ 'F' then some (c.toNat - 'A'.toNat + 10)
  else none

def codeUnit (a b c d : Char) : Option Nat := do
  let a ← hexValue a
  let b ← hexValue b
  let c ← hexValue c
  let d ← hexValue d
  pure (((a * 16 + b) * 16 + c) * 16 + d)

def isHigh (unit : Nat) : Bool := 0xd800 ≤ unit && unit < 0xdc00

def isLow (unit : Nat) : Bool := 0xdc00 ≤ unit && unit < 0xe000

def simpleEscape : Char → Option Char
  | '"' => some '"'
  | '\\' => some '\\'
  | '/' => some '/'
  | 'b' => some '\x08'
  | 'f' => some '\x0c'
  | 'n' => some '\n'
  | 'r' => some '\r'
  | 't' => some '\t'
  | _ => none

def consChar (tail : Option (List Char × List Char)) : Option (List Char × List Char) :=
  tail.map fun (chars, rest) => (c :: chars, rest)

def stringBody : List Char → Option (List Char × List Char)
  | [] => none
  | '"' :: rest => some ([], rest)
  | '\\' :: 'u' :: a :: b :: c :: d :: rest =>
    match codeUnit a b c d with
    | none => none
    | some unit =>
      if isHigh unit then
        match rest with
        | '\\' :: 'u' :: e :: f :: g :: h :: rest =>
          match codeUnit e f g h with
          | none => none
          | some low =>
            if isLow low then
              consChar (Char.ofNat (0x10000 + (unit - 0xd800) * 0x400 + (low - 0xdc00)))
                (stringBody rest)
            else none
        | _ => none
      else if isLow unit then none
      else consChar (Char.ofNat unit) (stringBody rest)
  | '\\' :: c :: rest =>
    match simpleEscape c with
    | none => none
    | some c => consChar c (stringBody rest)
  | c :: rest => if c.toNat < 0x20 then none else consChar c (stringBody rest)

def isDigit : Bool := '0' ≤ c && c ≤ '9'

def digits (text : List Char) : List Char × List Char :=
  (text.takeWhile isDigit, text.dropWhile isDigit)

def signPart : List Char → List Char × List Char
  | '-' :: rest => (['-'], rest)
  | text => ([], text)

def intPart : List Char → Option (List Char × List Char)
  | '0' :: rest => some (['0'], rest)
  | text =>
    match digits text with
    | ([], _) => none
    | found => some found

def fracPart : List Char → Option (List Char × List Char)
  | '.' :: rest =>
    match digits rest with
    | ([], _) => none
    | (found, rest) => some ('.' :: found, rest)
  | text => some ([], text)

def expSign : List Char → List Char × List Char
  | '+' :: rest => (['+'], rest)
  | '-' :: rest => (['-'], rest)
  | text => ([], text)

def expDigits (e : Char) (text : List Char) : Option (List Char × List Char) :=
  match digits (expSign text).2 with
  | ([], _) => none
  | (found, rest) => some (e :: (expSign text).1 ++ found, rest)

def expPart : List Char → Option (List Char × List Char)
  | 'e' :: rest => expDigits 'e' rest
  | 'E' :: rest => expDigits 'E' rest
  | text => some ([], text)

def number (text : List Char) : Option (List Char × List Char) := do
  let (sign, text) := signPart text
  let (int, text) ← intPart text
  let (frac, text) ← fracPart text
  let (exp, text) ← expPart text
  pure (sign ++ int ++ frac ++ exp, text)

def literal : List Char → Option (Literal × List Char)
  | 'n' :: 'u' :: 'l' :: 'l' :: rest => some (.null, rest)
  | 't' :: 'r' :: 'u' :: 'e' :: rest => some (.true, rest)
  | 'f' :: 'a' :: 'l' :: 's' :: 'e' :: rest => some (.false, rest)
  | _ => none

namespace Decoder

def value (stack : List Frame) : List Char → Except Stop (Token × Decoder)
  | '\x7b' :: rest => .ok (.openObject, ⟨rest, .object [] false :: stack⟩)
  | '[' :: rest => .ok (.openArray, ⟨rest, .array false :: stack⟩)
  | '"' :: rest =>
    match stringBody rest with
    | none => .error .invalid
    | some (chars, rest) => .ok (.string chars, ⟨rest, stack⟩)
  | text =>
    match literal text with
    | some (l, rest) => .ok (.literal l, ⟨rest, stack⟩)
    | none =>
      match number text with
      | some (lexeme, rest) => .ok (.number lexeme, ⟨rest, stack⟩)
      | none => .error .invalid

variable (names : List (List Char)) (outer : List Frame)

def name : List Char → Except Stop (Token × Decoder)
  | '"' :: rest =>
    match stringBody rest with
    | none => .error .invalid
    | some (chars, rest) =>
      if chars ∈ names then .error .invalid
      else .ok (.string chars, ⟨rest, .object (chars :: names) true :: outer⟩)
  | _ => .error .invalid

def topLevel : List Char → Except Stop (Token × Decoder)
  | [] => .error .eof
  | text => value [] text

def element (started : Bool) (outer : List Frame) : List Char → Except Stop (Token × Decoder)
  | ']' :: rest => .ok (.closeArray, ⟨rest, outer⟩)
  | ',' :: rest =>
    if started then value (.array true :: outer) (skipSpace rest) else .error .invalid
  | text => if started then .error .invalid else value (.array true :: outer) text

def memberName : List Char → Except Stop (Token × Decoder)
  | '\x7d' :: rest => .ok (.closeObject, ⟨rest, outer⟩)
  | ',' :: rest => if names = [] then .error .invalid else name names outer (skipSpace rest)
  | text => if names = [] then name names outer text else .error .invalid

def memberValue : List Char → Except Stop (Token × Decoder)
  | ':' :: rest => value (.object names false :: outer) (skipSpace rest)
  | _ => .error .invalid

def readToken (d : Decoder) : Except Stop (Token × Decoder) :=
  match d.stack with
  | [] => topLevel (skipSpace d.rest)
  | .array started :: outer => element started outer (skipSpace d.rest)
  | .object names true :: outer => memberValue names outer (skipSpace d.rest)
  | .object names false :: outer => memberName names outer (skipSpace d.rest)

def Reads : Decoder → List Token → Decoder → Prop
  | d, [], d' => d = d'
  | d, tok :: toks, d' => ∃ next, d.readToken = .ok (tok, next) ∧ next.Reads toks d'

end Decoder

end AppleDM.Jsontext
