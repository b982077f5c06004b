import AppleDM.Shared.Base64
import AppleDM.Shared.Decimal
import AppleDM.Shared.Path
import AppleDM.State.Memory

set_option autoImplicit false

-- Signed requests between the server and a remote declaration backend. Go strings are bytes here.
namespace AppleDM.Proxywire

open Checked Mdm
open State (Memory StateError Record validKey)

def ascii (text : String) : Bytes := text.toList.map fun c => UInt8.ofNat c.toNat

def latin (bytes : Bytes) : String := String.ofList (bytes.map fun b => Char.ofNat b.toNat)

def lineFeed : UInt8 := 0x0A
def dot : UInt8 := 0x2E

theorem latin_ascii {text : String} (plain : ∀ c ∈ text.toList, c.toNat < 256) :
    latin (ascii text) = text := by
  rw [latin, ascii, List.map_map]
  have same : text.toList.map ((fun b : UInt8 => Char.ofNat b.toNat) ∘ fun c =>
      UInt8.ofNat c.toNat) = text.toList := by
    refine (List.map_congr_left fun c member => ?_).trans (List.map_id _)
    simp [Nat.mod_eq_of_lt (plain c member)]
  rw [same, String.ofList_toList]

inductive Fault where
  | missingSignature
  | badSignature
  | state (cause : StateError)
  deriving DecidableEq

/-- HMAC-SHA256, SHA-256 in hexadecimal, and standard base64. -/
structure Crypto where
  hmac : Bytes → Bytes → Bytes
  sha256 : Bytes → String
  encodeStd : Bytes → Bytes
  decodeStd : Bytes → Option Bytes
  decode_encode : ∀ mac, decodeStd (encodeStd mac) = some mac

structure Request where
  method : Bytes
  requestURI : Bytes
  urlRequestURI : Bytes := []
  contentType : Bytes
  signature : List Bytes := []

def Request.target (r : Request) : Bytes :=
  if r.requestURI = [] then r.urlRequestURI else r.requestURI

variable (crypto : Crypto)

def sign (key pre body : Bytes) : Bytes := crypto.encodeStd (crypto.hmac key (pre ++ body))

def verify (key header pre body : Bytes) : Except Fault Unit := do
  reject (header = []) .missingSignature
  reject (crypto.decodeStd header ≠ some (crypto.hmac key (pre ++ body))) .badSignature

def requestPrefix (r : Request) (envelope : Bytes) : Bytes :=
  ascii "ddm-request-v2" ++ lineFeed :: (r.method ++ lineFeed :: (r.target ++
    lineFeed :: (r.contentType ++ lineFeed :: (envelope ++ [lineFeed]))))

def stamped (seconds : Int) (nonce : Bytes) : Bytes :=
  ascii "v2" ++ dot :: (Decimal.formatInt seconds ++
    dot :: ascii (Base64.encodeToString nonce))

def signRequest (key : Bytes) (r : Request) (body : Bytes) (seconds : Int) (nonce : Bytes) : Bytes :=
  stamped seconds nonce ++ dot :: sign crypto key (requestPrefix r (stamped seconds nonce)) body

def decodeNonce (text : Bytes) : Option Bytes :=
  (Base64.decodeString (latin text)).filter fun nonce => nonce.length = 32

structure Parts where
  version : Bytes
  stamp : Bytes
  nonce : Bytes
  mac : Bytes

def Parts.envelope (parts : Parts) : Bytes :=
  parts.version ++ dot :: (parts.stamp ++ dot :: parts.nonce)

def Request.parts (r : Request) : Option Parts :=
  match r.signature with
  | [header] =>
    match header.splitOn dot with
    | [version, stamp, nonce, mac] => some ⟨version, stamp, nonce, mac⟩
    | _ => none
  | _ => none

def readEnvelope (key : Bytes) (r : Request) (body : Bytes) : Except Fault (Int × Bytes) :=
  match r.parts with
  | none => .error .badSignature
  | some parts => do
    reject (parts.version ≠ ascii "v2") .badSignature
    match Decimal.parseInt parts.stamp, decodeNonce parts.nonce with
    | some seconds, some nonce => do
      verify crypto key parts.mac (requestPrefix r parts.envelope) body
      return (seconds, nonce)
    | _, _ => .error .badSignature

structure Framed (r : Request) : Prop where
  method : lineFeed ∉ r.method
  target : lineFeed ∉ r.target
  contentType : lineFeed ∉ r.contentType

theorem requestPrefix_inj {r r' : Request} {envelope envelope' body body' : Bytes}
    (framed : Framed r) (framed' : Framed r') (plain : lineFeed ∉ envelope)
    (plain' : lineFeed ∉ envelope')
    (same : requestPrefix r envelope ++ body = requestPrefix r' envelope' ++ body') :
    r.method = r'.method ∧ r.target = r'.target ∧ r.contentType = r'.contentType ∧
      envelope = envelope' ∧ body = body' := by
  simp only [requestPrefix, List.append_assoc, List.cons_append, List.append_cancel_left_eq,
    List.cons.injEq, true_and, List.nil_append] at same
  obtain ⟨method, same⟩ := (Path.cons_inj framed.method framed'.method).1 same
  obtain ⟨target, same⟩ := (Path.cons_inj framed.target framed'.target).1 same
  obtain ⟨contentType, same⟩ := (Path.cons_inj framed.contentType framed'.contentType).1 same
  obtain ⟨envelopes, bodies⟩ := (Path.cons_inj plain plain').1 same
  exact ⟨method, target, contentType, envelopes, bodies⟩

theorem base64_byte {bytes : Bytes} {b : UInt8}
    (member : b ∈ ascii (Base64.encodeToString bytes)) : b ≠ lineFeed ∧ b ≠ dot := by
  obtain ⟨c, inside, rfl⟩ := List.mem_map.1 member
  have all : (Base64.alphabet.all fun c => UInt8.ofNat c.toNat ≠ lineFeed ∧
      UInt8.ofNat c.toNat ≠ dot) = true := by decide +kernel
  simpa using List.all_eq_true.1 all c (Base64.encodeToString_mem inside)

theorem decodeNonce_encode {nonce : Bytes} (size : nonce.length = 32) :
    decodeNonce (ascii (Base64.encodeToString nonce)) = some nonce := by
  have small : (Base64.alphabet.all fun c => c.toNat < 256) = true := by decide +kernel
  have plain : ∀ c ∈ (Base64.encodeToString nonce).toList, c.toNat < 256 := by
    intro c inside
    simpa using List.all_eq_true.1 small c (Base64.encodeToString_mem inside)
  rw [decodeNonce, latin_ascii plain, Base64.decodeString_encodeToString]
  simp [size]

theorem isDigit_byte {b : UInt8} (digit : Decimal.isDigit b = true ∨ b = Decimal.minus ∨
    b = Decimal.plus) : b ≠ lineFeed ∧ b ≠ dot := by
  refine ⟨?_, ?_⟩ <;> rintro rfl <;> revert digit <;> decide

theorem stamped_plain (seconds : Int) (nonce : Bytes) : lineFeed ∉ stamped seconds nonce := by
  simp only [stamped, List.mem_append, List.mem_cons, not_or]
  exact ⟨by decide, by decide, fun member => (isDigit_byte (Decimal.formatInt_mem member)).1 rfl,
    by decide, fun member => (base64_byte member).1 rfl⟩

theorem formatInt_dot (seconds : Int) : dot ∉ Decimal.formatInt seconds :=
  fun member => (isDigit_byte (Decimal.formatInt_mem member)).2 rfl

theorem parts_ok {r : Request} {parts : Parts} (found : r.parts = some parts) :
    r.signature = [parts.envelope ++ dot :: parts.mac] := by
  unfold Request.parts at found
  split at found
  · next header one =>
    split at found
    · next version stamp nonce mac four =>
      obtain rfl := Option.some.inj found
      have joined : [dot].intercalate (header.splitOn dot) = header := List.intercalate_splitOn dot
      rw [four] at joined
      rw [one, ← joined]
      simp [Parts.envelope, List.intercalate, List.intersperse]
    · cases found
  · cases found

theorem readEnvelope_ok {key : Bytes} {r : Request} {body nonce : Bytes} {seconds : Int}
    (read : readEnvelope crypto key r body = .ok (seconds, nonce)) :
    ∃ parts, r.parts = some parts ∧ parts.version = ascii "v2" ∧
      Decimal.parseInt parts.stamp = some seconds ∧ decodeNonce parts.nonce = some nonce ∧
      verify crypto key parts.mac (requestPrefix r parts.envelope) body = .ok () := by
  unfold readEnvelope at read
  split at read
  · cases read
  · next parts found =>
    simp only [bind_ok, reject_ok, not_not] at read
    obtain ⟨_, version, read⟩ := read
    split at read
    · next seconds' nonce' stamp text =>
      simp only [bind_ok, pure_ok, Prod.mk.injEq] at read
      obtain ⟨_, verified, rfl, rfl⟩ := read
      exact ⟨parts, found, version, stamp, text, verified⟩
    · cases read

def minutes (n : Int) : Int := n * 60 * 1000000000

def unixEpoch : Int := 62135596800000000000

def unix (seconds : Int) : Int := unixEpoch + seconds * 1000000000

def replayKey (key nonce : Bytes) : String := "ddm/replay/" ++ crypto.sha256 (key ++ nonce)

def Timely (seconds now : Int) : Prop :=
  now - minutes 5 < unix seconds ∧ unix seconds ≤ now + minutes 5

instance (seconds now : Int) : Decidable (Timely seconds now) :=
  inferInstanceAs (Decidable (_ ∧ _))

def unclaimed (now : Int) (k : String) (m : Memory Bytes) : Except Fault Unit :=
  match m.get k with
  | .ok old => reject (now < old.expiresAt) .badSignature
  | .error .notFound => .ok ()
  | .error cause => .error (.state cause)

def claimNonce (now seconds : Int) (k : String) (m : Memory Bytes) :
    Except Fault (Unit × Memory Bytes) := do
  reject (¬ Timely seconds now) .badSignature
  unclaimed now k m
  let m ← (m.put k ⟨[1], now + minutes 10⟩).mapError .state
  return ((), m)

def verifyRequest (m : Memory Bytes) (now : Int) (key : Bytes) (r : Request) (body : Bytes) :
    Except Fault Unit × Memory Bytes :=
  match readEnvelope crypto key r body with
  | .error fault => (.error fault, m)
  | .ok (seconds, nonce) =>
    let k := replayKey crypto key nonce
    m.update (.state .invalid) [k] (claimNonce now seconds k)

end AppleDM.Proxywire
