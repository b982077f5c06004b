import AppleDM.Proxywire.Envelope
import AppleDM.Shared.Evolution
import AppleDM.Shared.Run

set_option autoImplicit false

-- A signed request takes effect at most once, whatever is replayed, reordered or changed.
namespace AppleDM.Proxywire

open Checked Mdm Run Evolution
open State (Memory StateError Record validKey)

variable (crypto : Crypto)

structure Signed where
  key : Bytes
  r : Request
  body : Bytes
  seconds : Int
  nonce : Bytes

def Signed.input (e : Signed) : Bytes := requestPrefix e.r (stamped e.seconds e.nonce) ++ e.body

inductive Call where
  | verify (key : Bytes) (r : Request) (body : Bytes)
  | prune (limit : Int) (order : List String)

structure Event where
  time : Int
  call : Call

def perform (m : Memory Bytes) (event : Event) : Except Fault Unit × Memory Bytes :=
  match event.call with
  | .verify key r body => verifyRequest crypto m event.time key r body
  | .prune limit order => (.ok (), (m.prune event.time limit order).2)

def step (m : Memory Bytes) (event : Event) : Memory Bytes := (perform crypto m event).2

def Authentic (signed : List Signed) (key : Bytes) (r : Request) (body : Bytes) : Prop :=
  ∀ parts, r.parts = some parts →
    verify crypto key parts.mac (requestPrefix r parts.envelope) body = .ok () →
    ∃ e ∈ signed, e.key = key ∧ e.input = requestPrefix r parts.envelope ++ body

variable {crypto}

section Memory

variable {m : Memory Bytes} {k : String} {limit latest : Int}

def Spent (k : String) (limit latest : Int) (m : Memory Bytes) : Prop :=
  limit ≤ latest ∨ ∃ record, m[k]? = some record ∧ limit ≤ record.expiresAt

theorem claimNonce_ok {now seconds : Int} {after : Memory Bytes}
    (claimed : claimNonce now seconds k m = .ok ((), after)) :
    Timely seconds now ∧ (∀ record, m[k]? = some record → record.expiresAt ≤ now) ∧
      after = m.insert k ⟨[1], now + minutes 10⟩ := by
  simp only [claimNonce, bind_ok, reject_ok, not_not] at claimed
  obtain ⟨_, timely, _, free, written, put, same⟩ := claimed
  obtain ⟨-, rfl⟩ := Prod.mk.inj ((pure_ok ..).1 same)
  have valid : validKey k = true ∧ m.insert k ⟨[1], now + minutes 10⟩ = written := by
    refine State.Memory.put_ok.1 ?_
    cases result : m.put k ⟨[1], now + minutes 10⟩ with
    | ok value =>
      rw [result] at put
      exact congrArg Except.ok (Except.ok.inj put)
    | error cause =>
      rw [result] at put
      cases put
  refine ⟨timely, fun record there => ?_, valid.2.symm⟩
  rw [unclaimed, State.Memory.get_ok.2 ⟨valid.1, there⟩] at free
  exact Int.not_lt.1 ((reject_ok ..).1 free)

theorem verifyRequest_cases (now : Int) (key body : Bytes) (r : Request) :
    (verifyRequest crypto m now key r body).2 = m ∧ (verifyRequest crypto m now key r body).1 ≠ .ok () ∨
      ∃ seconds nonce, readEnvelope crypto key r body = .ok (seconds, nonce) ∧
        claimNonce now seconds (replayKey crypto key nonce) m =
          .ok ((), (verifyRequest crypto m now key r body).2) := by
  unfold verifyRequest
  split
  · exact .inl ⟨rfl, by simp⟩
  · next seconds nonce read =>
    dsimp only
    obtain ⟨value, after, claimed, same⟩ | ⟨fault, same⟩ := State.Memory.update_cases m
      (Fault.state .invalid) [replayKey crypto key nonce]
      (claimNonce now seconds (replayKey crypto key nonce))
    · exact .inr ⟨seconds, nonce, read, by rw [same, claimed]⟩
    · exact .inl (by simp [same])

theorem step_spent {event : Event} (early : event.time ≤ latest) (spent : Spent k limit latest m) :
    Spent k limit latest (step crypto m event) := by
  obtain ended | ⟨record, there, held⟩ := spent
  · exact .inl ended
  unfold step perform
  split
  · next key r body _ =>
    obtain ⟨same, -⟩ | ⟨seconds, nonce, -, claimed⟩ := verifyRequest_cases event.time key body r
    · rw [same]
      exact .inr ⟨record, there, held⟩
    · obtain ⟨-, free, wrote⟩ := claimNonce_ok claimed
      rw [wrote]
      by_cases same : k = replayKey crypto key nonce
      · -- the record could only be replaced once it had expired
        have ended := free record (same ▸ there)
        exact .inl (Int.le_trans held (Int.le_trans ended early))
      · exact .inr ⟨record, by rw [getElem?_insert_eq, if_neg same]; exact there, held⟩
  · next size order _ =>
    dsimp only
    obtain same | ⟨-, found, there', -, ended⟩ := State.Memory.prune_cases m event.time size order k
    · exact .inr ⟨record, same.trans there, held⟩
    · obtain rfl := Option.some.inj (there.symm.trans there')
      exact .inl (Int.le_trans held (Int.le_trans ended early))

theorem run_spent {events : List Event} (early : ∀ event ∈ events, event.time ≤ latest)
    (spent : Spent k limit latest m) : Spent k limit latest (run (step crypto) m events) :=
  allowed_invariant (fun _ event => event.time ≤ latest) (Spent k limit latest)
    (fun _ _ early spent => step_spent early spent) spent
    fun entry member => early entry.2 (event_mem_of_history member)

end Memory

section Runs

variable (crypto) in
/-- What is assumed of a run: the time of the store does not go back, signatures are not forged, a
nonce is drawn for one request, and the fields that are joined have no line feed. -/
structure Assumed (signed : List Signed) (events : List Event) : Prop where
  ordered : (events.map (·.time)).Pairwise (· ≤ ·)
  drawn : ∀ e ∈ signed, e.nonce.length = 32
  fresh : ∀ e ∈ signed, ∀ e' ∈ signed, e.key = e'.key → e.nonce = e'.nonce → e = e'
  framed : ∀ e ∈ signed, Framed e.r
  requests : ∀ event ∈ events, ∀ key r body, event.call = .verify key r body →
    Framed r ∧ Authentic crypto signed key r body

variable (crypto) in
structure Once (signed : List Signed) (start : Memory Bytes) (events : List Event) : Prop where
  exact : ∀ earlier event later key r body, events = earlier ++ event :: later →
    event.call = .verify key r body →
    (perform crypto (run (step crypto) start earlier) event).1 = .ok () →
    ∃ e ∈ signed, readEnvelope crypto key r body = .ok (e.seconds, e.nonce) ∧ e.key = key ∧
      e.r.method = r.method ∧ e.r.target = r.target ∧ e.r.contentType = r.contentType ∧
      e.body = body ∧ Timely e.seconds event.time
  once : ∀ earlier first between second later key r body r' body',
    events = earlier ++ first :: (between ++ second :: later) →
    first.call = .verify key r body → second.call = .verify key r' body' →
    (perform crypto (run (step crypto) start earlier) first).1 = .ok () →
    (perform crypto (run (step crypto) start (earlier ++ first :: between)) second).1 = .ok () →
    ∀ seconds seconds' nonce nonce', readEnvelope crypto key r body = .ok (seconds, nonce) →
      readEnvelope crypto key r' body' = .ok (seconds', nonce') → nonce ≠ nonce'

variable {event : Event} {key body nonce : Bytes} {r : Request} {seconds : Int}

theorem signed_exact {signed : List Signed} {events : List Event}
    (assumed : Assumed crypto signed events)
    (headers : ∀ event ∈ events, ∀ key r body, event.call = .verify key r body →
      ∀ value ∈ r.signature, lineFeed ∉ value)
    (member : event ∈ events) (call : event.call = .verify key r body)
    (read : readEnvelope crypto key r body = .ok (seconds, nonce)) :
    ∃ e ∈ signed, e.key = key ∧ e.r.method = r.method ∧ e.r.target = r.target ∧
      e.r.contentType = r.contentType ∧ e.seconds = seconds ∧ e.nonce = nonce ∧ e.body = body := by
  obtain ⟨own, authentic⟩ := assumed.requests event member key r body call
  obtain ⟨parts, found, version, stamp, text, verified⟩ := readEnvelope_ok crypto read
  obtain ⟨e, inside, sameKey, input⟩ := authentic parts found verified
  have whole := parts_ok found
  have plain : lineFeed ∉ parts.envelope := by
    intro within
    refine headers event member key r body call _ (by rw [whole]; exact List.mem_singleton.2 rfl) ?_
    exact List.mem_append_left _ within
  obtain ⟨method, target, contentType, envelope, sameBody⟩ := requestPrefix_inj
    (assumed.framed e inside) own (stamped_plain e.seconds e.nonce) plain input
  -- the envelope is split again where it was joined
  rw [stamped, Parts.envelope, version, List.append_cancel_left_eq, List.cons.injEq] at envelope
  have number : dot ∉ parts.stamp := fun inside =>
    (isDigit_byte (Decimal.parseInt_mem stamp _ inside)).2 rfl
  obtain ⟨stamps, nonces⟩ := (Path.cons_inj (formatInt_dot e.seconds) number).1 envelope.2
  rw [← stamps] at stamp
  rw [← nonces, decodeNonce_encode (assumed.drawn e inside)] at text
  exact ⟨e, inside, sameKey, method, target, contentType, (Decimal.parseInt_formatInt stamp).symm,
    Option.some.inj text, sameBody⟩

theorem perform_ok {m : Memory Bytes} (call : event.call = .verify key r body)
    (accepted : (perform crypto m event).1 = .ok ())
    (read : readEnvelope crypto key r body = .ok (seconds, nonce)) :
    Timely seconds event.time ∧
      (∀ record, m[replayKey crypto key nonce]? = some record → record.expiresAt ≤ event.time) ∧
      step crypto m event = m.insert (replayKey crypto key nonce) ⟨[1], event.time + minutes 10⟩ := by
  simp only [perform, call, step] at accepted ⊢
  obtain ⟨-, refused⟩ | ⟨seconds', nonce', read', claimed⟩ := verifyRequest_cases event.time key body r
  · exact absurd accepted refused
  obtain ⟨rfl, rfl⟩ := Prod.mk.inj (Except.ok.inj (read.symm.trans read'))
  exact claimNonce_ok claimed

theorem signed_once (crypto : Crypto) (signed : List Signed) (start : Memory Bytes)
    (events : List Event) (assumed : Assumed crypto signed events)
    (headers : ∀ event ∈ events, ∀ key r body, event.call = .verify key r body →
      ∀ value ∈ r.signature, lineFeed ∉ value) :
    Once crypto signed start events := by
  refine ⟨fun earlier event later key r body same call accepted => ?_, ?_⟩
  · have member : event ∈ events := by simp [same]
    obtain ⟨-, refused⟩ | ⟨seconds, nonce, read, -⟩ := verifyRequest_cases event.time key body r
    · exact absurd (by simpa only [perform, call] using accepted) refused
    obtain ⟨e, inside, sameKey, method, target, contentType, rfl, rfl, sameBody⟩ :=
      signed_exact assumed headers member call read
    exact ⟨e, inside, read, sameKey, method, target, contentType, sameBody,
      (perform_ok call accepted read).1⟩
  · rintro earlier first between second later key r body r' body' rfl call call' accepted accepted'
      seconds seconds' nonce nonce' read read' rfl
    have order := assumed.ordered
    simp only [List.map_append, List.map_cons, List.pairwise_append, List.pairwise_cons,
      List.mem_append, List.mem_cons, List.mem_map] at order
    -- one nonce, so one signed request, so one timestamp
    obtain ⟨e, inside, sameKey, -, -, -, stamp, sameNonce, -⟩ := signed_exact assumed headers
      (by simp) call read
    obtain ⟨e', inside', sameKey', -, -, -, stamp', sameNonce', -⟩ := signed_exact assumed headers
      (by simp) call' read'
    obtain rfl := assumed.fresh e inside e' inside' (sameKey.trans sameKey'.symm)
      (sameNonce.trans sameNonce'.symm)
    obtain rfl : seconds = seconds' := stamp.symm.trans stamp'
    obtain ⟨timely, -, wrote⟩ := perform_ok call accepted read
    obtain ⟨timely', free, -⟩ := perform_ok call' accepted' read'
    have close : second.time < first.time + minutes 10 := by
      simp only [Timely, minutes] at timely timely' ⊢
      omega
    have spent : Spent (replayKey crypto key nonce) (first.time + minutes 10) second.time
        (run (step crypto) start (earlier ++ first :: between)) := by
      rw [run_append, run_cons, wrote]
      refine run_spent (fun event member => ?_) (.inr ⟨_, by rw [getElem?_insert_eq, if_pos rfl],
        Int.le_refl _⟩)
      exact order.2.1.2.2.2 event.time ⟨event, member, rfl⟩ second.time (.inl rfl)
    obtain ended | ⟨record, there, held⟩ := spent
    · omega
    · exact absurd (Int.le_trans held (free record there)) (Int.not_le.2 close)

end Runs

def plainCrypto : Crypto where
  hmac _ _ := []
  sha256 _ := "0"
  encodeStd mac := 0x41 :: mac
  decodeStd text := match text with
    | 0x41 :: mac => some mac
    | _ => none
  decode_encode _ := rfl

def post (signature : List Bytes) : Request :=
  { method := ascii "POST", requestURI := ascii "/", contentType := ascii "plist", signature }

theorem post_framed (signature : List Bytes) : Framed (post signature) :=
  ⟨show lineFeed ∉ ascii "POST" by decide, show lineFeed ∉ ascii "/" by decide,
    show lineFeed ∉ ascii "plist" by decide⟩

def zeros : Bytes := List.replicate 32 0

def signedPost : Signed := ⟨[1], post [], [lineFeed, 0x42], 0, zeros⟩

theorem signedPost_assumed {events : List Event} (ordered : (events.map (·.time)).Pairwise (· ≤ ·))
    (requests : ∀ event ∈ events, ∀ key r body, event.call = .verify key r body →
      Framed r ∧ Authentic plainCrypto [signedPost] key r body) :
    Assumed plainCrypto [signedPost] events := by
  refine ⟨ordered, fun e member => ?_, fun e member e' member' _ _ => ?_, fun e member => ?_, requests⟩
  · rw [List.mem_singleton.1 member]
    rfl
  · rw [List.mem_singleton.1 member, List.mem_singleton.1 member']
  · rw [List.mem_singleton.1 member]
    exact post_framed []

def shifted : Request :=
  post [ascii "v2.0." ++ ascii (Base64.encodeToString zeros) ++ [lineFeed] ++ ascii ".A"]

def shiftedParts : Parts :=
  ⟨ascii "v2", ascii "0", ascii (Base64.encodeToString zeros) ++ [lineFeed], ascii "A"⟩

theorem shifted_parts : shifted.parts = some shiftedParts := by rfl

theorem line_feed_moves :
    Assumed plainCrypto [signedPost] [⟨unix 0, .verify [1] shifted [0x42]⟩] ∧
      ¬ Once plainCrypto [signedPost] ∅ [⟨unix 0, .verify [1] shifted [0x42]⟩] := by
  refine ⟨signedPost_assumed (by simp) ?_, fun once => ?_⟩
  · intro event member key r body call
    rw [List.mem_singleton.1 member] at call
    obtain ⟨rfl, rfl, rfl⟩ := Call.verify.inj call
    refine ⟨post_framed _, fun parts found _ => ⟨signedPost, List.mem_singleton.2 rfl, rfl, ?_⟩⟩
    obtain rfl := Option.some.inj (shifted_parts.symm.trans found)
    decide +kernel
  · obtain ⟨e, member, -, -, -, -, -, body, -⟩ := once.exact [] _ [] [1] shifted [0x42] rfl rfl
      (by decide +kernel)
    rw [List.mem_singleton.1 member] at body
    revert body
    decide

def genuine : Request := post [signRequest plainCrypto [1] (post []) [lineFeed, 0x42] 0 zeros]

def genuineParts : Parts :=
  ⟨ascii "v2", ascii "0", ascii (Base64.encodeToString zeros), ascii "A"⟩

theorem signed_once_replayed :
    (perform plainCrypto ∅ ⟨unix 0, .verify [1] genuine [lineFeed, 0x42]⟩).1 = .ok () ∧
      Once plainCrypto [signedPost] ∅ [⟨unix 0, .verify [1] genuine [lineFeed, 0x42]⟩,
        ⟨unix 1, .verify [1] genuine [lineFeed, 0x42]⟩] := by
  have parsed : genuine.parts = some genuineParts := by rfl
  have same {event : Event} (member : event ∈ [(⟨unix 0, .verify [1] genuine [lineFeed, 0x42]⟩ : Event),
      ⟨unix 1, .verify [1] genuine [lineFeed, 0x42]⟩]) :
      event.call = .verify [1] genuine [lineFeed, 0x42] := by
    simp only [List.mem_cons, List.not_mem_nil, or_false] at member
    obtain rfl | rfl := member <;> rfl
  refine ⟨by decide +kernel, signed_once plainCrypto [signedPost] ∅ _
    (signedPost_assumed (by simp [unix]) ?_) ?_⟩
  · intro event member key r body call
    obtain ⟨rfl, rfl, rfl⟩ := Call.verify.inj ((same member).symm.trans call)
    refine ⟨post_framed _, fun parts found _ => ⟨signedPost, List.mem_singleton.2 rfl, rfl, ?_⟩⟩
    obtain rfl := Option.some.inj (parsed.symm.trans found)
    decide +kernel
  · intro event member key r body call
    obtain ⟨rfl, rfl, rfl⟩ := Call.verify.inj ((same member).symm.trans call)
    decide +kernel

end AppleDM.Proxywire
