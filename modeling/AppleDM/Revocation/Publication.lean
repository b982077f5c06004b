import AppleDM.Revocation.Invariant

set_option autoImplicit false

namespace AppleDM.Revocation

open Mdm Pki Checked Process State Relation Run

variable {Ext : Type} {r : Registry Ext} {w w' : World}

section Calls

variable {A B : Type} {post : B → World → Prop}

theorem Advances.trans {w'' : World} (first : Advances w w') (second : Advances w' w'') :
    Advances w w'' := by
  refine ⟨first.log.trans second.log, fun issuer n c there => ?_⟩
  obtain ⟨c', there', valid, der, same⟩ := first.certificates issuer n c there
  obtain ⟨c'', there'', valid', der', same'⟩ := second.certificates issuer n c' there'
  refine ⟨c'', there'', valid'.trans valid, der'.trans der, fun revoked => ?_⟩
  obtain rfl := same revoked
  exact same' revoked

theorem advances_later (since : ReflTransGen Advances w w') : Advances w w' := by
  induction since with
  | refl => exact ⟨List.suffix_refl _, .refl _⟩
  | tail _ step ih => exact ih.trans step

theorem Good.revoked_later (good : Good r w) (since : ReflTransGen Advances w w')
    {issuer : String} {n : Nat} (revoked : firstRevocation w.log issuer n ≠ none) :
    ∃ c, certificateAt w.records issuer n = some c ∧ c.status = .revoked ∧
      certificateAt w'.records issuer n = some c := by
  obtain ⟨first, is⟩ := Option.ne_none_iff_exists'.1 revoked
  obtain ⟨c, there, status, -⟩ := (good.revoked issuer n first).1 is
  obtain ⟨c', there', -, -, same⟩ := (advances_later since).certificates issuer n c there
  obtain rfl := same status
  exact ⟨c', there, status, there'⟩

abbrev Runs (r : Registry Ext) (p : Handler A) (post : A → World → Prop) (w : World) : Prop :=
  Safe (exec r) Advances (Good r) p post w

theorem runs_ask (base : List Event) {action : Action} {next : Answer action → Handler B}
    (needed : ∀ found, ReflTransGen Advances w found → Needs r base found action)
    (rest : ∀ answer after, ReflTransGen Advances w after → Good r after →
      Tells base action answer after → Runs r (next answer) post after) :
    Runs r (ask action >>= next) post w :=
  safe_bind.2 (safe_act (fun _ _ _ _ good needs performed => exec_keeps good needs performed)
    (fun found since _ => needed found since) rest)

theorem runs_raise {result : Except Failure A} {next : A → Handler B}
    (rest : ∀ value, result = .ok value → Runs r (next value) post w) :
    Runs r (raise result >>= next) post w :=
  safe_bind.2 (safe_pure.2 rest)

def Honest (base : World) : Request → Response → World → Prop
  | .revoke issuer serial reason, .done, w =>
    ∃ now, firstRevocation w.log issuer serial.toNat = some (now, reason)
  | .crl issuer, .crl der, w => ∃ list now earlier, base.log <:+ earlier ∧
    .returned issuer list der now :: earlier <:+ w.log
  | .ocsp issuer _, .ocsp response _, _ => ∀ n : Nat, response.serialNumber = n →
    firstRevocation base.log issuer n ≠ none → response.status ≠ .good
  | .check cert, .accepted, _ => ∀ issuer n c, certificateAt base.records issuer n = some c →
    firstRevocation base.log issuer n ≠ none → cert.raw ≠ c.der
  | _, _, _ => True

theorem Honest.later {base : World} {request : Request} {response : Response}
    (honest : Honest base request response w) (since : ReflTransGen Advances w w') :
    Honest base request response w' := by
  obtain ⟨⟨new, log⟩, -⟩ := advances_later since
  unfold Honest at honest ⊢
  split at honest
  · obtain ⟨now, first⟩ := honest
    exact ⟨now, log ▸ firstRevocation_later new first⟩
  · obtain ⟨list, now, earlier, began, logged⟩ := honest
    exact ⟨list, now, earlier, began, logged.trans ⟨new, log⟩⟩
  · exact honest
  · exact honest
  · trivial

theorem lookup_runs (good : Good r w) (issuer : String) (serial : Int) :
    Runs r (r.lookup issuer serial) (fun c _ => ∀ n : Nat, serial = n →
      firstRevocation w.log issuer n ≠ none → c.status = .revoked) w := by
  refine runs_raise fun _ _ => runs_raise fun _ _ => ?_
  refine runs_ask [] (fun _ _ => trivial) fun answer after since _ told => ?_
  refine safe_pure.2 fun c found n same revoked => ?_
  rw [told, same, Int.toNat_natCast] at found
  have there := certificateAt_some.2 (readCertificate_ok found)
  obtain ⟨c', -, status, there'⟩ := good.revoked_later since revoked
  rw [there'] at there
  exact Option.some.inj there ▸ status

theorem storedKey_ok {answer : Except StateError (Record Value)} {key : String}
    (read : Registry.storedKey answer = .ok key) :
    ∃ expiresAt, answer = .ok ⟨.key key, expiresAt⟩ := by
  unfold Registry.storedKey at read
  split at read
  · next other expiresAt => exact ⟨expiresAt, by rw [Except.ok.inj read]⟩
  all_goals cases read

theorem byCertificate_runs (good : Good r w) (cert : X509) :
    Runs r (r.byCertificate cert) (fun found _ => ∀ issuer n c,
      certificateAt w.records issuer n = some c → firstRevocation w.log issuer n ≠ none →
      cert.raw = c.der → found.status = .revoked) w := by
  unfold Registry.byCertificate
  refine runs_ask [] (fun _ _ => trivial) fun answer first since good' told => ?_
  refine runs_raise fun key read => runs_ask [] (fun _ _ => trivial) ?_
  refine fun answer' second since' _ told' => runs_raise fun found decoded => ?_
  refine runs_raise fun _ _ => safe_ok.2 fun issuer n c there revoked same => ?_
  obtain ⟨c', there', status, kept⟩ := good.revoked_later since revoked
  obtain rfl : c' = c := Option.some.inj (there'.symm.trans there)
  obtain ⟨-, -, -, -, -, listed⟩ := good'.stored.certificate kept
  obtain ⟨expiresAt, stored⟩ := storedKey_ok read
  obtain ⟨-, place⟩ := Memory.get_ok.1 (told.symm.trans stored)
  rw [same, listed] at place
  obtain rfl : certKey issuer (Hex.text n) = key := by
    simpa using congrArg Record.value (Option.some.inj place)
  obtain ⟨c'', -, status', kept'⟩ := good.revoked_later (since.trans since') revoked
  rw [told'] at decoded
  rw [certificateAt_some.2 (readCertificate_ok decoded)] at kept'
  exact Option.some.inj kept' ▸ status'

theorem check_runs (good : Good r w) (cert : X509) :
    Runs r (r.check cert) (Honest w (.check cert)) w := by
  unfold Registry.check
  refine safe_bind.2 ((byCertificate_runs good cert).mono fun found first _ revoked => ?_)
  refine runs_raise fun _ live => runs_raise fun _ _ => ?_
  refine runs_ask [] (fun _ _ => trivial) fun now second _ _ _ => runs_raise fun _ _ => ?_
  refine safe_ok.2 fun issuer n c there known same => ?_
  exact (reject_ok _ _ _).1 live (revoked issuer n c there known same)

theorem statusOf_ok {base response : OcspResponse} {found : Except Failure Certificate}
    (unknown : base.status ≠ .good) (returned : Registry.statusOf base found = .ok response) :
    response.serialNumber = base.serialNumber ∧
      (response.status = .good → ∃ c, found = .ok c ∧ c.status = .issued) := by
  unfold Registry.statusOf at returned
  split at returned
  · next c =>
    split at returned <;> obtain rfl := Except.ok.inj returned
    · next issued => exact ⟨rfl, fun _ => ⟨c, rfl, issued⟩⟩
    · exact ⟨rfl, fun wrong => by cases wrong⟩
    · exact ⟨rfl, fun good => absurd good unknown⟩
  · obtain rfl := Except.ok.inj returned
    exact ⟨rfl, fun good => absurd good unknown⟩
  · cases returned

theorem ocsp_runs (issuer : String) (request : Bytes) :
    Runs r (r.ocsp issuer request) (Honest w (.ocsp issuer request)) w := by
  unfold Registry.ocsp
  refine runs_raise fun i _ => runs_raise fun req _ => ?_
  refine runs_ask [] (fun _ _ => trivial) fun now first since good' _ => runs_raise fun _ _ => ?_
  refine safe_bind.2 (safe_lift (lookup_runs good' issuer req.serialNumber) ?_ ?_)
  · refine fun c second since' revoked => runs_raise fun response made => ?_
    obtain ⟨serial, issued⟩ := statusOf_ok (by simp) made
    refine runs_ask [] (fun _ _ => trivial) fun answer third _ _ _ => runs_raise fun der _ => ?_
    refine safe_ok.2 fun n same known reported => ?_
    obtain ⟨c', found, status⟩ := issued reported
    obtain rfl := Except.ok.inj found
    have still : firstRevocation first.log issuer n ≠ none := by
      obtain ⟨new, log⟩ := (advances_later since).log
      obtain ⟨when, is⟩ := Option.ne_none_iff_exists'.1 known
      rw [← log, firstRevocation_later new is]
      simp
    rw [revoked n (serial.symm.trans same) still] at status
    cases status
  · refine fun error second _ => runs_raise fun response made => ?_
    obtain ⟨-, issued⟩ := statusOf_ok (by simp) made
    refine runs_ask [] (fun _ _ => trivial) fun answer third _ _ _ => runs_raise fun der _ => ?_
    refine safe_ok.2 fun n _ _ reported => ?_
    obtain ⟨c, wrong, -⟩ := issued reported
    cases wrong

theorem issuerOf_ok {issuer : String} {i : Issuer} (read : r.issuerOf issuer = .ok i) :
    r.issuers[issuer]? = some i := by
  unfold Registry.issuerOf at read
  split at read
  · next j there => rw [there, Except.ok.inj read]
  · cases read

theorem handle_runs (good : Good r w) (request : Request) :
    Runs r (handle r request) (Honest w request) w := by
  cases request with
  | register issuer cert p =>
    refine runs_raise fun i configured => runs_raise fun _ _ => runs_raise fun _ _ => ?_
    have known : issuer ∈ r.issuers := by
      rw [Std.ExtTreeMap.mem_iff_isSome_getElem?, issuerOf_ok configured, Option.isSome_some]
    refine runs_ask [] (fun _ _ => known) fun answer after _ _ _ => runs_raise fun _ _ => ?_
    exact safe_ok.2 trivial
  | revoke issuer serial reason =>
    refine runs_raise fun _ _ => safe_bind.2 ?_
    refine (lookup_runs good issuer serial).mono fun _ first _ _ => ?_
    refine runs_ask [] (fun _ _ => trivial) fun answer after _ _ told => ?_
    exact runs_raise fun _ returned => safe_ok.2 (told returned)
  | crl issuer =>
    refine runs_raise fun i configured => ?_
    refine runs_ask w.log (fun found since => ⟨issuerOf_ok configured, (advances_later since).log⟩) ?_
    refine fun answer after _ _ told => runs_raise fun der returned => safe_ok.2 ?_
    obtain ⟨list, now, earlier, began, logged⟩ := told der returned
    exact ⟨list, now, earlier, began, logged ▸ List.suffix_refl _⟩
  | ocsp issuer request => exact ocsp_runs issuer request
  | check cert => exact check_runs good cert
  | prune limit =>
    refine runs_ask [] (fun _ _ => trivial) fun answer after _ _ _ => runs_raise fun n _ => ?_
    exact safe_ok.2 trivial

theorem disciplined (r : Registry Ext) :
    Disciplined (exec r) Advances (Good r) (fun request => (handle r request).run)
      (fun _ _ => True) where
  reflexive := fun _ good => good.advances.1
  starts := fun request w good => by
    have runs : Runs r (handle r request) (Honest w request) w := handle_runs good request
    exact Meets.mono runs fun _ _ _ => trivial
  stable := fun _ _ _ _ _ => trivial

end Calls

theorem good_start : Good r ({} : World) := by
  refine ⟨?_, ?_, ?_, ?_, ?_, ?_⟩
  · intro key record there
    simp at there
  · intro issuer n first
    simp [firstRevocation, certificateAt]
  · intro issuer p there
    simp [publicationAt] at there
  · intro issuer list der now member
    cases member
  · intro later earlier issuer list der now log
    simp at log
  · exact .nil

theorem kept_start (r : Registry Ext) :
    Kept (exec r) Advances (Good r) (fun _ _ => True) start :=
  ⟨good_start, fun _ member => by cases member⟩

structure Served (m : Memory Value) (earlier : List Event) (issuer : String)
    (made : Time) (crl : RevocationList) (now : Time) : Prop where
  dated : crl.thisUpdate = wholeSecond made
  complete : ∀ entry, entry ∈ crl.revoked ↔ ∃ time,
    firstRevocation earlier issuer entry.serialNumber = some (time, entry.reasonCode) ∧
    entry.revocationTime = wholeSecond time ∧
    ∃ c, certificateAt m issuer entry.serialNumber = some c ∧ ¬ c.notAfter < made
  distinct : (crl.revoked.map (·.serialNumber)).Nodup
  current : now < crl.nextUpdate + second

structure Serves (r : Registry Ext) (w : World) : Prop where
  served : ∀ later earlier issuer list der now,
    w.log = later ++ .returned issuer list der now :: earlier →
    r.lib.parseRevocationList der = some list.encoded ∧
      Served w.records earlier issuer list.thisUpdate list.encoded now
  numbered : w.log.Pairwise Follows

theorem Published.serves (published : Published r w) : Serves r w := by
  refine ⟨fun later earlier issuer list der now log => ?_, published.numbered⟩
  have sound := published.sound later earlier issuer list der now log
  obtain ⟨ext, i, -, created⟩ := sound.signed
  refine ⟨r.lib.parse_create ext _ list der created, rfl, fun entry => ?_, ?_, ?_⟩
  · simp only [RevocationList.encoded, List.mem_map]
    constructor
    · rintro ⟨listed, member, rfl⟩
      obtain ⟨first, there⟩ := (sound.complete listed).1 member
      exact ⟨_, first, rfl, there⟩
    · rintro ⟨time, first, same, there⟩
      refine ⟨{ entry with revocationTime := time }, (sound.complete _).2 ⟨first, there⟩, ?_⟩
      rw [RevocationListEntry.encoded, ← same]
  · rw [RevocationList.encoded, List.map_map]
    exact sound.distinct
  · have cut := Int.lt_ediv_add_one_mul_self list.nextUpdate (by decide : 0 < second)
    rw [Int.add_mul, Int.one_mul] at cut
    exact Int.lt_trans sound.current cut

section Truncated

def sampleList : RevocationList :=
  { number := 1, thisUpdate := 10500000000, nextUpdate := 11500000000, revoked := [] }

theorem sample_plain (der : Bytes) : '/' ∉ (if der = [1] then "i" else "c").toList := by
  split <;> decide

theorem sample_parse_create (_ : Unit) (_ : IssuerConfig) (list : RevocationList) (der : Bytes)
    (created : (if list = sampleList then .ok [1] else .error .invalid : Except Failure Bytes) =
      .ok der) : some sampleList.encoded = some list.encoded := by
  split at created
  · next same => rw [same]
  · cases created

def sampleLibrary : Library Unit where
  fingerprint der := if der = [1] then "i" else "c"
  plain := sample_plain
  checkSignatureFrom _ _ := true
  createRevocationList _ _ list := if list = sampleList then .ok [1] else .error .invalid
  parseRevocationList _ := some sampleList.encoded
  parse_create := sample_parse_create
  parseRequest _ := none
  issuerHashes _ _ := none
  createResponse _ _ _ := .error .invalid

def sampleIssuer : IssuerConfig where
  certificate := { raw := [1], publicKey := [], notAfter := 100000000000, isCA := true }
  crlSign := true
  subjectKeyId := [1]
  signerKey := []
  crlTTL := 1000000000
  crlRefresh := 900000000
  ocspTTL := 1

def tick (n : Nat) (now : Time) : Move Request (Choice Unit) := .advance n { now, ext := () }

-- The certificate expires at 10 s. The list made at 10.5 s is returned again at 11.2 s.
def sampleCalls : List (Move Request (Choice Unit)) :=
  [.start (.register "i" { raw := [2], publicKey := [], serialNumber := 7, notAfter := 10000000000 }
      {}), tick 0 1000000000,
    .start (.revoke "i" 7 1), tick 1 2000000000, tick 1 2000000000,
    .start (.crl "i"), tick 2 10500000000, .start (.crl "i"), tick 3 11200000000]

end Truncated

end AppleDM.Revocation
