import AppleDM.Shared.Evolution
import AppleDM.Scep.Grants

set_option autoImplicit false

namespace AppleDM.Scep

open Mdm Pki Checked Process State Relation Run Evolution

variable {Ext Policy : Type} {s : Config Ext Policy} {w w' : World}

theorem grantKey_ne_certificateKey (p q : String) (csr : Csr) :
    grantKey s p ≠ certificateKey s q csr := by
  intro same
  have lists := congrArg String.toList same
  simp [grantKey, certificateKey, String.toList_append] at lists

theorem passwordHash_injective : Function.Injective (passwordHash s) := by
  intro p q same
  have bytes := Array.toList_inj.1 (s.sha256.injective same)
  exact String.toByteArray_inj.1 (ByteArray.ext bytes)

theorem grantKey_injective : Function.Injective (grantKey s) := by
  intro p q same
  refine passwordHash_injective (s := s) ?_
  have lists := congrArg String.toList same
  simpa [grantKey, String.toList_append, String.toList_inj] using lists

variable {p : String} {csr : Csr}

theorem certificateKey_injective {q : String} {csr' : Csr}
    (same : certificateKey s p csr = certificateKey s q csr') : p = q ∧ csr.raw = csr'.raw := by
  have lists := congrArg String.toList same
  simp only [certificateKey, String.toList_append, List.append_cancel_left_eq,
    List.append_assoc] at lists
  have slash : "/".toList = ['/'] := rfl
  rw [slash, List.singleton_append, List.singleton_append] at lists
  obtain ⟨first, -, second⟩ :=
    (List.append_cons_inj_of_notMem (s.sha256.plain _) (s.sha256.plain _)).1 lists
  exact ⟨passwordHash_injective (String.toList_inj.1 first),
    s.sha256.injective (String.toList_inj.1 second)⟩

variable {g : Grant}

section Transactions

variable {m m' : Memory Value} {now : Time} {key : String}

theorem stateError_ok {A : Type} {r : Except StateError A} {value : A} :
    stateError r = .ok value ↔ r = .ok value := by
  cases r <;> simp [stateError, Except.mapError]

theorem wrapError_ok {A : Type} {text : String} {r : Except Failure A} {value : A} :
    wrapError text r = .ok value ↔ r = .ok value := by
  cases r <;> simp [wrapError, Except.mapError]

theorem challenged_ok {A : Type} {r : Except StateError A} {value : A} :
    challenged r = .ok value ↔ r = .ok value := by
  cases r with
  | ok other => simp [challenged]
  | error cause => cases cause <;> simp [challenged]

theorem unmarshal_ok {value : Value} : unmarshal value = .ok g ↔ value = .grant g := by
  cases value <;> simp [unmarshal]

theorem marshal_ok {g' : Grant} (written : marshal s g = .ok g') :
    g'.expiresAt = g.expiresAt ∧ g'.csrHash = g.csrHash := by
  simp only [marshal, bind_ok, pure_ok] at written
  obtain ⟨_, -, _, -, rfl⟩ := written
  exact ⟨rfl, rfl⟩

theorem putGrant_ok {g' : Grant} (returned : putGrant s now key g m = .ok (g', m')) :
    g'.expiresAt ≤ now + hour ∧ g'.csrHash = g.csrHash ∧
      m' = m.insert key ⟨.grant g', g'.expiresAt⟩ := by
  simp only [putGrant, bind_ok, reject_ok, wrapError_ok, stateError_ok, Memory.put_ok, pure_ok,
    Prod.mk.injEq] at returned
  obtain ⟨_, -, written, encoded, _, ⟨-, rfl⟩, rfl, rfl⟩ := returned
  obtain ⟨expiry, hash⟩ := marshal_ok encoded
  refine ⟨?_, ?_, rfl⟩
  · rw [expiry]
    split
    · exact le_refl _
    · next within => exact not_lt.1 within
  · rw [hash]
    split <;> rfl

theorem reserve_ok {authorized : Grant} {done : Unit}
    (returned : reserve s now key authorized csr m = .ok (done, m')) :
    ∃ record g g', m[key]? = some record ∧ record.value = .grant g ∧ now < g.expiresAt ∧
      (g.csrHash = "" ∨ g.csrHash = grantHash s csr.raw) ∧ g'.expiresAt = g.expiresAt ∧
      g'.csrHash = grantHash s csr.raw ∧
      m' = m.insert key { record with value := .grant g' } := by
  simp only [reserve, bind_ok, reject_ok, challenged_ok, Memory.get_ok, unmarshal_ok,
    stateError_ok, Memory.put_ok, pure_ok, Prod.mk.injEq, not_or, not_not] at returned
  obtain ⟨record, ⟨-, there⟩, g, value, _, ⟨early, -⟩, _, free, g', encoded, _, ⟨-, rfl⟩, -, rfl⟩ :=
    returned
  obtain ⟨expiry, hash⟩ := marshal_ok encoded
  refine ⟨record, g, g', there, value, early, ?_, expiry, hash, rfl⟩
  by_contra taken
  exact free (not_or.1 taken)

theorem receipt_ok {ext : Ext} {policy : Policy} {cert : X509}
    (returned : receipt s now ext key csr policy m = .ok (cert, m')) :
    cert.publicKey = csr.publicKey ∧ now < cert.notAfter ∧
      m' = m.insert key ⟨.certificate cert.raw, cert.notAfter⟩ ∧
      ∀ raw expiresAt, m[key]? = some ⟨.certificate raw, expiresAt⟩ → cert.raw = raw := by
  simp only [receipt, bind_ok, reject_ok, stateError_ok, Memory.put_ok, pure_ok, Prod.mk.injEq,
    not_or, not_not] at returned
  obtain ⟨_, found, _, ⟨-, -, valid⟩, _, ownKey, _, ⟨usable, rfl⟩, rfl, rfl⟩ := returned
  refine ⟨ownKey, valid, rfl, fun raw expiresAt there => ?_⟩
  have read : m.get key = .ok ⟨.certificate raw, expiresAt⟩ := Memory.get_ok.2 ⟨usable, there⟩
  simp only [certificateOf, read] at found
  exact s.parsed_raw raw _ found

end Transactions

section Invariant

variable (s)

structure Good (w : World) : Prop where
  grants : ∀ (key : String) record g, w.records[key]? = some record → record.value = .grant g →
    ∃ now, .granted key now g.expiresAt ∈ w.log
  drawn : ∀ key now expiresAt, .granted key now expiresAt ∈ w.log →
    key ∈ w.used ∧ expiresAt ≤ now + hour ∧ ∃ p, key = grantKey s p
  once : ∀ key now now' expiresAt expiresAt', .granted key now expiresAt ∈ w.log →
    .granted key now' expiresAt' ∈ w.log → now = now' ∧ expiresAt = expiresAt'
  verified : ∀ p csr now, .verified p csr now ∈ w.log →
    (∃ created expiresAt, .granted (grantKey s p) created expiresAt ∈ w.log ∧ now < expiresAt) ∧
    ∀ record g, w.records[grantKey s p]? = some record → record.value = .grant g →
      g.csrHash = grantHash s csr
  same : ∀ p csr csr' now now', .verified p csr now ∈ w.log → .verified p csr' now' ∈ w.log →
    csr = csr'
  issued : ∀ p csr cert, .issued p csr cert ∈ w.log →
    cert.publicKey = csr.publicKey ∧ ∃ now, .verified p csr.raw now ∈ w.log

structure Advances (w w' : World) : Prop where
  log : ∀ event ∈ w.log, event ∈ w'.log
  grants : ∀ (key : String) record record' g, w.records[key]? = some record →
    record.value = .grant g → w'.records[key]? = some record' →
    record' = record ∨ ∃ p csr now g', key = grantKey s p ∧
      w'.log = .verified p csr now :: w.log ∧ record'.value = .grant g' ∧
      g'.csrHash = grantHash s csr ∧ (g.csrHash = "" ∨ g.csrHash = grantHash s csr)

def Needs (w : World) : Action Policy → Prop
  | .receipt p csr _ => ∃ now, .verified p csr.raw now ∈ w.log
  | _ => True

def Tells : (action : Action Policy) → Answer action → World → Prop
  | .reserve p _ csr, r, w => r = .ok () → ∃ now, .verified p csr.raw now ∈ w.log
  | .receipt p csr _, r, w => ∀ cert, r = .ok cert → .issued p csr cert ∈ w.log
  | _, _, _ => True

end Invariant

def Keeps (s : Config Ext Policy) (w w' : World) : Prop := Advances s w w' ∧ Good s w'

variable {record : Record Value}

theorem Good.keeps_refl (good : Good s w) : Keeps s w w :=
  ⟨⟨fun _ member => member, fun _ _ _ _ there _ there' =>
    .inl (Option.some.inj (there'.symm.trans there))⟩, good⟩

theorem Good.draw (good : Good s w) (key : String) :
    Good s { w with used := key :: w.used } :=
  ⟨good.grants, fun key now expiresAt made =>
      ⟨List.mem_cons_of_mem _ (good.drawn key now expiresAt made).1,
        (good.drawn key now expiresAt made).2⟩,
    good.once, good.verified, good.same, good.issued⟩

theorem putGrant_keeps (good : Good s w) {key : String} (fresh : key ∉ w.used)
    (named : ∃ p, key = grantKey s p) {now : Time} (soon : g.expiresAt ≤ now + hour) :
    Keeps s w { records := w.records.insert key ⟨.grant g, g.expiresAt⟩
                used := key :: w.used
                log := .granted key now g.expiresAt :: w.log } := by
  have new {now' expiresAt : Time} (made : .granted key now' expiresAt ∈ w.log) : False :=
    fresh (good.drawn key now' expiresAt made).1
  refine ⟨⟨fun _ member => List.mem_cons_of_mem _ member, ?_⟩, ?_, ?_, ?_, ?_,
    by simpa using good.same, by simpa using good.issued⟩
  · intro other record record' g' there value there'
    obtain ⟨same, -⟩ | ⟨-, there'⟩ := insert_some.1 there'
    · obtain ⟨now', made⟩ := good.grants other record g' there value
      exact (new (same ▸ made)).elim
    · exact .inl (Option.some.inj (there'.symm.trans there))
  · intro other record g' there value
    obtain ⟨same, rfl⟩ | ⟨-, there⟩ := insert_some.1 there
    · obtain rfl := Value.grant.inj value
      exact ⟨now, by simp [same]⟩
    · obtain ⟨now', made⟩ := good.grants other record g' there value
      exact ⟨now', List.mem_cons_of_mem _ made⟩
  · intro other now' expiresAt made
    obtain same | old := List.mem_cons.1 made
    · cases same
      exact ⟨by simp, soon, named⟩
    · obtain ⟨member, rest⟩ := good.drawn other now' expiresAt old
      exact ⟨List.mem_cons_of_mem _ member, rest⟩
  · intro other now₁ now₂ e₁ e₂ first second
    obtain same | old := List.mem_cons.1 first <;> obtain same' | old' := List.mem_cons.1 second
    · cases same
      cases same'
      exact ⟨rfl, rfl⟩
    · cases same
      exact absurd old' new
    · cases same'
      exact absurd old new
    · exact good.once other now₁ now₂ e₁ e₂ old old'
  · intro p csr now' checked
    have old := (List.mem_cons.1 checked).resolve_left (by simp)
    obtain ⟨⟨created, expiresAt, made, early⟩, reserved⟩ := good.verified p csr now' old
    refine ⟨⟨created, expiresAt, List.mem_cons_of_mem _ made, early⟩, fun record g' there value => ?_⟩
    obtain ⟨same, -⟩ | ⟨-, there⟩ := insert_some.1 there
    · exact absurd (same ▸ made) new
    · exact reserved record g' there value

theorem reserve_keeps (good : Good s w) {now : Time} {g' : Grant} (there : w.records[grantKey s p]? = some record)
    (value : record.value = .grant g) (early : now < g.expiresAt)
    (free : g.csrHash = "" ∨ g.csrHash = grantHash s csr.raw) (expiry : g'.expiresAt = g.expiresAt)
    (hash : g'.csrHash = grantHash s csr.raw) :
    Keeps s w { w with
      records := w.records.insert (grantKey s p) { record with value := .grant g' }
      log := .verified p csr.raw now :: w.log } := by
  obtain ⟨created, made⟩ := good.grants _ record g there value
  -- A request that was verified before is the one the grant is reserved for.
  have reserved {csr' : Bytes} {now' : Time} (checked : .verified p csr' now' ∈ w.log) :
      csr.raw = csr' := by
    have kept := (good.verified p csr' now' checked).2 record g there value
    obtain blank | same := free
    · exact absurd (kept.symm.trans blank) (s.sha256.nonempty csr')
    · exact s.sha256.injective (same.symm.trans kept)
  refine ⟨⟨fun _ member => List.mem_cons_of_mem _ member, ?_⟩, ?_, by simpa using good.drawn,
    by simpa using good.once, ?_, ?_, ?_⟩
  · intro key old new g₀ found content found'
    obtain ⟨same, rfl⟩ | ⟨-, found'⟩ := insert_some.1 found'
    · rw [same, there] at found
      obtain rfl := Option.some.inj found
      rw [value] at content
      obtain rfl := Value.grant.inj content
      exact .inr ⟨p, csr.raw, now, g', same, rfl, rfl, hash, free⟩
    · exact .inl (Option.some.inj (found'.symm.trans found))
  · intro key other g₀ found content
    obtain ⟨same, rfl⟩ | ⟨-, found⟩ := insert_some.1 found
    · obtain rfl := Value.grant.inj content
      exact ⟨created, List.mem_cons_of_mem _ (by rw [expiry, same]; exact made)⟩
    · obtain ⟨now', made⟩ := good.grants key other g₀ found content
      exact ⟨now', List.mem_cons_of_mem _ made⟩
  · intro q csr' now' checked
    obtain same | old := List.mem_cons.1 checked
    · cases same
      refine ⟨⟨created, g.expiresAt, List.mem_cons_of_mem _ made, early⟩, ?_⟩
      intro other g₀ found content
      rw [getElem?_insert_eq, if_pos rfl] at found
      obtain rfl := Option.some.inj found
      obtain rfl := Value.grant.inj content
      exact hash
    · obtain ⟨⟨created', expiresAt, made', early'⟩, kept⟩ := good.verified q csr' now' old
      refine ⟨⟨created', expiresAt, List.mem_cons_of_mem _ made', early'⟩, ?_⟩
      intro other g₀ found content
      obtain ⟨same, rfl⟩ | ⟨-, found⟩ := insert_some.1 found
      · obtain rfl := Value.grant.inj content
        obtain rfl := grantKey_injective same
        rw [hash, reserved old]
      · exact kept other g₀ found content
  · intro q csr₁ csr₂ now₁ now₂ first second
    obtain same | old := List.mem_cons.1 first <;> obtain same' | old' := List.mem_cons.1 second
    · cases same
      cases same'
      rfl
    · cases same
      exact reserved old'
    · cases same'
      exact (reserved old).symm
    · exact good.same q csr₁ csr₂ now₁ now₂ old old'
  · intro q csr' cert given
    obtain ⟨ownKey, now', checked⟩ :=
      good.issued q csr' cert ((List.mem_cons.1 given).resolve_left (by simp))
    exact ⟨ownKey, now', List.mem_cons_of_mem _ checked⟩

theorem receipt_keeps (good : Good s w) {cert : X509}
    (ownKey : cert.publicKey = csr.publicKey) (checked : ∃ now, .verified p csr.raw now ∈ w.log) :
    Keeps s w { w with
      records := w.records.insert (certificateKey s p csr) ⟨.certificate cert.raw, cert.notAfter⟩
      log := .issued p csr cert :: w.log } := by
  -- A grant that is found now was there before.
  have kept {key : String} {record : Record Value} {g : Grant}
      (found : (w.records.insert (certificateKey s p csr)
        ⟨.certificate cert.raw, cert.notAfter⟩)[key]? = some record)
      (value : record.value = .grant g) : w.records[key]? = some record := by
    obtain ⟨-, rfl⟩ | ⟨-, found⟩ := insert_some.1 found
    · cases value
    · exact found
  refine ⟨⟨fun _ member => List.mem_cons_of_mem _ member, ?_⟩, ?_, by simpa using good.drawn,
    by simpa using good.once, ?_, by simpa using good.same, ?_⟩
  · intro key record record' g there value there'
    obtain ⟨same, -⟩ | ⟨-, there'⟩ := insert_some.1 there'
    · obtain ⟨now, made⟩ := good.grants key record g there value
      obtain ⟨-, -, q, named⟩ := good.drawn key now _ made
      exact absurd (named.symm.trans same) (grantKey_ne_certificateKey q p csr)
    · exact .inl (Option.some.inj (there'.symm.trans there))
  · intro key record g found value
    obtain ⟨now, made⟩ := good.grants key record g (kept found value) value
    exact ⟨now, List.mem_cons_of_mem _ made⟩
  · intro q csr' now entry
    obtain ⟨⟨created, expiresAt, made, early⟩, reserved⟩ :=
      good.verified q csr' now (by simpa using entry)
    exact ⟨⟨created, expiresAt, List.mem_cons_of_mem _ made, early⟩, fun record g found value =>
      reserved record g (kept found value) value⟩
  · intro q csr' cert' given
    obtain same | earlier := List.mem_cons.1 given
    · cases same
      obtain ⟨now, entry⟩ := checked
      exact ⟨ownKey, now, List.mem_cons_of_mem _ entry⟩
    · obtain ⟨ownKey', now, entry⟩ := good.issued q csr' cert' earlier
      exact ⟨ownKey', now, List.mem_cons_of_mem _ entry⟩

theorem prune_keeps (good : Good s w) (now : Time) (limit : Int) (order : List String) :
    Keeps s w { w with records := (w.records.prune now limit order).2 } := by
  have kept {key : String} {record : Record Value}
      (found : (w.records.prune now limit order).2[key]? = some record) :
      w.records[key]? = some record := by
    obtain same | ⟨gone, -⟩ := Memory.prune_cases w.records now limit order key
    · exact same ▸ found
    · rw [gone] at found
      cases found
  refine ⟨⟨fun _ member => member, fun key record record' g there _ there' => ?_⟩, ?_, good.drawn,
    good.once, ?_, good.same, good.issued⟩
  · exact .inl (Option.some.inj ((kept there').symm.trans there))
  · exact fun key record g found value => good.grants key record g (kept found) value
  · exact fun p csr now' checked => ⟨(good.verified p csr now' checked).1, fun record g found value =>
      (good.verified p csr now' checked).2 record g (kept found) value⟩

theorem update_keeps {A : Type} (good : Good s w) (keys : List String)
    {fn : Memory Value → Except Failure (A × Memory Value)} {event : A → Event}
    (each : ∀ value m, fn w.records = .ok (value, m) →
      Keeps s w { w with records := m, log := event value :: w.log }) :
    Keeps s w (w.after (w.records.update (.state .invalid) keys fn) event) := by
  obtain ⟨value, m, ran, same⟩ | ⟨failure, same⟩ :=
    Memory.update_cases w.records (.state .invalid) keys fn
  · rw [same]
    exact each value m ran
  · rw [same]
    exact good.keeps_refl

theorem after_logged {A : Type} {result : Except Failure A × Memory Value} {event : A → Event}
    {value : A} (returned : result.1 = .ok value) : event value ∈ (w.after result event).log := by
  simp [World.after, returned]

theorem exec_keeps {action : Action Policy} {choice : Choice Ext} {answer : Answer action}
    (good : Good s w) (needed : Needs w action)
    (performed : exec s action choice w = some (answer, w')) :
    Keeps s w w' ∧ Tells action answer w' := by
  cases action with
  | putGrant g =>
    obtain ⟨fresh, -, rfl⟩ := answered_unless performed
    refine ⟨?_, trivial⟩
    obtain ⟨value, m, ran, same⟩ | ⟨failure, same⟩ := Memory.update_cases w.records
      (.state .invalid) [grantKey s (Base64.encodeToString choice.secret)]
      (putGrant s choice.now (grantKey s (Base64.encodeToString choice.secret)) g)
    · rw [same]
      obtain ⟨soon, -, rfl⟩ := putGrant_ok ran
      exact putGrant_keeps good fresh ⟨_, rfl⟩ soon
    · rw [same]
      exact ⟨⟨fun _ member => member, fun _ _ _ _ there _ there' =>
        .inl (Option.some.inj (there'.symm.trans there))⟩, good.draw _⟩
  | get | authorize | register =>
    obtain ⟨-, rfl⟩ := answered performed
    exact ⟨good.keeps_refl, trivial⟩
  | reserve p authorized csr =>
    obtain ⟨rfl, rfl⟩ := answered performed
    refine ⟨update_keeps good _ fun _ _ ran => ?_, fun returned => ⟨_, after_logged returned⟩⟩
    obtain ⟨record, g, g', there, value, early, free, expiry, hash, rfl⟩ := reserve_ok ran
    exact reserve_keeps good there value early free expiry hash
  | receipt p csr policy =>
    obtain ⟨rfl, rfl⟩ := answered performed
    refine ⟨update_keeps good _ fun _ _ ran => ?_, fun cert returned => after_logged returned⟩
    obtain ⟨ownKey, -, rfl, -⟩ := receipt_ok ran
    exact receipt_keeps good ownKey needed
  | prune limit =>
    obtain ⟨-, rfl⟩ := answered performed
    exact ⟨prune_keeps good _ _ _, trivial⟩

section Calls

variable {A B : Type} {post : B → World → Prop}

abbrev Runs (s : Config Ext Policy) (p : Handler Policy A) (post : A → World → Prop) (w : World) :
    Prop :=
  Safe (exec s) (Advances s) (Good s) p post w

theorem runs_ask {action : Action Policy} {next : Answer action → Handler Policy B}
    (needed : ∀ found, ReflTransGen (Advances s) w found → Needs found action)
    (rest : ∀ answer after, ReflTransGen (Advances s) w after → Tells action answer after →
      Runs s (next answer) post after) : Runs s (ask action >>= next) post w := by
  refine safe_bind.2 (safe_act (fun found choice answer after good needs performed => ?_)
    (fun found since _ => needed found since) fun answer after since _ => rest answer after since)
  obtain ⟨keeps, tells⟩ := exec_keeps good needs performed
  exact ⟨keeps.1, keeps.2, tells⟩

theorem runs_raise {r : Except Failure A} {next : A → Handler Policy B}
    (rest : ∀ value, r = .ok value → Runs s (next value) post w) :
    Runs s (raise r >>= next) post w :=
  safe_bind.2 (safe_pure.2 rest)

theorem logged_later (since : ReflTransGen (Advances s) w w') {event : Event}
    (logged : event ∈ w.log) : event ∈ w'.log := by
  induction since with
  | refl => exact logged
  | tail _ step ih => exact step.log event ih

theorem verify_runs (p : String) (csr : Csr) :
    Runs s (Grants.verify s p csr) (fun _ after => ∃ now, .verified p csr.raw now ∈ after.log)
      w := by
  refine runs_raise fun _ _ => runs_raise fun _ _ => runs_ask (fun _ _ => trivial) ?_
  refine fun answer first _ _ => runs_raise fun record _ => runs_raise fun authorized _ => ?_
  refine runs_ask (fun _ _ => trivial) fun answer second _ _ => runs_raise fun _ _ => ?_
  refine runs_ask (fun _ _ => trivial) fun answer after _ told => ?_
  exact safe_pure.2 fun _ returned => told (wrapError_ok.1 returned)

def Committed : Response → World → Prop
  | .certificate p csr cert, w => .issued p csr cert ∈ w.log
  | _, _ => True

theorem issue_runs (p : String) (csr : Csr) (policy : Policy) :
    Runs s (CertificateIssuer.issue s p csr policy) Committed w := by
  refine runs_raise fun _ _ => runs_raise fun _ _ => safe_bind.2 ?_
  refine (verify_runs p csr).mono fun _ first _ ⟨now, checked⟩ => ?_
  refine runs_ask (fun found since => ⟨now, logged_later since checked⟩) ?_
  refine fun answer second _ told => runs_raise fun cert returned => ?_
  have logged := told cert (wrapError_ok.1 returned)
  refine runs_ask (fun _ _ => trivial) fun answer after since _ => runs_raise fun _ _ => ?_
  exact safe_pure.2 fun _ same => Except.ok.inj same ▸ logged_later since logged

theorem handle_runs (request : Request Policy) : Runs s (handle s request) Committed w := by
  cases request with
  | grant g =>
    refine runs_raise fun _ _ => runs_ask (fun _ _ => trivial) fun answer after _ _ => ?_
    exact runs_raise fun _ _ => trivial
  | verify p csr =>
    exact safe_bind.2 ((verify_runs p csr).mono fun _ _ _ _ => trivial)
  | issue p csr policy => exact issue_runs p csr policy
  | prune limit =>
    exact runs_ask (fun _ _ => trivial) fun answer after _ _ => runs_raise fun _ _ => trivial

def Answered (result : Except Failure Response) (w : World) : Prop :=
  ∀ response, result = .ok response → Committed response w

theorem Committed.later {response : Response} (committed : Committed response w)
    (since : ReflTransGen (Advances s) w w') : Committed response w' := by
  cases response with
  | certificate p csr cert => exact logged_later since committed
  | _ => trivial

theorem disciplined (s : Config Ext Policy) :
    Disciplined (exec s) (Advances s) (Good s) (fun request => (handle s request).run)
      Answered where
  reflexive := fun _ good => good.keeps_refl.1
  starts := fun request w _ => by
    have runs : Runs s (handle s request) Committed w := handle_runs request
    refine Meets.mono runs fun result after holds => ?_
    rintro response rfl
    exact holds
  stable := fun _ _ _ answered since response same => (answered response same).later since

end Calls

end AppleDM.Scep
