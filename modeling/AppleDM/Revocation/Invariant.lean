import AppleDM.Revocation.Records

set_option autoImplicit false

namespace AppleDM.Revocation

open Mdm Pki Checked Process State Relation Evolution

variable {Ext : Type} {r : Registry Ext} {w w' : World}

def firstRevocation : List Event → String → Nat → Option (Time × Int)
  | [], _, _ => none
  | .revoked issuer n now reason :: earlier, issuer', n' =>
    (firstRevocation earlier issuer' n').or
      (if issuer = issuer' ∧ n = n' then some (now, reason) else none)
  | .returned .. :: earlier, issuer, n => firstRevocation earlier issuer n

variable {earlier : List Event} {n : Nat} {first : Time × Int}

theorem firstRevocation_later (later : List Event) {issuer : String} (revoked : firstRevocation earlier issuer n = some first) :
    firstRevocation (later ++ earlier) issuer n = some first := by
  induction later with
  | nil => exact revoked
  | cons event rest ih =>
    cases event with
    | revoked issuer' n' now reason => rw [List.cons_append, firstRevocation, ih, Option.some_or]
    | returned issuer' list der now => exact ih

def Lists (m : Memory Value) (earlier : List Event) (issuer : String) (list : RevocationList) :
    Prop :=
  ∀ entry, entry ∈ list.revoked ↔
    firstRevocation earlier issuer entry.serialNumber =
      some (entry.revocationTime, entry.reasonCode) ∧
    ∃ c, certificateAt m issuer entry.serialNumber = some c ∧ ¬ c.notAfter < list.thisUpdate

structure Sound (r : Registry Ext) (m : Memory Value) (earlier : List Event) (issuer : String)
    (list : RevocationList) (der : Bytes) (now : Time) : Prop where
  complete : Lists m earlier issuer list
  distinct : (list.revoked.map (·.serialNumber)).Nodup
  current : now < list.nextUpdate
  signed : ∃ ext i, r.issuers[issuer]? = some i ∧
    r.lib.createRevocationList ext i.toIssuerConfig list = .ok der

def Follows : Event → Event → Prop
  | .returned issuer list der _, .returned issuer' list' der' _ =>
    issuer = issuer' → list = list' ∧ der = der' ∨ list'.number < list.number
  | _, _ => True

structure Published (r : Registry Ext) (w : World) : Prop where
  sound : ∀ later earlier issuer list der now,
    w.log = later ++ .returned issuer list der now :: earlier →
    Sound r w.records earlier issuer list der now
  numbered : w.log.Pairwise Follows

section Invariant

variable (r)

structure Current (w : World) (issuer : String) (p : Publication) (list : RevocationList) :
    Prop where
  signed : w.signed[issuer]? = some list
  number : list.number = p.number
  refreshed : ∀ i, r.issuers[issuer]? = some i → ∀ now, now < p.refreshAt →
    now < i.certificate.notAfter → now < list.nextUpdate
  distinct : (list.revoked.map (·.serialNumber)).Nodup
  encoded : ∃ ext i, r.issuers[issuer]? = some i ∧
    r.lib.createRevocationList ext i.toIssuerConfig list = .ok p.der
  complete : p.dirty = false → Lists w.records w.log issuer list

structure Good (w : World) : Prop where
  stored : Stored r w.records
  revoked : ∀ issuer n first, firstRevocation w.log issuer n = some first ↔
    ∃ c, certificateAt w.records issuer n = some c ∧ c.status = .revoked ∧
      (c.revokedAt, c.reason) = first
  current : ∀ issuer p, publicationAt w.records issuer = some p → p.der ≠ [] →
    ∃ list, Current r w issuer p list
  latest : ∀ issuer list der now, .returned issuer list der now ∈ w.log →
    ∃ p, publicationAt w.records issuer = some p ∧ (list.number < p.number ∨
      p.number = list.number ∧ w.signed[issuer]? = some list ∧ p.der = der)
  published : Published r w

def Preserves (m m' : Memory Value) : Prop :=
  ∀ issuer n c, certificateAt m issuer n = some c →
    ∃ c', certificateAt m' issuer n = some c' ∧ c'.notAfter = c.notAfter ∧ c'.der = c.der ∧
      (c.status = .revoked → c' = c)

structure Advances (w w' : World) : Prop where
  log : w.log <:+ w'.log
  certificates : Preserves w.records w'.records

def Needs (base : List Event) (w : World) : Action → Prop
  | .register issuer _ _ => issuer ∈ r.issuers
  | .crl issuer i => r.issuers[issuer]? = some i ∧ base <:+ w.log
  | _ => True

def Tells (base : List Event) : (a : Action) → Answer a → World → Prop
  | .get key, answer, w => answer = w.records.get key
  | .revoke issuer n reason, answer, w => answer = .ok () →
    ∃ now, firstRevocation w.log issuer n = some (now, reason)
  | .crl issuer _, answer, w => ∀ der, answer = .ok der → ∃ list now earlier, base <:+ earlier ∧
    w.log = .returned issuer list der now :: earlier
  | _, _, _ => True

end Invariant

section Steps

theorem Preserves.refl (m : Memory Value) : Preserves m m :=
  fun _ _ c there => ⟨c, there, rfl, rfl, fun _ => rfl⟩

variable {issuer : String} {list : RevocationList} {m : Memory Value} {now : Time}

theorem Lists.preserved {m' : Memory Value} (complete : Lists m earlier issuer list) (kept : Preserves m m')
    (there : ∀ n first, firstRevocation earlier issuer n = some first →
      ∃ c, certificateAt m issuer n = some c) : Lists m' earlier issuer list := by
  intro entry
  rw [complete entry]
  refine and_congr_right fun revoked => ?_
  obtain ⟨c, found⟩ := there _ _ revoked
  obtain ⟨c', found', valid, -⟩ := kept issuer _ c found
  rw [found, found']
  simp [valid]

variable {later : List Event}

theorem Good.registered (good : Good r w) (log : w.log = later ++ earlier)
    (revoked : firstRevocation earlier issuer n = some first) :
    ∃ c, certificateAt w.records issuer n = some c := by
  have still := firstRevocation_later later revoked
  rw [← log] at still
  obtain ⟨c, there, -⟩ := (good.revoked issuer n first).1 still
  exact ⟨c, there⟩

theorem Good.sound_preserved (good : Good r w) (kept : Preserves w.records m) {der : Bytes} (log : w.log = later ++ .returned issuer list der now :: earlier) :
    Sound r m earlier issuer list der now := by
  have sound := good.published.sound later earlier issuer list der now log
  have split : w.log = (later ++ [.returned issuer list der now]) ++ earlier := by simp [log]
  exact { sound with
    complete := sound.complete.preserved kept fun n first => good.registered split }

theorem Good.published_cons (good : Good r w) {signed : Table String _}
    (kept : Preserves w.records m) {event : Event}
    (sound : ∀ issuer list der now, event = .returned issuer list der now →
      Sound r m w.log issuer list der now)
    (follows : ∀ old ∈ w.log, Follows event old) :
    Published r { records := m, signed, log := event :: w.log } := by
  refine ⟨fun later earlier issuer list der now log => ?_, ?_⟩
  · cases later with
    | nil =>
      obtain ⟨same, rfl⟩ := List.cons.inj log
      exact sound issuer list der now same
    | cons first rest => exact good.sound_preserved kept (List.cons.inj log).2
  · exact List.pairwise_cons.2 ⟨follows, good.published.numbered⟩

theorem Good.register (good : Good r w) (stored : Stored r m) (kept : Preserves w.records m)
    (issued : ∀ issuer n c, certificateAt m issuer n = some c → c.status = .revoked →
      certificateAt w.records issuer n = some c)
    (same : ∀ issuer, publicationAt m issuer = publicationAt w.records issuer) :
    Good r { w with records := m } where
  stored := stored
  revoked issuer n first := by
    rw [good.revoked issuer n first]
    constructor
    · rintro ⟨c, there, status, is⟩
      obtain ⟨c', there', -, -, unchanged⟩ := kept issuer n c there
      obtain rfl := unchanged status
      exact ⟨c', there', status, is⟩
    · rintro ⟨c, there, status, is⟩
      exact ⟨c, issued issuer n c there status, status, is⟩
  current issuer p there content := by
    rw [same] at there
    obtain ⟨list, current⟩ := good.current issuer p there content
    exact ⟨list, { current with
      complete := fun clean => (current.complete clean).preserved kept fun n first =>
        good.registered (List.nil_append _).symm }⟩
  latest issuer list der now member := by
    simp only [same]
    exact good.latest issuer list der now member
  published :=
    ⟨fun _ _ _ _ _ _ log => good.sound_preserved kept log, good.published.numbered⟩

theorem register_keeps (good : Good r w) {cert : X509} {p : Provenance} {done : Unit} (known : issuer ∈ r.issuers)
    (returned : register r now issuer cert p w.records = .ok (done, m)) :
    Preserves w.records m ∧ Good r { w with records := m } := by
  obtain rfl | ⟨absent, free, c, named, serial, raw, status, rfl⟩ := register_ok returned
  · exact ⟨.refl _, good⟩
  · have plain := Registry.plain known
    have found (issuer' : String) (n : Nat) :
        certificateAt ((w.records.insert (certKey issuer (Hex.text cert.serialNumber.toNat))
          ⟨.certificate c, 0⟩).insert (fingerprintKey (r.lib.fingerprint cert.raw))
          ⟨.key (certKey issuer (Hex.text cert.serialNumber.toNat)), 0⟩) issuer' n =
        if issuer = issuer' ∧ cert.serialNumber.toNat = n then some c
        else certificateAt w.records issuer' n := by
      rw [certificateAt_insert_fingerprint, certificateAt_insert plain]
    have none : certificateAt w.records issuer cert.serialNumber.toNat = none := by
      rw [certificateAt, absent]
    have kept : Preserves w.records _ := fun issuer' n c' there => by
      refine ⟨c', ?_, rfl, rfl, fun _ => rfl⟩
      rw [found, if_neg]
      · exact there
      · rintro ⟨rfl, rfl⟩
        rw [none] at there
        cases there
    refine ⟨kept, good.register ?_ kept ?_ ?_⟩
    · -- The fingerprint is written as if it were first.
      rw [insert_comm _ certKey_ne_fingerprintKey]
      refine (good.stored.insert ?_ fun hash other _ there => ?_).insert ?_ ?_
      · exact ⟨_, rfl⟩
      · exact (free _ there).symm
      · refine ⟨named ▸ known, ⟨_, serial⟩, by rw [named, serial], by simp [status], ?_⟩
        rw [raw, getElem?_insert_eq, if_neg certKey_ne_fingerprintKey.symm, getElem?_insert_eq,
          if_pos rfl]
      · intro hash other wrong
        exact absurd wrong certKey_ne_fingerprintKey
    · intro issuer' n c' there revoked
      rw [found] at there
      obtain ⟨-, ⟨⟩⟩ | ⟨-, there⟩ := ite_eq_iff.1 there
      · rw [status] at revoked
        cases revoked
      · exact there
    · intro issuer'
      rw [publicationAt_insert_fingerprint, publicationAt_insert_cert]

variable {reason : Int}

theorem firstRevocation_other {issuer' : String} {n' : Nat}
    (other : ¬ (issuer = issuer' ∧ n = n')) (log : List Event) :
    firstRevocation (.revoked issuer n now reason :: log) issuer' n' =
      firstRevocation log issuer' n' := by
  rw [firstRevocation, if_neg other, Option.or_none]

theorem revoke_keeps (good : Good r w) {done : Unit}
    (returned : revoke now issuer n reason w.records = .ok (done, m)) :
    Preserves w.records m ∧
      Good r { w with records := m, log := .revoked issuer n now reason :: w.log } ∧
      firstRevocation (.revoked issuer n now reason :: w.log) issuer n = some (now, reason) := by
  obtain ⟨c, there, live, written⟩ := revoke_ok returned
  obtain ⟨named, serial, known, status, found, listed⟩ := good.stored.certificate there
  have plain := Registry.plain known
  have certificates (issuer' : String) (n' : Nat) : certificateAt m issuer' n' =
      if issuer = issuer' ∧ n = n' then
        some { c with status := .revoked, revokedAt := now, reason }
      else certificateAt w.records issuer' n' := by
    rw [written, certificateAt_insert_crl, certificateAt_insert plain]
  have publications (issuer' : String) : publicationAt m issuer' =
      if issuer = issuer' then
        some { (publicationAt w.records issuer).getD {} with dirty := true }
      else publicationAt w.records issuer' := by
    rw [written, publicationAt_insert, publicationAt_insert_cert]
  have kept : Preserves w.records m := fun issuer' n' c' there' => by
    rw [certificates]
    split
    · next same =>
      obtain ⟨rfl, rfl⟩ := same
      rw [there] at there'
      obtain rfl := Option.some.inj there'
      exact ⟨_, rfl, rfl, rfl, fun revoked => absurd revoked live⟩
    · exact ⟨c', there', rfl, rfl, fun _ => rfl⟩
  have unrevoked : firstRevocation w.log issuer n = none := by
    cases first : firstRevocation w.log issuer n with
    | none => rfl
    | some first =>
      obtain ⟨c', there', revoked, -⟩ := (good.revoked issuer n _).1 first
      rw [there] at there'
      obtain rfl := Option.some.inj there'
      exact absurd revoked live
  have here : firstRevocation (.revoked issuer n now reason :: w.log) issuer n =
      some (now, reason) := by
    rw [firstRevocation, unrevoked, if_pos ⟨rfl, rfl⟩, Option.none_or]
  refine ⟨kept, ⟨?_, ?_, ?_, ?_, ?_⟩, here⟩
  · show Stored r m
    rw [written]
    refine (good.stored.insert ?_ ?_).insert ⟨issuer, rfl⟩ ?_
    · refine ⟨named ▸ known, ⟨n, serial⟩, by rw [named, serial], by simp, ?_⟩
      rw [getElem?_insert_eq, if_neg certKey_ne_fingerprintKey.symm]
      exact listed
    · intro hash other wrong
      exact absurd wrong certKey_ne_fingerprintKey
    · intro hash other wrong
      exact absurd wrong crlKey_ne_fingerprintKey
  · intro issuer' n' first
    show _ ↔ ∃ c, certificateAt m issuer' n' = some c ∧ _
    rw [certificates]
    by_cases same : issuer = issuer' ∧ n = n'
    · obtain ⟨rfl, rfl⟩ := same
      rw [here, if_pos ⟨rfl, rfl⟩]
      simp [eq_comm]
    · rw [firstRevocation_other same, if_neg same]
      exact good.revoked issuer' n' first
  · intro issuer' p there' content
    change publicationAt m issuer' = some p at there'
    rw [publications] at there'
    obtain ⟨same, ⟨⟩⟩ | ⟨other, there'⟩ := ite_eq_iff.1 there'
    · cases old : publicationAt w.records issuer with
      | none =>
        rw [old] at content
        exact absurd rfl content
      | some before =>
        rw [old] at content
        obtain ⟨list, current⟩ := good.current issuer before old content
        rw [← same]
        exact ⟨list, ⟨current.signed, current.number, current.refreshed, current.distinct,
          current.encoded, fun clean => by cases clean⟩⟩
    · obtain ⟨list, current⟩ := good.current issuer' p there' content
      refine ⟨list, { current with complete := fun clean => ?_ }⟩
      have complete := (current.complete clean).preserved kept fun n first =>
        good.registered (List.nil_append _).symm
      intro entry
      rw [firstRevocation_other fun same => other same.1]
      exact complete entry
  · intro issuer' list der now' member
    change ∃ p, publicationAt m issuer' = some p ∧ _
    obtain ⟨p, there', latest⟩ :=
      good.latest issuer' list der now' ((List.mem_cons.1 member).resolve_left (by simp))
    rw [publications]
    split
    · next same =>
      obtain rfl := same
      rw [there']
      exact ⟨_, rfl, latest⟩
    · exact ⟨p, there', latest⟩
  · exact good.published_cons kept (fun _ _ _ _ wrong => by cases wrong) fun _ _ => trivial

theorem cached_keeps (good : Good r w) {i : Issuer}
    (configured : r.issuers[issuer]? = some i) (valid : now < i.certificate.notAfter)
    {p : Publication} (there : publicationAt w.records issuer = some p) (content : p.der ≠ [])
    (clean : p.dirty = false) (early : now < p.refreshAt) :
    ∃ list, w.signed[issuer]? = some list ∧
      Good r { w with log := .returned issuer list p.der now :: w.log } := by
  obtain ⟨list, current⟩ := good.current issuer p there content
  refine ⟨list, current.signed, good.stored, good.revoked, ?_, ?_, ?_⟩
  · intro issuer' p' there' content'
    obtain ⟨list', current'⟩ := good.current issuer' p' there' content'
    exact ⟨list', { current' with complete := current'.complete }⟩
  · intro issuer' list' der now' member
    obtain same | old := List.mem_cons.1 member
    · cases same
      exact ⟨p, there, .inr ⟨current.number.symm, current.signed, rfl⟩⟩
    · exact good.latest issuer' list' der now' old
  · refine good.published_cons (.refl _) ?_ ?_
    · intro issuer' list' der now' same
      cases same
      exact ⟨current.complete clean, current.distinct, current.refreshed i configured now early valid,
        current.encoded⟩
    · intro old member
      cases old with
      | revoked issuer' n now' reason => trivial
      | returned issuer' list' der' now' =>
        intro same
        subst same
        obtain ⟨p', there', below | ⟨-, signed, der⟩⟩ := good.latest issuer list' der' now' member
        · rw [there] at there'
          obtain rfl := Option.some.inj there'
          exact .inr (current.number ▸ below)
        · rw [there] at there'
          obtain rfl := Option.some.inj there'
          rw [current.signed] at signed
          exact .inl ⟨Option.some.inj signed, der⟩

theorem fresh_keeps (good : Good r w) {i : Issuer}
    (configured : r.issuers[issuer]? = some i) (valid : now < i.certificate.notAfter) {der : Bytes} (fresh : Fresh r now issuer i w.records list der) :
    Preserves w.records (w.records.insert (crlKey issuer) ⟨.publication
        { der, number := list.number, refreshAt := now + i.crlRefresh }, 0⟩) ∧
      Good r { records := w.records.insert (crlKey issuer) ⟨.publication
                 { der, number := list.number, refreshAt := now + i.crlRefresh }, 0⟩
               signed := w.signed.insert issuer list
               log := .returned issuer list der now :: w.log } := by
  have kept : Preserves w.records (w.records.insert (crlKey issuer) ⟨.publication
      { der, number := list.number, refreshAt := now + i.crlRefresh }, 0⟩) :=
    fun _ _ c there => ⟨c, by rw [certificateAt_insert_crl, there], rfl, rfl, fun _ => rfl⟩
  have complete : Lists w.records w.log issuer list := by
    intro entry
    rw [fresh.revoked, good.revoked, fresh.thisUpdate]
    constructor
    · rintro ⟨c, there, status, live, time, reason⟩
      exact ⟨⟨c, there, status, by rw [time, reason]⟩, c, there, live⟩
    · rintro ⟨⟨c, there, status, first⟩, c', there', live⟩
      rw [there] at there'
      obtain rfl := Option.some.inj there'
      exact ⟨c, there, status, live, (Prod.mk.inj first).1, (Prod.mk.inj first).2⟩
  have still := complete.preserved kept fun n first => good.registered (List.nil_append _).symm
  have encoded : ∃ ext i, r.issuers[issuer]? = some i ∧
      r.lib.createRevocationList ext i.toIssuerConfig list = .ok der := by
    obtain ⟨ext, signed⟩ := fresh.signed
    exact ⟨ext, i, configured, signed⟩
  have newer {p : Publication} {number : Int} (there : publicationAt w.records issuer = some p)
      (latest : number < p.number ∨ p.number = number) : number < list.number := by
    have below := fresh.number
    rw [there, Option.getD_some] at below
    exact latest.elim (·.trans below) (· ▸ below)
  refine ⟨kept, ?_, ?_, ?_, ?_, ?_⟩
  · refine good.stored.insert ⟨issuer, rfl⟩ fun hash other wrong => ?_
    exact absurd wrong crlKey_ne_fingerprintKey
  · intro issuer' n first
    simp only [certificateAt_insert_crl]
    exact good.revoked issuer' n first
  · intro issuer' p there content
    rw [publicationAt_insert] at there
    split at there
    · next same =>
      obtain rfl := same
      obtain rfl := Option.some.inj there
      refine ⟨list, ⟨by simp, rfl, ?_, fresh.distinct, encoded, fun _ => still⟩⟩
      intro i' configured' now' early valid'
      rw [configured] at configured'
      obtain rfl := Option.some.inj configured'
      rw [fresh.nextUpdate]
      exact lt_min valid' (early.trans (Int.add_lt_add_left i.refreshed now))
    · next other =>
      obtain ⟨list', current⟩ := good.current issuer' p there content
      refine ⟨list', { current with signed := ?_, complete := fun clean => ?_ }⟩
      · rw [getElem?_insert_eq, if_neg (Ne.symm other)]
        exact current.signed
      · exact (current.complete clean).preserved kept fun n first =>
          good.registered (List.nil_append _).symm
  · intro issuer' list' der' now' member
    dsimp only
    rw [publicationAt_insert, getElem?_insert_eq]
    obtain same | old := List.mem_cons.1 member
    · cases same
      exact ⟨_, if_pos rfl, .inr ⟨rfl, if_pos rfl, rfl⟩⟩
    · obtain ⟨p, there, latest⟩ := good.latest issuer' list' der' now' old
      by_cases same : issuer = issuer'
      · obtain rfl := same
        exact ⟨_, if_pos rfl, .inl (newer there (latest.imp_right And.left))⟩
      · rw [if_neg same, if_neg (Ne.symm same)]
        exact ⟨p, there, latest⟩
  · refine good.published_cons kept ?_ ?_
    · intro issuer' list' der' now' same
      cases same
      refine ⟨still, fresh.distinct, ?_, encoded⟩
      rw [fresh.nextUpdate]
      refine lt_min valid ?_
      exact Int.lt_add_of_pos_right now (i.refreshes.trans i.refreshed)
    · intro old member
      cases old with
      | revoked issuer' n now' reason => trivial
      | returned issuer' list' der' now' =>
        intro same
        subst same
        obtain ⟨p, there, latest⟩ := good.latest issuer list' der' now' member
        exact .inr (newer there (latest.imp_right And.left))

theorem Good.advances (good : Good r w) : Advances w w ∧ Good r w :=
  ⟨⟨List.suffix_refl _, .refl _⟩, good⟩

theorem exec_keeps {base : List Event} {action : Action} {choice : Choice Ext}
    {answer : Answer action} (good : Good r w) (needed : Needs r base w action)
    (performed : exec r action choice w = some (answer, w')) :
    Advances w w' ∧ Good r w' ∧ Tells base action answer w' := by
  cases action with
  | now | signResponse =>
    obtain ⟨-, rfl⟩ := answered performed
    exact ⟨good.advances.1, good, trivial⟩
  | get key =>
    obtain ⟨rfl, rfl⟩ := answered performed
    exact ⟨good.advances.1, good, rfl⟩
  | register issuer cert p =>
    obtain ⟨-, rfl⟩ := answered performed
    obtain ⟨done, m, ran, same⟩ | ⟨failure, same⟩ := Memory.update_cases w.records
      (.state .invalid) [issuerKey issuer, certKey issuer (Hex.text cert.serialNumber.toNat),
        fingerprintKey (r.lib.fingerprint cert.raw)] (register r choice.now issuer cert p)
    · rw [same]
      obtain ⟨kept, good'⟩ := register_keeps good needed ran
      exact ⟨⟨List.suffix_refl _, kept⟩, good', trivial⟩
    · rw [same]
      exact ⟨good.advances.1, good, trivial⟩
  | revoke issuer n reason =>
    dsimp only [exec] at performed
    obtain ⟨done, m, ran, same⟩ | ⟨failure, same⟩ := Memory.update_cases w.records
      (.state .invalid) [issuerKey issuer, certKey issuer (Hex.text n)]
      (revoke choice.now issuer n reason)
    · rw [same] at performed
      obtain ⟨-, rfl⟩ := answered performed
      obtain ⟨kept, good', first⟩ := revoke_keeps good ran
      exact ⟨⟨List.suffix_cons _ _, kept⟩, good', fun _ => ⟨choice.now, first⟩⟩
    · rw [same] at performed
      obtain ⟨rfl, rfl⟩ := answered performed
      exact ⟨good.advances.1, good, fun returned => by cases returned⟩
  | crl issuer i =>
    obtain ⟨configured, began⟩ := needed
    dsimp only [exec] at performed
    obtain ⟨outcome, m, ran, same⟩ | ⟨failure, same⟩ := Memory.update_cases w.records
      (.state .invalid) [issuerKey issuer] (crl r choice.now choice.ext issuer i)
    · rw [same] at performed
      obtain ⟨rfl, rfl⟩ := answered performed
      obtain ⟨valid, ⟨p, there, content, clean, early, rfl, rfl⟩ |
        ⟨list, der, fresh, rfl, rfl⟩⟩ := crl_ok good.stored ran
      · obtain ⟨list, signed, good'⟩ :=
          cached_keeps good configured valid there content clean early
        dsimp only [World.publish]
        rw [signed]
        refine ⟨⟨List.suffix_cons _ _, .refl _⟩, good', fun der returned => ?_⟩
        exact Except.ok.inj returned ▸ ⟨list, choice.now, w.log, began, rfl⟩
      · obtain ⟨kept, good'⟩ := fresh_keeps good configured valid fresh
        refine ⟨⟨List.suffix_cons _ _, kept⟩, good', fun der' returned => ?_⟩
        exact Except.ok.inj returned ▸ ⟨list, choice.now, w.log, began, rfl⟩
    · rw [same] at performed
      obtain ⟨rfl, rfl⟩ := answered performed
      exact ⟨good.advances.1, good, fun der returned => by cases returned⟩
  | prune limit =>
    obtain ⟨-, rfl⟩ := answered performed
    rw [good.stored.prune]
    exact ⟨good.advances.1, good, trivial⟩

end Steps

end AppleDM.Revocation
