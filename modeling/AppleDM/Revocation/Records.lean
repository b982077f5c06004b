import AppleDM.State.Held
import AppleDM.Revocation.Registry

set_option autoImplicit false

namespace AppleDM.Revocation

open Mdm Pki Checked State Evolution

section Keys

variable {issuer issuer' serial hash hash' : String} {n : Nat}

theorem slash_notMem_text : '/' ∉ (Hex.text n).toList := by
  intro member
  have digit := Hex.text_mem member
  revert digit
  decide

theorem certificatePrefix_toList : (certificatePrefix issuer).toList =
    "pki/cert/".toList ++ (issuer.toList ++ ['/']) := by
  simp [certificatePrefix, String.toList_append]

theorem certKey_toList : (certKey issuer serial).toList =
    "pki/cert/".toList ++ (issuer.toList ++ '/' :: serial.toList) := by
  simp [certKey, certificatePrefix, String.toList_append]

theorem certKey_inj (plain : '/' ∉ issuer.toList) :
    certKey issuer (Hex.text n) = certKey issuer' serial ↔
      issuer = issuer' ∧ Hex.text n = serial := by
  rw [← String.toList_inj, certKey_toList, certKey_toList, List.append_cancel_left_eq,
    List.append_cons_inj_of_notMem plain slash_notMem_text, String.toList_inj, String.toList_inj]
  simp

theorem prefix_certKey (plain : '/' ∉ issuer.toList) :
    (certificatePrefix issuer').toList.isPrefixOf (certKey issuer (Hex.text n)).toList = true ↔
      issuer = issuer' := by
  rw [List.isPrefixOf_iff_prefix, certificatePrefix_toList, certKey_toList,
    List.prefix_append_right_inj]
  constructor
  · rintro ⟨rest, same⟩
    rw [List.append_assoc, List.singleton_append] at same
    have split := (List.append_cons_inj_of_notMem plain slash_notMem_text).1 same.symm
    exact String.toList_inj.1 split.1
  · rintro rfl
    exact ⟨(Hex.text n).toList, by simp⟩

@[simp] theorem certKey_ne_crlKey : certKey issuer serial ≠ crlKey issuer' := by
  intro same
  have lists := congrArg String.toList same
  simp [certKey_toList, crlKey, String.toList_append] at lists

@[simp] theorem certKey_ne_fingerprintKey : certKey issuer serial ≠ fingerprintKey hash := by
  intro same
  have lists := congrArg String.toList same
  simp [certKey_toList, fingerprintKey, String.toList_append] at lists

@[simp] theorem crlKey_ne_fingerprintKey : crlKey issuer ≠ fingerprintKey hash := by
  intro same
  have lists := congrArg String.toList same
  simp [crlKey, fingerprintKey, String.toList_append] at lists

theorem prefix_crlKey :
    ¬ (certificatePrefix issuer).toList.isPrefixOf (crlKey issuer').toList = true := by
  simp [List.isPrefixOf_iff_prefix, certificatePrefix_toList, crlKey, String.toList_append]

theorem prefix_fingerprintKey :
    ¬ (certificatePrefix issuer).toList.isPrefixOf (fingerprintKey hash).toList = true := by
  simp [List.isPrefixOf_iff_prefix, certificatePrefix_toList, fingerprintKey, String.toList_append]

@[simp] theorem crlKey_inj : crlKey issuer = crlKey issuer' ↔ issuer = issuer' := by
  rw [← String.toList_inj, ← String.toList_inj]
  simp [crlKey, String.toList_append]

end Keys

variable {c : Certificate}

section Lookups

variable (m : Memory Value) {issuer : String} {n : Nat} {record : Record Value}

def certificateAt (issuer : String) (n : Nat) : Option Certificate :=
  match m[certKey issuer (Hex.text n)]? with
  | some ⟨.certificate c, _⟩ => some c
  | _ => none

def publicationAt (issuer : String) : Option Publication :=
  match m[crlKey issuer]? with
  | some ⟨.publication p, _⟩ => some p
  | _ => none

variable {m}

theorem certificateAt_some : certificateAt m issuer n = some c ↔
    ∃ expiresAt, m[certKey issuer (Hex.text n)]? = some ⟨.certificate c, expiresAt⟩ := by
  unfold certificateAt
  split
  · next c' expiresAt there => simp [there]
  · next other =>
    constructor
    · simp
    · rintro ⟨expiresAt, there⟩
      exact absurd there (other c expiresAt)

variable {issuer' : String}

theorem certificateAt_insert_crl :
    certificateAt (m.insert (crlKey issuer') record) issuer n = certificateAt m issuer n := by
  rw [certificateAt, getElem?_insert_eq, if_neg certKey_ne_crlKey, certificateAt]

theorem certificateAt_insert_fingerprint {hash : String} :
    certificateAt (m.insert (fingerprintKey hash) record) issuer n = certificateAt m issuer n := by
  rw [certificateAt, getElem?_insert_eq, if_neg certKey_ne_fingerprintKey, certificateAt]

variable {expiresAt : Time}

theorem certificateAt_insert {n' : Nat} (plain : '/' ∉ issuer.toList) :
    certificateAt (m.insert (certKey issuer (Hex.text n)) ⟨.certificate c, expiresAt⟩) issuer' n' =
      if issuer = issuer' ∧ n = n' then some c else certificateAt m issuer' n' := by
  rw [certificateAt, getElem?_insert_eq]
  have same : certKey issuer' (Hex.text n') = certKey issuer (Hex.text n) ↔
      issuer = issuer' ∧ n = n' := by
    rw [eq_comm, certKey_inj plain, Hex.text_injective.eq_iff]
  by_cases here : issuer = issuer' ∧ n = n'
  · rw [if_pos (same.2 here), if_pos here]
  · rw [if_neg fun equal => here (same.1 equal), if_neg here, certificateAt]

theorem publicationAt_insert_cert {serial : String} :
    publicationAt (m.insert (certKey issuer' serial) record) issuer = publicationAt m issuer := by
  rw [publicationAt, getElem?_insert_eq, if_neg certKey_ne_crlKey.symm, publicationAt]

theorem publicationAt_insert_fingerprint {hash : String} :
    publicationAt (m.insert (fingerprintKey hash) record) issuer = publicationAt m issuer := by
  rw [publicationAt, getElem?_insert_eq, if_neg crlKey_ne_fingerprintKey, publicationAt]

theorem publicationAt_insert {p : Publication} :
    publicationAt (m.insert (crlKey issuer) ⟨.publication p, expiresAt⟩) issuer' =
      if issuer = issuer' then some p else publicationAt m issuer' := by
  rw [publicationAt, getElem?_insert_eq]
  by_cases here : issuer = issuer'
  · rw [if_pos (by rw [here]), if_pos here]
  · rw [if_neg fun equal => here (crlKey_inj.1 equal).symm, if_neg here, publicationAt]

end Lookups

section Stored

variable {Ext : Type} (r : Registry Ext) (m : Memory Value)

def Holds (key : String) : Value → Prop
  | .certificate c => c.issuer ∈ r.issuers ∧ (∃ n, c.serial = Hex.text n) ∧
      key = certKey c.issuer c.serial ∧ c.status ≠ .unknown ∧
      m[fingerprintKey (r.lib.fingerprint c.der)]? = some ⟨.key key, 0⟩
  | .publication _ => ∃ issuer, key = crlKey issuer
  | .key _ => ∃ hash, key = fingerprintKey hash

def Stored : Prop := ∀ (key : String) record, m[key]? = some record →
  record.expiresAt = 0 ∧ Holds r m key record.value

variable {r m} {issuer : String}

theorem Registry.plain (known : issuer ∈ r.issuers) : '/' ∉ issuer.toList := by
  have there := Std.ExtTreeMap.getElem?_eq_some_getElem known
  rw [r.named issuer _ there]
  exact r.lib.plain _

theorem Stored.insert (stored : Stored r m) {key : String} {value : Value}
    (holds : Holds r (m.insert key ⟨value, 0⟩) key value)
    (kept : ∀ hash other, key = fingerprintKey hash → m[key]? = some ⟨.key other, 0⟩ →
      value = .key other) : Stored r (m.insert key ⟨value, 0⟩) := by
  intro place record there
  obtain ⟨same, rfl⟩ | ⟨-, there⟩ := insert_some.1 there
  · exact ⟨rfl, same ▸ holds⟩
  · obtain ⟨permanent, found⟩ := stored place record there
    refine ⟨permanent, ?_⟩
    cases content : record.value with
    | certificate c =>
      rw [content] at found
      obtain ⟨known, serial, named, status, listed⟩ := found
      refine ⟨known, serial, named, status, ?_⟩
      rw [getElem?_insert_eq]
      split
      · next same => rw [kept _ place same.symm (same ▸ listed)]
      · exact listed
    | publication p => rwa [content] at found
    | key other => rwa [content] at found

theorem Stored.certificate (stored : Stored r m) {n : Nat}
    (there : certificateAt m issuer n = some c) :
    c.issuer = issuer ∧ c.serial = Hex.text n ∧ issuer ∈ r.issuers ∧ c.status ≠ .unknown ∧
      m[certKey issuer (Hex.text n)]? = some ⟨.certificate c, 0⟩ ∧
      m[fingerprintKey (r.lib.fingerprint c.der)]? =
        some ⟨.key (certKey issuer (Hex.text n)), 0⟩ := by
  obtain ⟨expiresAt, found⟩ := certificateAt_some.1 there
  obtain ⟨permanent, known, ⟨n', serial⟩, named, status, listed⟩ := stored _ _ found
  dsimp only at permanent
  subst permanent
  rw [serial] at named
  obtain ⟨sameIssuer, sameSerial⟩ := (certKey_inj (Registry.plain known)).1 named.symm
  exact ⟨sameIssuer, serial.trans sameSerial, sameIssuer ▸ known, status, found, listed⟩

theorem Stored.prune (stored : Stored r m) (now : Time) (limit : Int) (order : List String) :
    (m.prune now limit order).2 = m := by
  refine Std.ExtTreeMap.ext_getElem? fun key => ?_
  obtain same | ⟨-, record, there, expires, -⟩ := Memory.prune_cases m now limit order key
  · exact same
  · exact absurd (stored key record there).1 expires

end Stored

section Transactions

variable {Ext : Type} {r : Registry Ext} {m m' : Memory Value} {key issuer : String} {now : Time}

theorem stateError_ok {A : Type} {result : Except StateError A} {value : A} :
    stateError result = .ok value ↔ result = .ok value := by
  cases result <;> simp [stateError, Except.mapError]

theorem readCertificate_ok (read : readCertificate m key = .ok c) :
    ∃ expiresAt, m[key]? = some ⟨.certificate c, expiresAt⟩ := by
  unfold readCertificate at read
  cases found : m.get key with
  | ok record =>
    obtain ⟨value, expiresAt⟩ := record
    rw [found] at read
    cases value with
    | certificate c' =>
      obtain rfl : c' = c := Except.ok.inj read
      exact ⟨expiresAt, (Memory.get_ok.1 found).2⟩
    | publication | key => cases read
  | error cause => rw [found] at read; cases cause <;> cases read

theorem get_notFound (missing : m.get key = .error .notFound) : m[key]? = none := by
  unfold Memory.get at missing
  simp only [bind_error, reject_error, reject_ok] at missing
  obtain ⟨-, wrong⟩ | ⟨-, -, missing⟩ := missing
  · cases wrong
  · cases there : m[key]? with
    | none => rfl
    | some record => rw [there] at missing; cases missing

theorem readCertificate_unknown (read : readCertificate m key = .error .unknown) :
    m[key]? = none := by
  unfold readCertificate at read
  cases found : m.get key with
  | ok record =>
    obtain ⟨value, expiresAt⟩ := record
    rw [found] at read
    cases value <;> cases read
  | error cause =>
    rw [found] at read
    cases cause with
    | notFound => exact get_notFound found
    | invalid => cases read

theorem readPublication_ok {p : Publication} (read : readPublication m issuer = .ok p) :
    p = (publicationAt m issuer).getD {} := by
  unfold readPublication at read
  unfold publicationAt
  cases found : m.get (crlKey issuer) with
  | ok record =>
    obtain ⟨value, expiresAt⟩ := record
    rw [found] at read
    rw [(Memory.get_ok.1 found).2]
    cases value with
    | certificate | key => cases read
    | publication p' =>
      obtain rfl : p' = p := Except.ok.inj read
      rfl
  | error cause =>
    rw [found] at read
    cases cause with
    | notFound =>
      obtain rfl : {} = p := Except.ok.inj read
      rw [get_notFound found]
      rfl
    | invalid => cases read

variable {done : Unit}

theorem checkFingerprint_ok {hash : String} (checked : checkFingerprint m hash key = .ok done) :
    ∀ record, m[fingerprintKey hash]? = some record → record.value = .key key := by
  unfold checkFingerprint at checked
  intro record there
  cases found : m.get (fingerprintKey hash) with
  | ok prior =>
    simp only [found, reject_ok, not_not] at checked
    rw [(Memory.get_ok.1 found).2] at there
    exact Option.some.inj there ▸ checked
  | error cause =>
    simp only [found] at checked
    cases cause with
    | notFound => rw [get_notFound found] at there; cases there
    | invalid => cases checked

theorem register_ok {cert : X509} {p : Provenance}
    (returned : register r now issuer cert p m = .ok (done, m')) :
    m' = m ∨
      m[certKey issuer (Hex.text cert.serialNumber.toNat)]? = none ∧
      (∀ record, m[fingerprintKey (r.lib.fingerprint cert.raw)]? = some record →
        record.value = .key (certKey issuer (Hex.text cert.serialNumber.toNat))) ∧
      ∃ c : Certificate, c.issuer = issuer ∧ c.serial = Hex.text cert.serialNumber.toNat ∧
        c.der = cert.raw ∧ c.status = .issued ∧
        m' = (m.insert (certKey issuer (Hex.text cert.serialNumber.toNat))
          ⟨.certificate c, 0⟩).insert (fingerprintKey (r.lib.fingerprint cert.raw))
          ⟨.key (certKey issuer (Hex.text cert.serialNumber.toNat)), 0⟩ := by
  unfold register at returned
  dsimp only at returned
  split at returned
  · simp only [bind_ok, pure_ok, Prod.mk.injEq] at returned
    obtain ⟨_, -, -, same⟩ := returned
    exact .inl same.symm
  · next unknown =>
    simp only [bind_ok, stateError_ok, Memory.put_ok, pure_ok, Prod.mk.injEq] at returned
    obtain ⟨_, free, _, ⟨-, rfl⟩, _, ⟨-, rfl⟩, -, rfl⟩ := returned
    exact .inr ⟨readCertificate_unknown unknown, checkFingerprint_ok free, _, rfl, rfl, rfl, rfl,
      rfl⟩
  · cases returned

theorem revoke_ok {n : Nat} {reason : Int}
    (returned : revoke now issuer n reason m = .ok (done, m')) :
    ∃ c, certificateAt m issuer n = some c ∧ c.status ≠ .revoked ∧
      m' = (m.insert (certKey issuer (Hex.text n))
        ⟨.certificate { c with status := .revoked, revokedAt := now, reason }, 0⟩).insert
        (crlKey issuer)
        ⟨.publication { (publicationAt m issuer).getD {} with dirty := true }, 0⟩ := by
  simp only [revoke, bind_ok, reject_ok, stateError_ok, Memory.put_ok, pure_ok,
    Prod.mk.injEq] at returned
  obtain ⟨c, read, _, live, _, ⟨-, rfl⟩, p, found, _, ⟨-, rfl⟩, -, rfl⟩ := returned
  refine ⟨c, certificateAt_some.2 (readCertificate_ok read), live, ?_⟩
  rw [readPublication_ok found, publicationAt_insert_cert]

end Transactions

section Listing

variable {Ext : Type} {r : Registry Ext} {m m' : Memory Value} {issuer : String} {now : Time}

def certificateRecords (issuer : String) (m : Memory Value) : List (String × Record Value) :=
  m.toList.filter fun entry => (certificatePrefix issuer).toList.isPrefixOf entry.1.toList

theorem listCertificates_eq (issuer : String) (m : Memory Value) :
    listCertificates issuer m = .ok (certificateRecords issuer m) := by
  have named : certificatePrefix issuer ≠ "" := by
    rw [← String.toList_inj.ne, certificatePrefix_toList]
    simp
  rw [listCertificates, Memory.scan_all named (by decide) fun after => ?_]
  · rfl
  · simp [certificatePage, Memory.list, reject]

theorem Stored.mem_records (stored : Stored r m) {entry : String × Record Value} :
    entry ∈ certificateRecords issuer m ↔ ∃ n c, certificateAt m issuer n = some c ∧
      entry = (certKey issuer (Hex.text n), ⟨.certificate c, 0⟩) := by
  obtain ⟨key, value, expiresAt⟩ := entry
  rw [certificateRecords, List.mem_filter, Std.ExtTreeMap.mem_toList_iff_getElem?_eq_some]
  constructor
  · rintro ⟨there, under⟩
    obtain ⟨permanent, holds⟩ := stored key _ there
    dsimp only at permanent under
    subst permanent
    cases value with
    | certificate c =>
      obtain ⟨known, ⟨n, serial⟩, named, -⟩ := holds
      rw [serial] at named
      rw [named, prefix_certKey (Registry.plain known)] at under
      rw [under] at named
      exact ⟨n, c, certificateAt_some.2 ⟨0, named ▸ there⟩, by rw [named]⟩
    | publication p =>
      obtain ⟨other, named⟩ := holds
      exact absurd (named ▸ under) prefix_crlKey
    | key k =>
      obtain ⟨hash, named⟩ := holds
      exact absurd (named ▸ under) prefix_fingerprintKey
  · rintro ⟨n, c, there, same⟩
    obtain ⟨-, -, known, -, found, -⟩ := stored.certificate there
    rw [(Prod.mk.inj same).1, (Prod.mk.inj same).2]
    exact ⟨found, (prefix_certKey (Registry.plain known)).2 rfl⟩

theorem entryOf_certificate {n : Nat} (serial : c.serial = Hex.text n)
    {entry : RevocationListEntry} :
    entryOf now ⟨.certificate c, 0⟩ = .ok (some entry) ↔
      c.status = .revoked ∧ ¬ c.notAfter < now ∧ entry = ⟨n, c.revokedAt, c.reason⟩ := by
  unfold entryOf
  dsimp only
  split
  · next listed => simp [serial, Hex.parse_text, listed, eq_comm]
  · next unlisted =>
    refine ⟨fun wrong => by simp at wrong, fun listed => ?_⟩
    exact absurd ⟨listed.1, listed.2.1⟩ unlisted

variable {revoked : List (Option RevocationListEntry)}

theorem Stored.mem_entries (stored : Stored r m)
    (read : (certificateRecords issuer m).mapM (fun entry => entryOf now entry.2) = .ok revoked)
    {entry : RevocationListEntry} :
    entry ∈ revoked.filterMap id ↔ ∃ c, certificateAt m issuer entry.serialNumber = some c ∧
      c.status = .revoked ∧ ¬ c.notAfter < now ∧ c.revokedAt = entry.revocationTime ∧
      c.reason = entry.reasonCode := by
  have listed : entry ∈ revoked.filterMap id ↔
      ∃ found ∈ certificateRecords issuer m, entryOf now found.2 = .ok (some entry) := by
    rw [← List.mem_map, mapM_ok.1 read]
    simp
  rw [listed]
  constructor
  · rintro ⟨found, member, made⟩
    obtain ⟨n, c, there, rfl⟩ := stored.mem_records.1 member
    obtain ⟨-, serial, -⟩ := stored.certificate there
    obtain ⟨status, valid, rfl⟩ := (entryOf_certificate serial).1 made
    exact ⟨c, there, status, valid, rfl, rfl⟩
  · rintro ⟨c, there, status, valid, time, reason⟩
    obtain ⟨-, serial, -⟩ := stored.certificate there
    refine ⟨_, stored.mem_records.2 ⟨entry.serialNumber, c, there, rfl⟩, ?_⟩
    exact (entryOf_certificate serial).2 ⟨status, valid, by rw [time, reason]⟩

theorem Stored.entries_distinct (stored : Stored r m)
    (read : (certificateRecords issuer m).mapM (fun entry => entryOf now entry.2) = .ok revoked) :
    ((revoked.filterMap id).map (·.serialNumber)).Nodup := by
  let made : Option RevocationListEntry → Except Failure (Option RevocationListEntry) := .ok
  have apart : (revoked.map made).Pairwise fun first second => ∀ e e',
      first = .ok (some e) → second = .ok (some e') → e.serialNumber ≠ e'.serialNumber := by
    rw [← mapM_ok.1 read, List.pairwise_map]
    refine ((m.ordered_keys_toList.imp compare_lt_iff_lt.1).filter _).imp_of_mem ?_
    intro a b inA inB below e e' made made' same
    obtain ⟨n, c, there, rfl⟩ := stored.mem_records.1 inA
    obtain ⟨n', c', there', rfl⟩ := stored.mem_records.1 inB
    obtain ⟨-, serial, -⟩ := stored.certificate there
    obtain ⟨-, serial', -⟩ := stored.certificate there'
    obtain ⟨-, -, rfl⟩ := (entryOf_certificate serial).1 made
    obtain ⟨-, -, rfl⟩ := (entryOf_certificate serial').1 made'
    obtain rfl : n = n' := same
    exact lt_irrefl _ below
  rw [List.pairwise_map] at apart
  rw [List.Nodup, List.pairwise_map, List.pairwise_filterMap]
  refine apart.imp fun {a b} differ e found e' found' => differ e e' ?_ ?_
  · exact congrArg Except.ok found
  · exact congrArg Except.ok found'

theorem nextNumber_pos {number : Int} (positive : ¬ nextNumber number ≤ 0) :
    number < nextNumber number := by
  unfold nextNumber at positive ⊢
  split_ifs at positive ⊢ <;> omega

structure Fresh (r : Registry Ext) (now : Time) (issuer : String) (i : Issuer) (m : Memory Value)
    (list : RevocationList) (der : Bytes) : Prop where
  number : ((publicationAt m issuer).getD {}).number < list.number
  thisUpdate : list.thisUpdate = now
  nextUpdate : list.nextUpdate = min i.certificate.notAfter (now + i.crlTTL)
  revoked : ∀ entry, entry ∈ list.revoked ↔
    ∃ c, certificateAt m issuer entry.serialNumber = some c ∧ c.status = .revoked ∧
      ¬ c.notAfter < now ∧ c.revokedAt = entry.revocationTime ∧ c.reason = entry.reasonCode
  distinct : (list.revoked.map (·.serialNumber)).Nodup
  signed : ∃ ext, r.lib.createRevocationList ext i.toIssuerConfig list = .ok der

theorem crl_ok {ext : Ext} {i : Issuer} {outcome : Outcome} (stored : Stored r m)
    (returned : crl r now ext issuer i m = .ok (outcome, m')) :
    now < i.certificate.notAfter ∧
      ((∃ p, publicationAt m issuer = some p ∧ p.der ≠ [] ∧ p.dirty = false ∧ now < p.refreshAt ∧
          outcome = .cached p.der ∧ m' = m) ∨
        ∃ list der, Fresh r now issuer i m list der ∧ outcome = .fresh list der ∧
          m' = m.insert (crlKey issuer) ⟨.publication
            { der, number := list.number, refreshAt := now + i.crlRefresh }, 0⟩) := by
  unfold crl at returned
  simp only [bind_ok, reject_ok, not_or, not_not] at returned
  obtain ⟨p, read, _, ⟨-, valid⟩, returned⟩ := returned
  have found := readPublication_ok read
  refine ⟨valid, ?_⟩
  split at returned
  · next current =>
    obtain ⟨rfl, rfl⟩ := Prod.mk.inj (Except.ok.inj returned)
    refine .inl ⟨p, ?_, current.1, current.2.1, current.2.2, rfl, rfl⟩
    cases there : publicationAt m issuer with
    | some other => rw [found, there, Option.getD_some]
    | none =>
      rw [found, there, Option.getD_none] at current
      exact absurd rfl current.1
  · simp only [listCertificates_eq, ok_bind, bind_ok, reject_ok, stateError_ok, Memory.put_ok,
      pure_ok, Prod.mk.injEq] at returned
    obtain ⟨revoked, made, _, positive, der, signed, _, ⟨-, rfl⟩, rfl, rfl⟩ := returned
    refine .inr ⟨_, der, ⟨?_, rfl, ?_, fun entry => stored.mem_entries made,
      stored.entries_distinct made, ext, signed⟩, rfl, rfl⟩
    · rw [← found]
      exact nextNumber_pos positive
    · dsimp only
      split
      · next earlier => exact (min_eq_left earlier.le).symm
      · next later => exact (min_eq_right (not_lt.1 later)).symm

end Listing

end AppleDM.Revocation
