import AppleDM.RateLimit.Ledger

set_option autoImplicit false

namespace AppleDM.RateLimit

open Checked Mdm State State.Memory Wire

variable {key : String}

section Keys

variable (digest : Digest) (l : Limiter)

theorem pre_toList : (l.pre digest).toList =
    "rate/".toList ++ (digest.text l.space).toList ++ ['/'] := by
  simp [Limiter.pre, String.toList_append]

theorem digest_printable (name : String) :
    (digest.text name).toList.all (fun c => 33 ≤ c.toNat && c.toNat ≤ 126) = true := by
  have digits : "0123456789abcdef".toList.all (fun c => 33 ≤ c.toNat && c.toNat ≤ 126) = true := by
    decide
  exact List.all_eq_true.mpr fun c member =>
    List.all_eq_true.mp digits c (digest.hex name c member)

theorem digest_length (name : String) : (digest.text name).toList.length = 64 := by
  rw [String.length_toList, digest.width]

theorem pre_length : (l.pre digest).toList.length = 70 := by
  rw [pre_toList, List.length_append, List.length_append, digest_length]
  rfl

theorem pre_printable :
    (l.pre digest).toList.all (fun c => 33 ≤ c.toNat && c.toNat ≤ 126) = true := by
  rw [pre_toList, List.all_append, List.all_append, digest_printable]
  decide

theorem validKey_append (tail : String) (short : tail.length ≤ 185)
    (printable : tail.toList.all (fun c => 33 ≤ c.toNat && c.toNat ≤ 126) = true) :
    validKey (l.pre digest ++ tail) = true := by
  have size : (l.pre digest).length = 70 := by
    rw [← String.length_toList, pre_length]
  rw [validKey, String.length_append, size, String.toList_append, List.all_append,
    pre_printable, printable]
  simp only [Bool.and_true, Bool.and_eq_true, decide_eq_true_eq]
  omega

theorem storeKey_valid (name : String) : validKey (l.storeKey digest name) = true :=
  validKey_append digest l _ (by rw [digest.width]; decide) (digest_printable digest name)

theorem capacity_valid : validKey (l.pre digest ++ "capacity") = true :=
  validKey_append digest l _ (by decide) (by decide)

theorem storeKey_under (name : String) : Under (l.pre digest) (l.storeKey digest name) := by
  rw [Under, Limiter.storeKey, String.toList_append]
  exact List.prefix_append _ _

variable {digest l}

theorem rate_of_under (under : Under (l.pre digest) key) : Under "rate/" key := by
  refine List.IsPrefix.trans ?_ under
  rw [pre_toList, List.append_assoc]
  exact List.prefix_append _ _

theorem pre_eq_of_under {l' : Limiter} (under : Under (l.pre digest) key)
    (under' : Under (l'.pre digest) key) : l.pre digest = l'.pre digest := by
  apply String.toList_injective
  exact (List.prefix_of_prefix_length_le under under'
    (by rw [pre_length, pre_length])).eq_of_length (by rw [pre_length, pre_length])

end Keys

variable {digest : Digest} {l : Limiter} {limit maxEntries : Int} {m : Memory Bytes}
  {ledger : Ledger} {clock time : Int} {entry : Bucket × String} {buckets : List Bucket}
  {entries : List (Bucket × String)}

structure Listed (digest : Digest) (l : Limiter) (buckets : List Bucket)
    (entries : List (Bucket × String)) : Prop where
  buckets : entries.map (·.1) = buckets
  keys : ∀ entry ∈ entries, entry.2 = l.storeKey digest entry.1.key
  valid : ∀ entry ∈ entries, ¬ entry.1.Invalid
  distinct : (entries.map (·.2)).Nodup

theorem entries_listed
    (named : l.entries digest buckets = .ok entries) : Listed digest l buckets entries := by
  refine foldlM_loaded (fun entries before => Listed digest l before entries) _ ?_ ?_ named
  · intro done before b _ next _ listed added
    simp only [Limiter.addEntry, Bucket.validate, bind_ok, reject_ok, pure_ok] at added
    obtain ⟨_, valid, _, fresh, rfl⟩ := added
    refine ⟨by simp [listed.buckets], fun entry member => ?_, fun entry member => ?_, ?_⟩
    · obtain old | new := List.mem_append.1 member
      · exact listed.keys entry old
      · rw [List.mem_singleton.1 new]
    · obtain old | new := List.mem_append.1 member
      · exact listed.valid entry old
      · rw [List.mem_singleton.1 new]
        exact valid
    · rw [List.map_append, List.map_singleton]
      exact listed.distinct.append (List.nodup_singleton _) (by simpa using fresh)
  · exact ⟨rfl, by simp, by simp, by simp⟩

theorem Listed.under (listed : Listed digest l buckets entries) (member : entry ∈ entries) :
    Under (l.pre digest) entry.2 := by
  rw [listed.keys entry member]
  exact storeKey_under digest l _

theorem Listed.validKey (listed : Listed digest l buckets entries) (member : entry ∈ entries) :
    validKey entry.2 = true := by
  rw [listed.keys entry member]
  exact storeKey_valid digest l _

theorem Bucket.bounds {b : Bucket} (valid : ¬ b.Invalid) :
    0 < b.interval ∧ b.interval % microsecond = 0 ∧ 1 ≤ b.burst ∧ b.burst * b.interval ≤ month := by
  simp only [Bucket.Invalid, not_or, not_lt, ne_eq, not_not] at valid
  obtain ⟨-, least, whole, -, some, -, most⟩ := valid
  have positive : 0 < b.interval := lt_of_lt_of_le (by decide) least
  refine ⟨positive, whole, some, ?_⟩
  exact (Int.le_ediv_iff_mul_le positive).mp most

structure Tracks (digest : Digest) (limit : Int) (m : Memory Bytes) (ledger : Ledger)
    (clock : Int) : Prop where
  kept : ∀ key record, Under "rate/" key → m[key]? = some record →
    record = { value := encode (ledger key), expiresAt := ledger key }
  gone : ∀ key, Under "rate/" key → m[key]? = none → ledger key ≤ clock
  whole : ∀ key, ledger key % microsecond = 0
  since : ∀ key, unixEpoch ≤ ledger key
  soon : ∀ key, ledger key ≤ clock + month
  room : ∀ l : Limiter, (m.held (l.pre digest)).card ≤ limit.toNat

structure InRange (time : Int) : Prop where
  since : unixEpoch ≤ time
  fits : time + month < unixEpoch + 2 ^ 63 * microsecond

theorem Tracks.later (tracks : Tracks digest limit m ledger clock) (passed : clock ≤ time) :
    Tracks digest limit m ledger time :=
  { tracks with
    gone := fun key rate absent => le_trans (tracks.gone key rate absent) passed
    soon := fun key => le_trans (tracks.soon key) (by omega) }

theorem Tracks.absent (tracks : Tracks digest limit m ledger time)
    (rate : Under "rate/" key) (absent : m[key]? = none) : ledger key ≤ truncate time :=
  (le_truncate (tracks.whole key)).mpr (tracks.gone key rate absent)

theorem Tracks.lookup (tracks : Tracks digest limit m ledger time) (inRange : InRange time) (rate : Under "rate/" key) (valid : validKey key = true) :
    lookup m key = .ok (m[key]?.map fun _ => ledger key) := by
  cases found : m[key]? with
  | none => simp [RateLimit.lookup, Memory.get, valid, found, reject, Bind.bind, Except.bind]
  | some record =>
    have held := tracks.kept key record rate found
    subst held
    have there : m.get key = .ok { value := encode (ledger key), expiresAt := ledger key } :=
      get_ok.mpr ⟨valid, found⟩
    have storable : Storable (ledger key) :=
      ⟨tracks.whole key, tracks.since key, lt_of_le_of_lt (tracks.soon key) inRange.fits⟩
    simp only [RateLimit.lookup, there, stamp_encode storable, ok_bind]
    rfl

theorem Tracks.initial (m : Memory Bytes) (clean : ∀ key record, m[key]? = some record → ¬ Under "rate/" key)
    (started : unixEpoch ≤ time) : Tracks digest limit m (fun _ => unixEpoch) time where
  kept key record rate there := absurd rate (clean key record there)
  gone _ _ _ := started
  whole _ := by decide
  since _ := le_rfl
  soon _ := by
    simp only [month, hour]
    omega
  room l := by
    have empty : m.held (l.pre digest) = ∅ := by
      refine Finset.eq_empty_of_forall_notMem fun key member => ?_
      obtain ⟨under, record, there⟩ := mem_held.mp member
      exact clean key record there (rate_of_under under)
    simp [empty]

def charged (ledger : Ledger) (now : Int) (entry : Bucket × String) : String × Record Bytes :=
  let next := Gcra.charge entry.1.interval now (ledger entry.2)
  (entry.2, { value := encode next, expiresAt := next })

theorem tally_one (tracks : Tracks digest limit m ledger time) (inRange : InRange time) (rate : Under "rate/" entry.2) (key : validKey entry.2 = true)
    (valid : ¬ entry.1.Invalid) (t : Tally) :
    tally m (truncate time) t entry = .ok
      { decision := ledger.judge (truncate time) t.decision entry
        newKeys := if m[entry.2]? = none then t.newKeys + 1 else t.newKeys
        pending := t.pending ++ [charged ledger (truncate time) entry] } := by
  obtain ⟨positive, -, some, lasting⟩ := Bucket.bounds valid
  obtain ⟨b, k⟩ := entry
  dsimp only at rate key positive some lasting
  have bursts : (b.burst - 1) * b.interval = b.burst * b.interval - b.interval := by ring
  have burst_pos : 0 ≤ (b.burst - 1) * b.interval := mul_nonneg (by omega) positive.le
  have negated : -(b.burst - 1) * b.interval = -((b.burst - 1) * b.interval) := by ring
  have near := (truncate_spec time).2.1
  have soon := tracks.soon k
  have delay : ledger.wait (truncate time) (b, k) =
      ledger k - (b.burst - 1) * b.interval - truncate time := rfl
  simp only [tally, tracks.lookup inRange rate key, ok_bind]
  cases found : m[k]? with
  | none =>
    have past := tracks.absent rate found
    simp only [Option.map_none, Option.getD_none, Option.isNone_none, if_true, Ledger.judge,
      charged, Gcra.charge, lt_self_iff_false, if_false]
    rw [if_neg (by omega), if_neg (by omega), max_eq_right past]
    rfl
  | some record =>
    simp only [Option.map_some, Option.getD_some, Option.isNone_some, Ledger.judge, reduceCtorEq,
      charged, Gcra.charge, if_false, Bool.false_eq_true]
    have next : (if ledger k < truncate time then truncate time else ledger k) =
        max (ledger k) (truncate time) := by
      split <;> omega
    rw [next]
    by_cases waits : truncate time < ledger k + -(b.burst - 1) * b.interval
    · have exactly : sub (ledger k + -(b.burst - 1) * b.interval) (truncate time) =
          ledger k - (b.burst - 1) * b.interval - truncate time := by
        simp only [sub, maxInt64, month, hour, microsecond] at *
        omega
      rw [if_pos waits, if_pos (by omega), exactly, delay]
      rfl
    · rw [if_neg waits, if_neg (by omega)]
      rfl

theorem tally_all (tracks : Tracks digest limit m ledger time) (inRange : InRange time)
    (entries : List (Bucket × String)) (t : Tally)
    (each : ∀ entry ∈ entries,
      Under "rate/" entry.2 ∧ validKey entry.2 = true ∧ ¬ entry.1.Invalid) :
    entries.foldlM (tally m (truncate time)) t = .ok
      { decision := entries.foldl (ledger.judge (truncate time)) t.decision
        newKeys := t.newKeys + (entries.filter fun entry => m[entry.2]? = none).length
        pending := t.pending ++ entries.map (charged ledger (truncate time)) } := by
  induction entries generalizing t with
  | nil => simp
  | cons entry entries hypothesis =>
    obtain ⟨rate, key, valid⟩ := each entry (by simp)
    rw [List.foldlM_cons, tally_one tracks inRange rate key valid, ok_bind,
      hypothesis _ fun other member => each other (by simp [member])]
    have counted : (if m[entry.2]? = none then t.newKeys + 1 else t.newKeys) +
        (entries.filter fun entry => m[entry.2]? = none).length =
          t.newKeys + ((entry :: entries).filter fun entry => m[entry.2]? = none).length := by
      rw [List.filter_cons]
      by_cases absent : m[entry.2]? = none
      · rw [if_pos absent, if_pos (decide_eq_true absent), List.length_cons]
        omega
      · rw [if_neg absent, if_neg (by simpa using absent)]
    simp only [counted, List.foldl_cons, List.map_cons, List.append_assoc, List.singleton_append]

theorem sweep_spec (now : Int) (seen : List String) (records : List (String × Record Bytes))
    (m : Memory Bytes) (live : Nat) :
    sweep now seen records m live =
      (((records.filter fun r => Stale now seen r).map (·.1)).foldl (fun m key => m.erase key) m,
        live + (records.filter fun r => ¬ Stale now seen r).length) := by
  induction records generalizing m live with
  | nil => rfl
  | cons r records hypothesis =>
    rw [sweep]
    by_cases stale : Stale now seen r
    · rw [if_pos stale, hypothesis]
      simp [stale]
    · rw [if_neg stale, hypothesis]
      simp [stale, Nat.add_assoc, Nat.add_comm 1]

def live (m : Memory Bytes) (pre : String) (ledger : Ledger) (now : Int) (seen : List String) :
    Finset String :=
  (m.held pre).filter fun key => now < ledger key ∨ key ∈ seen

theorem Tracks.reclaim (tracks : Tracks digest limit m ledger time) (positive : 1 ≤ limit)
    (most : limit ≤ 10000) (seen : List String) (newKeys : Nat) :
    ∃ swept : Memory Bytes,
      RateLimit.reclaim (truncate time) (l.pre digest) limit seen newKeys m =
        (if limit < (live m (l.pre digest) ledger (truncate time) seen).card + newKeys then
          .error .capacity else .ok swept) ∧
      ∀ key : String, swept[key]? =
        if Under (l.pre digest) key ∧ ledger key ≤ truncate time ∧ key ∉ seen then none
        else m[key]? := by
  have named : l.pre digest ≠ "" := by
    intro empty
    have size := pre_length digest l
    rw [empty] at size
    exact absurd size (by decide)
  obtain ⟨records, listed, distinct, entries⟩ := list_all named
    (show 0 < limit by omega) most (tracks.room l)
  have stale (r : String × Record Bytes) (member : r ∈ records) :
      Stale (truncate time) seen r ↔ ledger r.1 ≤ truncate time ∧ r.1 ∉ seen := by
    obtain ⟨under, there⟩ := (entries r).mp member
    have since := tracks.since r.1
    have nonzero : ledger r.1 ≠ 0 := by
      simp only [unixEpoch] at since
      omega
    rw [Stale, tracks.kept r.1 r.2 (rate_of_under under) there]
    exact and_iff_right nonzero
  have fresh (r : String × Record Bytes) (member : r ∈ records) :
      ¬ Stale (truncate time) seen r ↔ truncate time < ledger r.1 ∨ r.1 ∈ seen := by
    rw [stale r member, not_and_or, not_le, not_not]
  have counted : (records.filter fun r => ¬ Stale (truncate time) seen r).length =
      (live m (l.pre digest) ledger (truncate time) seen).card := by
    rw [← List.length_map Prod.fst,
      ← List.toFinset_card_of_nodup ((List.filter_sublist.map _).nodup distinct)]
    congr 1
    ext key
    simp only [List.mem_toFinset, List.mem_map, List.mem_filter, live, Finset.mem_filter, mem_held]
    constructor
    · rintro ⟨r, ⟨member, recent⟩, rfl⟩
      obtain ⟨under, there⟩ := (entries r).1 member
      exact ⟨⟨under, r.2, there⟩, (fresh r member).1 (by simpa using recent)⟩
    · rintro ⟨⟨under, record, there⟩, recent⟩
      have member : (key, record) ∈ records := (entries (key, record)).2 ⟨under, there⟩
      exact ⟨(key, record), ⟨member, by simpa using (fresh _ member).2 recent⟩, rfl⟩
  refine ⟨((records.filter fun r => Stale (truncate time) seen r).map (·.1)).foldl
    (fun m key => m.erase key) m, ?_, fun key => ?_⟩
  · simp only [RateLimit.reclaim, listed, sweep_spec, counted, reject, Nat.zero_add]
    split <;> rfl
  · rw [getElem?_foldl_erase]
    have same : key ∈ (records.filter fun r => Stale (truncate time) seen r).map (·.1) ↔
        ∃ record, m[key]? = some record ∧ Under (l.pre digest) key ∧ ledger key ≤ truncate time ∧
          key ∉ seen := by
      simp only [List.mem_map, List.mem_filter, decide_eq_true_eq]
      constructor
      · rintro ⟨r, ⟨member, old⟩, rfl⟩
        exact ⟨r.2, ((entries r).mp member).2, ((entries r).mp member).1, (stale r member).mp old⟩
      · rintro ⟨record, there, under, old⟩
        have member : (key, record) ∈ records := (entries (key, record)).mpr ⟨under, there⟩
        exact ⟨(key, record), ⟨member, (stale _ member).mpr old⟩, rfl⟩
    by_cases old : Under (l.pre digest) key ∧ ledger key ≤ truncate time ∧ key ∉ seen
    · rw [if_pos old]
      cases there : m[key]? with
      | none => simp
      | some record => rw [if_pos (same.mpr ⟨record, there, old⟩)]
    · rw [if_neg old, if_neg fun member => old (same.mp member).choose_spec.2]

theorem putAll_ok (pending : List (String × Record Bytes)) (m : Memory Bytes)
    (valid : ∀ r ∈ pending, validKey r.1 = true) :
    putAll m pending = .ok (pending.foldl (fun m r => m.insert r.1 r.2) m) := by
  induction pending generalizing m with
  | nil => rfl
  | cons r pending hypothesis =>
    have put : m.put r.1 r.2 = .ok (m.insert r.1 r.2) := put_ok.mpr ⟨valid r (by simp), rfl⟩
    rw [List.foldl_cons, ← hypothesis _ fun other member => valid other (by simp [member]), putAll,
      List.foldlM_cons, put]
    rfl

theorem Tracks.others_eq (tracks : Tracks digest limit m ledger time) (seen : List String) :
    ledger.others (l.pre digest) (truncate time) seen =
      ((m.held (l.pre digest)).filter fun key => truncate time < ledger key ∧ key ∉ seen).card := by
  rw [Ledger.others, ← Set.ncard_coe_finset]
  congr 1
  ext key
  simp only [Set.mem_ofPred_eq, Finset.coe_filter, mem_held]
  constructor
  · rintro ⟨under, recent, unseen⟩
    refine ⟨⟨under, ?_⟩, recent, unseen⟩
    cases there : m[key]? with
    | none => exact absurd (tracks.absent (rate_of_under under) there) (not_le.mpr recent)
    | some record => exact ⟨record, rfl⟩
  · rintro ⟨⟨under, -⟩, recent, unseen⟩
    exact ⟨under, recent, unseen⟩

theorem Listed.newKeys (listed : Listed digest l buckets entries) :
    (entries.filter fun entry => m[entry.2]? = none).length =
      ((entries.map (·.2)).toFinset \ m.held (l.pre digest)).card := by
  have distinct : ((entries.filter fun entry => m[entry.2]? = none).map (·.2)).Nodup :=
    (List.filter_sublist.map _).nodup listed.distinct
  rw [← List.length_map Prod.snd, ← List.toFinset_card_of_nodup distinct]
  congr 1
  ext key
  simp only [List.mem_toFinset, List.mem_map, List.mem_filter, decide_eq_true_eq, Finset.mem_sdiff,
    mem_held, not_and, not_exists]
  constructor
  · rintro ⟨entry, ⟨member, absent⟩, rfl⟩
    exact ⟨⟨entry, member, rfl⟩, fun _ record there => by simp [absent] at there⟩
  · rintro ⟨⟨entry, member, rfl⟩, absent⟩
    refine ⟨entry, ⟨member, ?_⟩, rfl⟩
    cases there : m[entry.2]? with
    | none => rfl
    | some record => exact absurd there (absent (listed.under member) record)

theorem Tracks.demand (tracks : Tracks digest limit m ledger time)
    (listed : Listed digest l buckets entries) :
    (live m (l.pre digest) ledger (truncate time) (entries.map (·.2))).card +
        (entries.filter fun entry => m[entry.2]? = none).length =
      ledger.others (l.pre digest) (truncate time) (entries.map (·.2)) + entries.length := by
  set seen := entries.map (·.2) with named
  have parts : live m (l.pre digest) ledger (truncate time) seen =
      ((m.held (l.pre digest)).filter fun key => truncate time < ledger key ∧ key ∉ seen) ∪
        (seen.toFinset ∩ m.held (l.pre digest)) := by
    ext key
    simp only [live, Finset.mem_filter, Finset.mem_union, Finset.mem_inter, List.mem_toFinset]
    tauto
  have apart : Disjoint
      ((m.held (l.pre digest)).filter fun key => truncate time < ledger key ∧ key ∉ seen)
      (seen.toFinset ∩ m.held (l.pre digest)) := by
    rw [Finset.disjoint_left]
    intro key other named
    exact (Finset.mem_filter.mp other).2.2 (List.mem_toFinset.mp (Finset.mem_inter.mp named).1)
  have whole := Finset.card_inter_add_card_sdiff seen.toFinset (m.held (l.pre digest))
  have size : seen.toFinset.card = entries.length := by
    rw [List.toFinset_card_of_nodup listed.distinct, List.length_map]
  rw [parts, Finset.card_union_of_disjoint apart, ← tracks.others_eq, listed.newKeys, ← named]
  omega

variable {swept : Memory Bytes}

theorem charge_named (now : Int) (distinct : (entries.map (·.2)).Nodup) (member : entry ∈ entries) :
    ledger.charge now entries entry.2 =
      Gcra.charge entry.1.interval now (ledger entry.2) := by
  have found : entries.find? (fun other => other.2 = entry.2) = some entry := by
    cases search : entries.find? (fun other => other.2 = entry.2) with
    | none => exact absurd (decide_eq_true rfl) (List.find?_eq_none.mp search entry member)
    | some other =>
      have same : other.2 = entry.2 := by simpa using List.find?_some search
      rw [List.inj_on_of_nodup_map distinct (List.mem_of_find?_eq_some search) member same]
  rw [Ledger.charge, found]

theorem charge_other (now : Int) (unnamed : key ∉ entries.map (·.2)) :
    ledger.charge now entries key = ledger key := by
  have absent : entries.find? (fun entry => entry.2 = key) = none := by
    rw [List.find?_eq_none]
    intro entry member clash
    exact unnamed (List.mem_map.mpr ⟨entry, member, by simpa using clash⟩)
  rw [Ledger.charge, absent]

theorem getElem?_charged (listed : Listed digest l buckets entries) (now : Int) (key : String) :
    ((entries.map (charged ledger now)).foldl (fun m r => m.insert r.1 r.2) swept)[key]? =
      if key ∈ entries.map (·.2) then
        some { value := encode (ledger.charge now entries key)
               expiresAt := ledger.charge now entries key }
      else swept[key]? := by
  rw [Table.foldl_insert]
  by_cases named : key ∈ entries.map (·.2)
  · obtain ⟨entry, member, rfl⟩ := List.mem_map.mp named
    have distinct : (entries.map (charged ledger now)).Pairwise
        fun a b => ¬ compare a.1 b.1 = .eq := by
      simpa [List.Nodup, List.pairwise_map, charged] using listed.distinct
    rw [if_pos named, charge_named now listed.distinct member]
    exact Std.ExtTreeMap.getElem?_insertMany_list_of_mem Std.compare_self distinct
      (List.mem_map_of_mem member)
  · rw [if_neg named]
    exact Std.ExtTreeMap.getElem?_insertMany_list_of_contains_eq_false (by
      simpa [charged] using named)

theorem Tracks.charge (tracks : Tracks digest limit m ledger time)
    (listed : Listed digest l buckets entries)
    (granted : ∀ entry ∈ entries, ledger.wait (truncate time) entry ≤ 0)
    (reclaimed : ∀ key : String, swept[key]? = m[key]? ∨
      swept[key]? = none ∧ Under (l.pre digest) key ∧ ledger key ≤ truncate time ∧
        key ∉ entries.map (·.2))
    (room : (swept.held (l.pre digest) ∪ (entries.map (·.2)).toFinset).card ≤ limit.toNat) :
    Tracks digest limit
      ((entries.map (charged ledger (truncate time))).foldl (fun m r => m.insert r.1 r.2) swept)
      (ledger.charge (truncate time) entries) time := by
  have bounds (key : String) :
      ledger.charge (truncate time) entries key % microsecond = 0 ∧
        unixEpoch ≤ ledger.charge (truncate time) entries key ∧
        ledger.charge (truncate time) entries key ≤ time + month := by
    have whole := tracks.whole key
    have since := tracks.since key
    have soon := tracks.soon key
    by_cases named : key ∈ entries.map (·.2)
    · obtain ⟨entry, member, rfl⟩ := List.mem_map.mp named
      obtain ⟨positive, aligned, some, lasting⟩ := Bucket.bounds (listed.valid entry member)
      have burst_pos : 0 ≤ (entry.1.burst - 1) * entry.1.interval :=
        mul_nonneg (by omega) positive.le
      have free := granted entry member
      have bursts : (entry.1.burst - 1) * entry.1.interval =
          entry.1.burst * entry.1.interval - entry.1.interval := by ring
      obtain ⟨early, -, rounded⟩ := truncate_spec time
      rw [charge_named _ listed.distinct member]
      simp only [Ledger.wait, Gcra.wait] at free
      simp only [Gcra.charge]
      have larger := le_max_left (ledger entry.2) (truncate time)
      rcases max_choice (ledger entry.2) (truncate time) with chosen | chosen <;>
        · rw [chosen] at larger ⊢
          simp only [microsecond] at *
          omega
    · rw [charge_other _ named]
      exact ⟨whole, since, soon⟩
  constructor
  · intro key record rate there
    rw [getElem?_charged listed] at there
    split at there
    · exact (Option.some.inj there).symm
    · next unnamed =>
      rw [charge_other _ unnamed]
      rcases reclaimed key with same | ⟨gone, -⟩
      · exact tracks.kept key record rate (same ▸ there)
      · rw [gone] at there
        cases there
  · intro key rate absent
    rw [getElem?_charged listed] at absent
    split at absent
    · cases absent
    · next unnamed =>
      rw [charge_other _ unnamed]
      rcases reclaimed key with same | ⟨-, -, old, -⟩
      · exact tracks.gone key rate (same ▸ absent)
      · exact le_trans old (truncate_spec time).1
  · exact fun key => (bounds key).1
  · exact fun key => (bounds key).2.1
  · exact fun key => (bounds key).2.2
  · intro l'
    by_cases same : l'.pre digest = l.pre digest
    · rw [same]
      refine le_trans (Finset.card_le_card fun key member => ?_) room
      obtain ⟨under, record, there⟩ := mem_held.mp member
      rw [getElem?_charged listed] at there
      rw [Finset.mem_union]
      split at there
      · next named => exact .inr (List.mem_toFinset.mpr named)
      · exact .inl (mem_held.mpr ⟨under, record, there⟩)
    · refine le_trans (Finset.card_le_card fun key member => ?_) (tracks.room l')
      obtain ⟨under, record, there⟩ := mem_held.mp member
      rw [getElem?_charged listed] at there
      split at there
      · next named =>
        obtain ⟨entry, inside, rfl⟩ := List.mem_map.mp named
        exact absurd (pre_eq_of_under under (listed.under inside)) same
      · rcases reclaimed key with kept | ⟨gone, -⟩
        · exact mem_held.mpr ⟨under, record, kept ▸ there⟩
        · rw [gone] at there
          cases there

theorem Tracks.consume (tracks : Tracks digest limit m ledger time) (inRange : InRange time)
    (listed : Listed digest l buckets entries) (positive : 1 ≤ limit) (most : limit ≤ 10000) :
    let d := ledger.verdict (truncate time) entries
    let demand : Int :=
      ledger.others (l.pre digest) (truncate time) (entries.map (·.2)) + entries.length
    (d.allowed = false → consume (truncate time) (l.pre digest) limit entries m = .ok (d, m)) ∧
      (d.allowed = true → limit < demand →
        consume (truncate time) (l.pre digest) limit entries m = .error .capacity) ∧
      (d.allowed = true → demand ≤ limit → ∃ after,
        consume (truncate time) (l.pre digest) limit entries m = .ok (d, after) ∧
          Tracks digest limit after (ledger.charge (truncate time) entries) time) := by
  intro d demand
  have tallied := tally_all tracks inRange entries {} fun entry member =>
    ⟨rate_of_under (listed.under member), listed.validKey member, listed.valid entry member⟩
  have verdict : entries.foldl (ledger.judge (truncate time)) { allowed := true } = d := rfl
  simp only [verdict, Nat.zero_add, List.nil_append] at tallied
  have counted := tracks.demand listed
  have valid : ∀ r ∈ entries.map (charged ledger (truncate time)), State.validKey r.1 = true := by
    intro r member
    obtain ⟨entry, inside, rfl⟩ := List.mem_map.mp member
    exact listed.validKey inside
  have ran : RateLimit.consume (truncate time) (l.pre digest) limit entries m =
      if d.allowed = false then .ok (d, m)
      else
        makeRoom (truncate time) (l.pre digest) limit (entries.map (·.2))
            (entries.filter fun entry => m[entry.2]? = none).length m >>= fun m =>
          putAll m (entries.map (charged ledger (truncate time))) >>= fun m => pure (d, m) := by
    simp only [RateLimit.consume, tallied, ok_bind]
    rfl
  rw [ran, makeRoom]
  refine ⟨fun denied => if_pos denied, fun granted full => ?_, fun granted enough => ?_⟩
  · rw [if_neg (by simp [granted])]
    obtain ⟨swept, reclaimed, -⟩ := tracks.reclaim positive most (l := l) (entries.map (·.2))
      (entries.filter fun entry => m[entry.2]? = none).length
    have new : 0 < (entries.filter fun entry => m[entry.2]? = none).length := by
      by_contra none
      have kept : (live m (l.pre digest) ledger (truncate time) (entries.map (·.2))).card ≤ limit.toNat :=
        le_trans (Finset.card_filter_le _ _) (tracks.room l)
      omega
    rw [if_pos new, reclaimed, if_pos (by omega)]
    rfl
  · rw [if_neg (by simp [granted])]
    have free := (verdict_allowed entries).mp granted
    by_cases new : 0 < (entries.filter fun entry => m[entry.2]? = none).length
    · obtain ⟨swept, reclaimed, left⟩ := tracks.reclaim positive most (l := l) (entries.map (·.2))
        (entries.filter fun entry => m[entry.2]? = none).length
      rw [if_pos new, reclaimed, if_neg (by omega), ok_bind, putAll_ok _ _ valid, ok_bind]
      refine ⟨_, rfl, tracks.charge listed free (fun key => ?_) ?_⟩
      · rw [left key]
        split
        · next stale => exact .inr ⟨rfl, stale⟩
        · exact .inl rfl
      · have inside : swept.held (l.pre digest) ∪ (entries.map (·.2)).toFinset ⊆
            live m (l.pre digest) ledger (truncate time) (entries.map (·.2)) ∪
              ((entries.map (·.2)).toFinset \ m.held (l.pre digest)) := by
          intro key member
          rw [Finset.mem_union, Finset.mem_sdiff, live, Finset.mem_filter]
          rcases Finset.mem_union.mp member with old | named
          · obtain ⟨under, record, there⟩ := mem_held.mp old
            rw [left key] at there
            split at there
            · cases there
            · next fresh =>
              left
              refine ⟨mem_held.mpr ⟨under, record, there⟩, ?_⟩
              by_contra neither
              rw [not_or, not_lt] at neither
              exact fresh ⟨under, neither⟩
          · by_cases there : key ∈ m.held (l.pre digest)
            · exact .inl ⟨there, .inr (List.mem_toFinset.mp named)⟩
            · exact .inr ⟨named, there⟩
        refine le_trans (Finset.card_le_card inside) (le_trans (Finset.card_union_le _ _) ?_)
        rw [← listed.newKeys]
        omega
    · rw [if_neg new]
      refine ⟨_, by rw [ok_bind, putAll_ok _ _ valid, ok_bind]; rfl,
        tracks.charge listed free (fun key => .inl rfl) ?_⟩
      have inside : m.held (l.pre digest) ∪ (entries.map (·.2)).toFinset ⊆
          m.held (l.pre digest) := by
        have none : ((entries.map (·.2)).toFinset \ m.held (l.pre digest)).card = 0 := by
          rw [← listed.newKeys]
          omega
        exact Finset.union_subset (Finset.Subset.refl _)
          (Finset.sdiff_eq_empty_iff_subset.mp (Finset.card_eq_zero.mp none))
      exact le_trans (Finset.card_le_card inside) (tracks.room l)

theorem Tracks.check (tracks : Tracks digest l.limit m ledger time) (inRange : InRange time)
    (cancelled : Bool) (buckets : List Bucket) :
    (l.check digest time cancelled buckets m).1 =
        (ledger.check digest l time cancelled buckets).1 ∧
      Tracks digest l.limit (l.check digest time cancelled buckets m).2
        (ledger.check digest l time cancelled buckets).2 time := by
  unfold Limiter.check Ledger.check
  split
  · exact ⟨rfl, tracks⟩
  split
  · exact ⟨rfl, tracks⟩
  next permitted =>
  cases named : l.entries digest buckets with
  | error error => exact ⟨rfl, tracks⟩
  | ok entries =>
    have listed := entries_listed named
    have keys : ¬ (((l.pre digest ++ "capacity") :: entries.map (·.2)) = [] ∨
        ¬ ((l.pre digest ++ "capacity") :: entries.map (·.2)).all State.validKey = true) := by
      simp only [reduceCtorEq, false_or, not_not, List.all_cons, capacity_valid, Bool.true_and,
        List.all_eq_true, List.mem_map]
      rintro key ⟨entry, member, rfl⟩
      exact listed.validKey member
    obtain ⟨denied, full, granted⟩ := tracks.consume inRange listed (by omega) (by omega)
    dsimp only [Memory.update]
    rw [if_neg keys]
    cases allowed : (ledger.verdict (truncate time) entries).allowed with
    | false =>
      rw [denied allowed, ok_bind]
      cases cancelled <;> exact ⟨rfl, tracks⟩
    | true =>
      simp only [Bool.true_eq_false, if_false]
      by_cases exceeds : l.limit < ledger.others (l.pre digest) (truncate time) (entries.map (·.2)) +
          entries.length
      · rw [if_pos exceeds, full allowed exceeds]
        exact ⟨rfl, tracks⟩
      · rw [if_neg exceeds]
        obtain ⟨after, ran, kept⟩ := granted allowed (not_lt.mp exceeds)
        rw [ran, ok_bind]
        cases cancelled
        · exact ⟨rfl, kept⟩
        · exact ⟨rfl, tracks⟩

theorem Tracks.reclaimed {fewer : Memory Bytes} (tracks : Tracks digest limit m ledger time)
    (inside : ∀ key : String, fewer[key]? = m[key]? ∨ fewer[key]? = none ∧
      ∃ record, m[key]? = some record ∧ expired time record = true) :
    Tracks digest limit fewer ledger time where
  kept key record rate there := by
    rcases inside key with same | ⟨gone, -⟩
    · exact tracks.kept key record rate (same ▸ there)
    · rw [gone] at there
      cases there
  gone key rate absent := by
    rcases inside key with same | ⟨-, record, there, old⟩
    · exact tracks.gone key rate (same ▸ absent)
    · have held := tracks.kept key record rate there
      simp only [expired, Bool.and_eq_true, decide_eq_true_eq, held] at old
      exact old.2
  whole := tracks.whole
  since := tracks.since
  soon := tracks.soon
  room l := by
    refine le_trans (Finset.card_le_card fun key member => ?_) (tracks.room l)
    obtain ⟨under, record, there⟩ := mem_held.mp member
    rcases inside key with same | ⟨gone, -⟩
    · exact mem_held.mpr ⟨under, record, same ▸ there⟩
    · rw [gone] at there
      cases there

def effectiveLimit (maxEntries : Int) : Int := Limiter.limit { maxEntries, space := "" }

theorem Tracks.perform (tracks : Tracks digest (effectiveLimit maxEntries) m ledger clock)
    (event : Event) (passed : clock ≤ event.time) (inRange : InRange event.time) :
    (perform digest maxEntries m event).1 = (ledger.perform digest maxEntries event).1 ∧
      Tracks digest (effectiveLimit maxEntries) (step digest maxEntries m event)
        (ledger.perform digest maxEntries event).2 event.time := by
  have now := tracks.later passed
  obtain ⟨time, call⟩ := event
  cases call with
  | check space buckets cancelled =>
    obtain ⟨answered, kept⟩ := Tracks.check (l := { maxEntries, space }) now inRange cancelled buckets
    exact ⟨congrArg some answered, kept⟩
  | prune limit order =>
    refine ⟨rfl, now.reclaimed fun key => ?_⟩
    rcases prune_cases m time limit order key with same | ⟨gone, record, there, old⟩
    · exact .inl same
    · exact .inr ⟨gone, record, there, by simpa [expired] using old⟩

end AppleDM.RateLimit
