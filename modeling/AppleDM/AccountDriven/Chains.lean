import AppleDM.AccountDriven.Tokens

set_option autoImplicit false

namespace AppleDM.AccountDriven

open Checked Mdm Process Evolution Relation Run
open State (Memory StateError)

section Rows

variable {m m' : Memory Record} {key other hash : String} {rec rec' prior : Record} {time : Time}

def Holds (m : Memory Record) (key : String) (rec : Record) : Prop :=
  ∃ expires, m[key]? = some ⟨rec, expires⟩

theorem holds_insert {expires : Time} :
    Holds (m.insert key ⟨rec, expires⟩) other rec' ↔
      other = key ∧ rec' = rec ∨ other ≠ key ∧ Holds m other rec' := by
  unfold Holds
  rw [getElem?_insert_eq]
  split
  · next same => simp [same, eq_comm]
  · next apart => simp [apart]

theorem readToken_ok (found : readToken m hash = .ok rec) : Holds m (tokenKey hash) rec := by
  unfold readToken at found
  split at found
  · next record read =>
    obtain rfl := Except.ok.inj found
    exact ⟨record.expiresAt, (Memory.get_ok.1 read).2⟩
  · cases found
  · cases found

theorem stateError_ok {A : Type} {r : Except StateError A} {value : A} :
    stateError r = .ok value ↔ r = .ok value := by
  cases r <;> simp [stateError, Except.mapError]

theorem putToken_ok (stored : putToken m hash rec = .ok m') :
    m.insert (tokenKey hash) ⟨rec, rec.expiresAt⟩ = m' :=
  (Memory.put_ok.1 (stateError_ok.1 stored)).2

theorem unlink_ok (done : unlink m rec prior = .ok m') (held : Holds m' other rec') :
    Holds m other rec' ∧
      (rec.meta "access_hash" ≠ "" → other ≠ tokenKey (rec.meta "access_hash")) := by
  unfold unlink at done
  split at done
  · next unlinked =>
    obtain rfl := Except.ok.inj done
    exact ⟨held, fun linked => absurd unlinked linked⟩
  · simp only [bind_ok, stateError_ok, Memory.delete_ok] at done
    obtain ⟨-, -, -, rfl⟩ := done
    obtain ⟨expires, there⟩ := held
    rw [getElem?_erase_eq] at there
    split at there
    · cases there
    · next apart => exact ⟨⟨expires, there⟩, fun _ => apart⟩

structure Same (rec rec' : Record) : Prop where
  kind : rec'.kind = rec.kind
  identity : rec'.identity = rec.identity
  expiresAt : rec'.expiresAt = rec.expiresAt
  data : rec'.data = rec.data
  used : rec.usedAt ≠ 0 → rec'.usedAt ≠ 0

theorem Same.refl (rec : Record) : Same rec rec := ⟨rfl, rfl, rfl, rfl, id⟩

theorem Same.trans {rec'' : Record} (first : Same rec rec') (second : Same rec' rec'') :
    Same rec rec'' :=
  ⟨second.kind.trans first.kind, second.identity.trans first.identity,
    second.expiresAt.trans first.expiresAt, second.data.trans first.data,
    fun used => second.used (first.used used)⟩

theorem Same.meta (same : Same rec rec') (name : String) : rec'.meta name = rec.meta name := by
  rw [Record.meta, same.data, Record.meta]

def Shrinks (m m' : Memory Record) : Prop :=
  ∀ key rec', Holds m' key rec' → ∃ rec, Holds m key rec ∧ Same rec rec'

structure Consumed (m m' : Memory Record) (key : String) (rec : Record) (time : Time) : Prop where
  found : Holds m key rec
  live : time < rec.expiresAt
  unused : rec.usedAt = 0
  after : ∀ other rec', Holds m' other rec' →
    other = key ∧ rec' = { rec with usedAt := time } ∨ other ≠ key ∧ Holds m other rec'
  unlinked : rec.meta "access_hash" ≠ "" → ∀ rec', ¬ Holds m' (tokenKey (rec.meta "access_hash")) rec'

theorem Consumed.shrinks (consumed : Consumed m m' key rec time) : Shrinks m m' := by
  intro other rec' held
  obtain ⟨rfl, rfl⟩ | ⟨-, old⟩ := consumed.after other rec' held
  · exact ⟨rec, consumed.found, rfl, rfl, rfl, rfl, fun used => absurd consumed.unused used⟩
  · exact ⟨rec', old, .refl rec'⟩

theorem exchangeRecord_ok {validate : Record → Except Failure Unit}
    {replacements : List (String × Record)}
    (done : exchangeRecord hash prior time validate replacements m = .ok (rec, m')) :
    validate rec = .ok () ∧ ∃ m₁, Consumed m m₁ (tokenKey hash) rec time ∧
      replacements.foldlM (fun m entry => putToken m entry.1 entry.2) m₁ = .ok m' := by
  simp only [exchangeRecord, bind_ok, reject_ok, pure_ok, Prod.mk.injEq, not_not, exists_const]
    at done
  obtain ⟨rec, read, live, unused, _, valid, m₀, stored, m₁, unlinked, m₂, installed, rfl, rfl⟩ :=
    done
  have found := readToken_ok read
  obtain rfl := putToken_ok stored
  refine ⟨valid, m₁, ⟨found, live, unused, fun other rec' held => ?_, fun linked rec' held => ?_⟩,
    installed⟩
  · exact holds_insert.1 (unlink_ok unlinked held).1
  · exact (unlink_ok unlinked held).2 linked rfl

end Rows

section Invariant

def Spendable (kind : Kind) : Prop := kind = .code ∨ kind = .refresh

structure Carries (code rec : Record) : Prop where
  identity : rec.identity = code.identity
  client : rec.meta "client_id" = code.meta "client_id"
  scope : rec.meta "scope" = code.meta "scope"

structure Chained (m : Memory Record) (root : Table String String) : Prop where
  tip : ∀ {key key' code rec rec'}, Holds m key rec → Holds m key' rec' →
    root[key]? = some code → root[key']? = some code → Spendable rec.kind → Spendable rec'.kind →
    rec.usedAt = 0 → rec'.usedAt = 0 → key = key'
  single : ∀ {key key' code rec rec'}, Holds m key rec → Holds m key' rec' →
    root[key]? = some code → root[key']? = some code → rec.kind = .access → rec'.kind = .access →
    key = key'
  linked : ∀ {key key' code rec rec'}, Holds m key rec → Holds m key' rec' →
    root[key]? = some code → root[key']? = some code → Spendable rec.kind → rec.usedAt = 0 →
    rec'.kind = .access →
    rec.meta "access_hash" ≠ "" ∧ key' = tokenKey (rec.meta "access_hash")

structure Good (w : World) : Prop where
  chained : Chained w.tokens w.root
  born : ∀ key rec, Holds w.tokens key rec → ∃ code record, w.root[key]? = some code ∧
    (code, record) ∈ w.codes ∧ Carries record rec
  drawn : ∀ (key code : String), w.root[key]? = some code → key ∈ w.used
  granted : ∀ entry ∈ w.codes, w.root[entry.1]? = some entry.1
  distinct : (w.codes.map Prod.fst).Nodup
  once : (w.log.map Exchanged.spent).Nodup
  valid : ∀ e ∈ w.log, Spendable e.record.kind ∧ e.record.usedAt = 0 ∧ e.time < e.record.expiresAt
  spent : ∀ e ∈ w.log, ∃ code, w.root[e.spent]? = some code ∧ w.root[e.access]? = some code ∧
    (∀ rec, Holds w.tokens e.spent rec → rec.usedAt ≠ 0) ∧
    ∀ rec, Holds w.tokens e.access rec → rec.kind = .access
  superseded : w.log.Pairwise fun earlier later =>
    w.root[earlier.spent]? = w.root[later.spent]? → ∀ rec, ¬ Holds w.tokens earlier.access rec

theorem good_empty : Good {} := by
  refine ⟨⟨?_, ?_, ?_⟩, ?_, ?_, ?_, ?_, ?_, ?_, ?_, ?_⟩ <;> simp [Holds]

variable {w : World} {m m' : Memory Record} {key code : String} {rec : Record} {time : Time}

theorem Chained.shrinks {root : Table String String} (chained : Chained m root)
    (shrunk : Shrinks m m') : Chained m' root where
  tip held held' under under' spendable spendable' unused unused' := by
    obtain ⟨old, before, same⟩ := shrunk _ _ held
    obtain ⟨old', before', same'⟩ := shrunk _ _ held'
    exact chained.tip before before' under under' (same.kind ▸ spendable) (same'.kind ▸ spendable')
      (not_not.1 fun used => same.used used unused) (not_not.1 fun used => same'.used used unused')
  single held held' under under' access access' := by
    obtain ⟨old, before, same⟩ := shrunk _ _ held
    obtain ⟨old', before', same'⟩ := shrunk _ _ held'
    exact chained.single before before' under under' (same.kind ▸ access) (same'.kind ▸ access')
  linked held held' under under' spendable unused access := by
    obtain ⟨old, before, same⟩ := shrunk _ _ held
    obtain ⟨old', before', same'⟩ := shrunk _ _ held'
    rw [same.meta]
    exact chained.linked before before' under under' (same.kind ▸ spendable)
      (not_not.1 fun used => same.used used unused) (same'.kind ▸ access)

theorem Good.shrinks (good : Good w) (shrunk : Shrinks w.tokens m) :
    Good { w with tokens := m } := { good with
  chained := good.chained.shrinks shrunk
  born := fun key rec held => by
    obtain ⟨old, before, same⟩ := shrunk key rec held
    obtain ⟨code, record, under, member, carries⟩ := good.born key old before
    exact ⟨code, record, under, member, same.identity.trans carries.identity,
      (same.meta _).trans carries.client, (same.meta _).trans carries.scope⟩
  spent := fun e member => by
    obtain ⟨code, under, under', used, access⟩ := good.spent e member
    refine ⟨code, under, under', fun rec held => ?_, fun rec held => ?_⟩
    · obtain ⟨old, before, same⟩ := shrunk _ rec held
      exact same.used (used old before)
    · obtain ⟨old, before, same⟩ := shrunk _ rec held
      exact same.kind.trans (access old before)
  superseded := by
    refine good.superseded.imp fun gone same rec held => ?_
    obtain ⟨old, before, -⟩ := shrunk _ rec held
    exact gone same old before }

theorem Good.draw (good : Good w) (key : String) : Good { w with used := key :: w.used } :=
  { good with drawn := fun other code under => List.mem_cons_of_mem _ (good.drawn other code under) }

def Ended (m : Memory Record) (root : Table String String) (code : String) : Prop :=
  ∀ key rec, Holds m key rec → root[key]? = some code →
    rec.kind ≠ .access ∧ (Spendable rec.kind → rec.usedAt ≠ 0)

theorem Good.ended (good : Good w) (consumed : Consumed w.tokens m key rec time) (clock : time ≠ 0)
    (spendable : Spendable rec.kind) (under : w.root[key]? = some code) :
    Ended m w.root code := by
  intro other rec' held under'
  obtain ⟨rfl, rfl⟩ | ⟨apart, old⟩ := consumed.after other rec' held
  · refine ⟨fun access => ?_, fun _ => clock⟩
    obtain code | refresh := spendable
    · rw [code] at access; cases access
    · rw [refresh] at access; cases access
  · refine ⟨fun access => ?_, fun spendable' unused => ?_⟩
    · obtain ⟨linked, rfl⟩ :=
        good.chained.linked consumed.found old under under' spendable consumed.unused access
      exact consumed.unlinked linked rec' held
    · exact apart (good.chained.tip old consumed.found under' under spendable' spendable unused
        consumed.unused)

def World.put (w : World) (key code : String) (rec : Record) (codes : List (String × Record)) :
    World :=
  { w with
    tokens := w.tokens.insert key ⟨rec, rec.expiresAt⟩, root := w.root.insert key code, codes }

structure Fits (w : World) (code : String) (rec : Record) : Prop where
  tip : Spendable rec.kind → ∀ key rec', Holds w.tokens key rec' → w.root[key]? = some code →
    Spendable rec'.kind → rec'.usedAt ≠ 0
  access : rec.kind = .access → Ended w.tokens w.root code
  linked : Spendable rec.kind → ∀ key rec', Holds w.tokens key rec' → w.root[key]? = some code →
    rec'.kind = .access → rec.meta "access_hash" ≠ "" ∧ key = tokenKey (rec.meta "access_hash")

theorem not_access {kind : Kind} (spendable : Spendable kind) : kind ≠ .access := by
  rintro rfl
  cases spendable <;> contradiction

theorem Good.chained_put (good : Good w) (fits : Fits w code rec) {expires : Time} :
    Chained (w.tokens.insert key ⟨rec, expires⟩) (w.root.insert key code) := by
  -- what was there before is under another key, and its chain is what it was
  have old {other code' : String} {rec' : Record}
      (held : other = key ∧ rec' = rec ∨ other ≠ key ∧ Holds w.tokens other rec')
      (under : (w.root.insert key code)[other]? = some code') :
      other = key ∧ rec' = rec ∧ code' = code ∨
        Holds w.tokens other rec' ∧ w.root[other]? = some code' := by
    rw [getElem?_insert_eq] at under
    obtain ⟨rfl, rfl⟩ | ⟨apart, held⟩ := held
    · rw [if_pos rfl] at under
      exact .inl ⟨rfl, rfl, (Option.some.inj under).symm⟩
    · rw [if_neg apart] at under
      exact .inr ⟨held, under⟩
  refine ⟨fun held held' under under' spendable spendable' unused unused' => ?_,
    fun held held' under under' access access' => ?_,
    fun held held' under under' spendable unused access => ?_⟩
  all_goals
    obtain ⟨rfl, rfl, rfl⟩ | ⟨was, chain⟩ := old (holds_insert.1 held) under <;>
      obtain ⟨rfl, rfl, same⟩ | ⟨was', chain'⟩ := old (holds_insert.1 held') under'
  · rfl
  · exact absurd unused' (fits.tip spendable _ _ was' chain' spendable')
  · exact absurd unused (fits.tip spendable' _ _ was (same ▸ chain) spendable)
  · exact good.chained.tip was was' chain chain' spendable spendable' unused unused'
  · rfl
  · exact absurd access' (fits.access access _ _ was' chain').1
  · exact absurd access (fits.access access' _ _ was (same ▸ chain)).1
  · exact good.chained.single was was' chain chain' access access'
  · exact absurd access (not_access spendable)
  · exact fits.linked spendable _ _ was' chain' access
  · exact absurd unused ((fits.access access _ _ was (same ▸ chain)).2 spendable)
  · exact good.chained.linked was was' chain chain' spendable unused access

theorem Good.put (good : Good w) (fits : Fits w code rec) (fresh : w.root[key]? = none)
    (drawn : key ∈ w.used) {codes : List (String × Record)}
    (kept : ∀ entry ∈ w.codes, entry ∈ codes) (distinct : (codes.map Prod.fst).Nodup)
    (granted : ∀ entry ∈ codes, (w.root.insert key code)[entry.1]? = some entry.1)
    (carries : ∃ record, (code, record) ∈ codes ∧ Carries record rec) :
    Good (w.put key code rec codes) := by
  have unchanged {other code' : String} (under : w.root[other]? = some code') :
      other ≠ key ∧ (w.root.insert key code)[other]? = some code' := by
    have apart : other ≠ key := ne_of_absent under fresh
    rw [getElem?_insert_eq, if_neg apart]
    exact ⟨apart, under⟩
  have before {other code' : String} {rec' : Record} (under : w.root[other]? = some code')
      (held : Holds (w.put key code rec codes).tokens other rec') : Holds w.tokens other rec' := by
    obtain ⟨same, -⟩ | ⟨-, held⟩ := holds_insert.1 held
    · exact absurd same (unchanged under).1
    · exact held
  refine ⟨good.chained_put fits, fun other rec' held => ?_, fun other code' under => ?_,
    granted, distinct, good.once, good.valid, fun e member => ?_, ?_⟩
  · obtain ⟨rfl, rfl⟩ | ⟨-, held⟩ := holds_insert.1 held
    · obtain ⟨record, member, carries⟩ := carries
      exact ⟨code, record, by rw [World.put, getElem?_insert_eq, if_pos rfl], member, carries⟩
    · obtain ⟨code', record, under, member, carries⟩ := good.born other rec' held
      exact ⟨code', record, (unchanged under).2, kept _ member, carries⟩
  · rw [World.put, getElem?_insert_eq] at under
    split at under
    · next same => exact same ▸ drawn
    · exact good.drawn other code' under
  · obtain ⟨code', under, under', used, access⟩ := good.spent e member
    exact ⟨code', (unchanged under).2, (unchanged under').2,
      fun rec' held => used rec' (before under held),
      fun rec' held => access rec' (before under' held)⟩
  · refine good.superseded.imp_of_mem fun {earlier later} member member' gone same rec' held => ?_
    obtain ⟨code₁, under₁, under₁', -⟩ := good.spent earlier member
    obtain ⟨code₂, under₂, -⟩ := good.spent later member'
    refine gone ?_ rec' (before under₁' held)
    rw [World.put, (unchanged under₁).2, (unchanged under₂).2] at same
    rw [under₁, under₂, same]

end Invariant

section Steps

variable {lib : Library} {w w' : World} {m : Memory Record} {key code value token access refresh hash :
  String} {rec prior checked : Record} {time committedAt : Time} {terms : Terms}

structure Advances (w w' : World) : Prop where
  used : ∀ key ∈ w.used, key ∈ w'.used
  evolves : Evolves (fun row row' : State.Record Record => Same row.value row'.value)
    w.used w.tokens w'.tokens

theorem evolves_of_shrinks {used : List String} {m m' : Memory Record} (shrunk : Shrinks m m') :
    Evolves (fun row row' : State.Record Record => Same row.value row'.value) used m m' := by
  intro key row there
  obtain ⟨rec, ⟨expires, before⟩, same⟩ := shrunk key row.value ⟨row.expiresAt, there⟩
  exact .inl ⟨⟨rec, expires⟩, before, same⟩

theorem Advances.of_shrinks {codes log root} (shrunk : Shrinks w.tokens m) :
    Advances w ⟨m, w.used, codes, root, log⟩ :=
  ⟨fun _ => id, evolves_of_shrinks shrunk⟩

theorem shrinks_refl (m : Memory Record) : Shrinks m m := fun _ rec held => ⟨rec, held, .refl rec⟩

theorem prune_shrinks (m : Memory Record) (now : Time) (limit : Int) (order : List String) :
    Shrinks m (m.prune now limit order).2 := by
  rintro key rec ⟨expires, there⟩
  obtain same | ⟨gone, -⟩ := Memory.prune_cases m now limit order key
  · exact ⟨rec, ⟨expires, same ▸ there⟩, .refl rec⟩
  · rw [gone] at there
    cases there

theorem tokenKey_inj {hash hash' : String} (same : tokenKey hash = tokenKey hash') :
    hash = hash' := by
  have letters := congrArg String.toList same
  simp only [tokenKey, String.toList_append, List.append_cancel_left_eq] at letters
  exact String.toList_inj.1 letters

theorem keyOf_inj (same : keyOf lib access = keyOf lib refresh) : access = refresh :=
  lib.injective (tokenKey_inj same)

theorem Good.fresh (good : Good w) (unused : key ∉ w.used) : w.root[key]? = none := by
  cases under : w.root[key]? with
  | none => rfl
  | some code => exact absurd (good.drawn key code under) unused

theorem Good.unborn (good : Good w) (fresh : w.root[key]? = none) {other : String}
    (held : Holds w.tokens other rec) : w.root[other]? ≠ some key := by
  intro under
  obtain ⟨code, record, under', member, -⟩ := good.born other rec held
  obtain rfl := Option.some.inj (under.symm.trans under')
  exact ne_of_absent (good.granted _ member) fresh rfl

theorem Good.issue (good : Good w) (fresh : w.root[key]? = none) (drawn : key ∈ w.used)
    (kind : rec.kind = .code) :
    Good (w.put key key rec (w.codes ++ [(key, rec)])) := by
  have fits : Fits w key rec :=
    ⟨fun _ other rec' held under => absurd under (good.unborn fresh held),
      fun access => (by rw [kind] at access; cases access),
      fun _ other rec' held under => absurd under (good.unborn fresh held)⟩
  have absent {entry : String × Record} (member : entry ∈ w.codes) : entry.1 ≠ key :=
    ne_of_absent (good.granted entry member) fresh
  refine good.put fits fresh drawn (fun entry member => List.mem_append_left _ member) ?_ ?_
    ⟨rec, by simp, rfl, rfl, rfl⟩
  · rw [List.map_append, List.nodup_append]
    refine ⟨good.distinct, by simp, fun first member second member' same => ?_⟩
    obtain ⟨entry, present, rfl⟩ := List.mem_map.1 member
    simp only [List.map_cons, List.map_nil, List.mem_singleton] at member'
    exact absent present (same.trans member')
  · intro entry member
    rw [getElem?_insert_eq]
    obtain old | new := List.mem_append.1 member
    · rw [if_neg (absent old), good.granted entry old]
    · rw [List.mem_singleton.1 new, if_pos rfl]

theorem issueStep_cases (lib : Library) (rec : Record) (token : String) (w : World) :
    (∃ failure, issueStep lib rec token w =
      (.error failure, { w with used := keyOf lib token :: w.used })) ∨
    issueStep lib rec token w =
      (.ok token, { w with used := keyOf lib token :: w.used }.put (keyOf lib token)
        (keyOf lib token) rec (w.codes ++ [(keyOf lib token, rec)])) := by
  unfold issueStep
  dsimp only
  obtain ⟨⟨⟩, m, stored, same⟩ | ⟨failure, same⟩ := Memory.update_cases w.tokens
    (Failure.state .invalid) [keyOf lib token] fun m => ((), ·) <$> putToken m (lib.hash token) rec
  · rw [same]
    simp only [map_ok, Prod.mk.injEq, true_and, exists_eq_right] at stored
    obtain rfl := putToken_ok stored
    exact .inr rfl
  · rw [same]
    exact .inl ⟨failure, rfl⟩

theorem issueStep_keeps (good : Good w) (unused : keyOf lib token ∉ w.used)
    (kind : rec.kind = .code) :
    Advances w (issueStep lib rec token w).2 ∧ Good (issueStep lib rec token w).2 := by
  have drawn := good.draw (keyOf lib token)
  obtain ⟨failure, same⟩ | same := issueStep_cases lib rec token w
  · rw [same]
    exact ⟨⟨fun _ => List.mem_cons_of_mem _, evolves_of_shrinks (shrinks_refl _)⟩, drawn⟩
  · rw [same]
    refine ⟨⟨fun _ => List.mem_cons_of_mem _, ?_⟩,
      drawn.issue (good.fresh unused) List.mem_cons_self kind⟩
    exact (Evolves.refl fun row => .refl row.value).insert unused

theorem markStep_keeps (good : Good w) :
    Advances w (markStep hash prior time w).2 ∧ Good (markStep hash prior time w).2 := by
  suffices shrunk : Shrinks w.tokens (markStep hash prior time w).2.tokens from
    ⟨.of_shrinks shrunk, good.shrinks shrunk⟩
  unfold markStep
  obtain ⟨rec, m, done, same⟩ | ⟨failure, same⟩ := Memory.update_cases w.tokens
    (Failure.state .invalid) (exchangeKeys hash prior [])
    (exchangeRecord hash prior time (fun _ => .ok ()) [])
  · rw [same]
    obtain ⟨-, m₁, consumed, installed⟩ := exchangeRecord_ok done
    obtain rfl := Except.ok.inj installed
    exact consumed.shrinks
  · rw [same]
    exact shrinks_refl _

theorem inherited_meta {name : String} (rec : Record) (other : name ≠ "access_hash")
    (other' : name ≠ "state") : (inherited rec)[name]?.getD "" = rec.meta name := by
  rw [inherited, getElem?_erase_eq, if_neg other', getElem?_erase_eq, if_neg other, Record.meta]

variable {record : Record}

theorem carries_access (carries : Carries record rec) (o : OAuth2) :
    Carries record (accessRecord o rec time) :=
  ⟨carries.identity, (inherited_meta rec (by decide) (by decide)).trans carries.client,
    (inherited_meta rec (by decide) (by decide)).trans carries.scope⟩

theorem carries_refresh (carries : Carries record rec) (o : OAuth2) :
    Carries record (refreshRecord o rec time hash) := by
  have kept {name : String} (other : name ≠ "access_hash") :
      (refreshRecord o rec time hash).meta name = (inherited rec)[name]?.getD "" := by
    rw [Record.meta, refreshRecord, getElem?_insert_eq, if_neg other]
  refine ⟨carries.identity, ?_, ?_⟩
  · rw [kept (by decide), inherited_meta rec (by decide) (by decide), carries.client]
  · rw [kept (by decide), inherited_meta rec (by decide) (by decide), carries.scope]

theorem refreshRecord_linked (o : OAuth2) :
    (refreshRecord o rec time hash).meta "access_hash" = hash := by
  rw [Record.meta, refreshRecord, getElem?_insert_eq, if_pos rfl, Option.getD_some]

theorem Good.next (good : Good w) (fits : Fits w code rec) (fresh : w.root[key]? = none)
    (drawn : key ∈ w.used) (member : (code, record) ∈ w.codes)
    (carries : Carries record rec) : Good (w.put key code rec w.codes) := by
  refine good.put fits fresh drawn (fun _ => id) good.distinct (fun entry present => ?_)
    ⟨record, member, carries⟩
  rw [getElem?_insert_eq, if_neg (ne_of_absent (good.granted entry present) fresh),
    good.granted entry present]

def World.renew (w : World) (lib : Library) (code : String) (o : OAuth2) (checked : Record)
    (time : Time) (access refresh : String) : World :=
  (w.put (keyOf lib access) code (accessRecord o checked time) w.codes).put (keyOf lib refresh) code
    (refreshRecord o checked time (lib.hash access)) w.codes

theorem renew_holds {o : OAuth2}
    (held : Holds (w.renew lib code o checked time access refresh).tokens key rec) :
    key = keyOf lib access ∧ rec.kind = .access ∨ key = keyOf lib refresh ∨
      Holds w.tokens key rec := by
  obtain ⟨rfl, -⟩ | ⟨-, held⟩ := holds_insert.1 held
  · exact .inr (.inl rfl)
  · obtain ⟨rfl, rfl⟩ | ⟨-, held⟩ := holds_insert.1 held
    · exact .inl ⟨rfl, rfl⟩
    · exact .inr (.inr held)

def World.logged (w : World) (e : Exchanged) : World := { w with log := w.log ++ [e] }

theorem Good.logged (good : Good w) {e : Exchanged} (spendable : Spendable e.record.kind)
    (unused : e.record.usedAt = 0) (live : e.time < e.record.expiresAt)
    (unspent : e.spent ∉ w.log.map Exchanged.spent)
    (under : w.root[e.spent]? = some code) (under' : w.root[e.access]? = some code)
    (used : ∀ rec, Holds w.tokens e.spent rec → rec.usedAt ≠ 0)
    (access : ∀ rec, Holds w.tokens e.access rec → rec.kind = .access)
    (gone : ∀ earlier ∈ w.log, w.root[earlier.spent]? = some code →
      ∀ rec, ¬ Holds w.tokens earlier.access rec) : Good (w.logged e) := { good with
  once := by
    rw [World.logged, List.map_append, List.map_singleton, ← List.concat_eq_append,
      List.nodup_concat]
    exact ⟨unspent, good.once⟩
  valid := by
    intro other member
    obtain old | new := List.mem_append.1 member
    · exact good.valid other old
    · exact List.mem_singleton.1 new ▸ ⟨spendable, unused, live⟩
  spent := by
    intro other member
    obtain old | new := List.mem_append.1 member
    · exact good.spent other old
    · obtain rfl := List.mem_singleton.1 new
      exact ⟨code, under, under', used, access⟩
  superseded := by
    rw [World.logged, List.pairwise_append]
    refine ⟨good.superseded, List.pairwise_singleton _ _, fun earlier member later new same => ?_⟩
    obtain rfl := List.mem_singleton.1 new
    exact gone earlier member (same.trans under) }

section

variable (good : Good w) (ended : Ended w.tokens w.root code)
  (member : (code, record) ∈ w.codes) (carries : Carries record checked) (o : OAuth2)
  (fresh : w.root[keyOf lib access]? = none) (drawn : keyOf lib access ∈ w.used)
  (fresh' : w.root[keyOf lib refresh]? = none) (drawn' : keyOf lib refresh ∈ w.used)
  (apart : access ≠ refresh)

include good ended member carries fresh drawn fresh' drawn' apart

theorem Good.renew (time : Time) : Good (w.renew lib code o checked time access refresh) := by
  have first : Good (w.put (keyOf lib access) code (accessRecord o checked time) w.codes) := by
    refine good.next ⟨fun spendable => ?_, fun _ => ended, fun spendable => ?_⟩ fresh drawn member
      (carries_access carries o)
    · exact absurd rfl (not_access spendable)
    · exact absurd rfl (not_access spendable)
  -- the access token is all the chain has now
  have only {key : String} {rec : Record} {expires : Time}
      (held : Holds (w.tokens.insert (keyOf lib access) ⟨accessRecord o checked time, expires⟩) key
        rec)
      (under : (w.root.insert (keyOf lib access) code)[key]? = some code) :
      key = keyOf lib access ∧ rec.kind = .access ∨
        rec.kind ≠ .access ∧ (Spendable rec.kind → rec.usedAt ≠ 0) := by
    obtain ⟨rfl, rfl⟩ | ⟨other, held⟩ := holds_insert.1 held
    · exact .inl ⟨rfl, rfl⟩
    · rw [getElem?_insert_eq, if_neg other] at under
      exact .inr (ended key rec held under)
  refine first.next ⟨fun _ key rec held under spendable => ?_, fun kind => (by cases kind),
    fun _ key rec held under kind => ?_⟩ ?_ drawn' member (carries_refresh carries o)
  · obtain ⟨-, kind⟩ | ⟨-, used⟩ := only held under
    · exact absurd kind (not_access spendable)
    · exact used spendable
  · rw [refreshRecord_linked]
    obtain ⟨rfl, -⟩ | ⟨other, -⟩ := only held under
    · exact ⟨lib.nonempty access, rfl⟩
    · exact absurd kind other
  · rw [World.put, getElem?_insert_eq, if_neg fun same => apart (keyOf_inj same).symm, fresh']

theorem Good.exchange (spendable : Spendable rec.kind) (unused : rec.usedAt = 0)
    (live : time < rec.expiresAt) (under : w.root[key]? = some code)
    (unspent : key ∉ w.log.map Exchanged.spent)
    (used : ∀ rec', Holds w.tokens key rec' → rec'.usedAt ≠ 0) :
    Good ((w.renew lib code o checked time access refresh).logged
      ⟨key, rec, time, committedAt, keyOf lib access, keyOf lib refresh⟩) := by
  have renewed := good.renew ended member carries o fresh drawn fresh' drawn' apart time
  have old {other code' : String} (under : w.root[other]? = some code') {rec' : Record}
      (held : Holds (w.renew lib code o checked time access refresh).tokens other rec') :
      Holds w.tokens other rec' := by
    obtain ⟨same, -⟩ | same | held := renew_holds held
    · exact absurd same (ne_of_absent under fresh)
    · exact absurd same (ne_of_absent under fresh')
    · exact held
  have root {other code' : String} (under : w.root[other]? = some code') :
      (w.renew lib code o checked time access refresh).root[other]? = some code' := by
    rw [World.renew, World.put, getElem?_insert_eq, if_neg (ne_of_absent under fresh'), World.put,
      getElem?_insert_eq, if_neg (ne_of_absent under fresh), under]
  refine renewed.logged spendable unused live unspent (root under) ?_ (fun rec' held => ?_)
    (fun rec' held => ?_) (fun earlier logged chain rec' held => ?_)
  · rw [World.renew, World.put, getElem?_insert_eq, if_neg fun same => apart (keyOf_inj same),
      World.put, getElem?_insert_eq, if_pos rfl]
  · exact used rec' (old under held)
  · obtain ⟨-, kind⟩ | same | held := renew_holds held
    · exact kind
    · exact absurd (keyOf_inj same) apart
    · obtain ⟨code', _, under', -⟩ := good.born _ rec' held
      exact absurd rfl (ne_of_absent under' fresh)
  · -- an access token of the chain would have been there before
    obtain ⟨code', under₁, under₂, -, kind⟩ := good.spent earlier logged
    rw [root under₁] at chain
    obtain rfl := Option.some.inj chain
    have held' := old under₂ held
    exact (ended _ rec' held' under₂).1 (kind rec' held')

end

theorem exchangeStep_cases (lib : Library) (value : String) (prior : Record)
    (time committedAt : Time) (terms : Terms) (checked : Record) (access refresh : String)
    (w : World) :
    (∃ failure, exchangeStep lib value prior time committedAt terms checked access refresh w =
      (.error failure, { w with used := keyOf lib access :: keyOf lib refresh :: w.used })) ∨
    ∃ rec m, terms.validate rec = .ok () ∧ Consumed w.tokens m (keyOf lib value) rec time ∧
      exchangeStep lib value prior time committedAt terms checked access refresh w =
        (.ok (access, refresh),
        ({ w with
            tokens := m, used := keyOf lib access :: keyOf lib refresh :: w.used }.renew lib
          (w.root[keyOf lib value]?.getD "") terms.o checked time access refresh).logged
            ⟨keyOf lib value, rec, time, committedAt, keyOf lib access, keyOf lib refresh⟩) := by
  unfold exchangeStep
  dsimp only
  obtain ⟨rec, m, done, same⟩ | ⟨failure, same⟩ := Memory.update_cases w.tokens
    (Failure.state .invalid)
    (exchangeKeys (lib.hash value) prior (replacements lib terms checked time access refresh))
    (exchangeRecord (lib.hash value) prior time terms.validate
      (replacements lib terms checked time access refresh))
  · rw [same]
    obtain ⟨valid, m₁, consumed, installed⟩ := exchangeRecord_ok done
    simp only [replacements, List.foldlM_cons, List.foldlM_nil, bind_ok, pure_ok] at installed
    obtain ⟨m₂, stored, m₃, stored', rfl⟩ := installed
    obtain rfl := putToken_ok stored
    obtain rfl := putToken_ok stored'
    exact .inr ⟨rec, m₁, valid, consumed, rfl⟩
  · rw [same]
    exact .inl ⟨failure, rfl⟩

theorem Terms.validate_kind (valid : terms.validate rec = .ok ()) : rec.kind = terms.kind := by
  simp only [Terms.validate, bind_ok, reject_ok, not_or, not_not, exists_const] at valid
  exact valid.1.1

theorem exchangeStep_keeps (good : Good w) (unused : keyOf lib access ∉ w.used)
    (unused' : keyOf lib refresh ∉ w.used) (apart : access ≠ refresh) (clock : time ≠ 0)
    (spendable : Spendable terms.kind)
    (known : ∀ rec, Holds w.tokens (keyOf lib value) rec → Same checked rec) :
    Advances w (exchangeStep lib value prior time committedAt terms checked access refresh w).2 ∧
      Good (exchangeStep lib value prior time committedAt terms checked access refresh w).2 := by
  have drawn := (good.draw (keyOf lib refresh)).draw (keyOf lib access)
  have more (key : String) (member : key ∈ w.used) :
      key ∈ keyOf lib access :: keyOf lib refresh :: w.used :=
    List.mem_cons_of_mem _ (List.mem_cons_of_mem _ member)
  obtain ⟨failure, same⟩ | ⟨rec, m, valid, consumed, same⟩ :=
    exchangeStep_cases lib value prior time committedAt terms checked access refresh w
  · rw [same]
    exact ⟨⟨more, evolves_of_shrinks (shrinks_refl _)⟩, drawn⟩
  · obtain ⟨code, record, under, member, carries⟩ := good.born _ rec consumed.found
    rw [same, under, Option.getD_some]
    refine ⟨⟨more, ((evolves_of_shrinks consumed.shrinks).insert unused).insert unused'⟩, ?_⟩
    have alike := known rec consumed.found
    have kind : Spendable rec.kind := Terms.validate_kind valid ▸ spendable
    have ended := drawn.ended consumed clock kind under
    have shrunk := drawn.shrinks consumed.shrinks
    have carries' : Carries record checked :=
      ⟨alike.identity.symm.trans carries.identity, (alike.meta _).symm.trans carries.client,
        (alike.meta _).symm.trans carries.scope⟩
    refine shrunk.exchange ended member carries' terms.o (good.fresh unused) (by simp)
      (good.fresh unused') (by simp) apart kind consumed.unused consumed.live under ?_ ?_
    · intro again
      obtain ⟨e, logged, repeated⟩ := List.mem_map.1 again
      obtain ⟨_, -, -, used, -⟩ := good.spent e logged
      exact used rec (repeated ▸ consumed.found) consumed.unused
    · intro rec' held
      obtain ⟨-, rfl⟩ | ⟨other, -⟩ := consumed.after _ rec' held
      · exact clock
      · exact absurd rfl other

end Steps

section Requests

variable {lib : Library} {w w' : World}

abbrev Known (w : World) (key : String) (P : Record → Prop) : Prop :=
  Knows w.used w.tokens key fun row : State.Record Record => P row.value

theorem Known.later {key : String} {P : Record → Prop} (known : Known w key P)
    (moved : ReflTransGen Advances w w')
    (preserved : ∀ rec rec', P rec → Same rec rec' → P rec') : Known w' key P := by
  induction moved with
  | refl => exact known
  | tail _ step ih =>
    exact Knows.later ih step.used step.evolves fun row row' holds same =>
      preserved row.value row'.value holds same

def Needs (lib : Library) : Action → World → Prop
  | .issue rec, _ => rec.kind = .code
  | .exchange value _ time terms checked, w =>
    time ≠ 0 ∧ Spendable terms.kind ∧ Known w (keyOf lib value) (Same checked)
  | _, _ => True

def Tells : (action : Action) → Answer action → World → Prop
  | .get hash, found, w => ∀ rec, found = .ok rec → tokenKey hash ∈ w.used ∧
      Holds w.tokens (tokenKey hash) rec
  | .now, time, _ => time ≠ (0 : Int)
  | _, _, _ => True

theorem exec_keeps : Stepwise (exec lib) Advances Good (Needs lib) Tells where
  keeps action choice w answer after good needs performed := by
    have same : Advances w w := .of_shrinks (shrinks_refl _)
    cases action with
    | get hash =>
      obtain ⟨rfl, rfl⟩ := answered performed
      refine ⟨same, good, fun rec found => ?_⟩
      have held := readToken_ok found
      obtain ⟨code, _, under, -⟩ := good.born _ rec held
      exact ⟨good.drawn _ code under, held⟩
    | now =>
      obtain ⟨clock, rfl, rfl⟩ := answered_unless performed
      exact ⟨same, good, clock⟩
    | random =>
      obtain ⟨-, rfl⟩ := answered performed
      exact ⟨same, good, trivial⟩
    | issue rec =>
      dsimp only [exec] at performed
      split at performed
      · cases performed
      · next unused =>
        obtain rfl : (issueStep lib rec choice.access w).2 = after :=
          congrArg Prod.snd (Option.some.inj performed)
        obtain ⟨advanced, kept⟩ := issueStep_keeps good unused needs
        exact ⟨advanced, kept, trivial⟩
    | exchange value prior time terms checked =>
      dsimp only [exec] at performed
      split at performed
      · cases performed
      · next unused =>
        obtain rfl : (exchangeStep lib value prior time choice.now terms checked choice.access
            choice.refresh w).2 = after := congrArg Prod.snd (Option.some.inj performed)
        obtain ⟨first, second, apart⟩ := by simpa only [not_or] using unused
        obtain ⟨clock, spendable, -, known⟩ := needs
        obtain ⟨advanced, kept⟩ := exchangeStep_keeps good first second apart clock spendable
          fun rec ⟨expires, there⟩ => known _ there
        exact ⟨advanced, kept, trivial⟩
    | markUsed hash prior time =>
      obtain rfl : (markStep hash prior time w).2 = after :=
        congrArg Prod.snd (Option.some.inj performed)
      obtain ⟨advanced, kept⟩ := markStep_keeps good
      exact ⟨advanced, kept, trivial⟩
    | prune limit =>
      obtain ⟨-, rfl⟩ := answered performed
      have shrunk := prune_shrinks w.tokens choice.storeNow limit choice.order
      exact ⟨.of_shrinks shrunk, good.shrinks shrunk, trivial⟩

theorem check_reads (kind : Kind) (token : String) :
    Safe (exec lib) Advances Good (check lib kind token)
      (fun rec after => Known after (keyOf lib token) (Same rec)) w := by
  refine safe_early fun _ _ => ?_
  refine exec_keeps.invoke (fun _ _ => trivial) fun found w₁ since₁ told => ?_
  refine safe_early fun rec read => ?_
  obtain ⟨drawn, expires, held⟩ := told rec read
  have known : Known w₁ (keyOf lib token) (Same rec) := knows_of_read drawn held (.refl rec)
  refine safe_early fun _ _ => ?_
  refine exec_keeps.invoke (fun _ _ => trivial) fun now w₂ since₂ clock => ?_
  refine safe_early fun _ _ => safe_early fun _ _ => ?_
  exact known.later since₂ fun rec' rec'' first second => first.trans second

theorem exchange_safe {t : Terms} (spendable : Spendable t.kind) (value : String) :
    Safe (exec lib) Advances Good (exchange lib t value) (fun _ _ => True) w := by
  refine safe_bind.2 ((check_reads t.kind value).mono fun checked w₁ _ known => ?_)
  refine safe_early fun _ _ => ?_
  refine exec_keeps.invoke (fun _ _ => trivial) fun _ w₂ since₂ _ => safe_early fun _ _ => ?_
  refine exec_keeps.invoke (fun _ _ => trivial) fun _ w₃ since₃ _ => safe_early fun _ _ => ?_
  refine exec_keeps.invoke (fun _ _ => trivial) fun now w₄ since₄ clock => ?_
  refine exec_keeps.invoke (fun _ _ => trivial) fun _ w₅ since₅ _ => safe_early fun prior _ => ?_
  refine exec_keeps.invoke (fun found since => ⟨clock, spendable, known.later ?_ ?_⟩)
    fun _ _ _ _ => safe_early fun _ _ => trivial
  · exact ((since₂.trans since₃).trans (since₄.trans since₅)).trans since
  · exact fun _ _ first second => first.trans second

theorem handle_safe (request : Request) :
    Meets (exec lib) Advances Good (handle lib request) (fun _ _ => True) w := by
  have ends {A : Type} {p : Handler A} {f : Except Failure A → Reply}
      (safe : Safe (exec lib) Advances Good p (fun _ _ => True) w) :
      Meets (exec lib) Advances Good (f <$> p.run) (fun _ _ => True) w := by
    rw [map_eq_pure_bind, meets_bind]
    exact Meets.mono safe fun _ _ _ => trivial
  cases request with
  | grant o req id =>
    refine ends ?_
    cases req with
    | none => exact trivial
    | some req =>
      refine safe_early fun _ _ => safe_early fun _ _ => ?_
      refine exec_keeps.invoke (fun _ _ => trivial) fun _ _ _ _ => safe_early fun _ _ => ?_
      refine exec_keeps.invoke (fun _ _ => trivial) fun now _ _ _ => ?_
      refine exec_keeps.invoke (fun _ _ => rfl) fun _ _ _ _ => safe_early fun _ _ => ?_
      exact safe_early fun _ _ => trivial
  | token o method form =>
    dsimp only [handle]
    unfold tokenHandler
    split
    · trivial
    · cases form with
      | none => trivial
      | some form =>
        dsimp only
        split_ifs
        · trivial
        · rw [← comp_map]
          exact ends (exchange_safe (.inl rfl) _)
        · rw [← comp_map]
          exact ends (exchange_safe (.inr rfl) _)
        · trivial
  | verify bearer =>
    exact ends (safe_bind.2 ((check_reads .access bearer).mono fun _ _ _ _ => trivial))
  | markUsed hash time =>
    refine ends (exec_keeps.invoke (fun _ _ => trivial) fun _ _ _ _ => safe_early fun prior _ => ?_)
    refine exec_keeps.invoke (fun _ _ => trivial) fun answer _ _ _ => safe_pure.2 fun _ _ => trivial
  | prune limit =>
    intro found _ good choice answer after performed
    obtain ⟨advanced, kept, -⟩ := exec_keeps.keeps _ choice found answer after good trivial performed
    exact ⟨advanced, kept, trivial⟩

theorem disciplined : Disciplined (exec lib) Advances Good (handle lib) (fun _ _ => True) where
  reflexive _ _ := .of_shrinks (shrinks_refl _)
  starts request _ _ := handle_safe request
  stable _ _ _ _ _ := trivial

theorem start_kept : Kept (exec lib) Advances Good (fun _ _ => True) start :=
  ⟨good_empty, fun _ member => by cases member⟩

theorem verify_refused {bearer : String} (gone : Known w (keyOf lib bearer) fun _ => False) :
    Meets (exec lib) Advances Good (handle lib (.verify bearer))
      (fun reply _ => ∀ id, reply ≠ .verified (.ok id)) w := by
  have refused : Safe (exec lib) Advances Good (verify lib bearer) (fun _ _ => False) w := by
    refine safe_bind.2 (safe_early fun _ _ => ?_)
    refine exec_keeps.invoke (fun _ _ => trivial) fun found w₁ since told => ?_
    refine safe_early fun rec read => ?_
    obtain ⟨-, expires, held⟩ := told rec read
    exact ((gone.later since fun _ _ absent _ => absent).2 _ held).elim
  change Meets _ _ _ (Reply.verified <$> (verify lib bearer).run) _ w
  rw [map_eq_pure_bind, meets_bind]
  refine Meets.mono refused fun result _ never id same => ?_
  cases result with
  | ok identity => exact never
  | error failure => cases same

end Requests

section Failing

variable {lib : Library}

theorem exchange_quiet (t : Terms) (value : String) :
    Quiet (exec lib) World.tokens (fun reply => ∃ status error text, reply = .refused status error text)
      (answerToken <$> (exchange lib t value).run) := by
  have get (hash : String) : Reads (exec lib) World.tokens (.get hash) := by
    intro choice w answer after performed
    obtain ⟨-, rfl⟩ := answered performed
    rfl
  have now : Reads (exec lib) World.tokens .now := by
    intro choice w answer after performed
    obtain ⟨-, -, rfl⟩ := answered_unless performed
    rfl
  have random : Reads (exec lib) World.tokens .random := by
    intro choice w answer after performed
    obtain ⟨-, rfl⟩ := answered performed
    rfl
  have checks : Quiet (exec lib) World.tokens (fun _ => True) (check lib t.kind value).run :=
    quiet_early fun _ _ => quiet_invoke (get _) fun _ => quiet_early fun rec _ =>
      quiet_early fun _ _ => quiet_invoke now fun _ => quiet_early fun _ _ =>
        quiet_early fun _ _ => trivial
  refine quiet_map.2 (quiet_then checks fun rec => ?_)
  refine quiet_early fun _ _ => quiet_invoke random fun _ => quiet_early fun _ _ => ?_
  refine quiet_invoke random fun _ => quiet_early fun _ _ => quiet_invoke now fun time => ?_
  refine quiet_invoke (get _) fun _ => quiet_early fun prior _ => ?_
  refine quiet_commit fun choice w answer after performed => ?_
  dsimp only [exec] at performed
  split at performed
  · cases performed
  · obtain ⟨failure, same⟩ | ⟨_, m, -, -, same⟩ :=
      exchangeStep_cases lib value prior time choice.now t rec choice.access choice.refresh w
    · rw [same] at performed
      obtain ⟨rfl, rfl⟩ := answered performed
      exact .inl ⟨rfl, trivial⟩
    · rw [same] at performed
      obtain ⟨rfl, rfl⟩ := answered performed
      refine .inr ?_
      rintro ⟨status, error, text, refused⟩
      cases refused

theorem tokenHandler_quiet (o : OAuth2) (method : String) (form : Option Form) :
    Quiet (exec lib) World.tokens (fun reply => ∃ status error text, reply = .refused status error text)
      (tokenHandler lib o method form) := by
  unfold tokenHandler
  split
  · trivial
  · cases form with
    | none => trivial
    | some form =>
      dsimp only
      split_ifs
      · trivial
      · exact exchange_quiet _ _
      · exact exchange_quiet _ _
      · trivial

end Failing

structure Chains (w : World) : Prop where
  once : (w.log.map Exchanged.spent).Nodup
  unexpired : ∀ e ∈ w.log, Spendable e.record.kind ∧ e.record.usedAt = 0 ∧
    e.time < e.record.expiresAt
  refresh : ∀ {code key key' rec rec'}, Holds w.tokens key rec → Holds w.tokens key' rec' →
    w.root[key]? = some code → w.root[key']? = some code → rec.kind = .refresh →
    rec'.kind = .refresh → rec.usedAt = 0 → rec'.usedAt = 0 → key = key'
  access : ∀ {code key key' rec rec'}, Holds w.tokens key rec → Holds w.tokens key' rec' →
    w.root[key]? = some code → w.root[key']? = some code → rec.kind = .access →
    rec'.kind = .access → key = key'
  superseded : w.log.Pairwise fun earlier later =>
    w.root[earlier.spent]? = w.root[later.spent]? → ∀ rec, ¬ Holds w.tokens earlier.access rec
  carries : ∀ key rec, Holds w.tokens key rec → ∃ code record, w.root[key]? = some code ∧
    (code, record) ∈ w.codes ∧ Carries record rec
  codes : (w.codes.map Prod.fst).Nodup

structure SingleUse (lib : Library) (moves : List (Move Request Choice)) : Prop where
  chains : Chains (run (step lib) start moves).world
  rejected : ∀ earlier e between e' rest bearer,
    (run (step lib) start moves).world.log = earlier ++ e :: between ++ e' :: rest →
    (run (step lib) start moves).world.root[e.spent]? =
      (run (step lib) start moves).world.root[e'.spent]? →
    e.access = keyOf lib bearer → ∀ later id,
      (run (step lib) (run (step lib) start moves) (.start (.verify bearer) :: later)).pool[
        (run (step lib) start moves).pool.length]? ≠ some (.done (.verified (.ok id)))
  unchanged : ∀ o method form later status error text,
    (run (step lib) (run (step lib) start moves) (.start (.token o method form) :: later)).pool[
      (run (step lib) start moves).pool.length]? =
        some (.done (.token (.refused status error text))) →
    ∀ entry ∈ history (step lib) (step lib (run (step lib) start moves)
      (.start (.token o method form))) later, ∀ choice,
      entry.2 = .advance (run (step lib) start moves).pool.length choice →
      (step lib entry.1 entry.2).world.tokens = entry.1.world.tokens

section Delayed

theorem tag_injective : Function.Injective fun token : String => "h" ++ token := by
  intro token token' same
  have letters := congrArg String.toList same
  simp only [String.toList_append] at letters
  exact String.toList_injective (List.append_cancel_left letters)

theorem tag_nonempty (token : String) : "h" ++ token ≠ "" := by
  intro same
  have letters := congrArg String.toList same
  simp at letters

def sampleLibrary : Library where
  hash token := "h" ++ token
  injective := tag_injective
  nonempty := tag_nonempty
  parses _ := true

def sampleOAuth2 : OAuth2 := { redirectURL := "https://c/", clientID := "c", scope := "s" }

def redeem : Request :=
  .token sampleOAuth2 "POST" (some
    { clientID := "c", grantType := "authorization_code", code := "code",
      redirectURI := "https://c/" })

def second (n : Int) (access refresh : String) : Choice :=
  { now := n * 1000000000, access, refresh }

def clock : Move Request Choice → Option Time
  | .start _ => none
  | .advance _ choice => some choice.now

-- The code granted at 1 s expires at 301 s. The first redemption reads the clock at 300 s and
-- waits; the second is refused as expired at 400 s, and only then does the first run its
-- transaction.
def delayed : List (Move Request Choice) :=
  .start (.grant sampleOAuth2 (some ⟨"state", "s"⟩) { managedAppleAccount := "a" }) ::
  List.replicate 3 (.advance 0 (second 1 "code" "")) ++
  .start redeem :: List.replicate 6 (.advance 1 (second 300 "" "")) ++
  .start redeem :: List.replicate 2 (.advance 2 (second 400 "" "")) ++
  [.advance 1 (second 400 "access" "refresh")]

end Delayed

end AppleDM.AccountDriven
