import AppleDM.AdminAuth.References

set_option autoImplicit false

-- Administration cannot be locked out, and only the current credential of a principal is accepted.
namespace AppleDM.AdminAuth

open Checked Mdm Jsontext Evolution Run Manager

variable {random : Bytes} {token : Token}

section Tokens

variable {hashes : Hashes}

theorem letter_mem (n : Nat) : letter n ∈ alphabet := by
  have all : ((List.range 62).all fun k => letter k ∈ alphabet) = true := by decide +kernel
  have below : n % 62 < 62 := Nat.mod_lt n (by decide)
  have here := List.all_eq_true.1 all (n % 62) (List.mem_range.2 below)
  simpa [letter] using here

theorem base62_length (count n : Nat) : (base62 count n).length = count := by
  induction count generalizing n with
  | zero => rfl
  | succ count ih => simp [base62, ih]

theorem base62_mem (count n : Nat) : ∀ c ∈ base62 count n, c ∈ alphabet := by
  induction count generalizing n with
  | zero => simp [base62]
  | succ count ih =>
    intro c member
    obtain earlier | last := List.mem_append.1 member
    · exact ih (n / 62) c earlier
    · rw [List.mem_singleton.1 last]
      exact letter_mem n

theorem randomBase62_ok {n : Nat} {body : List Char}
    (drawn : randomBase62 n random = .ok body) : body.length = n ∧ ∀ c ∈ body, c ∈ alphabet := by
  dsimp only [randomBase62] at drawn
  split at drawn
  · cases drawn
  · next enough =>
    obtain rfl := Except.ok.inj drawn
    refine ⟨?_, fun c member => ?_⟩
    · have most := List.length_take_le n
        ((random.filter (· < rejectAbove)).map fun b => letter b.toNat)
      omega
    · obtain ⟨b, -, rfl⟩ := List.mem_map.1 (List.mem_of_mem_take member)
      exact letter_mem _

theorem mint_ok {id : String}
    (drawn : mint hashes random = .ok (token, id)) : validToken hashes token = true ∧ id ≠ "" := by
  simp only [mint, bind_ok, pure_ok, Prod.mk.injEq] at drawn
  obtain ⟨body, drawn, rfl, rfl⟩ := drawn
  obtain ⟨length, letters⟩ := randomBase62_ok drawn
  have sum : (checksum hashes (tokenPrefix ++ body)).length = checksumLen := base62_length _ _
  have head : (tokenPrefix ++ body).length = tokenPrefix.length + bodyLen := by simp [length]
  refine ⟨?_, ?_⟩
  · simp only [validToken, Bool.and_eq_true, decide_eq_true_eq]
    refine ⟨⟨⟨?_, ?_⟩, ?_⟩, ?_⟩
    · simp only [List.length_append, length, sum, tokenLen]
    · simp
    · simp only [List.append_assoc, List.drop_left, List.all_append, Bool.and_eq_true,
        List.all_eq_true, decide_eq_true_eq]
      exact ⟨letters, base62_mem _ _⟩
    · rw [← head, List.take_left, List.drop_left]
  · intro empty
    have none : body.take 8 = [] := by simpa [← String.toList_inj] using empty
    have eight : (body.take 8).length = 8 := by
      rw [List.length_take, length]
      rfl
    rw [none] at eight
    cases eight

end Tokens

variable {p : Principal} {name : String} {change : PrincipalChange}

section Roots

def HasRoot (s : Store) (now : Time) : Prop :=
  ∃ (name : String) (r : Record), s.principals[name]? = some r ∧ r.Usable now

variable {s s' : Store} {now : Time}

theorem created_hasRoot {given : Principal} {digest : String} {time : Time}
    (created : s.Created given digest time p s') (one : HasRoot s now) : HasRoot s' now := by
  obtain ⟨name, r, there, usable⟩ := one
  refine ⟨name, r, ?_, usable⟩
  rw [created.wrote, if_neg, there]
  rintro rfl
  rw [created.absent] at there
  cases there

theorem usable_applied {r : Record}
    (applied : s.Applied name change now p s' r) (usable : r.Usable now) (root : p.root = true)
    (active : p.active now = .ok ()) : Record.Usable ⟨p, change.digest r.digest⟩ now := by
  refine ⟨root, active, ?_⟩
  have done := applied.applied
  cases change with
  | update | delete => exact usable.2.2
  | rotate digest tokenID expiresAt =>
    simp only [PrincipalChange.apply, bind_ok, reject_ok, not_or] at done
    obtain ⟨_, ⟨held, -⟩, -⟩ := done
    exact held
  | revoke =>
    obtain rfl := (pure_ok ..).1 done
    exact absurd rfl (Principal.active_ok.1 active).1

theorem applied_hasRoot {r : Record}
    (applied : s.Applied name change now p s' r) (one : HasRoot s now) : HasRoot s' now := by
  obtain ⟨key, found, there, usable⟩ := one
  by_cases same : key = name
  · subst same
    obtain rfl := Option.some.inj (there.symm.trans applied.found)
    by_cases stays : p.root = true ∧ p.active now = .ok ()
    · refine ⟨key, ⟨p, change.digest found.digest⟩, ?_,
        usable_applied applied usable stays.1 stays.2⟩
      rw [applied.wrote, if_pos rfl, if_neg]
      rintro rfl
      obtain rfl := (pure_ok ..).1 applied.applied
      exact (Principal.active_ok.1 stays.2).1 rfl
    · -- it is lost, so that another one was looked for
      have lost : p.root = false ∨ p.active now ≠ .ok () := by
        by_cases root : p.root = true
        · exact .inr fun active => stays ⟨root, active⟩
        · exact .inl (by simpa using root)
      obtain ⟨other, r', apart, there', usable'⟩ :=
        Store.survivor_iff.1 (applied.guarded usable.1 usable.2.1 lost)
      exact ⟨other, r', by rw [applied.wrote, if_neg apart, there'], usable'⟩
  · exact ⟨key, found, by rw [applied.wrote, if_neg same, there], usable⟩

variable {Statement Context : Type} {cedar : Cedar Statement Context} {hashes : Hashes}
  {w w' : World}

theorem effect_hasRoot {op : Op} (effect : Effect cedar hashes w op w') (time : op.At now)
    (one : HasRoot w.store now) : HasRoot w'.store now := by
  refine effect_principals (P := fun s => HasRoot s now) effect one (fun s' same => ?_)
    (fun _ _ _ _ s' created => ?_) fun _ _ _ _ s' _ applied at_ => ?_
  · unfold HasRoot
    rw [same.1]
    exact one
  · exact created_hasRoot created one
  · obtain rfl := at_ now time
    exact applied_hasRoot applied one

end Roots

variable {now : Time}

section Credentials

def current (name : String) (log : List Event) : Option (Token × Time) :=
  log.foldl (fun held event => match event with
    | .issued other token expires => if other = name then some (token, expires) else held
    | .revoked other | .deleted other => if other = name then none else held) none

theorem current_issued (log : List Event) (name other : String) (token : Token) (expires : Time) :
    current name (log ++ [.issued other token expires]) =
      if other = name then some (token, expires) else current name log := by
  simp [current]

theorem current_revoked (log : List Event) (name other : String) :
    current name (log ++ [.revoked other]) = if other = name then none else current name log := by
  simp [current]

theorem current_deleted (log : List Event) (name other : String) :
    current name (log ++ [.deleted other]) = if other = name then none else current name log := by
  simp [current]

variable {Statement Context : Type} {cedar : Cedar Statement Context} {reg : Registry}
  (hashes : Hashes)

inductive Carries (minted : List Token) (r : Record) : Option (Token × Time) → Prop
  | held {token : Token} (drawn : token ∈ minted) (digest : r.digest = hashes.digest token)
      (named : r.p.tokenID ≠ "") : Carries minted r (some (token, r.p.expiresAt))
  | none (digest : r.digest = "") (unnamed : r.p.tokenID = "") : Carries minted r none

structure Credentials (w : World) : Prop where
  carries : ∀ (name : String) (r : Record), w.store.principals[name]? = some r →
    Carries hashes w.minted r (current name w.log)
  valid : ∀ token ∈ w.minted, validToken hashes token = true
  apart : ∀ (name name' : String) (r r' : Record), w.store.principals[name]? = some r →
    w.store.principals[name']? = some r' → r.digest = r'.digest → r.digest ≠ "" → name = name'

variable {hashes} {w w' : World} {r : Record} {store : Store}

variable {minted : List Token} {held : Option (Token × Time)}

theorem Carries.mono {minted' : List Token}
    (carries : Carries hashes minted r held) (grown : ∀ token ∈ minted, token ∈ minted') :
    Carries hashes minted' r held := by
  cases carries with
  | held drawn digest named => exact .held (grown _ drawn) digest named
  | none digest unnamed => exact .none digest unnamed

theorem Carries.digest (carries : Carries hashes minted r held) (filled : r.digest ≠ "") :
    r.digest ∈ minted.map hashes.digest := by
  cases carries with
  | held drawn digest named => exact digest ▸ List.mem_map_of_mem drawn
  | none digest unnamed => exact absurd digest filled

theorem Credentials.dropped (credentials : Credentials hashes w)
    (valid : validToken hashes token = true) :
    Credentials hashes { w with minted := token :: w.minted } where
  carries name r there := (credentials.carries name r there).mono fun _ => List.mem_cons_of_mem _
  valid other member := by
    obtain rfl | older := List.mem_cons.1 member
    · exact valid
    · exact credentials.valid other older
  apart := credentials.apart

theorem Credentials.issued (credentials : Credentials hashes w) {expires : Time} (valid : validToken hashes token = true)
    (fresh : hashes.digest token ∉ w.minted.map hashes.digest)
    (digest : r.digest = hashes.digest token) (named : r.p.tokenID ≠ "")
    (expiry : r.p.expiresAt = expires)
    (wrote : ∀ key, store.principals[key]? =
      if key = name then some r else w.store.principals[key]?) :
    Credentials hashes ⟨store, token :: w.minted, w.log ++ [.issued name token expires]⟩ where
  carries key found there := by
    rw [wrote] at there
    rw [current_issued]
    by_cases same : key = name
    · rw [if_pos same] at there
      obtain rfl := Option.some.inj there
      rw [if_pos same.symm, ← expiry]
      exact .held (List.mem_cons_self ..) digest named
    · rw [if_neg same] at there
      rw [if_neg (Ne.symm same)]
      exact (credentials.carries key found there).mono fun _ => List.mem_cons_of_mem _
  valid := (credentials.dropped valid).valid
  apart key key' found found' there there' same filled := by
    -- whoever else had this digest would have had it before it was minted
    have other {key : String} {found : Record} (there : w.store.principals[key]? = some found)
        (same : found.digest = r.digest) : False := by
      refine fresh (digest ▸ same ▸ (credentials.carries key found there).digest ?_)
      rw [same, digest]
      exact hashes.nonempty token
    rw [wrote] at there there'
    by_cases mine : key = name <;> by_cases mine' : key' = name
    · rw [mine, mine']
    · rw [if_pos mine] at there
      rw [if_neg mine'] at there'
      obtain rfl := Option.some.inj there
      exact (other there' same.symm).elim
    · rw [if_neg mine] at there
      rw [if_pos mine'] at there'
      obtain rfl := Option.some.inj there'
      exact (other there same).elim
    · rw [if_neg mine] at there
      rw [if_neg mine'] at there'
      exact credentials.apart key key' found found' there there' same filled

theorem Credentials.applied (credentials : Credentials hashes w)
    {log : List Event} (applied : w.store.Applied name change now p store r)
    (others : ∀ key, key ≠ name → current key log = current key w.log)
    (own : change ≠ .delete →
      Carries hashes w.minted ⟨p, change.digest r.digest⟩ (current name log))
    (kept : change.digest r.digest ≠ "" → change.digest r.digest = r.digest) :
    Credentials hashes { w with store, log } where
  carries key found there := by
    dsimp only at there ⊢
    rw [applied.wrote] at there
    split_ifs at there with same deleted
    · obtain rfl := Option.some.inj there
      rw [same]
      exact own deleted
    · rw [others key same]
      exact credentials.carries key found there
  valid := credentials.valid
  apart := by
    have before {key : String} {found : Record} (there : store.principals[key]? = some found)
        (filled : found.digest ≠ "") :
        ∃ old, w.store.principals[key]? = some old ∧ old.digest = found.digest := by
      rw [applied.wrote] at there
      split_ifs at there with same deleted
      · obtain rfl := Option.some.inj there
        exact ⟨r, same ▸ applied.found, (kept filled).symm⟩
      · exact ⟨found, there, rfl⟩
    intro key key' found found' there there' same filled
    obtain ⟨old, was, digest⟩ := before there filled
    obtain ⟨old', was', digest'⟩ := before there' (same ▸ filled)
    exact credentials.apart key key' old old' was was' (by rw [digest, digest', same])
      (digest ▸ filled)

theorem Credentials.same (credentials : Credentials hashes w)
    (same : w.store.SamePrincipals store) : Credentials hashes { w with store } where
  carries name r there := by
    dsimp only at there ⊢
    rw [same.1] at there
    exact credentials.carries name r there
  valid := credentials.valid
  apart name name' r r' there there' := by
    dsimp only at there there'
    rw [same.1] at there there'
    exact credentials.apart name name' r r' there there'

theorem Credentials.created (credentials : Credentials hashes w) {given : Principal} (valid : validToken hashes token = true)
    (fresh : hashes.digest token ∉ w.minted.map hashes.digest) (named : given.tokenID ≠ "")
    (created : w.store.Created given (hashes.digest token) now p store) :
    Credentials hashes
      ⟨store, token :: w.minted, w.log ++ [.issued given.name token given.expiresAt]⟩ := by
  refine credentials.issued valid fresh rfl ?_ ?_ created.wrote
  · rw [created.record]
    exact named
  · rw [created.record]

theorem effect_credentials {op : Op} (effect : Effect cedar hashes w op w')
    (distinct : (w'.minted.map hashes.digest).Nodup) (credentials : Credentials hashes w) :
    Credentials hashes w' := by
  cases effect with
  | refused => exact credentials
  | dropped _ drawn => exact credentials.dropped (mint_ok drawn).1
  | bootstrapped drawn wrote =>
    exact credentials.created (mint_ok drawn).1 (List.nodup_cons.1 distinct).1 (mint_ok drawn).2
      (Store.bootstrapPrincipal_ok wrote).2
  | created drawn wrote =>
    exact credentials.created (mint_ok drawn).1 (List.nodup_cons.1 distinct).1 (mint_ok drawn).2
      (Store.createPrincipal_ok wrote)
  | rotated drawn wrote =>
    obtain ⟨r, applied⟩ := Store.applyPrincipal_ok wrote
    have done := applied.applied
    simp only [PrincipalChange.apply, bind_ok, pure_ok] at done
    obtain ⟨_, -, rfl⟩ := done
    exact credentials.issued (mint_ok drawn).1 (List.nodup_cons.1 distinct).1 rfl (mint_ok drawn).2
      rfl applied.wrote
  | updated wrote =>
    obtain ⟨r, applied⟩ := Store.applyPrincipal_ok wrote
    have done := applied.applied
    simp only [PrincipalChange.apply, bind_ok, pure_ok] at done
    obtain ⟨_, -, rfl⟩ := done
    refine credentials.applied applied (fun _ _ => rfl) (fun _ => ?_) fun _ => rfl
    obtain same : Carries hashes w.minted r (current _ w.log) :=
      credentials.carries _ r applied.found
    revert same
    generalize current _ w.log = held
    rintro (⟨drawn, digest, named⟩ | ⟨digest, unnamed⟩)
    · exact .held drawn digest named
    · exact .none digest unnamed
  | revoked wrote =>
    obtain ⟨r, applied⟩ := Store.applyPrincipal_ok wrote
    have done := applied.applied
    obtain rfl := (pure_ok ..).1 done
    refine credentials.applied applied (fun key other => ?_) (fun _ => ?_) fun some => absurd rfl some
    · rw [current_revoked, if_neg (Ne.symm other)]
    · rw [current_revoked, if_pos rfl]
      exact .none rfl rfl
  | deleted wrote =>
    obtain ⟨r, applied⟩ := Store.applyPrincipal_ok wrote
    refine credentials.applied applied (fun key other => ?_) (fun there => absurd rfl there)
      fun _ => rfl
    rw [current_deleted, if_neg (Ne.symm other)]
  | putPolicy wrote => exact credentials.same (Store.putPolicy_same wrote).1
  | deletePolicy wrote => exact credentials.same (Store.deletePolicy_same wrote).1
  | putRole wrote => exact credentials.same (Store.putRole_same wrote).1
  | deleteRole wrote => exact credentials.same (Store.deleteRole_same wrote).1

end Credentials

section Administration

variable {Statement Context : Type} {cedar : Cedar Statement Context} {reg : Registry}
  {hashes : Hashes} {w w' : World} {op : Op}

theorem effect_minted (effect : Effect cedar hashes w op w') : w.minted <:+ w'.minted := by
  cases effect with
  | dropped | bootstrapped | created | rotated => exact List.suffix_cons _ _
  | _ => exact List.suffix_rfl

theorem effect_initialized (effect : Effect cedar hashes w op w')
    (before : w.store.initialized = true) : w'.store.initialized = true := by
  refine effect_principals (P := fun s => s.initialized = true) effect before (fun s' same => ?_)
    (fun _ _ _ _ s' created => created.initialized) fun _ _ _ _ s' _ applied _ => ?_
  · exact same.2.trans before
  · exact applied.initialized.trans before

variable {reply : Reply}

theorem issue_ok {expires : Time} {write : String → String → Except Fault (Principal × Store)}
    (succeeded : (issue hashes w name expires random write).1 = .ok reply) :
    ∃ token id p store, write (hashes.digest token) id = .ok (p, store) ∧
      (issue hashes w name expires random write).2.store = store := by
  unfold issue at succeeded ⊢
  split at succeeded
  · cases succeeded
  · next token id drawn =>
    dsimp only at succeeded ⊢
    split at succeeded
    · cases succeeded
    · next p store wrote => exact ⟨token, id, p, store, wrote, rfl⟩

variable (cedar reg hashes) in
def Creates (w : World) (op : Op) : Prop :=
  (∃ reply, (perform cedar reg hashes w op).1 = .ok reply) ∧
    match op with
    | .bootstrap .. | .createPrincipal .. => True
    | _ => False

theorem bootstrap_ok {expires checked : Time}
    (succeeded : (bootstrap hashes w name expires checked now random).1 = .ok reply) :
    w.store.initialized = false ∧
      (bootstrap hashes w name expires checked now random).2.store.initialized = true := by
  unfold bootstrap at succeeded ⊢
  split at succeeded
  · cases succeeded
  · next allowed =>
    rw [if_neg allowed]
    obtain ⟨token, id, p, store, wrote, same⟩ := issue_ok succeeded
    obtain ⟨fresh, created⟩ := Store.bootstrapPrincipal_ok wrote
    exact ⟨fresh, same ▸ created.initialized⟩

theorem creates_initialized (creates : Creates cedar reg hashes w op) :
    (step cedar reg hashes w op).store.initialized = true := by
  obtain ⟨⟨reply, succeeded⟩, kind⟩ := creates
  cases op with
  | bootstrap name expires checked now random => exact (bootstrap_ok succeeded).2
  | createPrincipal actor p expires now random =>
    dsimp only [step, perform, createPrincipal] at succeeded ⊢
    split at succeeded
    · cases succeeded
    · obtain ⟨token, id, out, store, wrote, same⟩ := issue_ok succeeded
      simp only [same]
      exact (Store.createPrincipal_ok wrote).initialized
  | _ => exact kind.elim

theorem principalByDigest_ok {s : Store} {digest : String}
    (found : s.principalByDigest digest = .ok p) :
    ∃ (name : String) (r : Record), s.principals[name]? = some r ∧ r.digest = digest ∧ r.p = p := by
  simp only [Store.principalByDigest, bind_ok] at found
  obtain ⟨_, -, found⟩ := found
  split at found
  · cases found
  · next r first =>
    obtain ⟨name, there⟩ := Table.mem_values.1 (List.mem_of_find?_eq_some first)
    exact ⟨name, r, there, by simpa using List.find?_some first, (pure_ok ..).1 found⟩

theorem authenticate_ok {s : Store} (accepted : authenticate hashes s token now = .ok p) :
    p.active now = .ok () ∧ ∃ (name : String) (r : Record), s.principals[name]? = some r ∧
      r.digest = hashes.digest token ∧ r.p = p := by
  simp only [authenticate, bind_ok, pure_ok] at accepted
  obtain ⟨_, -, found, byDigest, _, active, rfl⟩ := accepted
  exact ⟨active, principalByDigest_ok byDigest⟩

theorem authenticate_held (credentials : Credentials hashes w) {r : Record} (there : w.store.principals[name]? = some r) (active : r.p.active now = .ok ())
    (filled : r.digest ≠ "") :
    ∃ token ∈ w.minted, authenticate hashes w.store token now = .ok r.p := by
  have carried := credentials.carries name r there
  revert carried
  generalize current name w.log = held
  rintro (⟨drawn, digest, named⟩ | ⟨digest, unnamed⟩)
  · next token =>
    refine ⟨token, drawn, ?_⟩
    have found : w.store.principalByDigest (hashes.digest token) = .ok r.p := by
      simp only [Store.principalByDigest, bind_ok, reject_ok]
      refine ⟨(), hashes.nonempty token, ?_⟩
      split
      · next none =>
        have here := List.find?_eq_none.1 none r (Table.mem_values.2 ⟨name, there⟩)
        simp [digest] at here
      · next other first =>
        obtain ⟨name', there'⟩ := Table.mem_values.1 (List.mem_of_find?_eq_some first)
        have same : other.digest = hashes.digest token := by simpa using List.find?_some first
        obtain rfl := credentials.apart name name' r other there there' (digest.trans same.symm)
          filled
        rw [there] at there'
        rw [Option.some.inj there']
        rfl
    simp only [authenticate, bind_ok, reject_ok, pure_ok]
    exact ⟨(), by simp [credentials.valid token drawn], r.p, found, (), active, rfl⟩
  · exact absurd digest filled

variable (cedar reg hashes) in
structure Administered (ops : List Op) : Prop where
  kept : ∀ op now, op.At now → HasRoot (run (step cedar reg hashes) {} ops).store now →
    HasRoot (run (step cedar reg hashes) {} (ops ++ [op])).store now
  usable : ∀ now, HasRoot (run (step cedar reg hashes) {} ops).store now ↔
    ∃ token ∈ (run (step cedar reg hashes) {} ops).minted, ∃ p,
      authenticate hashes (run (step cedar reg hashes) {} ops).store token now = .ok p ∧
        p.root = true
  once : ∀ entry ∈ history (step cedar reg hashes) {} ops,
    Creates cedar reg hashes entry.1 entry.2 → ∀ name expires checked now random,
      ∃ fault, (bootstrap hashes (run (step cedar reg hashes) {} ops) name expires checked now
        random).1 = .error fault
  accepted : ∀ token now p,
    authenticate hashes (run (step cedar reg hashes) {} ops).store token now = .ok p →
    (∃ r, (run (step cedar reg hashes) {} ops).store.principals[p.name]? = some r ∧ r.p = p) ∧
      ∃ last expires, current p.name (run (step cedar reg hashes) {} ops).log =
          some (last, expires) ∧
        hashes.digest last = hashes.digest token ∧
        (token ∈ (run (step cedar reg hashes) {} ops).minted → last = token) ∧
        (expires = 0 ∨ now < expires)

theorem empty_credentials : Credentials hashes {} where
  carries name r there := by simp at there
  valid token member := by cases member
  apart name name' r r' there := by simp at there

theorem run_named (ops : List Op) : Named (run (step cedar reg hashes) {} ops).store := by
  exact run_invariant (fun w : World => Named w.store)
    (fun w op named => effect_named named (step_effect named op)) empty_named ops

theorem run_credentials (ops : List Op)
    (distinct : ((run (step cedar reg hashes) {} ops).minted.map hashes.digest).Nodup) :
    Credentials hashes (run (step cedar reg hashes) {} ops) := by
  refine (run_invariant (fun w : World => Named w.store ∧
      ((w.minted.map hashes.digest).Nodup → Credentials hashes w)) (fun w op ⟨named, kept⟩ => ?_)
    ⟨empty_named, fun _ => empty_credentials⟩ ops).2 distinct
  have effect : Effect cedar hashes w op (step cedar reg hashes w op) := step_effect named op
  refine ⟨effect_named named effect, fun distinct => effect_credentials effect distinct (kept ?_)⟩
  exact ((effect_minted effect).sublist.map _).nodup distinct

def rootRun : List Op :=
  [.bootstrap "root" 9 1 1 (List.replicate 30 0),
    .createPrincipal superuser { name := "deputy", root := true } 0 2 (List.replicate 30 2),
    .rotate superuser "root" 20 3 (List.replicate 30 1)]

def rotated : Token := tokenPrefix ++ (List.replicate 30 '1' ++ List.replicate 6 '0')

end Administration

end AppleDM.AdminAuth
