import AppleDM.Acme.Records

set_option autoImplicit false

namespace AppleDM.Acme

open Mdm Pki Checked Evolution

variable {Ext : Type} {s : Config Ext} {w w' : World} {o o' : Order} {a a' : Authorization}
  {c c' : Challenge}

theorem Whole.keep (whole : Whole s w o a c) (kept : ∀ entry ∈ w.log, entry ∈ w'.log)
    (authz : w'.store.authzs[o.authzID]? = w.store.authzs[o.authzID]?)
    (challenge : w'.store.challenges[a.challengeID]? = w.store.challenges[a.challengeID]?)
    (certs : ∀ cert, w.store.certs[o.certificateID]? = some cert → Receipt s o c cert →
      w'.store.certs[o.certificateID]? = some cert) :
    Whole s w' o a c where
  authz := authz.trans whole.authz
  challenge := challenge.trans whole.challenge
  linked := whole.linked
  judged := fun valid => (whole.judged valid).mono kept (.refl o) rfl rfl
  created := whole.created.mono kept (.refl o)
  issued := whole.issued
  hashed := whole.hashed
  receipt := fun given => by
    obtain ⟨cert, there, receipt⟩ := whole.receipt given
    exact ⟨cert, certs cert there receipt, receipt⟩

structure Quiet (w w' : World) : Prop where
  orders : w'.store.orders = w.store.orders
  authzs : w'.store.authzs = w.store.authzs
  challenges : w'.store.challenges = w.store.challenges
  certs : w'.store.certs = w.store.certs
  claims : w'.store.claims = w.store.claims
  used : ∀ id ∈ w.used, id ∈ w'.used
  log : ∀ entry ∈ w.log, entry ∈ w'.log
  created : w'.log.filterMap Entry.order = w.log.filterMap Entry.order

theorem Quiet.refl (w : World) : Quiet w w :=
  ⟨rfl, rfl, rfl, rfl, rfl, fun _ member => member, fun _ member => member, rfl⟩

theorem mem_created {log : List Entry} : .created o ∈ log ↔ o ∈ log.filterMap Entry.order := by
  rw [List.mem_filterMap]
  constructor
  · exact fun member => ⟨.created o, member, rfl⟩
  · rintro ⟨entry, member, same⟩
    cases entry with
    | created other => exact Option.some.inj same ▸ member
    | _ => cases same

theorem Good.quiet (good : Good s w) (quiet : Quiet w w') : Good s w' where
  orders := fun id o there => by
    obtain ⟨own, member, named, authz, a, c, whole⟩ := good.orders id o (quiet.orders ▸ there)
    refine ⟨own, quiet.used _ member, named, quiet.used _ authz, a, c,
      whole.keep quiet.log ?_ ?_ fun cert found _ => ?_⟩
    · rw [quiet.authzs]
    · rw [quiet.challenges]
    · rw [quiet.certs, found]
  authzs := fun id a there => by
    obtain ⟨member, o, found, own⟩ := good.authzs id a (quiet.authzs ▸ there)
    exact ⟨quiet.used _ member, o, quiet.orders ▸ found, own⟩
  challenges := fun id c there => by
    obtain ⟨member, a, found, own⟩ := good.challenges id c (quiet.challenges ▸ there)
    exact ⟨quiet.used _ member, a, quiet.authzs ▸ found, own⟩
  certs := fun id cert there => by
    obtain ⟨own, member, named, order, holder⟩ := good.certs id cert (quiet.certs ▸ there)
    exact ⟨own, quiet.used _ member, named, quiet.used _ order,
      fun o found => holder o (quiet.orders ▸ found)⟩
  single := fun id id' cert cert' first second =>
    good.single id id' cert cert' (quiet.certs ▸ first) (quiet.certs ▸ second)
  claimed := fun o made => by
    rw [quiet.claims]
    exact good.claimed o (mem_created.2 (quiet.created ▸ mem_created.1 made))
  once := by
    rw [quiet.created]
    exact good.once
  identified := fun o made =>
    quiet.log _ (good.identified o (mem_created.2 (quiet.created ▸ mem_created.1 made)))

theorem Quiet.advances (quiet : Quiet w w') : Advances s w w' where
  used := quiet.used
  log := quiet.log
  orders := quiet.orders ▸ .refl Order.Step.refl
  authzs := quiet.authzs ▸ .refl Authorization.Step.refl
  challenges := quiet.challenges ▸ .refl Challenge.Step.refl
  certs := quiet.certs ▸ .refl Certificate.Step.refl
  kept := fun _ cert there => ⟨cert, quiet.certs ▸ there, .refl cert⟩
  claims := fun _ _ there => quiet.claims ▸ there
  released := fun _ _ after _ => .inl (quiet.certs ▸ after)

structure Rewrites (s : Config Ext) (w w' : World) (o o' : Order) (a' : Authorization)
    (c' : Challenge) : Prop where
  orders : ∀ key : String, w'.store.orders[key]? =
    if key = o'.id then some o' else w.store.orders[key]?
  authzs : ∀ key : String, w'.store.authzs[key]? =
    if key = a'.id then some a' else w.store.authzs[key]?
  challenges : ∀ key : String, w'.store.challenges[key]? =
    if key = c'.id then some c' else w.store.challenges[key]?
  claims : w'.store.claims = w.store.claims
  log : w'.log = w.log
  used : ∀ id ∈ w.used, id ∈ w'.used
  kept : ∀ (key : String) (cert : Certificate), w.store.certs[key]? = some cert →
    ∃ cert', w'.store.certs[key]? = some cert' ∧ cert.Step cert'
  certs : ∀ (key : String) (cert' : Certificate), w'.store.certs[key]? = some cert' →
    w.store.certs[key]? = some cert' ∨
    (key = o'.certificateID ∧ cert'.id = key ∧ key ∈ w'.used ∧ key ≠ "" ∧
      cert'.orderID = o'.id ∧
      ((key ∉ w.used ∧ o.certificateID = "" ∧ cert'.pendingRegistration = true) ∨
        ∃ cert, w.store.certs[key]? = some cert ∧ cert.Step cert' ∧
          (cert.pendingRegistration = true → cert'.pendingRegistration = false →
            Releasable s w cert)))

section Rewriting

variable (good : Good s w) (there : w.store.orders[o.id]? = some o) (whole : Whole s w o a c)
  (order : o.Step o') (authz : a.Step a') (challenge : c.Step c')
  (wrote : Rewrites s w w' o o' a' c')

theorem Order.Step.ids (order : o.Step o') : o'.id = o.id ∧ o'.authzID = o.authzID := by
  rw [order.same]
  exact ⟨rfl, rfl⟩

theorem Authorization.Step.same (authz : a.Step a') : a' = { a with status := a'.status } := by
  obtain rfl | ⟨-, same, -⟩ := authz
  · rfl
  · exact same

theorem Challenge.Step.same (challenge : c.Step c') : c' = { c with
    status := c'.status, attestation := c'.attestation, validatedAt := c'.validatedAt,
    error := c'.error } := by
  obtain rfl | ⟨-, same, -⟩ := challenge
  · rfl
  · exact same

include whole order authz challenge wrote in
theorem Rewrites.others {p : Order} {b : Authorization} {d : Challenge}
    (other : p.id ≠ o.id) (theirs : Whole s w p b d) : Whole s w' p b d := by
  have ownID : a'.id = a.id := by rw [authz.same]
  have ownChallenge : c'.id = c.id := by rw [challenge.same]
  have apartAuthz : p.authzID ≠ a'.id := by
    intro same
    have row := theirs.authz
    rw [same, ownID, whole.linked.authz, whole.authz] at row
    have both := theirs.linked.order
    rw [← Option.some.inj row, whole.linked.order] at both
    exact other both.symm
  have apartChallenge : b.challengeID ≠ c'.id := by
    intro same
    have row := theirs.challenge
    rw [same, ownChallenge, whole.linked.challenge, whole.challenge] at row
    have both := theirs.linked.owner
    rw [← Option.some.inj row, whole.linked.owner, theirs.linked.authz] at both
    exact apartAuthz (ownID.trans both).symm
  refine theirs.keep (fun entry member => wrote.log ▸ member) ?_ ?_ fun cert found receipt => ?_
  · rw [wrote.authzs, if_neg apartAuthz]
  · rw [wrote.challenges, if_neg apartChallenge]
  · obtain ⟨cert', found', step⟩ := wrote.kept _ cert found
    obtain old | ⟨-, -, -, -, owner, -⟩ := wrote.certs _ cert' found'
    · rw [found', ← old, found]
    · have order' : cert'.orderID = cert.orderID := by
        obtain rfl | ⟨-, rfl⟩ := step <;> rfl
      exact absurd ((receipt.order.symm.trans order'.symm).trans (owner.trans order.ids.1)) other

include good there whole order authz challenge wrote in
theorem Good.rewrite (after : Whole s w' o' a' c') : Good s w' := by
  have ownID : a'.id = o.authzID := by rw [authz.same, whole.linked.authz]
  have ownOrder : a'.orderID = o.id := by rw [authz.same, whole.linked.order]
  have ownChallenge : c'.id = a.challengeID := by rw [challenge.same, whole.linked.challenge]
  have known := good.orders _ o there
  refine ⟨?_, ?_, ?_, ?_, ?_, ?_, ?_, ?_⟩
  · intro key p found
    rw [wrote.orders, order.ids.1] at found
    obtain ⟨same, ⟨⟩⟩ | ⟨other, found⟩ := ite_eq_iff.1 found
    · refine ⟨order.ids.1.trans same.symm, wrote.used _ (same ▸ known.2.1), same ▸ known.2.2.1,
        wrote.used _ ?_, a', c', after⟩
      rw [order.ids.2]
      exact known.2.2.2.1
    · obtain ⟨own, member, named, listed, b, d, theirs⟩ := good.orders key p found
      exact ⟨own, wrote.used _ member, named, wrote.used _ listed, b, d,
        wrote.others whole order authz challenge (own ▸ other) theirs⟩
  · intro key b found
    rw [wrote.authzs, ownID] at found
    obtain ⟨same, ⟨⟩⟩ | ⟨other, found⟩ := ite_eq_iff.1 found
    · refine ⟨wrote.used _ (same ▸ known.2.2.2.1), o', ?_, order.ids.2.trans same.symm⟩
      rw [wrote.orders, order.ids.1, if_pos ownOrder]
    · obtain ⟨member, p, row, own⟩ := good.authzs key b found
      refine ⟨wrote.used _ member, p, ?_, own⟩
      rw [wrote.orders, order.ids.1, if_neg, row]
      intro same
      rw [same, there] at row
      exact other (own.symm.trans (Option.some.inj row ▸ rfl))
  · intro key d found
    rw [wrote.challenges, ownChallenge] at found
    have challengeOwner : c'.authzID = o.authzID := by
      rw [challenge.same]
      exact whole.linked.owner.trans whole.linked.authz
    split at found
    · next same =>
      obtain rfl := Option.some.inj found
      have member : a.challengeID ∈ w.used := (good.challenges _ c whole.challenge).1
      refine ⟨wrote.used _ (same ▸ member), a', ?_, ?_⟩
      · rw [wrote.authzs, ownID, if_pos challengeOwner]
      · rw [authz.same]
        exact same.symm
    · next other =>
      obtain ⟨member, b, row, own⟩ := good.challenges key d found
      refine ⟨wrote.used _ member, b, ?_, own⟩
      rw [wrote.authzs, ownID, if_neg, row]
      intro same
      rw [same, whole.authz] at row
      exact other (own.symm.trans (Option.some.inj row ▸ rfl))
  · intro key cert found
    obtain old | ⟨named, own, member, filled, owner, -⟩ := wrote.certs key cert found
    · obtain ⟨own, member, named, order', holder⟩ := good.certs key cert old
      refine ⟨own, wrote.used _ member, named, wrote.used _ order', fun p row => ?_⟩
      rw [wrote.orders, order.ids.1] at row
      obtain ⟨same, ⟨⟩⟩ | ⟨-, row⟩ := ite_eq_iff.1 row
      · have given := holder o (same ▸ there)
        exact (order.receipt (given ▸ named)).1.trans given
      · exact holder p row
    · refine ⟨own, member, filled, ?_, fun p row => ?_⟩
      · rw [owner, order.ids.1]
        exact wrote.used _ known.2.1
      · rw [wrote.orders, if_pos owner] at row
        rw [← Option.some.inj row, named]
  · have written (key : String) (cert : Certificate) (key' : String) (cert' : Certificate)
        (old : w.store.certs[key]? = some cert) (named : key' = o'.certificateID)
        (owner : cert'.orderID = o'.id) (same : cert.orderID = cert'.orderID) : key = key' := by
      obtain ⟨-, -, filled, -, holder⟩ := good.certs key cert old
      have given := holder o (by rw [same, owner, order.ids.1]; exact there)
      exact (named.trans ((order.receipt (given ▸ filled)).1.trans given)).symm
    intro key key' cert cert' first second same
    obtain old | ⟨named, -, -, -, owner, -⟩ := wrote.certs key cert first
    · obtain old' | ⟨named', -, -, -, owner', -⟩ := wrote.certs key' cert' second
      · exact good.single key key' cert cert' old old' same
      · exact written key cert key' cert' old named' owner' same
    · obtain old' | ⟨named', -, -, -, owner', -⟩ := wrote.certs key' cert' second
      · exact (written key' cert' key cert old' named owner same.symm).symm
      · exact named.trans named'.symm
  · intro p made
    rw [wrote.claims]
    exact good.claimed p (wrote.log ▸ made)
  · rw [wrote.log]
    exact good.once
  · rw [wrote.log]
    exact good.identified

include there whole order authz challenge wrote in
theorem Rewrites.advances : Advances s w w' := by
  refine ⟨wrote.used, fun entry member => wrote.log ▸ member, ?_, ?_, ?_, ?_, wrote.kept, ?_, ?_⟩
  · exact evolves_write Order.Step.refl wrote.orders
      (.inl ⟨o, by rw [order.ids.1]; exact there, order⟩)
  · refine evolves_write Authorization.Step.refl wrote.authzs (.inl ⟨a, ?_, authz⟩)
    rw [authz.same]
    exact whole.linked.authz ▸ whole.authz
  · refine evolves_write Challenge.Step.refl wrote.challenges (.inl ⟨c, ?_, challenge⟩)
    rw [challenge.same]
    exact whole.linked.challenge ▸ whole.challenge
  · intro key cert' found
    obtain old | ⟨-, -, -, -, -, ⟨new, -⟩ | ⟨cert, old, step, -⟩⟩ := wrote.certs key cert' found
    · exact .inl ⟨cert', old, .refl cert'⟩
    · exact .inr new
    · exact .inl ⟨cert, old, step⟩
  · intro value owner claimed
    rw [wrote.claims]
    exact claimed
  · intro key cert' found done
    obtain old | ⟨-, -, -, -, -, ⟨-, -, waiting⟩ | ⟨cert, old, step, released⟩⟩ :=
      wrote.certs key cert' found
    · exact .inl old
    · simp [waiting] at done
    · obtain rfl | ⟨pending, same⟩ := step
      · exact .inl old
      · exact .inr ⟨cert, old, pending, same, released pending done⟩

end Rewriting

structure Creates (w w' : World) (o : Order) (a : Authorization) (c : Challenge) : Prop where
  orders : ∀ key : String, w'.store.orders[key]? =
    if key = o.id then some o else w.store.orders[key]?
  authzs : ∀ key : String, w'.store.authzs[key]? =
    if key = a.id then some a else w.store.authzs[key]?
  challenges : ∀ key : String, w'.store.challenges[key]? =
    if key = c.id then some c else w.store.challenges[key]?
  certs : w'.store.certs = w.store.certs
  claims : ∀ key : String, w'.store.claims[key]? =
    if key = o.identifier.value then some o.id else w.store.claims[key]?
  unclaimed : w.store.claims[o.identifier.value]? = none
  log : w'.log = .created o :: w.log
  used : w'.used = [o.id, a.id, c.id] ++ w.used
  fresh : Fresh w.used [o.id, a.id, c.id]
  linked : Linked o a c
  pending : o.status = .pending ∧ c.status = .pending
  blank : o.certificateID = "" ∧ o.csrHash = ""
  identified : .identified o.identifier.value o.binding ∈ w.log

section Creating

variable (good : Good s w) (creates : Creates w w' o a c)

theorem Creates.unused (creates : Creates w w' o a c) :
    o.id ∉ w.used ∧ a.id ∉ w.used ∧ c.id ∉ w.used := by
  have fresh := creates.fresh.2.2
  exact ⟨fresh _ (by simp), fresh _ (by simp), fresh _ (by simp)⟩

theorem Creates.log_mem (creates : Creates w w' o a c) (entry : Entry) (member : entry ∈ w.log) :
    entry ∈ w'.log := by
  rw [creates.log]
  exact List.mem_cons_of_mem _ member

theorem Creates.used_mem (creates : Creates w w' o a c) (id : String) (member : id ∈ w.used) :
    id ∈ w'.used := by
  rw [creates.used]
  exact List.mem_append_right _ member

theorem Creates.whole (creates : Creates w w' o a c) : Whole s w' o a c := by
  have unissued : ¬ (o.status = .processing ∨ o.status = .valid) := by simp [creates.pending.1]
  refine ⟨?_, ?_, creates.linked, ?_, ?_, ?_, ?_, ?_⟩
  · rw [creates.authzs, if_pos creates.linked.authz.symm]
  · rw [creates.challenges, if_pos creates.linked.challenge.symm]
  · simp [creates.pending.2]
  · refine ⟨o, ?_, .refl o, creates.log_mem _ creates.identified⟩
    rw [creates.log]
    exact List.mem_cons_self
  · simp [unissued, creates.blank.1]
  · simp [creates.blank.2]
  · simp [creates.blank.1]

include good creates in
theorem Good.create : Good s w' := by
  obtain ⟨freshOrder, freshAuthz, freshChallenge⟩ := creates.unused
  have named := creates.fresh.1
  have own (id : String) (member : id ∈ [o.id, a.id, c.id]) : id ∈ w'.used := by
    rw [creates.used]
    exact List.mem_append_left _ member
  refine ⟨?_, ?_, ?_, ?_, ?_, ?_, ?_, ?_⟩
  · intro key p found
    rw [creates.orders] at found
    obtain ⟨same, ⟨⟩⟩ | ⟨-, found⟩ := ite_eq_iff.1 found
    · refine ⟨same.symm, own _ (by simp [same]), ?_, own _ (by simp [creates.linked.authz]), a, c,
        creates.whole⟩
      rw [same]
      intro blank
      simp [blank] at named
    · obtain ⟨self, member, filled, listed, b, d, theirs⟩ := good.orders key p found
      refine ⟨self, creates.used_mem _ member, filled, creates.used_mem _ listed, b, d,
        theirs.keep creates.log_mem ?_ ?_ fun cert there _ => creates.certs ▸ there⟩
      · rw [creates.authzs, if_neg]
        exact fun same => freshAuthz (same ▸ listed)
      · rw [creates.challenges, if_neg]
        exact fun same => freshChallenge (same ▸ (good.challenges _ d theirs.challenge).1)
  · intro key b found
    rw [creates.authzs] at found
    obtain ⟨same, ⟨⟩⟩ | ⟨-, found⟩ := ite_eq_iff.1 found
    · refine ⟨own _ (by simp [same]), o, ?_, creates.linked.authz.symm.trans same.symm⟩
      rw [creates.orders, if_pos creates.linked.order]
    · obtain ⟨member, p, row, self⟩ := good.authzs key b found
      refine ⟨creates.used_mem _ member, p, ?_, self⟩
      rw [creates.orders, if_neg, row]
      exact fun same => freshOrder (same ▸ (good.orders _ p row).2.1)
  · intro key d found
    rw [creates.challenges] at found
    obtain ⟨same, ⟨⟩⟩ | ⟨-, found⟩ := ite_eq_iff.1 found
    · refine ⟨own _ (by simp [same]), a, ?_, creates.linked.challenge.symm.trans same.symm⟩
      rw [creates.authzs, if_pos creates.linked.owner]
    · obtain ⟨member, b, row, self⟩ := good.challenges key d found
      refine ⟨creates.used_mem _ member, b, ?_, self⟩
      rw [creates.authzs, if_neg, row]
      exact fun same => freshAuthz (same ▸ (good.authzs _ b row).1)
  · intro key cert found
    obtain ⟨self, member, filled, order, holder⟩ := good.certs key cert (creates.certs ▸ found)
    refine ⟨self, creates.used_mem _ member, filled, creates.used_mem _ order, fun p row => ?_⟩
    rw [creates.orders, if_neg] at row
    · exact holder p row
    · exact fun same => freshOrder (same ▸ order)
  · intro key key' cert cert' first second
    exact good.single key key' cert cert' (creates.certs ▸ first) (creates.certs ▸ second)
  · intro p made
    rw [creates.log, List.mem_cons] at made
    rw [creates.claims]
    obtain new | old := made
    · rw [Entry.created.inj new, if_pos rfl]
    · rw [if_neg, good.claimed p old]
      intro same
      have taken := good.claimed p old
      rw [same, creates.unclaimed] at taken
      cases taken
  · have newest : (Entry.created o :: w.log).filterMap Entry.order =
        o :: w.log.filterMap Entry.order := rfl
    rw [creates.log, newest, List.map_cons, List.nodup_cons]
    refine ⟨fun taken => ?_, good.once⟩
    obtain ⟨p, made, same⟩ := List.mem_map.1 taken
    have claimed := good.claimed p (mem_created.2 made)
    rw [same, creates.unclaimed] at claimed
    cases claimed
  · intro p made
    refine creates.log_mem _ ?_
    rw [creates.log, List.mem_cons] at made
    obtain new | old := made
    · rw [Entry.created.inj new]
      exact creates.identified
    · exact good.identified p old

include creates in
theorem Creates.advances : Advances s w w' := by
  obtain ⟨freshOrder, freshAuthz, freshChallenge⟩ := creates.unused
  refine ⟨creates.used_mem, creates.log_mem, evolves_write Order.Step.refl creates.orders
    (.inr freshOrder), evolves_write Authorization.Step.refl creates.authzs (.inr freshAuthz),
    evolves_write Challenge.Step.refl creates.challenges (.inr freshChallenge), ?_, ?_, ?_, ?_⟩
  · exact creates.certs ▸ .refl Certificate.Step.refl
  · exact fun _ cert there => ⟨cert, creates.certs ▸ there, .refl cert⟩
  · intro value owner claimed
    rw [creates.claims, if_neg, claimed]
    intro same
    rw [same, creates.unclaimed] at claimed
    cases claimed
  · exact fun _ _ after _ => .inl (creates.certs ▸ after)

end Creating

section Pruning

open State

theorem removeAuthorization_authzs (st : State) (id : String) (key : String)
    (a : Authorization) :
    (st.removeAuthorization id).authzs[key]? = some a ↔ st.authzs[key]? = some a ∧ key ≠ id := by
  unfold removeAuthorization
  cases row : st.authzs[id]? with
  | none =>
    refine ⟨fun there => ⟨there, ?_⟩, fun there => there.1⟩
    rintro rfl
    rw [row] at there
    cases there
  | some b =>
    dsimp only
    rw [getElem?_erase_eq]
    by_cases same : key = id <;> simp [same]

theorem removeAuthorization_challenges (st : State) (id : String) (key : String) (c : Challenge) :
    (st.removeAuthorization id).challenges[key]? = some c ↔
      st.challenges[key]? = some c ∧ ∀ a, st.authzs[id]? = some a → a.challengeID ≠ key := by
  unfold removeAuthorization
  cases row : st.authzs[id]? with
  | none => simp
  | some b =>
    dsimp only
    rw [getElem?_erase_eq]
    by_cases same : key = b.challengeID
    · simp [same]
    · simp only [same, if_false, Option.some.injEq, forall_eq']
      exact ⟨fun there => ⟨there, fun equal => same equal.symm⟩, fun there => there.1⟩

theorem removeAuthorization_rest (st : State) (id : String) :
    (st.removeAuthorization id).orders = st.orders ∧
      (st.removeAuthorization id).certs = st.certs ∧
      (st.removeAuthorization id).claims = st.claims := by
  unfold removeAuthorization
  split <;> exact ⟨rfl, rfl, rfl⟩

structure Removed (ids authzIDs : List String) (st st' : State) : Prop where
  orders : ∀ key o, st'.orders[key]? = some o ↔ st.orders[key]? = some o ∧ key ∉ ids
  authzs : ∀ key a, st'.authzs[key]? = some a ↔ st.authzs[key]? = some a ∧ key ∉ authzIDs
  challenges : ∀ key c, st'.challenges[key]? = some c ↔ st.challenges[key]? = some c ∧
    ∀ id ∈ authzIDs, ∀ a, st.authzs[id]? = some a → a.challengeID ≠ key
  certs : st'.certs = st.certs
  claims : st'.claims = st.claims

variable {ids authzIDs : List String} {st st' : State}

theorem Removed.authz (removed : Removed ids authzIDs st st') (id : String) :
    Removed ids (id :: authzIDs) st (st'.removeAuthorization id) := by
  obtain ⟨orders, certs, claims⟩ := removeAuthorization_rest st' id
  refine ⟨?_, ?_, ?_, certs.trans removed.certs, claims.trans removed.claims⟩
  · intro key o
    rw [orders]
    exact removed.orders key o
  · intro key a
    rw [removeAuthorization_authzs, removed.authzs, List.mem_cons, not_or, and_assoc,
      and_comm (a := key ≠ id)]
  · intro key c
    rw [removeAuthorization_challenges, removed.challenges]
    constructor
    · rintro ⟨⟨there, apart⟩, last⟩
      refine ⟨there, fun other member a row => ?_⟩
      by_cases known : other ∈ authzIDs
      · exact apart other known a row
      · obtain rfl := (List.mem_cons.1 member).resolve_right known
        exact last a ((removed.authzs _ a).2 ⟨row, known⟩)
    · rintro ⟨there, apart⟩
      exact ⟨⟨there, fun other member => apart other (List.mem_cons_of_mem id member)⟩,
        fun a row => apart id List.mem_cons_self a ((removed.authzs id a).1 row).1⟩

theorem Removed.order (removed : Removed ids authzIDs st st') (id : String) :
    Removed (id :: ids) authzIDs st { st' with orders := st'.orders.erase id } := by
  refine ⟨fun key o => ?_, removed.authzs, removed.challenges, removed.certs, removed.claims⟩
  have before := removed.orders key o
  dsimp only
  rw [getElem?_erase_eq]
  by_cases same : key = id
  · simp [same]
  · simp [same, before]

structure Prunes (before : Time) (w w' : World) : Prop where
  orders : ∀ (key : String) (o : Order), w'.store.orders[key]? = some o ↔
    w.store.orders[key]? = some o ∧ expired o.expires before = false
  authzs : ∀ (key : String) (a : Authorization), w'.store.authzs[key]? = some a ↔
    w.store.authzs[key]? = some a ∧ expired a.expires before = false
  challenges : ∀ (key : String) (c : Challenge), w'.store.challenges[key]? = some c ↔
    w.store.challenges[key]? = some c ∧
      ∀ a : Authorization, w.store.authzs[c.authzID]? = some a → expired a.expires before = false
  certs : w'.store.certs = w.store.certs
  claims : w'.store.claims = w.store.claims
  log : w'.log = w.log
  used : w'.used = w.used

theorem removed_orders (rows : List (String × Order)) (removed : Removed ids authzIDs st st') :
    Removed ((rows.map (·.1)).reverse ++ ids) ((rows.map (·.2.authzID)).reverse ++ authzIDs) st
      (rows.foldl (fun st row =>
        { st with orders := st.orders.erase row.1 }.removeAuthorization row.2.authzID) st') := by
  induction rows generalizing ids authzIDs st' with
  | nil => exact removed
  | cons row rest ih =>
    have next := ih ((removed.order row.1).authz row.2.authzID)
    simpa using next

theorem removed_authzs (rows : List (String × Authorization)) (removed : Removed ids authzIDs st st') :
    Removed ids ((rows.map (·.1)).reverse ++ authzIDs) st
      (rows.foldl (fun st row => st.removeAuthorization row.1) st') := by
  induction rows generalizing authzIDs st' with
  | nil => exact removed
  | cons row rest ih =>
    have next := ih (removed.authz row.1)
    simpa using next

theorem prune_removed (st : State) (before : Time) :
    ∃ ids authzIDs, Removed ids authzIDs st (st.prune before) ∧
      (∀ key, key ∈ ids ↔
        ∃ o : Order, st.orders[key]? = some o ∧ expired o.expires before = true) ∧
      ∀ key, key ∈ authzIDs ↔
        (∃ (id : String) (o : Order), st.orders[id]? = some o ∧
          expired o.expires before = true ∧ o.authzID = key) ∨
        ∃ a : Authorization, st.authzs[key]? = some a ∧ expired a.expires before = true := by
  have start : Removed [] [] st
      { st with nonces := st.nonces.filter fun _ n => ¬ n.issuedAt < before } := by
    refine ⟨?_, ?_, ?_, rfl, rfl⟩ <;> simp
  have first := removed_orders (st.orders.toList.filter fun row => expired row.2.expires before)
    start
  refine ⟨_, _, removed_authzs _ first, fun key => ?_, fun key => ?_⟩
  · simp [Std.ExtTreeMap.mem_toList_iff_getElem?_eq_some]
  · simp only [List.append_nil, List.mem_append, List.mem_reverse, List.mem_map,
      List.mem_filter, Std.ExtTreeMap.mem_toList_iff_getElem?_eq_some, Prod.exists]
    constructor
    · rintro (⟨id, a, ⟨there, old⟩, rfl⟩ | ⟨id, o, ⟨there, old⟩, same⟩)
      · exact .inr ⟨a, ((first.authzs id a).1 there).1, old⟩
      · exact .inl ⟨id, o, there, old, same⟩
    · rintro (⟨id, o, there, old, same⟩ | ⟨a, there, old⟩)
      · exact .inr ⟨id, o, ⟨there, old⟩, same⟩
      · -- The authorization is either gone with its order already or among the stale ones.
        by_cases gone : key ∈ (((st.orders.toList.filter fun row =>
            expired row.2.expires before).map (·.2.authzID)).reverse ++ [])
        · simp only [List.append_nil, List.mem_reverse, List.mem_map, List.mem_filter,
            Std.ExtTreeMap.mem_toList_iff_getElem?_eq_some, Prod.exists] at gone
          exact .inr gone
        · exact .inl ⟨key, a, ⟨(first.authzs key a).2 ⟨there, gone⟩, old⟩, rfl⟩

theorem Good.owner (good : Good s w) {key : String} (row : w.store.authzs[key]? = some a) :
    ∃ o c, w.store.orders[a.orderID]? = some o ∧ o.authzID = key ∧ Whole s w o a c := by
  obtain ⟨-, o, there, own⟩ := good.authzs key a row
  obtain ⟨-, -, -, -, b, c, whole⟩ := good.orders _ o there
  have same : b = a := by
    have authz := whole.authz
    rw [own, row] at authz
    exact (Option.some.inj authz).symm
  exact ⟨o, c, there, own, same ▸ whole⟩

theorem Good.prunes (good : Good s w) (before : Time) :
    Prunes before w { w with store := w.store.prune before } := by
  obtain ⟨ids, authzIDs, removed, listed, authzListed⟩ := prune_removed w.store before
  have stale {key : String} {a : Authorization} (row : w.store.authzs[key]? = some a) :
      key ∈ authzIDs ↔ expired a.expires before = true := by
    rw [authzListed]
    constructor
    · rintro (⟨id, o, there, old, same⟩ | ⟨b, there, old⟩)
      · obtain ⟨-, -, -, -, b, c, whole⟩ := good.orders id o there
        have authz := whole.authz
        rw [same, row] at authz
        rw [Option.some.inj authz, whole.linked.expires]
        exact old
      · rw [row] at there
        exact Option.some.inj there ▸ old
    · exact fun old => .inr ⟨a, row, old⟩
  refine ⟨?_, ?_, ?_, removed.certs, removed.claims, rfl, rfl⟩
  · intro key o
    rw [removed.orders, listed]
    refine and_congr_right fun there => ?_
    simp [there]
  · intro key a
    rw [removed.authzs]
    refine and_congr_right fun there => ?_
    rw [stale there, Bool.not_eq_true]
  · intro key c
    rw [removed.challenges]
    refine and_congr_right fun there => ?_
    obtain ⟨-, a, row, own⟩ := good.challenges key c there
    constructor
    · intro apart b found
      by_contra old
      rw [Bool.not_eq_false] at old
      rw [row] at found
      exact apart _ ((stale row).2 (Option.some.inj found ▸ old)) a row own
    · intro fresh id member b found named
      -- Two authorizations do not share a challenge.
      obtain ⟨o, d, -, ownID, whole⟩ := good.owner found
      have same := whole.challenge
      rw [named, there] at same
      have owner := whole.linked.owner
      rw [← Option.some.inj same, whole.linked.authz, ownID] at owner
      have old := (stale found).1 member
      rw [fresh b (owner ▸ found)] at old
      cases old

section

variable {before : Time} (good : Good s w) (prunes : Prunes before w w')
include good prunes

theorem Good.prune : Good s w' := by
  refine ⟨?_, ?_, ?_, ?_, ?_, ?_, ?_, ?_⟩
  · intro key o found
    obtain ⟨there, fresh⟩ := (prunes.orders key o).1 found
    obtain ⟨own, member, named, listed, a, c, whole⟩ := good.orders key o there
    have young : expired a.expires before = false := whole.linked.expires ▸ fresh
    refine ⟨own, prunes.used ▸ member, named, prunes.used ▸ listed, a, c,
      whole.keep (fun entry logged => prunes.log ▸ logged) ?_ ?_ fun cert row _ =>
        prunes.certs ▸ row⟩
    · rw [whole.authz]
      exact (prunes.authzs _ a).2 ⟨whole.authz, young⟩
    · rw [whole.challenge]
      refine (prunes.challenges _ c).2 ⟨whole.challenge, fun b row => ?_⟩
      rw [whole.linked.owner, whole.linked.authz, whole.authz] at row
      exact Option.some.inj row ▸ young
  · intro key a found
    obtain ⟨there, fresh⟩ := (prunes.authzs key a).1 found
    obtain ⟨o, c, row, own, whole⟩ := good.owner there
    refine ⟨prunes.used ▸ (good.authzs key a there).1, o, ?_, own⟩
    exact (prunes.orders _ o).2 ⟨row, whole.linked.expires ▸ fresh⟩
  · intro key c found
    obtain ⟨there, fresh⟩ := (prunes.challenges key c).1 found
    obtain ⟨member, a, row, own⟩ := good.challenges key c there
    exact ⟨prunes.used ▸ member, a, (prunes.authzs _ a).2 ⟨row, fresh a row⟩, own⟩
  · intro key cert found
    obtain ⟨own, member, named, order, holder⟩ := good.certs key cert (prunes.certs ▸ found)
    exact ⟨own, prunes.used ▸ member, named, prunes.used ▸ order,
      fun o row => holder o ((prunes.orders _ o).1 row).1⟩
  · intro key key' cert cert' first second
    exact good.single key key' cert cert' (prunes.certs ▸ first) (prunes.certs ▸ second)
  · intro o made
    rw [prunes.claims]
    exact good.claimed o (prunes.log ▸ made)
  · rw [prunes.log]
    exact good.once
  · rw [prunes.log]
    exact good.identified

omit good in
theorem Prunes.advances : Advances s w w' := by
  refine ⟨fun id member => prunes.used ▸ member, fun entry member => prunes.log ▸ member,
    evolves_of_sub Order.Step.refl fun key o row => ((prunes.orders key o).1 row).1,
    evolves_of_sub Authorization.Step.refl fun key a row => ((prunes.authzs key a).1 row).1,
    evolves_of_sub Challenge.Step.refl fun key c row => ((prunes.challenges key c).1 row).1,
    prunes.certs ▸ .refl Certificate.Step.refl,
    fun _ cert there => ⟨cert, prunes.certs ▸ there, .refl cert⟩,
    fun _ _ there => prunes.claims ▸ there, fun _ _ after _ => .inl (prunes.certs ▸ after)⟩

end

end Pruning

end AppleDM.Acme
