import AppleDM.Ddm.Integrity

set_option autoImplicit false

namespace AppleDM.Ddm

open Mdm Checked

structure SetPublication (Raw : Type) where
  name : String
  declarations : List Raw

structure PublishResult where
  name : String
  changed : Bool
  declarations : List DeclarationRef
  deriving DecidableEq

structure Publisher (Raw : Type) where
  parseDeclaration : Raw → Except Error Declaration
  validatePredicate : Declaration → Except Error Unit

variable {Raw : Type}

def Publisher.parseAll (e : Publisher Raw) : List String → List Raw → Except Error (List Declaration)
  | _, [] => .ok []
  | seen, raw :: rest => do
    let d ← e.parseDeclaration raw
    e.validatePredicate d
    reject (d.identifier ∈ seen) ⟨.invalidDeclaration, "duplicate declaration identifier"⟩
    let later ← e.parseAll (d.identifier :: seen) rest
    pure (d :: later)

def Declaration.ref (d : Declaration) : DeclarationRef := ⟨d.kind, d.identifier, d.serverToken⟩

def sortDeclarations (decls : List Declaration) : List Declaration :=
  decls.insertionSort fun a b => compare a.identifier b.identifier ≠ .gt

namespace State

def findDeclaration (st : State) (identifier : String) : Except Error (Option Declaration) :=
  match st.getDeclaration identifier with
  | .ok d => .ok (some d)
  | .error e => if e.sentinel = .notFound then .ok none else .error e

def recordAffected (st : State) (identifiers sets : List String) (reason : String) (now : Time) :
    Except Error State := do
  let ids ← st.affectedEnrollments identifiers sets
  if ids.isEmpty then pure st else st.recordChanges ids reason now

end State

structure Publishing where
  store : State
  changed : Bool
  changedIDs : List String := []
  refs : List DeclarationRef := []

def publishDeclaration (name : String) (now : Time) (p : Publishing) (d : Declaration) :
    Except Error Publishing := do
  let old ← p.store.findDeclaration d.identifier
  let d := { d with createdAt := (old.map (·.createdAt)).getD now, updatedAt := now }
  let (store, changed) ← p.store.putDeclaration (some d)
  let (store, added) ← store.addSetDeclaration name d.identifier now
  pure
    { store := store
      changed := p.changed || changed || added
      changedIDs := if changed then p.changedIDs ++ [d.identifier] else p.changedIDs
      refs := p.refs ++ [d.ref] }

def dropMember (name : String) (seen : List String) (p : Publishing) (identifier : String) :
    Except Error Publishing :=
  if identifier ∈ seen then pure p
  else do
    let (store, _) ← p.store.removeSetDeclaration name identifier
    pure { p with store := store, changed := true }

def notifyPublished (name : String) (now : Time) (p : Publishing) : Except Error State :=
  if p.changed then p.store.recordAffected p.changedIDs [name] "set" now else pure p.store

def publishSetTx (e : Publisher Raw) (publication : SetPublication Raw) (now : Time) (st : State) :
    Except Error (State × PublishResult) := do
  reject (publication.name = "") (.invalid "empty set name")
  let decls ← e.parseAll [] publication.declarations
  validName "set name" publication.name
  let (store, created) ← st.putSet publication.name now
  let previous ← store.setDeclarations publication.name
  let p ← (sortDeclarations decls).foldlM (publishDeclaration publication.name now)
    { store := store, changed := created }
  let p ← previous.foldlM (dropMember publication.name (decls.map (·.identifier))) p
  let store ← notifyPublished publication.name now p
  pure (store, ⟨publication.name, p.changed, sortRefs p.refs⟩)

def publishSet (e : Publisher Raw) (publication : SetPublication Raw) (now : Time) (st : State) :
    State × Except Error PublishResult :=
  match publishSetTx e publication now st with
  | .ok (st', result) => (st', .ok result)
  | .error error => (st, .error error)

variable {e : Publisher Raw} {st st' mid : State} {name : String} {now : Time} {d : Declaration}
  {published : List String} {p p' : Publishing}
  {decls : List Declaration} {identifier : String} {done : List Declaration}
  {wanted : String → Prop}

theorem parseAll_ok {seen : List String} {raws : List Raw}
    (parsed : e.parseAll seen raws = .ok decls) :
    List.Forall₂ (fun raw d => e.parseDeclaration raw = .ok d) raws decls ∧
      (decls.map (·.identifier)).Nodup ∧ ∀ d ∈ decls, d.identifier ∉ seen := by
  induction raws generalizing seen decls with
  | nil =>
    obtain rfl : [] = decls := Except.ok.inj parsed
    simp
  | cons raw rest ih =>
    simp only [Publisher.parseAll, bind_ok, reject_ok, pure_ok] at parsed
    obtain ⟨d, one, _, -, _, fresh, later, parsed, rfl⟩ := parsed
    obtain ⟨all, distinct, apart⟩ := ih parsed
    refine ⟨.cons one all, ?_, ?_⟩
    · refine List.nodup_cons.2 ⟨fun again => ?_, distinct⟩
      obtain ⟨other, member, same⟩ := List.mem_map.1 again
      exact apart other member (by simp [same])
    · intro other member
      obtain rfl | member := List.mem_cons.1 member
      · exact fresh
      · exact fun old => apart other member (List.mem_cons_of_mem _ old)

structure Apart (name : String) (published : List String) (st st' : State) : Prop where
  enrollSets : st'.enrollSets = st.enrollSets
  enrollDecls : st'.enrollDecls = st.enrollDecls
  sets : ∀ other : String, other ≠ name → st'.sets[other]? = st.sets[other]?
  members : ∀ other, other ≠ name →
    ∀ identifier, identifier ∈ st'.members.of other ↔ identifier ∈ st.members.of other
  decls : ∀ identifier : String, identifier ∉ published → st'.decls[identifier]? = st.decls[identifier]?
  versions : ∀ key : String × String, key.1 ∉ published → st'.versions[key]? = st.versions[key]?

structure Current (d : Declaration) (st : State) : Prop where
  named : d.identifier ≠ ""
  tokened : d.serverToken ≠ ""
  row : ∃ row, st.decls[d.identifier]? = some row ∧ row.kind = d.kind ∧
    row.serverToken = d.serverToken

def Revised (d : Declaration) (st st' : State) : Prop :=
  st'.decls[d.identifier]? = st.decls[d.identifier]? ∨
    ∃ createdAt updatedAt, st'.decls[d.identifier]? =
      some { d with createdAt := createdAt, updatedAt := updatedAt }

structure Replacing (name : String) (published : List String) (st : State)
    (done : List Declaration) (wanted : String → Prop) (p : Publishing) : Prop where
  apart : Apart name published st p.store
  set : name ∈ p.store.sets
  rows : ∀ d ∈ done, Current d p.store
  written : ∀ d ∈ done, Revised d st p.store
  pending : ∀ identifier : String, identifier ∉ done.map (·.identifier) →
    p.store.decls[identifier]? = st.decls[identifier]?
  members : ∀ identifier, identifier ∈ p.store.members.of name ↔ wanted identifier
  refs : p.refs = done.map (·.ref)
  unchanged : p.changed = false → p.store = st

theorem Apart.refl : Apart name published st st :=
  ⟨rfl, rfl, fun _ _ => rfl, fun _ _ _ => .rfl, fun _ _ => rfl, fun _ _ => rfl⟩

theorem Apart.trans (first : Apart name published st mid) (second : Apart name published mid st') :
    Apart name published st st' where
  enrollSets := second.enrollSets.trans first.enrollSets
  enrollDecls := second.enrollDecls.trans first.enrollDecls
  sets other apart := (second.sets other apart).trans (first.sets other apart)
  members other apart identifier :=
    (second.members other apart identifier).trans (first.members other apart identifier)
  decls _ unlisted := (second.decls _ unlisted).trans (first.decls _ unlisted)
  versions _ unlisted := (second.versions _ unlisted).trans (first.versions _ unlisted)

variable {created : Bool}

theorem putSet_published (accepted : st.putSet name now = .ok (st', created)) :
    Apart name published st st' ∧ name ≠ "" ∧ name ∈ st'.sets ∧ st'.decls = st.decls ∧
      st'.members = st.members ∧ (created = false → st' = st) := by
  obtain ⟨named, ⟨-, rfl, there⟩ | ⟨rfl, rfl⟩⟩ := State.putSet_ok accepted
  · exact ⟨.refl, named, there, rfl, rfl, fun _ => rfl⟩
  · refine ⟨⟨rfl, rfl, fun other apart => ?_, fun _ _ _ => .rfl, fun _ _ => rfl, fun _ _ => rfl⟩,
      named, by simp, rfl, rfl, by simp⟩
    simp [Std.ExtTreeMap.getElem?_insert, apart.symm]

theorem putDeclaration_published {changed : Bool} (listed : d.identifier ∈ published)
    (accepted : st.putDeclaration (some d) = .ok (st', changed)) :
    Apart name published st st' ∧ Current d st' ∧ Revised d st st' ∧ st'.sets = st.sets ∧
      st'.members = st.members ∧
      (∀ identifier, identifier ≠ d.identifier →
        st'.decls[identifier]? = st.decls[identifier]?) ∧
      (changed = false → st' = st) := by
  obtain ⟨row, same, named, tokened, kinds, found⟩ := State.putDeclaration_ok accepted
  obtain rfl := Option.some.inj same
  rcases found with ⟨rfl, rfl, found, there, token⟩ | ⟨rfl, -, createdAt, rfl⟩
  · exact ⟨.refl, ⟨named, tokened, found, there, kinds found there, token⟩, .inl rfl, rfl, rfl,
      fun _ _ => rfl, fun _ => rfl⟩
  · have others (identifier : String) (other : identifier ≠ d.identifier) :
        (st.decls.insert d.identifier { d with createdAt := createdAt })[identifier]? =
          st.decls[identifier]? := by
      simp [Std.ExtTreeMap.getElem?_insert, other.symm]
    refine ⟨⟨rfl, rfl, fun _ _ => rfl, fun _ _ _ => .rfl, fun identifier unlisted => ?_,
      fun key unlisted => ?_⟩, ⟨named, tokened, _,
      Std.ExtTreeMap.getElem?_insert_self, rfl, rfl⟩,
      .inr ⟨createdAt, d.updatedAt, Std.ExtTreeMap.getElem?_insert_self⟩, rfl, rfl, others, by simp⟩
    · exact others identifier fun same => unlisted (same ▸ listed)
    · have other : (d.identifier, d.serverToken) ≠ key := by
        rintro rfl
        exact unlisted listed
      simp [Std.ExtTreeMap.getElem?_insertIfNew, other]

theorem addSetDeclaration_published {added : Bool}
    (accepted : st.addSetDeclaration name identifier now = .ok (st', added)) :
    Apart name published st st' ∧ st'.decls = st.decls ∧ name ∈ st'.sets ∧
      (∀ found, found ∈ st'.members.of name ↔ found ∈ st.members.of name ∨ identifier = found) ∧
      (added = false → st' = st) := by
  have joined (found : String) : found ∈ (st.members.add name identifier).1.of name ↔
      found ∈ st.members.of name ∨ identifier = found := by simp [Members.mem_add]
  obtain ⟨known, -, ⟨-, rfl, same⟩ | ⟨rfl, row, rfl⟩⟩ := State.addSetDeclaration_ok accepted
  · rw [same] at joined
    exact ⟨.refl, rfl, known, joined, fun _ => rfl⟩
  · refine ⟨⟨rfl, rfl, fun other apart => ?_, fun other apart found => ?_, fun _ _ => rfl,
      fun _ _ => rfl⟩, rfl, by simp, joined, by simp⟩
    · simp [Std.ExtTreeMap.getElem?_insert, apart.symm]
    · simp [Members.mem_add, apart.symm]

theorem removeSetDeclaration_published {removed : Bool}
    (accepted : st.removeSetDeclaration name identifier = .ok (st', removed)) :
    Apart name published st st' ∧ st'.decls = st.decls ∧ st'.sets = st.sets ∧
      ∀ found, found ∈ st'.members.of name ↔ found ∈ st.members.of name ∧ identifier ≠ found := by
  simp only [State.removeSetDeclaration, bind_ok, validName_ok, reject_ok, pure_ok,
    Prod.mk.injEq] at accepted
  obtain ⟨_, -, _, -, _, -, rfl, -⟩ := accepted
  refine ⟨⟨rfl, rfl, fun _ _ => rfl, fun other apart found => ?_, fun _ _ => rfl, fun _ _ => rfl⟩,
    rfl, rfl, fun found => ?_⟩
  · simp [Members.mem_remove, apart.symm]
  · simp [Members.mem_remove]

theorem recordAffected_published {identifiers sets : List String} {reason : String}
    (accepted : st.recordAffected identifiers sets reason now = .ok st') :
    Apart name published st st' ∧ st'.decls = st.decls ∧ st'.sets = st.sets ∧
      st'.members = st.members := by
  simp only [State.recordAffected, bind_ok] at accepted
  obtain ⟨ids, -, accepted⟩ := accepted
  split at accepted
  · obtain rfl : st = st' := Except.ok.inj accepted
    exact ⟨.refl, rfl, rfl, rfl⟩
  · next listed =>
    obtain ⟨-, rfl⟩ := State.recordChanges_ok accepted
    clear accepted listed
    induction ids using List.reverseRecOn with
    | nil => exact ⟨.refl, rfl, rfl, rfl⟩
    | append_singleton ids id ih =>
      rw [List.foldl_append]
      obtain ⟨apart, decls, sets, members⟩ := ih
      exact ⟨⟨apart.enrollSets, apart.enrollDecls, apart.sets, apart.members, apart.decls,
        apart.versions⟩, decls, sets, members⟩

theorem publishDeclaration_replacing
    (replacing : Replacing name published st done wanted p) (listed : d.identifier ∈ published)
    (fresh : d.identifier ∉ done.map (·.identifier))
    (accepted : publishDeclaration name now p d = .ok p') :
    Replacing name published st (done ++ [d])
      (fun identifier => wanted identifier ∨ d.identifier = identifier) p' := by
  simp only [publishDeclaration, bind_ok, pure_ok, Prod.exists] at accepted
  obtain ⟨old, -, mid, changed, put, store, added, joined, rfl⟩ := accepted
  obtain ⟨apart, current, revised, sets, members, others, same⟩ :=
    putDeclaration_published (by exact listed) put
  obtain ⟨apart', decls, known, joined, same'⟩ := addSetDeclaration_published joined
  have new (other : Declaration) (before : other ∈ done) : other.identifier ≠ d.identifier :=
    fun same => fresh (same ▸ List.mem_map_of_mem before)
  constructor
  · exact (replacing.apart.trans apart).trans apart'
  · exact known
  · intro other member
    rcases List.mem_append.1 member with before | last
    · have row := replacing.rows other before
      refine ⟨row.named, row.tokened, ?_⟩
      rw [decls, others _ (new other before)]
      exact row.row
    · obtain rfl := List.mem_singleton.1 last
      refine ⟨current.named, current.tokened, ?_⟩
      rw [decls]
      exact current.row
  · intro other member
    unfold Revised
    rcases List.mem_append.1 member with before | last
    · rw [decls, others _ (new other before)]
      exact replacing.written other before
    · obtain rfl := List.mem_singleton.1 last
      rw [decls, ← replacing.pending _ fresh]
      exact revised
  · intro identifier absent
    rw [List.map_append, List.mem_append, not_or, List.map_singleton, List.mem_singleton] at absent
    rw [decls, others _ absent.2, replacing.pending _ absent.1]
  · intro identifier
    rw [joined, members, replacing.members]
  · simp [replacing.refs, Declaration.ref]
  · intro unchanged
    simp only [Bool.or_eq_false_iff] at unchanged
    obtain ⟨⟨before, first⟩, second⟩ := unchanged
    rw [same' second, same first, replacing.unchanged before]

theorem dropMember_replacing (replacing : Replacing name published st done wanted p)
    (accepted : dropMember name published p identifier = .ok p') :
    Replacing name published st done
      (fun found => wanted found ∧ (identifier = found → found ∈ published)) p' := by
  unfold dropMember at accepted
  split at accepted
  · next seen =>
    obtain rfl : p = p' := Except.ok.inj accepted
    refine { replacing with members := fun found => ?_ }
    rw [replacing.members]
    exact ⟨fun there => ⟨there, fun same => same ▸ seen⟩, And.left⟩
  · next unseen =>
    simp only [bind_ok, pure_ok, Prod.exists] at accepted
    obtain ⟨store, removed, accepted, rfl⟩ := accepted
    obtain ⟨apart, decls, sets, members⟩ := removeSetDeclaration_published accepted
    refine ⟨replacing.apart.trans apart, ?_, fun d member => ?_, fun d member => ?_,
      decls ▸ replacing.pending, fun found => ?_, replacing.refs, by simp⟩
    · exact sets ▸ replacing.set
    · have row := replacing.rows d member
      exact ⟨row.named, row.tokened, decls ▸ row.row⟩
    · have revised := replacing.written d member
      unfold Revised at revised ⊢
      rwa [decls]
    · rw [members, replacing.members]
      refine and_congr_right fun _ => ⟨fun other same => absurd same other, fun kept same => ?_⟩
      exact unseen (same ▸ kept same)

theorem publishAll_replacing
    (distinct : (decls.map (·.identifier)).Nodup) (apart : Apart name published st mid)
    (known : name ∈ mid.sets) (rows : mid.decls = st.decls) (same : mid.members = st.members)
    (unchanged : created = false → mid = st)
    (listed : ∀ d ∈ decls, d.identifier ∈ published)
    (ran : decls.foldlM (publishDeclaration name now) { store := mid, changed := created } = .ok p) :
    Replacing name published st decls
      (fun found => found ∈ st.members.of name ∨ found ∈ decls.map (·.identifier)) p := by
  refine foldlM_loaded (fun p done => Replacing name published st done
    (fun found => found ∈ st.members.of name ∨ found ∈ done.map (·.identifier)) p) _ ?_ ?_ ran
  · intro p done d rest p' split replacing accepted
    rw [split, List.map_append, List.map_cons] at distinct
    have fresh : d.identifier ∉ done.map (·.identifier) := fun again =>
      List.disjoint_of_nodup_append distinct again (by simp)
    have next := publishDeclaration_replacing replacing (listed d (by simp [split])) fresh accepted
    refine { next with members := fun found => ?_ }
    rw [next.members, List.map_append, List.mem_append, or_assoc, List.map_singleton,
      List.mem_singleton, eq_comm (a := found)]
  · exact ⟨apart, known, by simp, by simp, fun _ _ => by rw [rows], by simp [same], rfl, unchanged⟩

variable {previous : List String}

theorem dropAll_replacing (replacing : Replacing name published st done
      (fun found => found ∈ previous ∨ found ∈ published) p)
    (ran : previous.foldlM (dropMember name published) p = .ok p') :
    Replacing name published st done (· ∈ published) p' := by
  have dropped := foldlM_loaded (fun p gone => Replacing name published st done
    (fun found => (found ∈ previous ∨ found ∈ published) ∧ (found ∈ gone → found ∈ published)) p) p
    ?_ ?_ ran
  · refine { dropped with members := fun found => ?_ }
    rw [dropped.members]
    exact ⟨fun there => there.1.elim there.2 id, fun there => ⟨.inr there, fun _ => there⟩⟩
  · intro p gone identifier rest p' _ replacing accepted
    have next := dropMember_replacing replacing accepted
    refine { next with members := fun found => ?_ }
    rw [next.members, and_assoc, List.mem_append, List.mem_singleton, or_imp, eq_comm (a := found)]
  · simpa using replacing

theorem publishSetTx_ok {publication : SetPublication Raw} {result : PublishResult}
    (accepted : publishSetTx e publication now st = .ok (st', result)) :
    ∃ decls p, e.parseAll [] publication.declarations = .ok decls ∧ publication.name ≠ "" ∧
      Replacing publication.name (decls.map (·.identifier)) st (sortDeclarations decls)
        (· ∈ decls.map (·.identifier)) p ∧
      notifyPublished publication.name now p = .ok st' ∧
      result = ⟨publication.name, p.changed, sortRefs p.refs⟩ := by
  simp only [publishSetTx, bind_ok, pure_ok, Prod.exists, Prod.mk.injEq, validName_ok,
    reject_ok] at accepted
  obtain ⟨_, named, decls, parsed, _, -, mid, created, put, previous, before, p, ran, p', dropped,
    store, notified, rfl, rfl⟩ := accepted
  obtain ⟨apart, -, known, rows, members, same⟩ := putSet_published put
  obtain ⟨-, distinct, -⟩ := parseAll_ok parsed
  have sorted : (sortDeclarations decls).Perm decls := List.perm_insertionSort _ _
  have replacing := publishAll_replacing ((sorted.map _).nodup_iff.2 distinct) apart known rows
    members same (fun d member => List.mem_map_of_mem (sorted.mem_iff.1 member)) ran
  simp only [State.setDeclarations, bind_ok, pure_ok] at before
  obtain ⟨_, -, _, -, rfl⟩ := before
  refine ⟨decls, p', parsed, named, dropAll_replacing ?_ dropped, notified, rfl⟩
  refine { replacing with members := fun found => ?_ }
  rw [replacing.members, Std.ExtTreeSet.mem_toList, members, (sorted.map _).mem_iff]

theorem publishDeclaration_again {refs : List DeclarationRef} (named : name ≠ "")
    (known : name ∈ st.sets) (current : Current d st) (member : d.identifier ∈ st.members.of name) :
    publishDeclaration name now ⟨st, false, [], refs⟩ d =
      .ok ⟨st, false, [], refs ++ [d.ref]⟩ := by
  obtain ⟨row, there, kind, token⟩ := current.row
  obtain ⟨set, found⟩ := Option.isSome_iff_exists.1 (Std.ExtTreeMap.mem_iff_isSome_getElem?.1 known)
  have listed : d.identifier ∈ st.decls :=
    Std.ExtTreeMap.mem_iff_isSome_getElem?.2 (by simp [there])
  have old : st.findDeclaration d.identifier = .ok (some row) := by
    simp only [State.findDeclaration, State.getDeclaration, validName, reject, current.named,
      if_false, ok_bind, there]
    rfl
  have put (createdAt : Time) : st.putDeclaration
      (some { d with createdAt := createdAt, updatedAt := now }) = .ok (st, false) := by
    simp only [State.putDeclaration, validName, reject, current.named, current.tokened, if_false,
      ok_bind, there, Option.any_some, kind, token]
    simp [pure, Except.pure]
  have added : st.addSetDeclaration name d.identifier now = .ok (st, false) := by
    simp only [State.addSetDeclaration, validName, reject, named, current.named, if_false, ok_bind,
      found, listed, not_true, Members.add, member, if_true, Bool.false_eq_true]
    rfl
  simp only [publishDeclaration, old, put, added, ok_bind]
  rfl

theorem publishAll_again (now : Time) (named : name ≠ "") (known : name ∈ st.sets)
    (current : ∀ d ∈ decls, Current d st ∧ d.identifier ∈ st.members.of name)
    (refs : List DeclarationRef) :
    decls.foldlM (publishDeclaration name now) ⟨st, false, [], refs⟩ =
      .ok ⟨st, false, [], refs ++ decls.map (·.ref)⟩ := by
  induction decls generalizing refs with
  | nil => simp
  | cons d rest ih =>
    obtain ⟨row, member⟩ := current d (by simp)
    rw [List.foldlM_cons, publishDeclaration_again named known row member, ok_bind,
      ih fun d later => current d (List.mem_cons_of_mem _ later)]
    simp

theorem dropAll_again (kept : ∀ found ∈ previous, found ∈ published) :
    previous.foldlM (dropMember name published) p = .ok p := by
  induction previous with
  | nil => rfl
  | cons identifier rest ih =>
    rw [List.foldlM_cons, dropMember, if_pos (kept identifier (by simp))]
    exact ih fun found later => kept found (List.mem_cons_of_mem _ later)

theorem Replacing.again {publication : SetPublication Raw}
    (replacing : Replacing publication.name (decls.map (·.identifier)) mid (sortDeclarations decls)
      (· ∈ decls.map (·.identifier)) p)
    (parsed : e.parseAll [] publication.declarations = .ok decls) (named : publication.name ≠ "")
    (now : Time) : publishSetTx e publication now p.store =
      .ok (p.store, ⟨publication.name, false, sortRefs p.refs⟩) := by
  have sorted : (sortDeclarations decls).Perm decls := List.perm_insertionSort _ _
  have all := publishAll_again now named replacing.set (fun d member =>
    ⟨replacing.rows d member, (replacing.members _).2
      (List.mem_map_of_mem (sorted.mem_iff.1 member))⟩) []
  have put : p.store.putSet publication.name now = .ok (p.store, false) := by
    simp [State.putSet, validName, reject, named, replacing.set, pure, Except.pure]
  have members : p.store.setDeclarations publication.name =
      .ok (p.store.members.of publication.name).toList := by
    simp [State.setDeclarations, validName, reject, named, replacing.set, pure, Except.pure]
  have kept : ∀ found ∈ (p.store.members.of publication.name).toList,
      found ∈ decls.map (·.identifier) := fun found there =>
    (replacing.members found).1 (Std.ExtTreeSet.mem_toList.1 there)
  simp only [publishSetTx, reject, named, if_false, parsed, validName, put, members, ok_bind, all,
    dropAll_again kept, notifyPublished, Bool.false_eq_true, List.nil_append, replacing.refs]
  rfl

structure PublishedExactly (name : String) (decls : List Declaration) (st st' : State) : Prop where
  members : ∀ identifier, identifier ∈ st'.members.of name ↔ identifier ∈ decls.map (·.identifier)
  revisions : ∀ d ∈ decls, ∃ row, st'.decls[d.identifier]? = some row ∧ row.kind = d.kind ∧
    row.serverToken = d.serverToken ∧
      (row.type = d.type ∧ row.canonical = d.canonical ∨ st.decls[d.identifier]? = some row)
  apart : Apart name (decls.map (·.identifier)) st st'

theorem Replacing.notified (replacing : Replacing name published st decls wanted p)
    (accepted : notifyPublished name now p = .ok st') :
    Replacing name published st decls wanted { p with store := st' } := by
  unfold notifyPublished at accepted
  split at accepted
  · next changed =>
    obtain ⟨apart, rows, sets, members⟩ := recordAffected_published accepted
    refine ⟨replacing.apart.trans apart, sets ▸ replacing.set, fun d member => ?_,
      fun d member => ?_, rows ▸ replacing.pending, ?_, replacing.refs, by simp [changed]⟩
    · have row := replacing.rows d member
      exact ⟨row.named, row.tokened, rows ▸ row.row⟩
    · have revised := replacing.written d member
      unfold Revised at revised ⊢
      rwa [rows]
    · rw [members]
      exact replacing.members
  · obtain rfl : p.store = st' := Except.ok.inj accepted
    exact replacing

theorem Replacing.revision (replacing : Replacing name published st done wanted p)
    (member : d ∈ done) : ∃ row, p.store.decls[d.identifier]? = some row ∧ row.kind = d.kind ∧
      row.serverToken = d.serverToken ∧
        (row.type = d.type ∧ row.canonical = d.canonical ∨ st.decls[d.identifier]? = some row) := by
  obtain ⟨row, there, kind, token⟩ := (replacing.rows d member).row
  refine ⟨row, there, kind, token, ?_⟩
  rcases replacing.written d member with same | ⟨createdAt, updatedAt, new⟩
  · exact .inr (same ▸ there)
  · obtain rfl := Option.some.inj (there.symm.trans new)
    exact .inl ⟨rfl, rfl⟩

theorem publishSet_exact (e : Publisher Raw) (publication : SetPublication Raw) (now : Time)
    (st : State) :
    (∀ st' result, publishSet e publication now st = (st', .ok result) →
      (∃ decls, List.Forall₂ (fun raw d => e.parseDeclaration raw = .ok d)
          publication.declarations decls ∧
        PublishedExactly publication.name decls st st') ∧
      (∀ later, publishSet e publication later st' =
        (st', .ok { result with changed := false })) ∧
      (result.changed = false → st' = st)) ∧
    ∀ st' error, publishSet e publication now st = (st', .error error) → st' = st := by
  constructor
  · intro st' result published
    unfold publishSet at published
    split at published
    · next found result' accepted =>
      obtain ⟨rfl, same⟩ := Prod.mk.inj published
      obtain rfl := Except.ok.inj same
      obtain ⟨decls, p, parsed, named, replacing, notified, rfl⟩ := publishSetTx_ok accepted
      have done := replacing.notified notified
      have sorted : (sortDeclarations decls).Perm decls := List.perm_insertionSort _ _
      refine ⟨⟨decls, (parseAll_ok parsed).1, done.members, fun d member => ?_, done.apart⟩,
        fun later => ?_, done.unchanged⟩
      · exact done.revision (sorted.mem_iff.2 member)
      · rw [publishSet, done.again parsed named later]
    · cases (Prod.mk.inj published).2
  · intro st' error failed
    unfold publishSet at failed
    split at failed
    · cases (Prod.mk.inj failed).2
    · exact (Prod.mk.inj failed).1.symm

def samplePublisher : Publisher Declaration where
  parseDeclaration := .ok
  validatePredicate _ := .ok ()

def passcode (identifier token : String) (canonical : Bytes) : Declaration :=
  { identifier, type := "com.apple.configuration.passcode.settings", kind := .configuration,
    serverToken := token, canonical }

def samplePublications : List (SetPublication Declaration) :=
  [⟨"s", [passcode "a" "1" [1], passcode "b" "1" [2]]⟩,
    ⟨"s", [passcode "c" "1" [3], passcode "a" "2" [4]]⟩]

-- The second publication gives "a" a new revision, brings "c" and drops "b".
def sampleSets (count : Nat) : State :=
  (samplePublications.take count).foldl
    (fun st publication => (publishSet samplePublisher publication 7 st).1) {}

theorem publishSet_sample :
    publishSet samplePublisher samplePublications[1] 7 (sampleSets 1) =
      (sampleSets 2, .ok ⟨"s", true,
        [⟨.configuration, "a", "2"⟩, ⟨.configuration, "c", "1"⟩]⟩) ∧
    (∃ decls, List.Forall₂ (fun raw d => samplePublisher.parseDeclaration raw = .ok d)
        samplePublications[1].declarations decls ∧
      PublishedExactly "s" decls (sampleSets 1) (sampleSets 2)) ∧
    publishSet samplePublisher samplePublications[1] 9 (sampleSets 2) =
      (sampleSets 2, .ok ⟨"s", false,
        [⟨.configuration, "a", "2"⟩, ⟨.configuration, "c", "1"⟩]⟩) := by
  have published : publishSet samplePublisher samplePublications[1] 7 (sampleSets 1) =
      (sampleSets 2, .ok ⟨"s", true,
        [⟨.configuration, "a", "2"⟩, ⟨.configuration, "c", "1"⟩]⟩) :=
    Prod.ext rfl (by decide +kernel)
  obtain ⟨exact_, again, -⟩ := (publishSet_exact samplePublisher samplePublications[1] 7
    (sampleSets 1)).1 _ _ published
  exact ⟨published, exact_, again 9⟩

end AppleDM.Ddm
