import AppleDM.Ddm.Step

set_option autoImplicit false

namespace AppleDM.Ddm

open Mdm Checked Run

namespace State

structure Integrity (st : State) : Prop where
  members : ∀ set identifier, identifier ∈ st.members.of set → set ∈ st.sets ∧ identifier ∈ st.decls
  enrollSets : ∀ key set, set ∈ st.enrollSets.of key → set ∈ st.sets ∧ key ∈ st.ids
  enrollDecls : ∀ key identifier, identifier ∈ st.enrollDecls.of key →
    identifier ∈ st.decls ∧ key ∈ st.ids
  tidy : st.members.Tidy ∧ st.enrollSets.Tidy ∧ st.enrollDecls.Tidy
  decls : Table.Keyed (fun d : Declaration => d.identifier) st.decls
  ids : Table.Keyed (fun id : EnrollmentID => id.id) st.ids

def Remembers (st st' : State) : Prop :=
  ∀ (key : String) id, st.ids[key]? = some id → st'.ids[key]? = some id

variable {st st' : State} {id : EnrollmentID}

theorem Remembers.rfl : Remembers st st := fun _ _ there => there

theorem Remembers.trans {mid : State} (first : Remembers st mid) (second : Remembers mid st') :
    Remembers st st' := fun key id there => second key id (first key id there)

theorem Remembers.of_eq (same : st'.ids = st.ids) : Remembers st st' := by
  intro key id there
  rwa [same]

theorem remembers_insert {mid : State} (valid : st.validID id = .ok ())
    (remembers : Remembers st mid) (same : st'.ids = mid.ids.insert id.id id) :
    Remembers st st' := by
  intro key found there
  rw [same, Std.ExtTreeMap.getElem?_insert]
  split
  · next own =>
    obtain rfl : id.id = key := by simpa using own
    rw [(validID_ok.1 valid).2 found there]
  · exact remembers key found there

theorem mem_insert {V : Type} {table : Table String V} {value : V} (key found : String)
    (there : found ∈ table) : found ∈ table.insert key value :=
  Std.ExtTreeMap.mem_insert.2 (.inr there)

theorem mem_erase {V : Type} {table : Table String V} (key found : String)
    (there : found ∈ table ∧ key ≠ found) : found ∈ table.erase key :=
  Std.ExtTreeMap.mem_erase.2 ⟨by simpa using there.2, there.1⟩

theorem Integrity.of_linked
    (members : Members.Linked (· ∈ st.sets) (· ∈ st.decls) st.members)
    (enrollSets : Members.Linked (· ∈ st.ids) (· ∈ st.sets) st.enrollSets)
    (enrollDecls : Members.Linked (· ∈ st.ids) (· ∈ st.decls) st.enrollDecls)
    (decls : Table.Keyed (fun d : Declaration => d.identifier) st.decls)
    (ids : Table.Keyed (fun id : EnrollmentID => id.id) st.ids) : st.Integrity :=
  ⟨members.known, fun key set there => (enrollSets.known key set there).symm,
    fun key identifier there => (enrollDecls.known key identifier there).symm,
    ⟨members.tidy, enrollSets.tidy, enrollDecls.tidy⟩, decls, ids⟩

theorem Integrity.linked (integrity : st.Integrity) :
    Members.Linked (· ∈ st.sets) (· ∈ st.decls) st.members ∧
      Members.Linked (· ∈ st.ids) (· ∈ st.sets) st.enrollSets ∧
      Members.Linked (· ∈ st.ids) (· ∈ st.decls) st.enrollDecls :=
  ⟨⟨integrity.members, integrity.tidy.1⟩,
    ⟨fun key set there => (integrity.enrollSets key set there).symm, integrity.tidy.2.1⟩,
    ⟨fun key identifier there => (integrity.enrollDecls key identifier there).symm,
      integrity.tidy.2.2⟩⟩

theorem recorded {ids : List EnrollmentID} (reason : String) (atTime : Time) {current : State}
    (valid : ∀ id ∈ ids, st.validID id = .ok ()) (integrity : current.Integrity)
    (remembers : Remembers st current) :
    (ids.foldl (recordChange reason atTime) current).Integrity ∧
      Remembers st (ids.foldl (recordChange reason atTime) current) := by
  induction ids generalizing current with
  | nil => exact ⟨integrity, remembers⟩
  | cons id rest ih =>
    obtain ⟨members, sets, decls⟩ := integrity.linked
    exact ih (fun id member => valid id (List.mem_cons_of_mem _ member))
      (.of_linked members (sets.owners_mono (mem_insert _)) (decls.owners_mono (mem_insert _))
        integrity.decls (integrity.ids.insert rfl))
      (remembers_insert (valid id List.mem_cons_self) remembers rfl)

theorem apply_kept {op : Op} (integrity : st.Integrity) (accepted : st.apply op = .ok st') :
    st'.Integrity ∧ Remembers st st' := by
  obtain ⟨members, sets, decls⟩ := integrity.linked
  cases op <;>
    simp only [apply, map_ok, Prod.exists, exists_and_right, exists_eq_right] at accepted
  case putDeclaration d =>
    obtain ⟨changed, accepted⟩ := accepted
    obtain ⟨row, rfl, -, -, -, ⟨-, rfl, -⟩ | ⟨-, -, createdAt, rfl⟩⟩ := putDeclaration_ok accepted
    · exact ⟨integrity, .rfl⟩
    · exact ⟨.of_linked (members.keys_mono (mem_insert _)) sets (decls.keys_mono (mem_insert _))
        (integrity.decls.insert rfl) integrity.ids, .of_eq rfl⟩
  case deleteDeclaration identifier =>
    simp only [deleteDeclaration, bind_ok, pure_ok] at accepted
    obtain ⟨_, -, _, -, rfl⟩ := accepted
    exact ⟨.of_linked (members.removeEverywhere.keys_mono (mem_erase _)) sets
      (decls.removeEverywhere.keys_mono (mem_erase _)) integrity.decls.erase integrity.ids, .of_eq rfl⟩
  case putSet name atTime =>
    obtain ⟨created, accepted⟩ := accepted
    obtain ⟨-, ⟨-, rfl, -⟩ | ⟨-, rfl⟩⟩ := putSet_ok accepted
    · exact ⟨integrity, .rfl⟩
    · exact ⟨.of_linked (members.owners_mono (mem_insert _)) (sets.keys_mono (mem_insert _)) decls
        integrity.decls integrity.ids, .of_eq rfl⟩
  case deleteSet name =>
    simp only [deleteSet, bind_ok, pure_ok] at accepted
    obtain ⟨_, -, _, -, rfl⟩ := accepted
    exact ⟨.of_linked (members.erase.owners_mono (mem_erase _))
      (sets.removeEverywhere.keys_mono (mem_erase _)) decls integrity.decls integrity.ids, .of_eq rfl⟩
  case addSetDeclaration set identifier atTime =>
    obtain ⟨changed, accepted⟩ := accepted
    obtain ⟨known, there, ⟨-, rfl, -⟩ | ⟨-, row, rfl⟩⟩ := addSetDeclaration_ok accepted
    · exact ⟨integrity, .rfl⟩
    · exact ⟨.of_linked ((members.add known there).owners_mono (mem_insert _))
        (sets.keys_mono (mem_insert _)) decls integrity.decls integrity.ids, .of_eq rfl⟩
  case removeSetDeclaration set identifier =>
    obtain ⟨changed, accepted⟩ := accepted
    simp only [removeSetDeclaration, bind_ok, pure_ok, Prod.mk.injEq] at accepted
    obtain ⟨_, -, _, -, _, -, rfl, -⟩ := accepted
    exact ⟨.of_linked members.remove sets decls integrity.decls integrity.ids, .of_eq rfl⟩
  case assignSet id set =>
    obtain ⟨changed, accepted⟩ := accepted
    simp only [assignSet, bind_ok, reject_ok, not_not, pure_ok, Prod.mk.injEq] at accepted
    obtain ⟨_, valid, _, -, _, known, rfl, -⟩ := accepted
    exact ⟨.of_linked members
      ((sets.owners_mono (mem_insert _)).add Std.ExtTreeMap.mem_insert_self known)
      (decls.owners_mono (mem_insert _)) integrity.decls (integrity.ids.insert rfl),
      remembers_insert valid .rfl rfl⟩
  case unassignSet id set =>
    obtain ⟨changed, accepted⟩ := accepted
    simp only [unassignSet, bind_ok, pure_ok, Prod.mk.injEq] at accepted
    obtain ⟨_, -, _, -, rfl, -⟩ := accepted
    exact ⟨.of_linked members sets.remove decls integrity.decls integrity.ids, .of_eq rfl⟩
  case assignDeclaration id identifier =>
    obtain ⟨changed, accepted⟩ := accepted
    simp only [assignDeclaration, bind_ok, reject_ok, not_not, pure_ok, Prod.mk.injEq] at accepted
    obtain ⟨_, valid, _, -, _, known, rfl, -⟩ := accepted
    exact ⟨.of_linked members (sets.owners_mono (mem_insert _))
      ((decls.owners_mono (mem_insert _)).add Std.ExtTreeMap.mem_insert_self known)
      integrity.decls (integrity.ids.insert rfl), remembers_insert valid .rfl rfl⟩
  case unassignDeclaration id identifier =>
    obtain ⟨changed, accepted⟩ := accepted
    simp only [unassignDeclaration, bind_ok, pure_ok, Prod.mk.injEq] at accepted
    obtain ⟨_, -, _, -, rfl, -⟩ := accepted
    exact ⟨.of_linked members sets decls.remove integrity.decls integrity.ids, .of_eq rfl⟩
  case putSnapshot s =>
    unfold putSnapshot at accepted
    split at accepted
    · simp at accepted
    simp only [bind_ok, pure_ok] at accepted
    obtain ⟨_, valid, _, -, rfl⟩ := accepted
    exact ⟨.of_linked members (sets.owners_mono (mem_insert _)) (decls.owners_mono (mem_insert _))
      integrity.decls (integrity.ids.insert rfl), remembers_insert valid .rfl rfl⟩
  case putStatus id u =>
    obtain ⟨out, accepted⟩ := accepted
    obtain ⟨valid, ⟨seq, errors, rfl⟩, -⟩ := putStatus_ok accepted
    exact ⟨.of_linked members (sets.owners_mono (mem_insert _)) (decls.owners_mono (mem_insert _))
      integrity.decls (integrity.ids.insert rfl), remembers_insert valid .rfl rfl⟩
  case recordChanges ids reason atTime =>
    obtain ⟨valid, rfl⟩ := recordChanges_ok accepted
    exact recorded reason atTime valid integrity .rfl
  case clearEnrollment id =>
    simp only [clearEnrollment, bind_ok, pure_ok] at accepted
    obtain ⟨_, -, rfl⟩ := accepted
    exact ⟨.of_linked members (sets.erase.owners_mono fun _ => And.left)
      (decls.erase.owners_mono fun _ => And.left) integrity.decls integrity.ids, .of_eq rfl⟩
  all_goals
    obtain rfl := Except.ok.inj accepted
    exact ⟨.of_linked members sets decls integrity.decls integrity.ids, .of_eq rfl⟩

theorem empty_integrity : ({} : State).Integrity := by
  constructor <;> simp [Members.Tidy, Table.Keyed]

def Has (st : State) (key identifier : String) : Prop :=
  identifier ∈ st.enrollDecls.of key ∨
    ∃ set, set ∈ st.enrollSets.of key ∧ identifier ∈ st.members.of set

theorem mem_unions (members : String → KeySet String) (sets : List String) (start : KeySet String)
    (identifier : String) :
    identifier ∈ sets.foldl (fun out set => out.insertMany (members set).toList) start ↔
      identifier ∈ start ∨ ∃ set ∈ sets, identifier ∈ members set := by
  induction sets generalizing start with
  | nil => simp
  | cons set rest ih =>
    rw [List.foldl_cons, ih, Std.ExtTreeSet.mem_insertMany_list]
    simp [or_assoc]

theorem mem_staticIdentifiers (st : State) (key identifier : String) :
    identifier ∈ st.staticIdentifiers key ↔ st.Has key identifier := by
  rw [staticIdentifiers, mem_unions]
  simp [Has]

theorem declarationsByIdentifier_correct (integrity : st.Integrity) {names : KeySet String}
    (present : ∀ name ∈ names, name ∈ st.decls) :
    (st.declarationsByIdentifier names).map (·.identifier) = names.toList ∧
      ∀ d ∈ st.declarationsByIdentifier names, st.decls[d.identifier]? = some d := by
  have each : ∀ name ∈ names.toList, ∃ d, st.decls[name]? = some d ∧ d.identifier = name := by
    intro name member
    have there := present name (Std.ExtTreeSet.mem_toList.1 member)
    obtain ⟨d, found⟩ := Option.isSome_iff_exists.1 (Std.ExtTreeMap.mem_iff_isSome_getElem?.1 there)
    exact ⟨d, found, integrity.decls name d found⟩
  unfold declarationsByIdentifier
  constructor
  · generalize names.toList = list at each
    induction list with
    | nil => rfl
    | cons name rest ih =>
      obtain ⟨d, found, own⟩ := each name (by simp)
      simp [found, own, ih fun name member => each name (by simp [member])]
  · intro d member
    obtain ⟨name, inside, found⟩ := List.mem_filterMap.1 member
    have own : d.identifier = name := integrity.decls name d found
    rw [own, found]

theorem staticDeclarations_correct (integrity : st.Integrity) (valid : st.validID id = .ok ()) :
    ∃ found, st.staticDeclarations id = .ok found ∧
      found.Pairwise (fun a b => a.identifier < b.identifier) ∧
      (∀ identifier, identifier ∈ found.map (·.identifier) ↔ st.Has id.id identifier) ∧
      ∀ d ∈ found, st.decls[d.identifier]? = some d := by
  refine ⟨st.declarationsByIdentifier (st.staticIdentifiers id.id), ?_, ?_⟩
  · simp only [staticDeclarations, bind_ok, pure_ok]
    exact ⟨(), valid, trivial⟩
  have present : ∀ name ∈ st.staticIdentifiers id.id, name ∈ st.decls := by
    intro name member
    rcases (mem_staticIdentifiers st id.id name).1 member with direct | ⟨set, -, listed⟩
    · exact (integrity.enrollDecls id.id name direct).1
    · exact (integrity.members set name listed).2
  obtain ⟨names, rows⟩ := declarationsByIdentifier_correct integrity present
  refine ⟨?_, fun identifier => ?_, rows⟩
  · rw [← List.pairwise_map (f := fun d : Declaration => d.identifier), names]
    have ordered := Std.ExtTreeSet.ordered_toList (t := st.staticIdentifiers id.id)
    exact ordered.imp fun before => compareOfLessAndEq_eq_lt.1 before
  · rw [names, Std.ExtTreeSet.mem_toList, mem_staticIdentifiers]

theorem mem_setsContaining (st : State) (identifier set : String) :
    set ∈ st.setsContaining identifier ↔ identifier ∈ st.members.of set := by
  unfold setsContaining
  rw [Std.ExtTreeSet.mem_ofList, List.contains_iff_mem, List.mem_filter, decide_eq_true_eq,
    Std.ExtTreeMap.mem_keys]
  refine ⟨And.right, fun member => ⟨?_, member⟩⟩
  by_contra absent
  simp [Members.of, Std.ExtTreeMap.getElem?_eq_none absent] at member

theorem touches_correct (st : State) (key : String) (identifiers sets : List String) :
    (intersects (st.enrollSets.of key) (identifiers.foldl
        (fun names identifier => names.insertMany (st.setsContaining identifier).toList)
        (Std.ExtTreeSet.ofList sets compare)) || hasAny (st.enrollDecls.of key) identifiers) = true ↔
      (∃ identifier ∈ identifiers, st.Has key identifier) ∨
        ∃ set ∈ sets, set ∈ st.enrollSets.of key := by
  simp only [intersects, hasAny, Bool.or_eq_true, List.any_eq_true, decide_eq_true_eq,
    Std.ExtTreeSet.mem_toList, mem_unions, Std.ExtTreeSet.mem_ofList, List.contains_iff_mem,
    mem_setsContaining, Has]
  constructor
  · rintro (⟨set, assigned, named | ⟨identifier, asked, member⟩⟩ | ⟨identifier, asked, direct⟩)
    · exact .inr ⟨set, named, assigned⟩
    · exact .inl ⟨identifier, asked, .inr ⟨set, assigned, member⟩⟩
    · exact .inl ⟨identifier, asked, .inl direct⟩
  · rintro (⟨identifier, asked, direct | ⟨set, assigned, member⟩⟩ | ⟨set, named, assigned⟩)
    · exact .inr ⟨identifier, asked, direct⟩
    · exact .inl ⟨set, assigned, .inr ⟨identifier, asked, member⟩⟩
    · exact .inl ⟨set, assigned, .inl named⟩

theorem affectedEnrollments_correct (integrity : st.Integrity) {identifiers sets : List String}
    (named : ∀ name ∈ identifiers ++ sets, name ≠ "") :
    ∃ found, st.affectedEnrollments identifiers sets = .ok found ∧
      found.Nodup ∧ ∀ e, e ∈ found ↔ st.ids[e.id]? = some e ∧
        ((∃ identifier ∈ identifiers, st.Has e.id identifier) ∨
          ∃ set ∈ sets, set ∈ st.enrollSets.of e.id) := by
  simp only [affectedEnrollments, bind_ok, forM_ok, validName_ok, pure_ok]
  refine ⟨_, ⟨(), fun name asked => named name (by simp [asked]), (),
    fun name asked => named name (by simp [asked]), rfl⟩, ?_⟩
  constructor
  · rw [(List.perm_insertionSort _ _).nodup_iff, List.Nodup, List.pairwise_filterMap]
    have distinct := Std.ExtTreeMap.distinct_keys_toList (t := st.ids)
    refine distinct.imp_of_mem fun {a b} first second apart e chosen e' chosen' same => ?_
    rw [Std.ExtTreeMap.mem_toList_iff_getElem?_eq_some] at first second
    have ownA : a.2.id = a.1 := integrity.ids _ _ first
    have ownB : b.2.id = b.1 := integrity.ids _ _ second
    simp only [Option.ite_none_right_eq_some, Option.some.injEq] at chosen chosen'
    obtain ⟨-, rfl⟩ := chosen
    obtain ⟨-, rfl⟩ := chosen'
    exact apart (by rw [← ownA, ← ownB, same]; exact Std.ReflCmp.compare_self)
  intro e
  rw [List.mem_insertionSort, List.mem_filterMap]
  constructor
  · rintro ⟨⟨key, id⟩, listed, chosen⟩
    rw [Std.ExtTreeMap.mem_toList_iff_getElem?_eq_some] at listed
    simp only [Option.ite_none_right_eq_some, Option.some.injEq, touches_correct] at chosen
    obtain ⟨touched, rfl⟩ := chosen
    have own : id.id = key := integrity.ids key id listed
    rw [own]
    exact ⟨listed, touched⟩
  · rintro ⟨known, touched⟩
    refine ⟨(e.id, e), Std.ExtTreeMap.mem_toList_iff_getElem?_eq_some.2 known, ?_⟩
    simp only [(touches_correct st e.id identifiers sets).2 touched, if_true]

theorem step_kept (integrity : st.Integrity) (event : Event) :
    (st.step event).Integrity ∧ Remembers st (st.step event) := by
  refine step_invariant (fun now => now.Integrity ∧ Remembers st now) ?_
    ⟨integrity, Remembers.rfl⟩ event
  rintro now next op ⟨sound, remembers⟩ accepted
  obtain ⟨kept, further⟩ := apply_kept sound accepted
  exact ⟨kept, remembers.trans further⟩

theorem run_kept (integrity : st.Integrity) (events : List Event) :
    (run step st events).Integrity ∧ Remembers st (run step st events) := by
  refine run_invariant (fun now => now.Integrity ∧ Remembers st now) ?_
    ⟨integrity, Remembers.rfl⟩ events
  rintro now event ⟨sound, remembers⟩
  obtain ⟨kept, further⟩ := step_kept sound event
  exact ⟨kept, remembers.trans further⟩

theorem integrity_run (earlier later : List Event) :
    let before := run step {} earlier
    let st := run step {} (earlier ++ later)
    st.Integrity ∧ Remembers before st ∧
      (∀ id, st.validID id = .ok () →
        ∃ found, st.staticDeclarations id = .ok found ∧
          found.Pairwise (fun a b => a.identifier < b.identifier) ∧
          (∀ identifier, identifier ∈ found.map (·.identifier) ↔ st.Has id.id identifier) ∧
          ∀ d ∈ found, st.decls[d.identifier]? = some d) ∧
      ∀ identifiers sets, (∀ name ∈ identifiers ++ sets, name ≠ "") →
        ∃ found, st.affectedEnrollments identifiers sets = .ok found ∧ found.Nodup ∧
          ∀ e, e ∈ found ↔ st.ids[e.id]? = some e ∧
            ((∃ identifier ∈ identifiers, st.Has e.id identifier) ∨
              ∃ set ∈ sets, set ∈ st.enrollSets.of e.id) := by
  intro before st
  have sound := (run_kept empty_integrity earlier).1
  obtain ⟨integrity, remembers⟩ : st.Integrity ∧ Remembers before st := by
    have reached : st = run step before later := run_append step {} earlier later
    rw [reached]
    exact run_kept sound later
  exact ⟨integrity, remembers, fun id valid => staticDeclarations_correct integrity valid,
    fun identifiers sets named => affectedEnrollments_correct integrity named⟩

end State

end AppleDM.Ddm
