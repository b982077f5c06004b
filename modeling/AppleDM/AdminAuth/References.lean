import AppleDM.AdminAuth.Manager

set_option autoImplicit false

-- What policies and principals refer to: the roles and principals they name exist, as long as no
-- principal is deleted that a policy names.
namespace AppleDM.AdminAuth

open Checked Mdm Jsontext Evolution Run Manager

variable {Statement Context : Type} (cedar : Cedar Statement Context)

def Names (p : Policy) (kind id : String) : Prop :=
  ∃ names, references cedar p.source kind = .ok names ∧ id ∈ names

structure Resolved (s : Store) : Prop where
  assigned : ∀ (name : String) (r : Record), s.principals[name]? = some r →
    ∀ role ∈ r.p.roles, role ∈ s.roles
  roles : ∀ (name : String) (p : Policy), s.policies[name]? = some p →
    ∀ role, Names cedar p entityRole role → role ∈ s.roles
  principals : ∀ (name : String) (p : Policy), s.policies[name]? = some p →
    ∀ id, Names cedar p entityPrincipal id → id ∈ s.principals

def Unnamed (s : Store) (id : String) : Prop :=
  ∀ (name : String) (p : Policy), s.policies[name]? = some p → ¬ Names cedar p entityPrincipal id

def Careful (before after : Store) : Prop :=
  ∀ name, name ∈ before.principals → name ∉ after.principals → Unnamed cedar before name

variable {cedar} {s s' : Store} {change : PrincipalChange} {now : Time}

section Principals

variable {name : String} {names : List String}

theorem mem_sorted : name ∈ sorted names ↔ name ∈ names :=
  List.mem_insertionSort _

theorem mem_compact (member : name ∈ compact names) : name ∈ names :=
  (List.destutter_sublist _ names).subset member

theorem applied_roles {p : Principal} {r : Record} (applied : s.Applied name change now p s' r) :
    ∀ role ∈ p.roles, role ∈ r.p.roles ∨ role ∈ s.roles := by
  intro role member
  have done := applied.applied
  cases change with
  | update roles root =>
    simp only [PrincipalChange.apply, bind_ok, pure_ok] at done
    obtain ⟨_, -, rfl⟩ := done
    exact .inr ((Store.validateRoles_ok ()).1 applied.roles role (mem_sorted.1 (mem_compact member)))
  | rotate digest tokenID expiresAt =>
    simp only [PrincipalChange.apply, bind_ok, pure_ok] at done
    obtain ⟨_, -, rfl⟩ := done
    exact .inl member
  | revoke | delete =>
    obtain rfl := (pure_ok ..).1 done
    exact .inl member

theorem applied_resolved {p : Principal}
    {r : Record} (resolved : Resolved cedar s) (applied : s.Applied name change now p s' r)
    (careful : Careful cedar s s') : Resolved cedar s' where
  assigned key found there role member := by
    rw [applied.catalogue]
    rw [applied.wrote] at there
    split_ifs at there
    · obtain rfl := Option.some.inj there
      obtain old | new := applied_roles applied role member
      · exact resolved.assigned name r applied.found role old
      · exact new
    · exact resolved.assigned key found there role member
  roles key policy there role named := by
    rw [applied.catalogue]
    rw [applied.policies] at there
    exact resolved.roles key policy there role named
  principals key policy there id named := by
    rw [applied.policies] at there
    have old := resolved.principals key policy there id named
    by_contra gone
    exact careful id old gone key policy there named

theorem created_resolved {given p : Principal} {digest : String}
    (resolved : Resolved cedar s) (created : s.Created given digest now p s') :
    Resolved cedar s' where
  assigned key found there role member := by
    rw [created.catalogue]
    rw [created.wrote] at there
    obtain ⟨-, ⟨⟩⟩ | ⟨-, there⟩ := ite_eq_iff.1 there
    · rw [created.record] at member
      exact created.known role (mem_sorted.1 member)
    · exact resolved.assigned key found there role member
  roles key policy there role named := by
    rw [created.catalogue]
    rw [created.policies] at there
    exact resolved.roles key policy there role named
  principals key policy there id named := by
    rw [created.policies] at there
    have old := resolved.principals key policy there id named
    rw [Std.ExtTreeMap.mem_iff_isSome_getElem?] at old ⊢
    rw [created.wrote]
    split
    · rfl
    · exact old

end Principals

theorem validateReferences_ok {p : Policy} (valid : s.validateReferences cedar p = .ok ()) :
    (∀ role, Names cedar p entityRole role → role ∈ s.roles) ∧
      ∀ id, Names cedar p entityPrincipal id → id ∈ s.principals := by
  simp only [Store.validateReferences, bind_ok, Store.validateRoles_ok, forM_ok, reject_ok,
    not_not] at valid
  obtain ⟨roles, found, _, known, principals, found', known'⟩ := valid
  refine ⟨?_, ?_⟩
  · rintro role ⟨names, same, member⟩
    rw [found] at same
    exact known role (Except.ok.inj same ▸ member)
  · rintro id ⟨names, same, member⟩
    rw [found'] at same
    exact known' id (Except.ok.inj same ▸ member)

theorem putPolicy_resolved {doc out : Policy} (resolved : Resolved cedar s)
    (ran : s.putPolicy cedar doc now = .ok (out, s')) : Resolved cedar s' := by
  simp only [Store.putPolicy, bind_ok, pure_ok, Prod.mk.injEq] at ran
  obtain ⟨_, valid, -, rfl⟩ := ran
  obtain ⟨roles, principals⟩ := validateReferences_ok valid
  refine ⟨resolved.assigned, fun key policy there => ?_, fun key policy there => ?_⟩ <;>
    dsimp only at there <;> rw [getElem?_insert_eq] at there <;> split at there
  · obtain rfl := Option.some.inj there
    exact roles
  · exact resolved.roles key policy there
  · obtain rfl := Option.some.inj there
    exact principals
  · exact resolved.principals key policy there

variable {name : String}

theorem deletePolicy_resolved (resolved : Resolved cedar s)
    (ran : s.deletePolicy name = .ok s') : Resolved cedar s' := by
  simp only [Store.deletePolicy, bind_ok, pure_ok] at ran
  obtain ⟨_, -, rfl⟩ := ran
  have kept {key : String} {policy : Policy}
      (there : (s.policies.erase name)[key]? = some policy) : s.policies[key]? = some policy := by
    rw [getElem?_erase_eq] at there
    split at there
    · cases there
    · exact there
  exact ⟨resolved.assigned, fun key policy there => resolved.roles key policy (kept there),
    fun key policy there => resolved.principals key policy (kept there)⟩

theorem putRole_resolved {role out : Role} (resolved : Resolved cedar s)
    (ran : s.putRole role now = .ok (out, s')) : Resolved cedar s' := by
  simp only [Store.putRole, bind_ok, pure_ok, Prod.mk.injEq] at ran
  obtain ⟨_, -, -, rfl⟩ := ran
  have kept {name : String} {row : Role} (there : name ∈ s.roles) :
      name ∈ s.roles.insert role.name row :=
    Std.ExtTreeMap.mem_insert.2 (.inr there)
  exact ⟨fun name r there id member => kept (resolved.assigned name r there id member),
    fun name p there id named => kept (resolved.roles name p there id named), resolved.principals⟩

theorem deleteRole_resolved (resolved : Resolved cedar s)
    (ran : s.deleteRole cedar name = .ok s') : Resolved cedar s' := by
  simp only [Store.deleteRole, bind_ok, reject_ok, forM_ok, pure_ok] at ran
  obtain ⟨_, -, _, unassigned, _, unnamed, rfl⟩ := ran
  have kept {id : String} (there : id ∈ s.roles) (other : id ≠ name) : id ∈ s.roles.erase name :=
    Std.ExtTreeMap.mem_erase.2 ⟨by simpa using other.symm, there⟩
  refine ⟨fun key r there role member => ?_, fun key p there role named => ?_, resolved.principals⟩
  · refine kept (resolved.assigned key r there role member) ?_
    rintro rfl
    exact unassigned r (Table.mem_values.2 ⟨key, there⟩) member
  · refine kept (resolved.roles key p there role named) ?_
    rintro rfl
    obtain ⟨refs, found, absent⟩ := unnamed p (Table.mem_values.2 ⟨key, there⟩)
    obtain ⟨names, same, member⟩ := named
    rw [found] at same
    exact absent (Except.ok.inj same ▸ member)

section Runs

variable {reg : Registry} {hashes : Hashes} {w w' : World}

theorem effect_resolved {op : Op} (resolved : Resolved cedar w.store)
    (careful : Careful cedar w.store w'.store) (effect : Effect cedar hashes w op w') :
    Resolved cedar w'.store := by
  cases effect with
  | refused | dropped => exact resolved
  | bootstrapped drawn wrote => exact created_resolved resolved (Store.bootstrapPrincipal_ok wrote).2
  | created drawn wrote => exact created_resolved resolved (Store.createPrincipal_ok wrote)
  | rotated drawn wrote | updated wrote | revoked wrote | deleted wrote =>
    obtain ⟨r, applied⟩ := Store.applyPrincipal_ok wrote
    exact applied_resolved resolved applied careful
  | putPolicy wrote => exact putPolicy_resolved resolved wrote
  | deletePolicy wrote => exact deletePolicy_resolved resolved wrote
  | putRole wrote => exact putRole_resolved resolved wrote
  | deleteRole wrote => exact deleteRole_resolved resolved wrote

variable (cedar) in
structure Ungranted (before after : Store) : Prop where
  principal : ∀ name, name ∉ before.principals → name ∈ after.principals → Unnamed cedar after name
  role : ∀ name, name ∉ before.roles → name ∈ after.roles →
    (∀ (key : String) (p : Policy), after.policies[key]? = some p → ¬ Names cedar p entityRole name) ∧
      ∀ (key : String) (r : Record), after.principals[key]? = some r → name ∉ r.p.roles

theorem ungranted_same (principals : ∀ name, name ∈ s'.principals → name ∈ s.principals)
    (roles : ∀ name, name ∈ s'.roles → name ∈ s.roles) : Ungranted cedar s s' where
  principal name absent there := absurd (principals name there) absent
  role name absent there := absurd (roles name there) absent

theorem created_ungranted {given p : Principal} {digest : String}
    (resolved : Resolved cedar s) (created : s.Created given digest now p s') :
    Ungranted cedar s s' where
  principal name absent _ key policy there := by
    rw [created.policies] at there
    exact fun named => absent (resolved.principals key policy there name named)
  role name absent there := by
    rw [created.catalogue] at there
    exact absurd there absent

theorem applied_ungranted {p : Principal}
    {r : Record} (applied : s.Applied name change now p s' r) : Ungranted cedar s s' := by
  refine ungranted_same (fun key there => ?_) fun key there => applied.catalogue ▸ there
  rw [Std.ExtTreeMap.mem_iff_isSome_getElem?] at there ⊢
  rw [applied.wrote] at there
  split at there
  · next same => simp [same, applied.found]
  · exact there

theorem effect_ungranted {op : Op} (resolved : Resolved cedar w.store)
    (effect : Effect cedar hashes w op w') : Ungranted cedar w.store w'.store := by
  cases effect with
  | refused | dropped => exact ungranted_same (fun _ there => there) fun _ there => there
  | bootstrapped drawn wrote =>
    exact created_ungranted resolved (Store.bootstrapPrincipal_ok wrote).2
  | created drawn wrote => exact created_ungranted resolved (Store.createPrincipal_ok wrote)
  | rotated drawn wrote | updated wrote | revoked wrote | deleted wrote =>
    obtain ⟨r, applied⟩ := Store.applyPrincipal_ok wrote
    exact applied_ungranted applied
  | putPolicy wrote =>
    simp only [Store.putPolicy, bind_ok, pure_ok, Prod.mk.injEq] at wrote
    obtain ⟨_, -, -, rfl⟩ := wrote
    exact ungranted_same (fun _ there => there) fun _ there => there
  | deletePolicy wrote =>
    simp only [Store.deletePolicy, bind_ok, pure_ok] at wrote
    obtain ⟨_, -, rfl⟩ := wrote
    exact ungranted_same (fun _ there => there) fun _ there => there
  | putRole wrote =>
    simp only [Store.putRole, bind_ok, pure_ok, Prod.mk.injEq] at wrote
    obtain ⟨_, -, -, rfl⟩ := wrote
    refine ⟨fun name absent there => absurd there absent, fun name absent _ => ⟨?_, ?_⟩⟩
    · exact fun key p there named => absent (resolved.roles key p there name named)
    · exact fun key r there member => absent (resolved.assigned key r there name member)
  | deleteRole wrote =>
    simp only [Store.deleteRole, bind_ok, pure_ok] at wrote
    obtain ⟨_, -, _, -, _, -, rfl⟩ := wrote
    exact ungranted_same (fun _ there => there) fun _ there => (Std.ExtTreeMap.mem_erase.1 there).2

theorem empty_resolved : Resolved cedar {} where
  assigned name r there := by simp at there
  roles name p there := by simp at there
  principals name p there := by simp at there

theorem careful_run {ops : List Op}
    (careful : ∀ entry ∈ history (step cedar reg hashes) {} ops,
      Careful cedar entry.1.store (step cedar reg hashes entry.1 entry.2).store) :
    Named (run (step cedar reg hashes) {} ops).store ∧
      Resolved cedar (run (step cedar reg hashes) {} ops).store := by
  refine allowed_invariant
    (fun (w : World) op => Careful cedar w.store (step cedar reg hashes w op).store)
    (fun w => Named w.store ∧ Resolved cedar w.store) (fun w op careful ⟨named, resolved⟩ => ?_)
    ⟨empty_named, empty_resolved⟩ careful
  have effect : Effect cedar hashes w op (step cedar reg hashes w op) := step_effect named op
  exact ⟨effect_named named effect, effect_resolved resolved careful effect⟩

theorem careful_references (cedar : Cedar Statement Context) (reg : Registry) (hashes : Hashes)
    (ops : List Op)
    (careful : ∀ entry ∈ history (step cedar reg hashes) {} ops,
      Careful cedar entry.1.store (step cedar reg hashes entry.1 entry.2).store) :
    Resolved cedar (run (step cedar reg hashes) {} ops).store ∧
      ∀ op, Ungranted cedar (run (step cedar reg hashes) {} ops).store
        (run (step cedar reg hashes) {} (ops ++ [op])).store := by
  obtain ⟨named, resolved⟩ := careful_run careful
  refine ⟨resolved, fun op => ?_⟩
  rw [run_append]
  exact effect_ungranted resolved (step_effect named op)

end Runs

def grantText : String := "permit (principal == MDM::Principal::\"alice\", action, resource);"

def grantJSON : Value :=
  .object [("effect".toList, .string "permit".toList),
    ("principal".toList, .object [("op".toList, .string "==".toList),
      ("entity".toList, .object [("type".toList, .string "MDM::Principal".toList),
        ("id".toList, .string "alice".toList)])])]

def grantCedar : Cedar Unit Unit where
  parse source := if source = grantText then .ok [("policy0", ())] else .error "parse error"
  marshalJSON _ := .ok grantJSON
  marshalCedar _ := grantText.toList
  validatePolicy _ _ := .ok ()
  validateRequest _ := .ok ()
  authorize _ req := { allow := req.principal = ⟨entityPrincipal, "alice"⟩ }

def plainHashes : Hashes where
  crc32 _ := 0
  digest token := "#" ++ String.ofList token
  nonempty token := by simp [← String.toList_inj]

def superuser : Principal := { name := "root", root := true }

def create (name : String) (random : UInt8) : Op :=
  .createPrincipal superuser { name } 0 1 (List.replicate 30 random)

def grant : Op := .putPolicy superuser { name := "grant", source := grantText } 2

def grantRun (ops : List Op) : Store := (run (step grantCedar ⟨[], []⟩ plainHashes) {} ops).store

theorem grant_names {p : Policy} (source : p.source = grantText) (id : String) :
    Names grantCedar p entityPrincipal id ↔ id = "alice" := by
  have found : references grantCedar grantText entityPrincipal = .ok ["alice"] := by decide +kernel
  simp [Names, source, found]

theorem deleted_principal_dangles :
    ¬ Resolved grantCedar
        (grantRun [create "alice" 0, grant, .deletePrincipal superuser "alice" 3]) ∧
      ¬ Ungranted grantCedar
        (grantRun [create "alice" 0, grant, .deletePrincipal superuser "alice" 3])
        (grantRun [create "alice" 0, grant, .deletePrincipal superuser "alice" 3,
          create "alice" 1]) := by
  have gone : "alice" ∉
      (grantRun [create "alice" 0, grant, .deletePrincipal superuser "alice" 3]).principals := by
    decide +kernel
  refine ⟨fun resolved => gone (resolved.principals "grant"
    { name := "grant", source := grantText, createdAt := 2, updatedAt := 2 } (by decide +kernel)
    "alice" ((grant_names rfl _).2 rfl)), fun ungranted => ?_⟩
  exact ungranted.principal "alice" gone (by decide +kernel) "grant"
    { name := "grant", source := grantText, createdAt := 2, updatedAt := 2 } (by decide +kernel)
    ((grant_names rfl _).2 rfl)

def carefulOps : List Op :=
  [create "alice" 0, create "bob" 1, grant, .deletePrincipal { name := "bob" } "alice" 3,
    .deletePrincipal superuser "bob" 3]

theorem careful_references_grant :
    "alice" ∈ (grantRun carefulOps).principals ∧ "bob" ∉ (grantRun carefulOps).principals ∧
      Resolved grantCedar (grantRun carefulOps) := by
  refine ⟨by decide +kernel, by decide +kernel,
    (careful_references grantCedar ⟨[], []⟩ plainHashes _ fun entry member => ?_).1⟩
  have removed : ∀ entry ∈ history (step grantCedar ⟨[], []⟩ plainHashes) {} carefulOps,
      ∀ name ∈ entry.1.store.principals.keys,
        name ∈ (step grantCedar ⟨[], []⟩ plainHashes entry.1 entry.2).store.principals ∨
        name = "bob" ∧ entry.1.store.policies.toList =
          [("grant",
            { name := "grant", source := grantText, createdAt := 2, updatedAt := 2 })] := by
    decide +kernel
  intro name there gone key p stored named
  obtain kept | ⟨rfl, all⟩ := removed entry member name (Std.ExtTreeMap.mem_keys.2 there)
  · exact gone kept
  · have entry := Table.entry_cases all stored
    simp only [List.mem_singleton, Prod.mk.injEq] at entry
    rw [grant_names (by rw [entry.2])] at named
    exact absurd named (by decide)

end AppleDM.AdminAuth
