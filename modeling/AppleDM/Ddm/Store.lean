import AppleDM.Shared.Checked
import AppleDM.Ddm.Types

set_option autoImplicit false

namespace AppleDM.Ddm

open Mdm Checked

structure State where
  decls : Table String Declaration := ∅
  versions : Table (String × String) DeclarationVersion := ∅
  sets : Table String DeclarationSet := ∅
  members : Members String String := ∅
  ids : Table String EnrollmentID := ∅
  enrollSets : Members String String := ∅
  enrollDecls : Members String String := ∅
  snapshots : Table String Snapshot := ∅
  statusDecls : Table String (Table (Kind × String) DeclarationStatus) := ∅
  statusValues : Table String (Table String StatusValue) := ∅
  statusErrors : Table String (List StatusError) := ∅
  statusReports : Table String (List StatusReportRecord) := ∅
  changes : Table Nat Change := ∅
  seq : Nat := 0

def validName (what name : String) : Except Error Unit :=
  reject (name = "") (.invalid ("empty " ++ what))

@[simp] theorem validName_ok (what name : String) (done : Unit) :
    validName what name = .ok done ↔ name ≠ "" := by
  simp [validName]

namespace State

variable (st : State) (id : EnrollmentID)

def validID : Except Error Unit :=
  match id.validate with
  | .error reason => .error (.invalid reason)
  | .ok _ => reject ((st.ids[id.id]?).any (· ≠ id)) ⟨.notFound, ""⟩

def putDeclaration (d : Option Declaration) : Except Error (State × Bool) :=
  match d with
  | none => .error (.invalid "nil declaration")
  | some d => do
    validName "identifier" d.identifier
    validName "server token" d.serverToken
    let found := st.decls[d.identifier]?
    reject (found.any (·.kind ≠ d.kind))
      ⟨.conflict, "declaration " ++ d.identifier.quote ++ " is kind " ++
        ((found.map (·.kind.text)).getD "").quote ++ ", not " ++ d.kind.text.quote⟩
    if found.any (·.serverToken = d.serverToken) then pure (st, false)
    else
      let rec_ := { d with createdAt := (found.map (·.createdAt)).getD d.createdAt }
      let version : DeclarationVersion :=
        ⟨rec_.identifier, rec_.type, rec_.serverToken, rec_.canonical, rec_.updatedAt⟩
      pure
        ({ st with
            decls := st.decls.insert d.identifier rec_
            versions := st.versions.insertIfNew (d.identifier, d.serverToken) version }, true)

def getDeclaration (identifier : String) : Except Error Declaration := do
  validName "identifier" identifier
  match st.decls[identifier]? with
  | none => .error (.notFound "declaration" identifier)
  | some d => pure d

def deleteDeclaration (identifier : String) : Except Error State := do
  validName "identifier" identifier
  reject (identifier ∉ st.decls) (.notFound "declaration" identifier)
  pure
    { st with
      decls := st.decls.erase identifier
      versions := st.versions.filter fun key _ => key.1 ≠ identifier
      members := st.members.removeEverywhere identifier
      enrollDecls := st.enrollDecls.removeEverywhere identifier }

def retained (key : String × String) : Bool :=
  (st.decls[key.1]?).any (·.serverToken = key.2) ||
    st.snapshots.values.any fun s =>
      s.items.any fun item => item.identifier = key.1 && item.baseToken = key.2

def pruneVersions : State × Nat :=
  ({ st with versions := st.versions.filter fun key _ => st.retained key },
    (st.versions.keys.filter fun key => !st.retained key).length)

def putSet (name : String) (atTime : Time) : Except Error (State × Bool) := do
  validName "set name" name
  if name ∈ st.sets then pure (st, false)
  else pure ({ st with sets := st.sets.insert name ⟨name, atTime, atTime⟩ }, true)

def deleteSet (name : String) : Except Error State := do
  validName "set name" name
  reject (name ∉ st.sets) (.notFound "set" name)
  pure
    { st with
      sets := st.sets.erase name
      members := st.members.erase name
      enrollSets := st.enrollSets.removeEverywhere name }

def addSetDeclaration (set identifier : String) (atTime : Time) : Except Error (State × Bool) := do
  validName "set name" set
  validName "identifier" identifier
  match st.sets[set]? with
  | none => .error (.notFound "set" set)
  | some row =>
    reject (identifier ∉ st.decls) (.notFound "declaration" identifier)
    let (members, changed) := st.members.add set identifier
    if changed then
      pure ({ st with
        members := members
        sets := st.sets.insert set { row with updatedAt := atTime } }, true)
    else pure ({ st with members := members }, false)

def removeSetDeclaration (set identifier : String) : Except Error (State × Bool) := do
  validName "set name" set
  validName "identifier" identifier
  reject (set ∉ st.sets) (.notFound "set" set)
  let (members, changed) := st.members.remove set identifier
  pure ({ st with members := members }, changed)

def setDeclarations (set : String) : Except Error (List String) := do
  validName "set name" set
  reject (set ∉ st.sets) (.notFound "set" set)
  pure (st.members.of set).toList

def setsContaining (identifier : String) : KeySet String :=
  Std.ExtTreeSet.ofList (st.members.keys.filter fun name => identifier ∈ st.members.of name) compare

def assignSet (set : String) : Except Error (State × Bool) := do
  st.validID id
  validName "set name" set
  reject (set ∉ st.sets) (.notFound "set" set)
  let (enrollSets, changed) := st.enrollSets.add id.id set
  pure ({ st with ids := st.ids.insert id.id id, enrollSets := enrollSets }, changed)

def unassignSet (set : String) : Except Error (State × Bool) := do
  st.validID id
  validName "set name" set
  let (enrollSets, changed) := st.enrollSets.remove id.id set
  pure ({ st with enrollSets := enrollSets }, changed)

def assignDeclaration (identifier : String) : Except Error (State × Bool) := do
  st.validID id
  validName "identifier" identifier
  reject (identifier ∉ st.decls) (.notFound "declaration" identifier)
  let (enrollDecls, changed) := st.enrollDecls.add id.id identifier
  pure ({ st with ids := st.ids.insert id.id id, enrollDecls := enrollDecls }, changed)

def unassignDeclaration (identifier : String) : Except Error (State × Bool) := do
  st.validID id
  validName "identifier" identifier
  let (enrollDecls, changed) := st.enrollDecls.remove id.id identifier
  pure ({ st with enrollDecls := enrollDecls }, changed)

def staticIdentifiers (key : String) : KeySet String :=
  (st.enrollSets.of key).toList.foldl (fun out set => out.insertMany (st.members.of set).toList)
    (st.enrollDecls.of key)

def declarationsByIdentifier (ids : KeySet String) : List Declaration :=
  ids.toList.filterMap fun id => st.decls[id]?

def staticDeclarations : Except Error (List Declaration) := do
  st.validID id
  pure (st.declarationsByIdentifier (st.staticIdentifiers id.id))

def intersects (a b : KeySet String) : Bool := a.toList.any fun k => k ∈ b

def hasAny (set : KeySet String) (keys : List String) : Bool := keys.any fun k => k ∈ set

def compareEnrollmentIDs (a b : EnrollmentID) : Ordering :=
  (compare a.parentID b.parentID).then (compare a.id b.id)

def affectedEnrollments (identifiers sets : List String) : Except Error (List EnrollmentID) := do
  identifiers.forM (validName "identifier")
  sets.forM (validName "set name")
  let setNames := identifiers.foldl
    (fun names identifier => names.insertMany (st.setsContaining identifier).toList)
    (Std.ExtTreeSet.ofList sets compare)
  let out := st.ids.toList.filterMap fun (key, id) =>
    if intersects (st.enrollSets.of key) setNames || hasAny (st.enrollDecls.of key) identifiers then
      some id
    else none
  pure (out.insertionSort fun a b => compareEnrollmentIDs a b ≠ .gt)

def recordChange (reason : String) (atTime : Time) (st : State) (id : EnrollmentID) : State :=
  let seq := st.seq + 1
  { st with
    seq := seq
    ids := st.ids.insert id.id id
    changes := st.changes.insert seq
      { seq := seq, id := id, reason := reason, createdAt := atTime, nextAttemptAt := atTime } }

def recordChanges (ids : List EnrollmentID) (reason : String) (atTime : Time) :
    Except Error State := do
  ids.forM st.validID
  pure (ids.foldl (recordChange reason atTime) st)

def completeChanges (seqs : List Nat) : State :=
  { st with changes := seqs.foldl (fun changes seq => changes.erase seq) st.changes }

def failChange (msg : String) (nextAttempt : Time) (c : Change) : Change :=
  { c with attempts := c.attempts + 1, lastError := msg, nextAttemptAt := nextAttempt }

def failChanges (seqs : List Nat) (msg : String) (nextAttempt : Time) : State :=
  { st with
    changes := seqs.foldl
      (fun changes seq => changes.modify seq (failChange msg nextAttempt)) st.changes }

def putSnapshot (s : Option Snapshot) : Except Error State :=
  match s with
  | none => .error (.invalid "nil snapshot")
  | some s => do
    st.validID s.id
    s.items.forM fun item => validName "snapshot item identifier" item.identifier
    pure { st with ids := st.ids.insert s.id.id s.id, snapshots := st.snapshots.insert s.id.id s }

def snapshot : Except Error Snapshot := do
  st.validID id
  match st.snapshots[id.id]? with
  | none => .error (.notFound "snapshot for enrollment" id.id)
  | some s => pure s

def clearEnrollment : Except Error State := do
  st.validID id
  pure
    { st with
      enrollSets := st.enrollSets.erase id.id
      enrollDecls := st.enrollDecls.erase id.id
      snapshots := st.snapshots.erase id.id
      statusDecls := st.statusDecls.erase id.id
      statusValues := st.statusValues.erase id.id
      statusErrors := st.statusErrors.erase id.id
      statusReports := st.statusReports.erase id.id
      changes := st.changes.filter fun _ c => c.id.id ≠ id.id }

variable {st id} {st' : State}

theorem validID_ok : st.validID id = .ok () ↔
    id.Valid ∧ ∀ found, st.ids[id.id]? = some found → found = id := by
  unfold validID
  rw [← EnrollmentID.validate_ok id ()]
  cases id.validate with
  | error reason => simp
  | ok done => cases st.ids[id.id]? <;> simp

theorem putDeclaration_ok {d : Option Declaration} {changed : Bool}
    (accepted : st.putDeclaration d = .ok (st', changed)) :
    ∃ row, d = some row ∧ row.identifier ≠ "" ∧ row.serverToken ≠ "" ∧
      (∀ found, st.decls[row.identifier]? = some found → found.kind = row.kind) ∧
      ((changed = false ∧ st' = st ∧
          ∃ found, st.decls[row.identifier]? = some found ∧ found.serverToken = row.serverToken) ∨
        changed = true ∧
          (∀ found, st.decls[row.identifier]? = some found → found.serverToken ≠ row.serverToken) ∧
          ∃ createdAt, st' = { st with
            decls := st.decls.insert row.identifier { row with createdAt := createdAt }
            versions := st.versions.insertIfNew (row.identifier, row.serverToken)
              ⟨row.identifier, row.type, row.serverToken, row.canonical, row.updatedAt⟩ }) := by
  unfold putDeclaration at accepted
  split at accepted
  · simp at accepted
  next row =>
  simp only [bind_ok, validName_ok, reject_ok] at accepted
  obtain ⟨_, named, _, token, _, kind, accepted⟩ := accepted
  refine ⟨row, rfl, named, token, fun found there => by simpa [there] using kind, ?_⟩
  split at accepted
  · next same =>
    simp only [pure_ok, Prod.mk.injEq] at accepted
    cases there : st.decls[row.identifier]? with
    | none => simp [there] at same
    | some found =>
      exact .inl ⟨accepted.2.symm, accepted.1.symm, found, rfl, by simpa [there] using same⟩
  · next different =>
    simp only [pure_ok, Prod.mk.injEq] at accepted
    refine .inr ⟨accepted.2.symm, fun found there => ?_, _, accepted.1.symm⟩
    simpa [there] using different

variable {atTime : Time}

theorem putSet_ok {name : String} {created : Bool}
    (accepted : st.putSet name atTime = .ok (st', created)) :
    name ≠ "" ∧ (created = false ∧ st' = st ∧ name ∈ st.sets ∨
      created = true ∧ st' = { st with sets := st.sets.insert name ⟨name, atTime, atTime⟩ }) := by
  simp only [putSet, bind_ok, validName_ok] at accepted
  obtain ⟨_, named, accepted⟩ := accepted
  refine ⟨named, ?_⟩
  split at accepted <;> simp only [pure_ok, Prod.mk.injEq] at accepted <;>
    obtain ⟨rfl, rfl⟩ := accepted
  · next there => exact .inl ⟨rfl, rfl, there⟩
  · exact .inr ⟨rfl, rfl⟩

theorem addSetDeclaration_ok {set identifier : String} {added : Bool}
    (accepted : st.addSetDeclaration set identifier atTime = .ok (st', added)) :
    set ∈ st.sets ∧ identifier ∈ st.decls ∧ (added = false ∧ st' = st ∧
        (st.members.add set identifier).1 = st.members ∨
      added = true ∧ ∃ row, st' = { st with
        members := (st.members.add set identifier).1, sets := st.sets.insert set row }) := by
  simp only [addSetDeclaration, bind_ok] at accepted
  obtain ⟨_, -, _, -, accepted⟩ := accepted
  split at accepted
  · simp at accepted
  next row found =>
  simp only [bind_ok, reject_ok, not_not] at accepted
  obtain ⟨_, there, accepted⟩ := accepted
  refine ⟨Std.ExtTreeMap.mem_iff_isSome_getElem?.2 (by rw [found]; rfl), there, ?_⟩
  split at accepted <;> simp only [pure_ok, Prod.mk.injEq] at accepted <;>
    obtain ⟨rfl, rfl⟩ := accepted
  · exact .inr ⟨rfl, _, rfl⟩
  · next same =>
    have kept := Members.add_unchanged (Bool.eq_false_iff.2 same)
    exact .inl ⟨rfl, by rw [kept], kept⟩

theorem recordChanges_ok {ids : List EnrollmentID} {reason : String}
    (accepted : st.recordChanges ids reason atTime = .ok st') :
    (∀ id ∈ ids, st.validID id = .ok ()) ∧ st' = ids.foldl (recordChange reason atTime) st := by
  simp only [recordChanges, bind_ok, forM_ok, pure_ok] at accepted
  obtain ⟨_, valid, rfl⟩ := accepted
  exact ⟨valid, rfl⟩

end State

end AppleDM.Ddm
