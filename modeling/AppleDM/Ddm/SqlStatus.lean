import AppleDM.Ddm.Account

set_option autoImplicit false

-- The status tables on SQLite, which keeps times to the nanosecond and compares keys as bytes.
namespace AppleDM.Ddm.Sql

open Mdm Checked Run Reports

structure ReportRow where
  enrollmentID : String
  report : StatusReportRecord

abbrev ReportRow.seq (r : ReportRow) : Nat := r.report.seq

instance : Std.TransOrd (String × Kind × String) := inferInstance

structure State where
  identities : Table String EnrollmentID := ∅
  declarations : Table (String × Kind × String) DeclarationStatus := ∅
  values : Table (String × String) StatusValue := ∅
  errors : List (String × StatusError) := []
  reports : List ReportRow := []
  lastError : Nat := 0
  lastReport : Nat := 0
  numbered : Rows.Increasing ReportRow.seq reports ∧ ∀ r ∈ reports, r.seq ≤ lastReport := by
    exact ⟨.nil, fun _ member => absurd member List.not_mem_nil⟩

namespace State

def validID (st : State) (id : EnrollmentID) : Except Error State :=
  match id.validate with
  | .error reason => .error (.invalid reason)
  | .ok _ => do
    let st := { st with identities := st.identities.insertIfNew id.id id }
    reject ((st.identities[id.id]?).any (· ≠ id)) ⟨.notFound, ""⟩
    pure st

theorem numbered_insert (st : State) (r : ReportRow) (new : r.seq = st.lastReport + 1) :
    Rows.Increasing ReportRow.seq (st.reports ++ [r]) ∧
      ∀ row ∈ st.reports ++ [r], row.seq ≤ st.lastReport + 1 := by
  have below : ∀ row ∈ st.reports, row.seq < st.lastReport + 1 := fun row member =>
    Nat.lt_succ_of_le (st.numbered.2 row member)
  refine ⟨List.pairwise_append.2 ⟨st.numbered.1, List.pairwise_singleton _ _, ?_⟩, ?_⟩
  · intro row member last here
    rw [List.mem_singleton.1 here, new]
    exact below row member
  · intro row member
    rcases List.mem_append.1 member with member | here
    · exact (below row member).le
    · exact (List.mem_singleton.1 here ▸ new).le

def insertReport (st : State) (key : String) (u : StatusUpdate) : State :=
  { st with
    reports := st.reports ++ [⟨key, st.lastReport + 1, u.fullReport, u.raw, u.receivedAt⟩]
    lastReport := st.lastReport + 1
    numbered := numbered_insert st _ rfl }

def putStatusDeclarations (st : State) (id : EnrollmentID) (u : StatusUpdate) :
    State × List DeclarationRef :=
  let (rows, stale) := refresh declarationStamps id.id st.declarations u.declarationReport
  ({ st with declarations := rows },
    sortRefs (stale.map fun (key, row) => ⟨key.1, key.2, row.serverToken⟩))

def putStatusValues (st : State) (key : String) (u : StatusUpdate) : State × List String :=
  let (rows, stale) := refresh valueStamps key st.values u.valueReport
  ({ st with values := rows }, (stale.map (·.1)).insertionSort (· ≤ ·))

def insertError (key : String) (atTime : Time) (st : State) (e : StatusError) : State :=
  { st with
    errors := st.errors ++ [(key, ⟨st.lastError + 1, e.statusItem, e.reasons, atTime⟩)]
    lastError := st.lastError + 1 }

def reportsOf (st : State) (key : String) : List ReportRow :=
  Rows.orderBy ReportRow.seq (st.reports.filter fun r => r.enrollmentID = key)

def deleteReports (st : State) (old : ReportRow → Bool) : State × Nat :=
  ({ st with
      reports := st.reports.filter fun r => !old r
      numbered := ⟨st.numbered.1.filter _, fun r member =>
        st.numbered.2 r (List.mem_of_mem_filter member)⟩ },
    (st.reports.filter old).length)

def pruneReports (st : State) (key : String) (keep : Int) : State × Nat :=
  if keep ≤ 0 then (st, 0)
  else
    match (st.reportsOf key).reverse[(keep - 1).toNat]? with
    | none => (st, 0)
    | some oldestKept =>
      st.deleteReports fun r => r.enrollmentID = key && decide (r.seq < oldestKept.seq)

def putStatus (st : State) (id : EnrollmentID) (u : StatusUpdate) :
    Except Error (State × StatusOutcome) := do
  let st ← st.validID id
  validStatusUpdate u
  let st := st.insertReport id.id u
  let seq := st.lastReport
  let (st, removed) := st.putStatusDeclarations id u
  let (st, removedValues) := st.putStatusValues id.id u
  let st := u.errors.foldl (insertError id.id u.receivedAt) st
  let (st, pruned) := st.pruneReports id.id u.keepReports
  pure (st, ⟨seq, removed, removedValues, pruned⟩)

def account (st : State) (key : String) : Account where
  declarations k := st.declarations[(key, k)]?
  values path := st.values[(key, path)]?
  reports := (st.reportsOf key).map (·.report.rawReport)

variable {st st' : State} {id : EnrollmentID} {u : StatusUpdate} {out : StatusOutcome}

theorem reportsOf_eq (st : State) (key : String) :
    st.reportsOf key = st.reports.filter fun r => r.enrollmentID = key :=
  Rows.orderBy_increasing (st.numbered.1.filter _)

theorem pruneReports_others (st : State) {key other : String} (apart : key ≠ other) (keep : Int) :
    (st.pruneReports key keep).1.reportsOf other = st.reportsOf other := by
  unfold pruneReports
  split
  · rfl
  split
  · rfl
  · rw [reportsOf_eq, reportsOf_eq, deleteReports, List.filter_filter]
    refine List.filter_congr fun r _ => ?_
    by_cases own : r.enrollmentID = other
    · simp [own, apart.symm]
    · simp [own]

theorem pruneReports_own (st : State) (key : String) (keep : Int) :
    (st.pruneReports key keep).1.reportsOf key = lastOf keep (st.reportsOf key) ∧
      (st.pruneReports key keep).2 + (lastOf keep (st.reportsOf key)).length =
        (st.reportsOf key).length := by
  have increasing : Rows.Increasing ReportRow.seq (st.reportsOf key) := by
    rw [reportsOf_eq]
    exact st.numbered.1.filter _
  unfold pruneReports lastOf
  split
  · exact ⟨rfl, Nat.zero_add _⟩
  next positive =>
  split
  · next few =>
    rw [List.getElem?_eq_none_iff, List.length_reverse] at few
    have none_ : (st.reportsOf key).length - keep.toNat = 0 := by omega
    rw [none_]
    exact ⟨rfl, Nat.zero_add _⟩
  · next oldest found =>
    have within := (List.getElem?_eq_some_iff.1 found).1
    rw [List.length_reverse] at within
    have position : (st.reportsOf key).length - 1 - (keep - 1).toNat =
        (st.reportsOf key).length - keep.toNat := by omega
    rw [List.getElem?_reverse within, position] at found
    have kept := Rows.filter_from increasing found
    constructor
    · rw [← kept, reportsOf_eq, reportsOf_eq, deleteReports, List.filter_filter, List.filter_filter]
      refine List.filter_congr fun r _ => ?_
      by_cases own : r.enrollmentID = key <;> simp [own]
    · have gone : st.reports.filter (fun r => r.enrollmentID = key && decide (r.seq < oldest.seq)) =
          (st.reportsOf key).filter fun r => decide (r.seq < oldest.seq) := by
        rw [reportsOf_eq, List.filter_filter]
        exact List.filter_congr fun r _ => Bool.and_comm _ _
      rw [← kept, deleteReports, gone]
      exact List.length_eq_length_filter_add _ |>.symm

theorem insertErrors_eq (key : String) (atTime : Time) (errors : List StatusError) (st : State) :
    ∃ rows last, errors.foldl (insertError key atTime) st =
      { st with errors := rows, lastError := last } := by
  induction errors generalizing st with
  | nil => exact ⟨st.errors, st.lastError, rfl⟩
  | cons e rest ih =>
    obtain ⟨rows, last, later⟩ := ih (insertError key atTime st e)
    exact ⟨rows, last, later⟩

theorem pruneReports_tables (st : State) (key : String) (keep : Int) :
    (st.pruneReports key keep).1.declarations = st.declarations ∧
      (st.pruneReports key keep).1.values = st.values := by
  unfold pruneReports
  split
  · exact ⟨rfl, rfl⟩
  split <;> exact ⟨rfl, rfl⟩

theorem validID_ok (accepted : st.validID id = .ok st') :
    ∃ identities, st' = { st with identities := identities } := by
  unfold validID at accepted
  split at accepted
  · cases accepted
  · simp only [bind_ok, pure_ok] at accepted
    obtain ⟨_, -, rfl⟩ := accepted
    exact ⟨_, rfl⟩

theorem putStatus_ok (accepted : st.putStatus id u = .ok (st', out)) :
    let declarations := refresh declarationStamps id.id st.declarations u.declarationReport
    let values := refresh valueStamps id.id st.values u.valueReport
    ∃ mid : State, mid.declarations = declarations.1 ∧ mid.values = values.1 ∧
      mid.reports = st.reports ++
        [⟨id.id, st.lastReport + 1, u.fullReport, u.raw, u.receivedAt⟩] ∧
      st' = (mid.pruneReports id.id u.keepReports).1 ∧
      out = ⟨st.lastReport + 1,
        sortRefs (declarations.2.map fun (key, row) => ⟨key.1, key.2, row.serverToken⟩),
        (values.2.map (·.1)).insertionSort (· ≤ ·), (mid.pruneReports id.id u.keepReports).2⟩ := by
  intro declarations values
  simp only [putStatus, bind_ok, pure_ok, Prod.mk.injEq] at accepted
  obtain ⟨registered, valid, _, -, rfl, rfl⟩ := accepted
  obtain ⟨identities, rfl⟩ := validID_ok valid
  obtain ⟨errors, lastError, same⟩ := insertErrors_eq id.id u.receivedAt u.errors
    ((({ st with identities := identities }.insertReport id.id u).putStatusDeclarations
      id u).1.putStatusValues id.id u).1
  rw [same]
  exact ⟨_, rfl, rfl, rfl, rfl, rfl⟩

theorem putStatus_others (accepted : st.putStatus id u = .ok (st', out)) (key : String)
    (other : id.id ≠ key) : st'.account key = st.account key := by
  obtain ⟨mid, declarations, values, reports, rfl, -⟩ := putStatus_ok accepted
  obtain ⟨sameDeclarations, sameValues⟩ := pruneReports_tables mid id.id u.keepReports
  ext1
  · funext k
    simp only [account, sameDeclarations, declarations, refresh_other other]
  · funext path
    simp only [account, sameValues, values, refresh_other other]
  · simp only [account, pruneReports_others mid other]
    rw [reportsOf_eq, reportsOf_eq, reports, List.filter_append]
    simp [other]

theorem putStatus_tells (keyed : (st.account id.id).Keyed)
    (accepted : st.putStatus id u = .ok (st', out)) :
    st'.account id.id = (st.account id.id).tell u ∧ (st.account id.id).Lost u out := by
  obtain ⟨mid, declarations, values, reports, rfl, rfl⟩ := putStatus_ok accepted
  obtain ⟨sameDeclarations, sameValues⟩ := pruneReports_tables mid id.id u.keepReports
  obtain ⟨kept, dropped⟩ := pruneReports_own mid id.id u.keepReports
  have logged : mid.reportsOf id.id = st.reportsOf id.id ++
      [⟨id.id, st.lastReport + 1, u.fullReport, u.raw, u.receivedAt⟩] := by
    rw [reportsOf_eq, reportsOf_eq, reports, List.filter_append]
    simp
  have told : (mid.pruneReports id.id u.keepReports).1.account id.id =
      (st.account id.id).tell u := by
    ext1
    · funext k
      simp only [account, sameDeclarations, declarations, refresh_lookup]
      rfl
    · funext path
      simp only [account, sameValues, values, refresh_lookup]
      rfl
    · simp only [account, kept, lastOf_map, logged, List.map_append]
      rfl
  refine ⟨told, ?_⟩
  set gone := refresh declarationStamps id.id st.declarations u.declarationReport with read
  set goneValues := refresh valueStamps id.id st.values u.valueReport with readValues
  have keys : (gone.2.map (·.2)).map declarationStamps.key = gone.2.map (·.1) :=
    refresh_keys keyed.declarations
  have keysValues : (goneValues.2.map (·.2)).map valueStamps.key = goneValues.2.map (·.1) :=
    refresh_keys keyed.values
  have refs : (gone.2.map fun (key, row) => (⟨key.1, key.2, row.serverToken⟩ : DeclarationRef)) =
      (gone.2.map (·.2)).map (·.ref) := by
    rw [List.map_map]
    refine List.map_congr_left fun entry member => ?_
    obtain ⟨key, row⟩ := entry
    obtain ⟨there, -⟩ := mem_refresh_removed.1 member
    obtain rfl := keyed.declarations key row there
    rfl
  have paths : goneValues.2.map (·.1) = (goneValues.2.map (·.2)).map (·.path) := keysValues.symm
  rw [refs, paths]
  refine Account.Lost.of_rows keyed (by rw [keys]; exact refresh_removed_nodup) (fun row => ?_)
    (by rw [keysValues]; exact refresh_removed_nodup) (fun row => ?_) ?_
  · rw [read, mem_refresh_rows keyed.declarations, ← read, ← declarations, ← sameDeclarations, ← told]
    rfl
  · rw [readValues, mem_refresh_rows keyed.values, ← readValues, ← values, ← sameValues, ← told]
    rfl
  · rw [← told]
    simpa [account, kept, logged] using dropped

end State

def sqlStatus : StatusStore where
  State := State
  account := State.account
  putStatus := State.putStatus
  tells := State.putStatus_tells
  others := State.putStatus_others

end AppleDM.Ddm.Sql
