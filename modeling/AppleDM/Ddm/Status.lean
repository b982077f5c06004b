import AppleDM.Shared.Reports
import AppleDM.Ddm.Store

set_option autoImplicit false

namespace AppleDM.Ddm

open Mdm Checked Run Reports

def declarationStamps : Stamps (Kind × String) DeclarationStatus Time where
  key row := (row.kind, row.identifier)
  first := (·.firstSeen)
  stamp row first last := { row with firstSeen := first, lastSeen := last }
  key_stamp _ _ _ := rfl
  first_stamp _ _ _ := rfl

def valueStamps : Stamps String StatusValue Time where
  key := (·.path)
  first := (·.firstSeen)
  stamp row first last := { row with firstSeen := first, lastSeen := last }
  key_stamp _ _ _ := rfl
  first_stamp _ _ _ := rfl

namespace StatusUpdate

def declarationReport (u : StatusUpdate) : Report DeclarationStatus Time :=
  ⟨u.declarations, u.hasDeclarations, u.receivedAt⟩

def valueReport (u : StatusUpdate) : Report StatusValue Time :=
  ⟨u.values, u.fullReport, u.receivedAt⟩

end StatusUpdate

def validStatusUpdate (u : StatusUpdate) : Except Error Unit := do
  u.declarations.forM fun d => validName "status declaration identifier" d.identifier
  u.values.forM fun v => validName "status value path" v.path

def DeclarationStatus.ref (row : DeclarationStatus) : DeclarationRef :=
  ⟨row.kind, row.identifier, row.serverToken⟩

def pruned (reports : List StatusReportRecord) (keep : Int) : List StatusReportRecord × Nat :=
  if keep ≤ 0 ∨ (reports.length : Int) ≤ keep then (reports, 0)
  else
    let drop := reports.length - keep.toNat
    (reports.drop drop, drop)

namespace State

variable (st : State) (key : String) (u : StatusUpdate)

def statusRows : Table (Kind × String) DeclarationStatus :=
  (st.statusDecls[key]?).getD ∅

def valueRows : Table String StatusValue :=
  (st.statusValues[key]?).getD ∅

def reportRows : List StatusReportRecord :=
  (st.statusReports[key]?).getD []

def errorRows : List StatusError := (st.statusErrors[key]?).getD []

def upsertStatusDeclarations : State × List DeclarationRef :=
  let (rows, removed) := absorb declarationStamps (st.statusRows key) u.declarationReport
  ({ st with statusDecls := st.statusDecls.insert key rows }, sortRefs (removed.map (·.ref)))

def upsertStatusValues : State × List String :=
  let (rows, removed) := absorb valueStamps (st.valueRows key) u.valueReport
  ({ st with statusValues := st.statusValues.insert key rows },
    (removed.map (·.path)).insertionSort (· ≤ ·))

def appendError (atTime : Time) (st : State) (e : StatusError) : State :=
  let seq := st.seq + 1
  { st with
    seq := seq
    statusErrors := st.statusErrors.insert key
      (st.errorRows key ++ [⟨seq, e.statusItem, e.reasons, atTime⟩]) }

def pruneReports (keep : Int) : State × Nat :=
  let (reports, n) := pruned (st.reportRows key) keep
  ({ st with statusReports := st.statusReports.insert key reports }, n)

def appendReport (id : EnrollmentID) (u : StatusUpdate) : State :=
  let seq := st.seq + 1
  { st with
    seq := seq
    ids := st.ids.insert id.id id
    statusReports := st.statusReports.insert id.id
      (st.reportRows id.id ++ [⟨seq, u.fullReport, u.raw, u.receivedAt⟩]) }

def putStatus (id : EnrollmentID) (u : StatusUpdate) : Except Error (State × StatusOutcome) := do
  st.validID id
  validStatusUpdate u
  let seq := st.seq + 1
  let st := st.appendReport id u
  let (st, removed) := st.upsertStatusDeclarations id.id u
  let (st, removedValues) := st.upsertStatusValues id.id u
  let st := u.errors.foldl (appendError id.id u.receivedAt) st
  let (st, pruned) := st.pruneReports id.id u.keepReports
  pure (st, ⟨seq, removed, removedValues, pruned⟩)

theorem appendErrors_eq (atTime : Time) (errors : List StatusError) (st : State) :
    ∃ seq rows, errors.foldl (appendError key atTime) st =
      { st with seq := seq, statusErrors := rows } := by
  induction errors generalizing st with
  | nil => exact ⟨st.seq, st.statusErrors, rfl⟩
  | cons e rest ih =>
    obtain ⟨seq, rows, later⟩ := ih (appendError key atTime st e)
    exact ⟨seq, rows, later⟩

theorem putStatus_ok {st st' : State} {id : EnrollmentID} {u : StatusUpdate} {out : StatusOutcome}
    (accepted : st.putStatus id u = .ok (st', out)) :
    let declarations := absorb declarationStamps (st.statusRows id.id) u.declarationReport
    let values := absorb valueStamps (st.valueRows id.id) u.valueReport
    let reports := st.reportRows id.id ++ [⟨st.seq + 1, u.fullReport, u.raw, u.receivedAt⟩]
    st.validID id = .ok () ∧
      (∃ seq errors, st' = { st with
        ids := st.ids.insert id.id id
        statusDecls := st.statusDecls.insert id.id declarations.1
        statusValues := st.statusValues.insert id.id values.1
        statusReports := (st.statusReports.insert id.id reports).insert id.id
          (pruned reports u.keepReports).1
        statusErrors := errors
        seq := seq }) ∧
      out = ⟨st.seq + 1, sortRefs (declarations.2.map (·.ref)),
        (values.2.map (·.path)).insertionSort (· ≤ ·), (pruned reports u.keepReports).2⟩ := by
  intro declarations values reports
  simp only [putStatus, bind_ok, pure_ok, Prod.mk.injEq] at accepted
  obtain ⟨_, valid, _, -, rfl, rfl⟩ := accepted
  obtain ⟨seq, errors, same⟩ := appendErrors_eq id.id u.receivedAt u.errors
    (((st.appendReport id u).upsertStatusDeclarations id.id u).1.upsertStatusValues id.id u).1
  rw [same]
  refine ⟨valid, ⟨seq, errors, ?_⟩, ?_⟩ <;>
    simp [pruneReports, upsertStatusValues, upsertStatusDeclarations, appendReport, reportRows,
      statusRows, valueRows, reports, declarations, values]

end State

end AppleDM.Ddm
