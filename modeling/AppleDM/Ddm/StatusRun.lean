import AppleDM.Ddm.SqlStatus

set_option autoImplicit false

namespace AppleDM.Ddm

open Mdm Checked Run Reports

theorem pruned_eq (reports : List StatusReportRecord) (keep : Int) :
    (pruned reports keep).1 = lastOf keep reports ∧
      (pruned reports keep).2 + (lastOf keep reports).length = reports.length := by
  unfold pruned lastOf
  by_cases all : keep ≤ 0
  · simp [all]
  · by_cases few : (reports.length : Int) ≤ keep
    · have none_ : reports.length - keep.toNat = 0 := by omega
      simp [all, few, none_]
    · simp only [all, few, or_self, if_false, List.length_drop]
      exact ⟨trivial, by omega⟩

namespace State

def account (st : State) (key : String) : Account where
  declarations k := (st.statusRows key)[k]?
  values path := (st.valueRows key)[path]?
  reports := (st.reportRows key).map (·.rawReport)

variable {st st' : State} {id : EnrollmentID} {u : StatusUpdate} {out : StatusOutcome}

theorem putStatus_others (accepted : st.putStatus id u = .ok (st', out)) (key : String)
    (other : id.id ≠ key) : st'.account key = st.account key := by
  obtain ⟨-, ⟨seq, errors, rfl⟩, -⟩ := putStatus_ok accepted
  simp [account, statusRows, valueRows, reportRows, Std.ExtTreeMap.getElem?_insert, other]

theorem putStatus_tells (keyed : (st.account id.id).Keyed)
    (accepted : st.putStatus id u = .ok (st', out)) :
    st'.account id.id = (st.account id.id).tell u ∧ (st.account id.id).Lost u out := by
  obtain ⟨-, ⟨seq, errors, same⟩, rfl⟩ := putStatus_ok accepted
  obtain ⟨kept, dropped⟩ := pruned_eq
    (st.reportRows id.id ++ [⟨st.seq + 1, u.fullReport, u.raw, u.receivedAt⟩]) u.keepReports
  have rows : st'.statusRows id.id =
      (absorb declarationStamps (st.statusRows id.id) u.declarationReport).1 := by
    simp [same, statusRows]
  have values : st'.valueRows id.id =
      (absorb valueStamps (st.valueRows id.id) u.valueReport).1 := by
    simp [same, valueRows]
  have reports : st'.reportRows id.id = lastOf u.keepReports (st.reportRows id.id ++
      [⟨st.seq + 1, u.fullReport, u.raw, u.receivedAt⟩]) := by
    rw [← kept, same]
    simp [reportRows]
  have told : st'.account id.id = (st.account id.id).tell u := by
    ext1
    · funext key
      simp only [account, rows, absorb_lookup]
      rfl
    · funext path
      simp only [account, values, absorb_lookup]
      rfl
    · simp only [account, reports, lastOf_map, List.map_append]
      rfl
  refine ⟨told, Account.Lost.of_rows keyed (absorb_removed_nodup keyed.declarations _) (fun row => ?_)
    (absorb_removed_nodup keyed.values _) (fun row => ?_) ?_⟩
  · rw [mem_absorb_removed _ keyed.declarations, ← rows, ← told]
    rfl
  · rw [mem_absorb_removed _ keyed.values, ← values, ← told]
    rfl
  · rw [← told]
    simpa [account, reports] using dropped

end State

def inmemStatus : StatusStore where
  State := State
  account := State.account
  putStatus := State.putStatus
  tells := State.putStatus_tells
  others := State.putStatus_others

theorem status_run (key : String) (calls : List (EnrollmentID × StatusUpdate)) {st : State}
    (fresh : st.account key = {}) {t : Sql.State} (freshRows : t.account key = {}) :
    inmemStatus.Faithful key st calls ∧ Sql.sqlStatus.Faithful key t calls :=
  ⟨StatusStore.faithful fresh calls, StatusStore.faithful freshRows calls⟩

theorem empty_account (key : String) : ({} : State).account key = {} := by
  simp [State.account, State.statusRows, State.valueRows, State.reportRows]

theorem empty_sqlAccount (key : String) : ({} : Sql.State).account key = {} := by
  simp [Sql.State.account, Sql.State.reportsOf, Rows.orderBy]

def reporter : EnrollmentID := ⟨.device, "DEVICE-01", ""⟩

def raisedBound : List (EnrollmentID × StatusUpdate) :=
  [(reporter, { receivedAt := 1, fullReport := true, keepReports := 1
                values := [⟨"device.model", [1], 0, 0⟩, ⟨"device.name", [2], 0, 0⟩] }),
    (reporter, { receivedAt := 2, hasDeclarations := true, keepReports := 1
                 declarations := [⟨.configuration, "wifi", "t1", true, "valid", [], 0, 0⟩] }),
    (reporter, { receivedAt := 3, fullReport := true, keepReports := 5
                 values := [⟨"device.model", [3], 0, 0⟩] })]

theorem raisedBound_reported :
    (inmemStatus.accepted "DEVICE-01" {} raisedBound).length = 3 ∧
      (Sql.sqlStatus.accepted "DEVICE-01" {} raisedBound).length = 3 ∧
      inmemStatus.Faithful "DEVICE-01" {} raisedBound ∧
      Sql.sqlStatus.Faithful "DEVICE-01" {} raisedBound :=
  ⟨by decide +kernel, by decide +kernel,
    status_run "DEVICE-01" raisedBound (empty_account _) (empty_sqlAccount _)⟩

theorem raisedBound_keeps_fewer : ¬ ∀ (key : String) (calls : List (EnrollmentID × StatusUpdate)) u,
    (inmemStatus.accepted key {} calls).getLast? = some u →
      (inmemStatus.account (run inmemStatus.step {} calls) key).reports =
        ((inmemStatus.accepted key {} calls).map (·.rawReport)).drop
          ((inmemStatus.accepted key {} calls).length - u.keepReports.toNat) := by
  intro last
  have three := last "DEVICE-01" raisedBound _ rfl
  revert three
  decide +kernel

end AppleDM.Ddm
