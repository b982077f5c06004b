import Mathlib.Data.String.Basic
import AppleDM.Shared.Rows
import AppleDM.Ddm.Status

set_option autoImplicit false

namespace AppleDM.Ddm

open Mdm Checked Run Reports

instance : Std.TransCmp compareRefs :=
  inferInstanceAs (Std.TransCmp (compareLex
    (compareLex (compareOn DeclarationRef.kind) (compareOn DeclarationRef.identifier))
    (compareOn DeclarationRef.serverToken)))

variable {rows : List DeclarationStatus}

theorem sortRefs_lt (distinct : (rows.map declarationStamps.key).Nodup) :
    (sortRefs (rows.map (·.ref))).Pairwise fun a b => compareRefs a b = .lt := by
  refine Rows.insertionSort_lt ?_
  rw [List.Nodup, List.pairwise_map] at distinct
  refine List.pairwise_map.2 (distinct.imp fun {a b} apart same => apart ?_)
  simp only [compareRefs, Ordering.then_eq_eq, Std.compare_eq_iff_eq] at same
  exact Prod.ext same.1.1 same.1.2

theorem mem_sortRefs {refs : List DeclarationRef} {ref : DeclarationRef} :
    ref ∈ sortRefs refs ↔ ref ∈ refs := List.mem_insertionSort _

structure RawReport where
  fullReport : Bool
  raw : Bytes
  receivedAt : Time
  deriving DecidableEq

def StatusUpdate.rawReport (u : StatusUpdate) : RawReport := ⟨u.fullReport, u.raw, u.receivedAt⟩

def StatusReportRecord.rawReport (r : StatusReportRecord) : RawReport :=
  ⟨r.fullReport, r.raw, r.receivedAt⟩

@[ext] structure Account where
  declarations : Kind × String → Option DeclarationStatus := fun _ => none
  values : String → Option StatusValue := fun _ => none
  reports : List RawReport := []

namespace Account

def tell (a : Account) (u : StatusUpdate) : Account where
  declarations := observe declarationStamps a.declarations u.declarationReport
  values := observe valueStamps a.values u.valueReport
  reports := retain a.reports (u.rawReport, u.keepReports)

structure Keyed (a : Account) : Prop where
  declarations : ∀ key row, a.declarations key = some row → declarationStamps.key row = key
  values : ∀ key row, a.values key = some row → valueStamps.key row = key

structure Lost (a : Account) (u : StatusUpdate) (out : StatusOutcome) : Prop where
  removed : ∀ ref, ref ∈ out.removed ↔ ∃ key row, a.declarations key = some row ∧
    (a.tell u).declarations key = none ∧ row.ref = ref
  removedOrder : out.removed.Pairwise fun a b => compareRefs a b = .lt
  removedValues : ∀ path, path ∈ out.removedValues ↔
    (a.values path).isSome = true ∧ (a.tell u).values path = none
  removedValuesOrder : out.removedValues.Pairwise (· < ·)
  prunedReports : out.prunedReports + (a.tell u).reports.length = a.reports.length + 1

theorem empty_keyed : ({} : Account).Keyed := ⟨by simp, by simp⟩

theorem Keyed.tell {a : Account} (keyed : a.Keyed) (u : StatusUpdate) : (a.tell u).Keyed :=
  ⟨observe_keyed keyed.declarations u.declarationReport, observe_keyed keyed.values u.valueReport⟩

theorem Lost.of_rows {a : Account} {u : StatusUpdate} (keyed : a.Keyed)
    (distinct : (rows.map declarationStamps.key).Nodup)
    (gone : ∀ row, row ∈ rows ↔ a.declarations (declarationStamps.key row) = some row ∧
      (a.tell u).declarations (declarationStamps.key row) = none)
    {values : List StatusValue} (distinctValues : (values.map valueStamps.key).Nodup)
    (goneValues : ∀ row, row ∈ values ↔ a.values (valueStamps.key row) = some row ∧
      (a.tell u).values (valueStamps.key row) = none) {seq pruned : Nat}
    (prunedReports : pruned + (a.tell u).reports.length = a.reports.length + 1) :
    a.Lost u ⟨seq, sortRefs (rows.map (·.ref)), (values.map (·.path)).insertionSort (· ≤ ·),
      pruned⟩ := by
  constructor
  case removed =>
    intro ref
    rw [mem_sortRefs, List.mem_map]
    constructor
    · rintro ⟨row, member, rfl⟩
      obtain ⟨there, absent⟩ := (gone row).1 member
      exact ⟨_, row, there, absent, rfl⟩
    · rintro ⟨key, row, there, absent, rfl⟩
      obtain rfl := keyed.declarations key row there
      exact ⟨row, (gone row).2 ⟨there, absent⟩, rfl⟩
  case removedOrder => exact sortRefs_lt distinct
  case removedValues =>
    intro path
    rw [List.mem_insertionSort, List.mem_map]
    constructor
    · rintro ⟨row, member, rfl⟩
      obtain ⟨there, absent⟩ := (goneValues row).1 member
      exact ⟨Option.isSome_iff_exists.2 ⟨row, there⟩, absent⟩
    · rintro ⟨known, absent⟩
      obtain ⟨row, there⟩ := Option.isSome_iff_exists.1 known
      obtain rfl := keyed.values path row there
      exact ⟨row, (goneValues row).2 ⟨there, absent⟩, rfl⟩
  case removedValuesOrder =>
    have paths : ((values.map (·.path)).map fun path : String => path).Nodup := by
      rw [List.map_id']
      exact distinctValues
    exact Rows.increasing_orderBy paths
  case prunedReports => exact prunedReports

structure Adds (a : Account) (updates : List StatusUpdate) : Prop where
  declarations : ∀ key, (a.declarations key).isSome = true ↔
    Present declarationStamps (updates.map (·.declarationReport)) key
  declarationRows : ∀ key row, a.declarations key = some row → ∃ first last said,
    Since declarationStamps (updates.map (·.declarationReport)) key first ∧
    Latest declarationStamps (updates.map (·.declarationReport)) key last said ∧
    row = { said with firstSeen := first.atTime, lastSeen := last.atTime }
  values : ∀ path, (a.values path).isSome = true ↔
    Present valueStamps (updates.map (·.valueReport)) path
  valueRows : ∀ path row, a.values path = some row → ∃ first last said,
    Since valueStamps (updates.map (·.valueReport)) path first ∧
    Latest valueStamps (updates.map (·.valueReport)) path last said ∧
    row = { said with firstSeen := first.atTime, lastSeen := last.atTime }
  reports : ∃ dropped, a.reports = (updates.map (·.rawReport)).drop dropped ∧
    ∀ position < updates.length, dropped ≤ position ↔
      Covered (updates.map fun u => (u.rawReport, u.keepReports)) position
  constantBound : ∀ keep, 0 < keep → (∀ u ∈ updates, u.keepReports = keep) →
    a.reports = (updates.map (·.rawReport)).drop (updates.length - keep.toNat)

theorem tells_adds (updates : List StatusUpdate) : (run tell {} updates).Adds updates := by
  have declarations : (run tell {} updates).declarations =
      observed declarationStamps (updates.map (·.declarationReport)) :=
    run_project Account.declarations (·.declarationReport) (fun _ _ => rfl) { } updates
  have values : (run tell {} updates).values =
      observed valueStamps (updates.map (·.valueReport)) :=
    run_project Account.values (·.valueReport) (fun _ _ => rfl) { } updates
  have reports : (run tell {} updates).reports =
      run retain [] (updates.map fun u => (u.rawReport, u.keepReports)) :=
    run_project Account.reports (fun u => (u.rawReport, u.keepReports)) (fun _ _ => rfl) { } updates
  refine ⟨fun key => ?_, fun key => ?_, fun path => ?_, fun path => ?_, ?_, fun keep positive same => ?_⟩
  · rw [declarations]
    exact (observed_correct _ key).1
  · rw [declarations]
    exact (observed_correct _ key).2
  · rw [values]
    exact (observed_correct _ path).1
  · rw [values]
    exact (observed_correct _ path).2
  · obtain ⟨dropped, -, kept, covered⟩ :=
      retain_run (updates.map fun u => (u.rawReport, u.keepReports))
    rw [reports]
    refine ⟨dropped, ?_, ?_⟩
    · simpa [Function.comp_def] using kept
    · simpa using covered
  · have bounds : (updates.map fun u => (u.rawReport, u.keepReports)) =
        (updates.map (·.rawReport)).map fun report => (report, keep) := by
      rw [List.map_map]
      exact List.map_congr_left fun u member => by simp [same u member]
    rw [reports, bounds, ← List.length_map (f := fun u : StatusUpdate => u.rawReport)]
    exact retain_constant positive _

end Account

structure StatusStore where
  State : Type
  account : State → String → Account
  putStatus : State → EnrollmentID → StatusUpdate → Except Error (State × StatusOutcome)
  tells : ∀ {st st' id u out}, (account st id.id).Keyed → putStatus st id u = .ok (st', out) →
    account st' id.id = (account st id.id).tell u ∧ (account st id.id).Lost u out
  others : ∀ {st st' id u out}, putStatus st id u = .ok (st', out) →
    ∀ key, id.id ≠ key → account st' key = account st key

namespace StatusStore

variable (store : StatusStore)

def step (st : store.State) (call : EnrollmentID × StatusUpdate) : store.State :=
  settle st ((·.1) <$> store.putStatus st call.1 call.2)

def accepted (key : String) (st : store.State) (calls : List (EnrollmentID × StatusUpdate)) :
    List StatusUpdate :=
  (history store.step st calls).filterMap fun (found, id, u) =>
    if id.id = key ∧ (store.putStatus found id u).isOk = true then some u else none

structure Faithful (key : String) (st : store.State) (calls : List (EnrollmentID × StatusUpdate)) :
    Prop where
  adds : (store.account (run store.step st calls) key).Adds (store.accepted key st calls)
  lost : ∀ found id u st' out, (found, (id, u)) ∈ history store.step st calls → id.id = key →
    store.putStatus found id u = .ok (st', out) → (store.account found key).Lost u out

variable {store} {key : String} {st : store.State}

theorem step_account (keyed : (store.account st key).Keyed) (id : EnrollmentID) (u : StatusUpdate) :
    store.account (store.step st (id, u)) key =
      if id.id = key ∧ (store.putStatus st id u).isOk = true then (store.account st key).tell u
      else store.account st key := by
  unfold step
  cases done : store.putStatus st id u with
  | error e => simp [settle, Except.isOk, Except.toBool]
  | ok result =>
    obtain ⟨st', out⟩ := result
    by_cases own : id.id = key
    · subst own
      simpa [settle, Except.isOk, Except.toBool] using (store.tells keyed done).1
    · simpa [settle, own] using store.others done key own

theorem run_account (keyed : (store.account st key).Keyed)
    (calls : List (EnrollmentID × StatusUpdate)) :
    store.account (run store.step st calls) key =
        run Account.tell (store.account st key) (store.accepted key st calls) ∧
      ∀ found call, (found, call) ∈ history store.step st calls → (store.account found key).Keyed := by
  induction calls generalizing st with
  | nil => simp [accepted]
  | cons call rest ih =>
    obtain ⟨id, u⟩ := call
    have now := step_account keyed id u
    have later : (store.account (store.step st (id, u)) key).Keyed := by
      rw [now]
      split
      · exact keyed.tell u
      · exact keyed
    obtain ⟨same, among⟩ := ih later
    refine ⟨?_, fun found call member => ?_⟩
    · rw [run_cons, same, now]
      simp only [accepted, history_cons, List.filterMap_cons]
      split <;> rfl
    · rw [history_cons, List.mem_cons] at member
      rcases member with first | member
      · rw [(Prod.mk.inj first).1]
        exact keyed
      · exact among found call member

theorem faithful (fresh : store.account st key = {}) (calls : List (EnrollmentID × StatusUpdate)) :
    store.Faithful key st calls := by
  have keyed : (store.account st key).Keyed := fresh ▸ Account.empty_keyed
  obtain ⟨same, among⟩ := run_account keyed calls
  constructor
  case adds =>
    rw [same, fresh]
    exact Account.tells_adds _
  case lost =>
    rintro found id u st' out member rfl done
    exact (store.tells (among found (id, u) member) done).2

end StatusStore

end AppleDM.Ddm
