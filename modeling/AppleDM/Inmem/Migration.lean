import AppleDM.Inmem.Store
import AppleDM.Storage.Migration

set_option autoImplicit false

namespace AppleDM.Inmem

open Mdm Storage Checked

def exportCursor (e : Enrollment) : String := e.id.parentID ++ "\x00" ++ e.id.id

namespace Store

variable (s : Store) (rec : EnrollmentExport)

def historyLocked (keep : CertAssociation → Bool) : List CertAssociation :=
  (s.history.filter keep).insertionSort fun a b => associationLe a b = true

def certHistory (id : EnrollmentID) : Except StoreError (List CertAssociation) := do
  let _ ← s.deviceRecordLocked id
  pure (s.historyLocked fun a => a.id.id = id.device.id)

def certHashHistory (hash : String) : Except StoreError (List CertAssociation) := do
  reject (hash = "") (.invalid "empty certificate hash")
  pure (s.historyLocked fun a => a.hash = hash)

def exportLocked (r : Record) : EnrollmentExport :=
  if r.enrollment.id.channel.isUser then ⟨r.enrollment, [], []⟩
  else
    ⟨r.enrollment, (s.bootstrap[r.enrollment.id.id]?).getD [],
      s.historyLocked fun a => a.id.id = r.enrollment.id.id⟩

def exportRows : List Record :=
  (s.enrollments.toList.map (·.2)).insertionSort fun a b =>
    exportCursor a.enrollment ≤ exportCursor b.enrollment

def exportPage (p : Page) : Except StoreError (PageResult EnrollmentExport) := do
  reject (p.cursor ≠ "" ∧ !p.cursor.toList.contains '\x00') (.invalid ("bad cursor " ++ p.cursor.quote))
  let size := if p.limit ≤ 0 then defaultPageSize else p.limit.toNat
  let found := Paging.page (fun r : Record => exportCursor r.enrollment) size s.exportRows
    (if p.cursor = "" then none else some p.cursor)
  pure ⟨found.1.map s.exportLocked, found.2.getD ""⟩

def checkImport : Except StoreError Unit := do
  let id := rec.enrollment.id
  validated id
  let foreign := rec.certHistory.find? fun a => a.id ≠ id || a.hash = ""
  reject (foreign.isSome = true)
    (.invalid ("history row for " ++ (foreign.map (·.id.id)).getD "" ++ " in record " ++ id.id))
  reject (id.channel.isUser = true ∧ (rec.enrollment.certHash ≠ "" ∨ rec.bootstrapToken.length ≠ 0 ∨
      rec.certHistory.length ≠ 0))
    (.invalid ("user channel " ++ id.id ++ " carries device state"))
  reject (id.channel.isUser = true ∧ (s.get id.device).toBool = false)
    (.invalid ("parent " ++ id.parentID ++ " of " ++ id.id ++ " is absent"))
  reject (rec.enrollment.certHash ≠ "" ∧
      (s.certs[rec.enrollment.certHash]?).any (fun owner => owner.id ≠ id.id))
    (.conflict ("certificate already associated with " ++
      ((s.certs[rec.enrollment.certHash]?).map (·.id)).getD ""))
  reject (s.occupied id) .conflict

def importDevice : Store :=
  let id := rec.enrollment.id
  let s := s.dropCertLocked id.id
  { s with
    certs := if rec.enrollment.certHash ≠ "" then s.certs.insert rec.enrollment.certHash id
      else s.certs
    bootstrap := if rec.bootstrapToken.length > 0 then s.bootstrap.insert id.id rec.bootstrapToken
      else s.bootstrap.erase id.id }

def imported : Store :=
  let id := rec.enrollment.id
  let s := s.put { enrollment := rec.enrollment, queue := s.queueAt id.id }
  if id.channel.isUser then s
  else rec.certHistory.foldl (fun s a => s.recordAssociationLocked id a.hash a.atTime)
    (s.importDevice rec)

def importRecord : Except StoreError Store := do
  s.checkImport rec
  pure (s.imported rec)

structure Importable (s : Store) (rec : EnrollmentExport) : Prop where
  valid : rec.enrollment.id.Valid
  history : ∀ a ∈ rec.certHistory, a.id = rec.enrollment.id ∧ a.hash ≠ ""
  user : rec.enrollment.id.channel.isUser = true →
    rec.enrollment.certHash = "" ∧ rec.bootstrapToken = [] ∧ rec.certHistory = []
  parent : rec.enrollment.id.channel.isUser = true →
    ∃ parent, s.get rec.enrollment.id.device = .ok parent
  unclaimed : rec.enrollment.certHash ≠ "" → ∀ owner,
    s.certs[rec.enrollment.certHash]? = some owner → owner.id = rec.enrollment.id.id
  free : ¬ s.occupied rec.enrollment.id

theorem checkImport_ok (done : Unit) : s.checkImport rec = .ok done ↔ s.Importable rec := by
  have parentPresent : (s.get rec.enrollment.id.device).toBool = true ↔
      ∃ parent, s.get rec.enrollment.id.device = .ok parent := by
    cases s.get rec.enrollment.id.device <;> simp [Except.toBool]
  have owners : (∀ owner, s.certs[rec.enrollment.certHash]? = some owner →
      owner.id = rec.enrollment.id.id) ↔
      ¬ (s.certs[rec.enrollment.certHash]?).any (fun owner =>
        owner.id ≠ rec.enrollment.id.id) = true := by
    cases s.certs[rec.enrollment.certHash]? <;> simp
  simp only [checkImport, bind_ok, validated_ok, reject_ok, not_and, not_or, not_not,
    Bool.not_eq_true, Bool.not_eq_false, Option.isSome_eq_false_iff, Option.isNone_iff_eq_none,
    List.find?_eq_none, ne_eq, List.length_eq_zero_iff, parentPresent]
  constructor
  · rintro ⟨-, valid, -, history, -, user, -, parent, -, unclaimed, free⟩
    refine ⟨valid, fun a member => ?_, user, parent, fun named => ?_, free⟩
    · simpa using history a member
    · exact owners.2 (by simpa using unclaimed named)
  · intro importable
    refine ⟨(), importable.valid, (), fun a member => ?_, (), importable.user, (),
      importable.parent, (), fun named => ?_, importable.free⟩
    · simpa using importable.history a member
    · simpa using owners.1 (importable.unclaimed named)

theorem importRecord_ok (s' : Store) (rec : EnrollmentExport) :
    s.importRecord rec = .ok s' ↔ s.Importable rec ∧ s' = s.imported rec := by
  simp only [importRecord, bind_ok, checkImport_ok, pure_ok]
  constructor
  · rintro ⟨-, importable, rfl⟩
    exact ⟨importable, rfl⟩
  · rintro ⟨importable, rfl⟩
    exact ⟨(), importable, rfl⟩

theorem recordAssociations_frame (s : Store) (dev : EnrollmentID) (rows : List CertAssociation) :
    let after := rows.foldl (fun s a => s.recordAssociationLocked dev a.hash a.atTime) s
    after.enrollments = s.enrollments ∧ after.certs = s.certs ∧ after.bootstrap = s.bootstrap := by
  induction rows generalizing s with
  | nil => exact ⟨rfl, rfl, rfl⟩
  | cons row rest ih =>
    have one : (s.recordAssociationLocked dev row.hash row.atTime).enrollments = s.enrollments ∧
        (s.recordAssociationLocked dev row.hash row.atTime).certs = s.certs ∧
        (s.recordAssociationLocked dev row.hash row.atTime).bootstrap = s.bootstrap := by
      unfold recordAssociationLocked
      split <;> exact ⟨rfl, rfl, rfl⟩
    obtain ⟨enrollments, certs, bootstrap⟩ := ih (s.recordAssociationLocked dev row.hash row.atTime)
    exact ⟨enrollments.trans one.1, certs.trans one.2.1, bootstrap.trans one.2.2⟩

theorem imported_enrollments :
    (s.imported rec).enrollments = s.enrollments.insert rec.enrollment.id.id
      { enrollment := rec.enrollment, queue := s.queueAt rec.enrollment.id.id } := by
  unfold imported
  dsimp only
  split
  · rfl
  · exact (recordAssociations_frame _ _ _).1

theorem imported_device {rec : EnrollmentExport}
    (device : rec.enrollment.id.channel.isUser = false) :
    (s.imported rec).certs = (s.importDevice rec).certs ∧
      (s.imported rec).bootstrap = (s.importDevice rec).bootstrap := by
  simp only [imported, device, Bool.false_eq_true, if_false]
  exact (recordAssociations_frame _ _ _).2

end Store

end AppleDM.Inmem
