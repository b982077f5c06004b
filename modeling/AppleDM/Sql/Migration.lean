import AppleDM.Sql.Store
import AppleDM.Storage.Migration

set_option autoImplicit false

namespace AppleDM.Sql

open Mdm Storage Checked Rows

def exportCursor (parentID id : String) : String := parentID ++ "\x00" ++ id

def cut (cursor : String) : String × String × Bool :=
  match cursor.toList.dropWhile (· ≠ '\x00') with
  | [] => (cursor, "", false)
  | _ :: rest => (String.ofList (cursor.toList.takeWhile (· ≠ '\x00')), String.ofList rest, true)

def EnrollmentRow.position (row : EnrollmentRow) : String ×ₗ String :=
  Storage.position row.enrollment

namespace Store

variable (t : Store)

def insertIgnore (row : EnrollmentRow) : Store :=
  if (t.enrollments[row.enrollment.id.id]?).isSome then t
  else { t with enrollments := t.enrollments.insert row.enrollment.id.id row }

def ensureEnrollment (id : EnrollmentID) (atTime : Time) :
    Except StoreError (Store × Enrollment) := do
  validID id
  onlyIf (id.channel.isUser = true) do
    let p ← t.identity id.device
    reject (p.disabledAt ≠ 0) .disabled
  let t := t.insertIgnore
    { enrollment := { id := id, enrolledAt := atTime, lastSeenAt := atTime } }
  match t.identity id with
  | .error error => if error.sentinel = .notFound then .error .conflict else .error error
  | .ok e => pure (t, e)

def recordAssociation (deviceID hash : String) (atTime : Time) : Store :=
  if t.certAssociations.any fun a => a.enrollmentID = deviceID && a.certHash = hash then t
  else { t with certAssociations := t.certAssociations ++ [⟨deviceID, hash, atTime⟩] }

def associations (keep : AssociationRow → Bool) : List CertAssociation :=
  orderBy readKey ((t.certAssociations.filter keep).filterMap fun a =>
    (t.enrollments[a.enrollmentID]?).map fun row =>
      ⟨⟨row.enrollment.id.channel, a.enrollmentID, row.enrollment.id.parentID⟩, a.certHash,
        a.associatedAt⟩)

def exportRow (row : EnrollmentRow) : EnrollmentExport :=
  if row.enrollment.id.channel.isUser then ⟨row.enrollment, [], []⟩
  else
    ⟨row.enrollment, row.bootstrapToken,
      t.associations fun a => a.enrollmentID = row.enrollment.id.id⟩

def exportPage (p : Page) : Except StoreError (PageResult EnrollmentExport) := do
  let (parent, id, hasCursor) := cut p.cursor
  reject (p.cursor ≠ "" ∧ hasCursor = false) (.invalid ("bad cursor " ++ p.cursor.quote))
  let found := (orderBy EnrollmentRow.position (t.enrollments.values.filter fun row =>
    parent < row.enrollment.id.parentID ∨
      row.enrollment.id.parentID = parent ∧ id < row.enrollment.id.id)).take (p.size + 1)
  let items := found.take p.size
  pure ⟨items.map t.exportRow, if p.size < found.length then
    ((items[p.size - 1]?).map fun row =>
      exportCursor row.enrollment.id.parentID row.enrollment.id.id).getD "" else ""⟩

def holder (id hash : String) : Option EnrollmentRow :=
  t.enrollments.values.find? fun row =>
    row.enrollment.certHash = hash && row.enrollment.id.id ≠ id

def imported (rec : EnrollmentExport) : Store :=
  let id := rec.enrollment.id.id
  rec.certHistory.foldl (fun t a => t.recordAssociation id a.hash a.atTime)
    { t with enrollments := t.enrollments.insert id ⟨rec.enrollment, rec.bootstrapToken⟩ }

def importRecord (rec : EnrollmentExport) : Except StoreError Store := do
  let id := rec.enrollment.id
  validID id
  let foreign := rec.certHistory.find? fun a => a.id ≠ id || a.hash = ""
  reject (foreign.isSome = true)
    (.invalid ("history row for " ++ (foreign.map (·.id.id)).getD "" ++ " in record " ++ id.id))
  reject (id.channel.isUser = true ∧ (rec.enrollment.certHash ≠ "" ∨ rec.bootstrapToken.length ≠ 0 ∨
      rec.certHistory.length ≠ 0))
    (.invalid ("user channel " ++ id.id ++ " carries device state"))
  reject (id.channel.isUser = true ∧ (t.identity id.device).toBool = false)
    (.invalid ("parent " ++ id.parentID ++ " of " ++ id.id ++ " is absent"))
  let (t, _) ← t.ensureEnrollment id rec.enrollment.enrolledAt
  let owner := t.holder id.id rec.enrollment.certHash
  reject (rec.enrollment.certHash ≠ "" ∧ owner.isSome = true)
    (.conflict ("certificate already associated with " ++
      (owner.map (·.enrollment.id.id)).getD ""))
  pure (t.imported rec)

end Store

end AppleDM.Sql
