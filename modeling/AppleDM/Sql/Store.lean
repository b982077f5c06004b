import AppleDM.Shared.Checked
import AppleDM.Shared.Rows
import AppleDM.Shared.Table
import AppleDM.Storage.Observations

set_option autoImplicit false

-- The store on SQLite: a column keeps a time to the nanosecond, and keys are equal as bytes. On
-- PostgreSQL and MySQL times are cut to microseconds; MySQL's keys also ignore trailing spaces.
namespace AppleDM.Sql

open Mdm Storage Checked

def nullTime (t : Time) : Option Time := if t = 0 then none else some t

structure CommandRow where
  seq : Nat
  enrollmentID : String
  commandUUID : String
  requestType : String
  raw : Bytes
  dedupeKey : String
  state : State
  enqueuedAt : Time
  lastSentAt : Option Time := none
  notNowUntil : Option Time := none
  attempts : Nat := 0
  notNowCount : Nat := 0
  completedAt : Option Time := none
  resultStatus : Option Status := none
  resultRaw : Bytes := []

def CommandRow.command (row : CommandRow) : Command := ⟨row.commandUUID, row.requestType, row.raw⟩

structure EnrollmentRow where
  enrollment : Enrollment
  bootstrapToken : Bytes := []

structure AssociationRow where
  enrollmentID : String
  certHash : String
  associatedAt : Time

structure Store where
  enrollments : Table String EnrollmentRow := ∅
  commands : List CommandRow := []
  lastSeq : Nat := 0
  certAssociations : List AssociationRow := []

def validID (id : EnrollmentID) : Except StoreError Unit :=
  match id.validate with
  | .error error => .error (.invalid error)
  | .ok _ => .ok ()

namespace Store

def identity (t : Store) (id : EnrollmentID) : Except StoreError Enrollment := do
  validID id
  match t.enrollments[id.id]? with
  | none => .error .notFound
  | some row => if row.enrollment.id = id then pure row.enrollment else .error .notFound

def barred (e : Enrollment) (active : Bool) : Prop :=
  e.disabledAt ≠ 0 ∨ active = true ∧ e.enabled = false

instance (e : Enrollment) (active : Bool) : Decidable (barred e active) :=
  inferInstanceAs (Decidable (_ ∨ _))

def usable (t : Store) (id : EnrollmentID) (active : Bool) : Except StoreError Unit := do
  onlyIf (id.channel.isUser = true) do
    let parent ← t.identity id.device
    reject (barred parent active) .disabled
  let e ← t.identity id
  reject (barred e active) .disabled

variable {t : Store} {id : EnrollmentID} {e : Enrollment}

@[simp] theorem validID_ok (id : EnrollmentID) (done : Unit) :
    validID id = .ok done ↔ id.Valid := by
  rw [← EnrollmentID.validate_ok id ()]
  unfold validID
  split <;> simp_all

theorem identity_ok : t.identity id = .ok e ↔
    id.Valid ∧ ∃ row, t.enrollments[id.id]? = some row ∧ row.enrollment = e ∧ e.id = id := by
  simp only [identity, bind_ok, validID_ok]
  constructor
  · rintro ⟨-, valid, found⟩
    refine ⟨valid, ?_⟩
    split at found
    · simp at found
    · next row there =>
      split at found
      · next same =>
        simp only [pure_ok] at found
        exact ⟨row, there, found, found ▸ same⟩
      · simp at found
  · rintro ⟨valid, row, there, rfl, same⟩
    exact ⟨(), valid, by simp [there, same]⟩

theorem usable_ok (active : Bool) (done : Unit) : t.usable id active = .ok done ↔
    (id.channel.isUser = true →
      ∃ parent, t.identity id.device = .ok parent ∧ ¬ barred parent active) ∧
      ∃ e, t.identity id = .ok e ∧ ¬ barred e active := by
  simp only [usable, bind_ok, onlyIf_ok, reject_ok]
  constructor
  · rintro ⟨-, parent, e, found, enabled⟩
    exact ⟨parent, e, found, enabled⟩
  · rintro ⟨parent, e, found, enabled⟩
    exact ⟨(), parent, e, found, enabled⟩

end Store

end AppleDM.Sql
