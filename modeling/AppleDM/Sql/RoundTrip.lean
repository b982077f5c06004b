import AppleDM.Inmem.Checkout
import AppleDM.Inmem.RoundTrip
import AppleDM.Sql.Migration

set_option autoImplicit false

namespace AppleDM.Sql

open Mdm Storage Checked Rows Run

namespace Store

variable {t t' : Store} {id : EnrollmentID} {rec : EnrollmentExport}

def blankRow (id : EnrollmentID) (atTime : Time) : EnrollmentRow :=
  { enrollment := { id := id, enrolledAt := atTime, lastSeenAt := atTime } }

theorem ensureEnrollment_new {atTime : Time} (absent : t.enrollments[id.id]? = none)
    (result : Store × Enrollment) :
    t.ensureEnrollment id atTime = .ok result ↔
      id.Valid ∧ (id.channel.isUser = true →
        ∃ parent, t.identity id.device = .ok parent ∧ parent.disabledAt = 0) ∧
      result = (t.insertIgnore (blankRow id atTime), (blankRow id atTime).enrollment) := by
  have inserted : id.Valid → (t.insertIgnore (blankRow id atTime)).identity id =
      .ok (blankRow id atTime).enrollment := by
    intro valid
    refine identity_ok.2 ⟨valid, blankRow id atTime, ?_, rfl, rfl⟩
    simp [insertIgnore, blankRow, absent]
  simp only [ensureEnrollment, bind_ok, validID_ok, onlyIf_ok, reject_ok, not_not]
  constructor
  · rintro ⟨-, valid, -, parent, found⟩
    refine ⟨valid, parent, ?_⟩
    have here := inserted valid
    unfold blankRow at here
    rw [here] at found
    simpa [blankRow] using ((pure_ok _ _).1 found).symm
  · rintro ⟨valid, parent, rfl⟩
    refine ⟨(), valid, (), parent, ?_⟩
    have here := inserted valid
    unfold blankRow at here
    rw [here]
    rfl

theorem recordAssociations_frame (t : Store) (id : String) (rows : List CertAssociation) :
    (rows.foldl (fun t a => t.recordAssociation id a.hash a.atTime) t).enrollments =
      t.enrollments := by
  induction rows generalizing t with
  | nil => rfl
  | cons a rest ih =>
    rw [List.foldl_cons, ih]
    unfold recordAssociation
    split <;> rfl

def associationRow (id : String) (a : CertAssociation) : AssociationRow := ⟨id, a.hash, a.atTime⟩

def sameAssociation (a b : AssociationRow) : Bool :=
  b.enrollmentID = a.enrollmentID && b.certHash = a.certHash

theorem recordAssociations_rows (t : Store) {id : String} {rows : List CertAssociation}
    (unseen : ∀ a ∈ t.certAssociations, a.enrollmentID ≠ id)
    (distinct : rows.Pairwise fun a b => a.hash ≠ b.hash) :
    (rows.foldl (fun t a => t.recordAssociation id a.hash a.atTime) t).certAssociations =
      t.certAssociations ++ rows.map (associationRow id) := by
  have folded : (rows.foldl (fun t a => t.recordAssociation id a.hash a.atTime) t).certAssociations =
      (rows.map (associationRow id)).foldl (insertNew sameAssociation) t.certAssociations := by
    rw [List.foldl_map]
    refine (List.foldl_hom Store.certAssociations fun t a => ?_).symm
    rw [recordAssociation, apply_ite Store.certAssociations]
    rfl
  rw [folded]
  refine foldl_insertNew (List.forall_mem_map.2 fun a member old recorded => ?_)
    (List.pairwise_map.2 (distinct.imp fun apart => ?_))
  · simp [sameAssociation, associationRow, unseen old recorded]
  · simp [sameAssociation, associationRow, apart]

structure Loaded (t : Store) (done : List EnrollmentExport) : Prop where
  rows : ∀ (key : String) row, t.enrollments[key]? = some row ↔
    ∃ rec ∈ done, rec.enrollment.id.id = key ∧ row = ⟨rec.enrollment, rec.bootstrapToken⟩
  associations : t.certAssociations =
    done.flatMap fun rec => rec.certHistory.map (associationRow rec.enrollment.id.id)

def Accepts (done : List EnrollmentExport) (rec : EnrollmentExport) : Prop :=
  rec.enrollment.id.channel.isUser = true → ∀ parent ∈ done,
    parent.enrollment.id = rec.enrollment.id.device → parent.enrollment.disabledAt = 0

variable {done rest : List EnrollmentExport}

def began (t : Store) (rec : EnrollmentExport) : Store :=
  t.insertIgnore (blankRow rec.enrollment.id rec.enrollment.enrolledAt)

theorem Loaded.identity (loaded : t.Loaded done) (valid : id.Valid) {found : EnrollmentExport}
    (member : found ∈ done) (same : found.enrollment.id = id) :
    t.identity id = .ok found.enrollment := by
  have there := (loaded.rows _ _).2 ⟨found, member, congrArg EnrollmentID.id same, rfl⟩
  exact identity_ok.2 ⟨valid, _, there, rfl, same⟩

theorem Loaded.open_iff (loaded : t.Loaded done) (loadable : Loadable (done ++ rec :: rest)) :
    (rec.enrollment.id.channel.isUser = true → ∃ parent,
      t.identity rec.enrollment.id.device = .ok parent ∧ parent.disabledAt = 0) ↔
      Accepts done rec := by
  have valid := (loadable.valid rec (by simp)).device
  constructor
  · intro open_ user found member same
    obtain ⟨parent, there, enabled⟩ := open_ user
    rw [loaded.identity valid member same] at there
    cases there
    exact enabled
  · intro accepts user
    obtain ⟨parent, before, same⟩ := loadable.parent_before user
    exact ⟨parent.enrollment, loaded.identity valid before same, accepts user parent before same⟩

theorem Loaded.began_rows (loaded : t.Loaded done) (loadable : Loadable (done ++ rec :: rest)) :
    (t.began rec).enrollments = t.enrollments.insert rec.enrollment.id.id
      (blankRow rec.enrollment.id rec.enrollment.enrolledAt) := by
  have absent := Filled.absent loaded.rows loadable
  simp [began, insertIgnore, blankRow, absent]

theorem Loaded.unheld (loaded : t.Loaded done) (loadable : Loadable (done ++ rec :: rest))
    (named : rec.enrollment.certHash ≠ "") :
    (t.began rec).holder rec.enrollment.id.id rec.enrollment.certHash = none := by
  rw [holder, List.find?_eq_none]
  intro row member
  obtain ⟨key, there⟩ := Table.mem_values.1 member
  rw [loaded.began_rows loadable, Std.ExtTreeMap.getElem?_insert] at there
  split at there
  · obtain rfl : blankRow rec.enrollment.id rec.enrollment.enrolledAt = row := by simpa using there
    simp [blankRow]
  · obtain ⟨before, among, -, rfl⟩ := (loaded.rows key row).1 there
    simp only [Bool.and_eq_true, decide_eq_true_eq, not_and]
    intro held
    exact absurd held ((loadable.new among).2 (by rwa [held]))

theorem Loaded.importRecord_ok (loaded : t.Loaded done) (loadable : Loadable (done ++ rec :: rest))
    (result : Store) :
    t.importRecord rec = .ok result ↔ Accepts done rec ∧ (t.began rec).imported rec = result := by
  have member : rec ∈ done ++ rec :: rest := by simp
  have valid := loadable.valid rec member
  have own : (rec.certHistory.find? fun a => a.id ≠ rec.enrollment.id || a.hash = "") = none := by
    rw [List.find?_eq_none]
    intro a listed
    simpa using loadable.own rec member a listed
  have light : ¬ (rec.enrollment.id.channel.isUser = true ∧ (rec.enrollment.certHash ≠ "" ∨
      rec.bootstrapToken.length ≠ 0 ∨ rec.certHistory.length ≠ 0)) := by
    rintro ⟨user, carries⟩
    simp [loadable.users rec member user] at carries
  have parent : ¬ (rec.enrollment.id.channel.isUser = true ∧
      (t.identity rec.enrollment.id.device).toBool = false) := by
    rintro ⟨user, absent⟩
    obtain ⟨parent, before, same⟩ := loadable.parent_before user
    simp [loaded.identity valid.device before same, Except.toBool] at absent
  have unheld : ¬ (rec.enrollment.certHash ≠ "" ∧ ((t.began rec).holder rec.enrollment.id.id
      rec.enrollment.certHash).isSome = true) := by
    rintro ⟨named, held⟩
    simp [loaded.unheld loadable named] at held
  rw [← loaded.open_iff loadable]
  simp only [importRecord, bind_ok, validID_ok, reject_ok, own, Option.isSome_none, light, parent,
    ensureEnrollment_new (Filled.absent loaded.rows loadable)]
  constructor
  · rintro ⟨-, -, -, -, -, -, -, -, _, ⟨-, open_, rfl⟩, -, -, rest⟩
    exact ⟨open_, (pure_ok _ _).1 rest⟩
  · rintro ⟨open_, rfl⟩
    exact ⟨(), valid, (), by simp, (), by simp, (), by simp, _, ⟨valid, open_, rfl⟩, (), unheld, rfl⟩

theorem Loaded.imported (loaded : t.Loaded done) (loadable : Loadable (done ++ rec :: rest)) :
    ((t.began rec).imported rec).Loaded (done ++ [rec]) := by
  have member : rec ∈ done ++ rec :: rest := by simp
  constructor
  · intro key row
    rw [Store.imported, recordAssociations_frame, loaded.began_rows loadable,
      ← Filled.insert loaded.rows loadable key row]
    by_cases same : rec.enrollment.id.id = key <;> simp [Std.ExtTreeMap.getElem?_insert, same]
  · have kept : (t.began rec).certAssociations = t.certAssociations := by
      rw [began, insertIgnore, apply_ite Store.certAssociations, ite_self]
    have unseen (a : AssociationRow) (recorded : a ∈ t.certAssociations) :
        a.enrollmentID ≠ rec.enrollment.id.id := by
      rw [loaded.associations] at recorded
      obtain ⟨before, among, listed⟩ := List.mem_flatMap.1 recorded
      obtain ⟨_, -, rfl⟩ := List.mem_map.1 listed
      exact (loadable.new among).1
    rw [Store.imported, recordAssociations_rows _ (by rw [kept]; exact unseen)
      (loadable.firstSeen rec member), List.flatMap_append, List.flatMap_singleton,
      ← loaded.associations, kept]

theorem cut_cursor {parentID : String} (free : '\x00' ∉ parentID.toList) (id : String) :
    cut (exportCursor parentID id) = (parentID, id, true) := by
  have kept : ∀ letter ∈ parentID.toList, (letter ≠ '\x00' : Bool) = true := by
    intro letter member
    have apart : letter ≠ '\x00' := fun same => free (same ▸ member)
    simpa using apart
  have rest : (exportCursor parentID id).toList.dropWhile (· ≠ '\x00') = '\x00' :: id.toList := by
    simp only [exportCursor, String.toList_append]
    rw [List.append_assoc, List.dropWhile_append_of_pos kept]
    rfl
  have first : (exportCursor parentID id).toList.takeWhile (· ≠ '\x00') = parentID.toList := by
    simp only [exportCursor, String.toList_append]
    rw [List.append_assoc, List.takeWhile_append_of_pos kept]
    simp
  rw [cut, rest, first]
  simp

theorem after_iff (row : EnrollmentRow) (parent id : String) :
    (parent < row.enrollment.id.parentID ∨
      row.enrollment.id.parentID = parent ∧ id < row.enrollment.id.id) ↔
      (toLex (parent, id) : String ×ₗ String) < row.position := by
  rw [EnrollmentRow.position, Storage.position, Prod.Lex.toLex_lt_toLex,
    eq_comm (a := row.enrollment.id.parentID)]

theorem exportPage_eq {rows rest : List EnrollmentRow}
    (increasing : Increasing EnrollmentRow.position rows)
    (found : t.enrollments.values.Perm rows) (p : Page) {parent id : String} {hasCursor : Bool}
    (split : cut p.cursor = (parent, id, hasCursor)) (given : p.cursor = "" ∨ hasCursor = true)
    (later : (rows.filter fun row => (toLex (parent, id) : String ×ₗ String) < row.position) = rest) :
    t.exportPage p = .ok ⟨(rest.take p.size).map t.exportRow, if p.size < rest.length then
      ((rest[p.size - 1]?).map fun row =>
        exportCursor row.enrollment.id.parentID row.enrollment.id.id).getD "" else ""⟩ := by
  have accepted : ¬ (p.cursor ≠ "" ∧ hasCursor = false) := by
    rintro ⟨named, absent⟩
    rcases given with given | given
    · exact named given
    · simp [given] at absent
  have selected : orderBy EnrollmentRow.position (t.enrollments.values.filter fun row =>
      parent < row.enrollment.id.parentID ∨
        row.enrollment.id.parentID = parent ∧ id < row.enrollment.id.id) = rest := by
    rw [← later]
    simp only [after_iff]
    exact orderBy_perm (increasing.filter _) (found.filter _)
  obtain ⟨taken, more, last⟩ := Paging.probe p.size_pos rest
  simp only [exportPage, split, reject, accepted, if_false, ok_bind, selected, more]
  rw [last, taken]
  rfl

variable {fuel : Nat}

theorem exportAll_rows {rows : List EnrollmentRow}
    (increasing : Increasing EnrollmentRow.position rows)
    (found : t.enrollments.values.Perm rows)
    (named : ∀ row ∈ rows, row.enrollment.id.id ≠ "")
    (separable : ∀ row ∈ rows, '\x00' ∉ row.enrollment.id.parentID.toList)
    (limit : Int) (enough : rows.length < fuel) :
    exportAll t.exportPage limit fuel "" = .ok (rows.map t.exportRow) := by
  let encode (key : String ×ₗ String) : String := exportCursor (ofLex key).1 (ofLex key).2
  have letters (key : String ×ₗ String) : encode key ≠ "" := by
    intro empty
    have letters := congrArg String.toList empty
    simp [encode, exportCursor] at letters
  refine exportAll_pages EnrollmentRow.position encode (Page.size_pos ⟨"", limit⟩) increasing
    (fun row _ => letters _) (fun cursor started => ?_) enough
  have cursors (size : Nat) (rest : List EnrollmentRow) :
      (if size < rest.length then ((rest[size - 1]?).map fun row =>
        exportCursor row.enrollment.id.parentID row.enrollment.id.id).getD "" else "") =
      ((if size < rest.length then (rest[size - 1]?).map EnrollmentRow.position
        else none).map encode).getD "" := by
    split
    · rw [Option.map_map]
      rfl
    · rfl
  cases cursor with
  | none =>
    have all : (rows.filter fun row =>
        (toLex ("", "") : String ×ₗ String) < row.position) = rows := by
      rw [List.filter_eq_self]
      intro row member
      rw [decide_eq_true_eq, ← after_iff]
      by_cases device : row.enrollment.id.parentID = ""
      · exact .inr ⟨device, empty_lt (named row member)⟩
      · exact .inl (empty_lt device)
    have first := exportPage_eq increasing found ⟨"", limit⟩ (by rfl) (.inl rfl) all
    rw [cursors] at first
    exact first
  | some key =>
    obtain ⟨row, member, rfl⟩ := started key rfl
    have split := cut_cursor (separable row member) row.enrollment.id.id
    have next := exportPage_eq increasing found ⟨encode row.position, limit⟩ split (.inr rfl) rfl
    rw [cursors] at next
    exact next

variable {records : List EnrollmentExport}

theorem Loaded.history (loaded : t.Loaded records) (loadable : Loadable records)
    (member : rec ∈ records) :
    (t.associations fun a => a.enrollmentID = rec.enrollment.id.id) = rec.certHistory := by
  have own : (t.certAssociations.filter fun a => a.enrollmentID = rec.enrollment.id.id) =
      rec.certHistory.map (associationRow rec.enrollment.id.id) := by
    rw [loaded.associations]
    refine filter_flatMap (fun rec : EnrollmentExport => rec.enrollment.id.id)
      AssociationRow.enrollmentID loadable.keys (fun rec member a listed => ?_) member
    obtain ⟨_, -, rfl⟩ := List.mem_map.1 listed
    rfl
  have there := (loaded.rows _ _).2 ⟨rec, member, rfl, rfl⟩
  have joined : (rec.certHistory.map (associationRow rec.enrollment.id.id)).filterMap (fun a =>
      (t.enrollments[a.enrollmentID]?).map fun row => (⟨⟨row.enrollment.id.channel,
        a.enrollmentID, row.enrollment.id.parentID⟩, a.certHash, a.associatedAt⟩ :
        CertAssociation)) = rec.certHistory := by
    rw [List.filterMap_map]
    refine (List.filterMap_congr fun a listed => ?_).trans List.filterMap_some
    simp only [Function.comp_apply, associationRow, there, Option.map_some]
    rw [← (loadable.own rec member a listed).1]
  have sorted := loadable.readOrder rec member
  simp only [associationLe_iff] at sorted
  rw [Store.associations, own, joined]
  exact sorted.insertionSort_eq

theorem Loaded.exportAll (loaded : t.Loaded records) (loadable : Loadable records) (limit : Int) (enough : records.length < fuel) :
    exportAll t.exportPage limit fuel "" = .ok records := by
  have rows := exportAll_rows (List.pairwise_map.2 loadable.ordered)
    (Filled.values_perm (·.enrollment.id.id) (fun _ => rfl) loaded.rows loadable)
    (List.forall_mem_map.2 fun rec member => (loadable.valid rec member).named)
    (List.forall_mem_map.2 loadable.separable) limit (by simpa using enough)
  rw [rows, List.map_map]
  refine congrArg _ ((List.map_congr_left fun rec member => ?_).trans (List.map_id records))
  cases user : rec.enrollment.id.channel.isUser with
  | true =>
    obtain ⟨-, bootstrap, history⟩ := loadable.users rec member user
    simp only [Function.comp_apply, exportRow, user, if_true, id_eq]
    rw [← bootstrap, ← history]
  | false =>
    simp only [Function.comp_apply, exportRow, user, Bool.false_eq_true, if_false, id_eq,
      loaded.history loadable member]

theorem importAll_iff (loadable : Loadable records) :
    ((∃ target : Store, records.foldlM importRecord {} = .ok target) ↔ AllAccepted records) ∧
      ∀ target : Store, records.foldlM importRecord {} = .ok target → target.Loaded records := by
  have step : ∀ (t : Store) done rec rest, records = done ++ rec :: rest → t.Loaded done →
      ∃ next : Store, next.Loaded (done ++ [rec]) ∧
        ∀ result, t.importRecord rec = .ok result ↔ Accepts done rec ∧ next = result := by
    rintro t done rec rest rfl loaded
    exact ⟨_, loaded.imported loadable, loaded.importRecord_ok loadable⟩
  obtain ⟨complete, loads⟩ := foldlM_iff Loaded Accepts {} ⟨by simp, by simp⟩ step
  refine ⟨complete.trans ⟨?_, ?_⟩, loads⟩
  · intro accepted rec member user parent among same
    obtain ⟨done, rest, split⟩ := List.append_of_mem member
    have before := (split ▸ loadable).before user (split ▸ among) same
    exact accepted done rec rest split user parent before same
  · rintro open_ done rec rest rfl user parent before same
    exact open_ rec (by simp) user parent (by simp [before]) same

structure Portable (t : Store) : Prop where
  rows : PortableRows EnrollmentRow.enrollment t.enrollments
  keyed : t.enrollments.Keyed fun row => row.enrollment.id.id
  users : ∀ (key : String) row, t.enrollments[key]? = some row →
    row.enrollment.id.channel.isUser = true → row.enrollment.certHash = ""
  named : ∀ a ∈ t.certAssociations, a.certHash ≠ ""
  firstSeen : t.certAssociations.Pairwise fun a b =>
    a.enrollmentID = b.enrollmentID → a.certHash ≠ b.certHash

theorem exportRow_history (portable : t.Portable) {key : String} {row : EnrollmentRow}
    (there : t.enrollments[key]? = some row) :
    let history := (t.exportRow row).certHistory
    (∀ a ∈ history, a.id = row.enrollment.id ∧ a.hash ≠ "") ∧
      (history.Pairwise fun a b => associationLe a b = true) ∧
      history.Pairwise fun a b => a.hash ≠ b.hash := by
  intro history
  cases user : row.enrollment.id.channel.isUser with
  | true => simp [history, exportRow, user]
  | false =>
    have here : row.enrollment.id.id = key := portable.keyed key row there
    let own := t.certAssociations.filter fun a => a.enrollmentID = row.enrollment.id.id
    have named {a : AssociationRow} (listed : a ∈ own) :
        a.enrollmentID = row.enrollment.id.id := by
      simpa using (List.mem_filter.1 listed).2
    have joined : history = orderBy readKey (own.map fun a =>
        ⟨row.enrollment.id, a.certHash, a.associatedAt⟩) := by
      simp only [history, exportRow, user, Bool.false_eq_true, if_false, associations]
      rw [← List.filterMap_eq_map]
      refine congrArg _ (List.filterMap_congr fun a listed => ?_)
      rw [named listed, here, there, ← here]
      rfl
    refine ⟨fun a listed => ?_, ordered_history joined ?_⟩
    · rw [joined, (perm_orderBy _).mem_iff] at listed
      obtain ⟨b, among, rfl⟩ := List.mem_map.1 listed
      exact ⟨rfl, portable.named b (List.mem_filter.1 among).1⟩
    · rw [List.pairwise_map]
      exact (portable.firstSeen.filter _).imp_of_mem fun first second apart =>
        apart ((named first).trans (named second).symm)

theorem Portable.rendered (portable : t.Portable) :
    Rendered EnrollmentRow.enrollment t.enrollments t.exportRow := by
  refine ⟨fun row => ?_, portable.keyed, fun key row there user => ?_, fun key row there => ?_⟩
  · unfold exportRow
    split <;> rfl
  · exact ⟨portable.users key row there user, by simp [exportRow, user]⟩
  · exact exportRow_history portable there

theorem Portable.exportAll (portable : t.Portable) (limit : Int)
    (enough : t.enrollments.size < fuel) :
    exportAll t.exportPage limit fuel "" =
      .ok ((orderBy (place EnrollmentRow.enrollment) t.enrollments.values).map t.exportRow) := by
  have there {row : EnrollmentRow}
      (member : row ∈ orderBy (place EnrollmentRow.enrollment) t.enrollments.values) :=
    Table.mem_values.1 ((perm_orderBy _).mem_iff.1 member)
  refine exportAll_rows (increasing_place portable.keyed) (perm_orderBy _).symm
    (fun row member => ?_) (fun row member => ?_) limit ?_
  · obtain ⟨key, found⟩ := there member
    exact (portable.rows.valid key row found).named
  · obtain ⟨key, found⟩ := there member
    exact portable.rows.separable key row found
  · rwa [(perm_orderBy _).length_eq, Table.length_values]

theorem roundTrips_iff {rows : Nat} {source : Page → Except StoreError (PageResult EnrollmentExport)}
    (loadable : Loadable records) (length : records.length = rows)
    (exported : ∀ limit fuel, rows < fuel → Storage.exportAll source limit fuel "" = .ok records) :
    RoundTrips rows source importRecord {} exportPage ↔ AllAccepted records := by
  obtain ⟨complete, loads⟩ := importAll_iff loadable
  rw [← complete]
  constructor
  · rintro ⟨_, trips⟩
    obtain ⟨-, target, migrated, -⟩ := trips 0 (rows + 1) (by omega)
    rw [migrate_exportAll importRecord (exported 0 (rows + 1) (by omega))] at migrated
    exact ⟨target, migrated⟩
  · rintro ⟨target, imported⟩
    refine ⟨records, fun limit fuel enough => ⟨exported limit fuel enough, target, ?_, ?_⟩⟩
    · rw [migrate_exportAll importRecord (exported limit fuel enough), imported]
    · exact fun limit' => (loads target imported).exportAll loadable limit' (by rwa [length])

end Store

def enrolledDevice : Inmem.Record :=
  { enrollment :=
      { id := Inmem.sampleDevice, enabled := true, push := Inmem.samplePush, enrolledAt := 1
        tokenUpdatedAt := 1, lastSeenAt := 1, certHash := "old", certHashAt := 1 } }

def enrolledUser : Inmem.Record :=
  { enrollment :=
      { id := Inmem.sampleUser, enabled := true, push := Inmem.samplePush, enrolledAt := 1
        tokenUpdatedAt := 1, lastSeenAt := 1 } }

end AppleDM.Sql
