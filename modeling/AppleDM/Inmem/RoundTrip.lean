import AppleDM.Inmem.Edits

set_option autoImplicit false

namespace AppleDM.Inmem

open Mdm Storage Checked Rows Run

namespace Store

structure Sound (s : Store) : Prop where
  keyed : s.enrollments.Keyed fun r => r.enrollment.id.id
  users : ∀ (key : String) r, s.enrollments[key]? = some r →
    r.enrollment.id.channel.isUser = true → r.enrollment.certHash = ""
  history : ∀ a ∈ s.history, ∃ r, s.enrollments[a.id.id]? = some r ∧ r.enrollment.id = a.id

structure Portable (s : Store) : Prop where
  rows : PortableRows Record.enrollment s.enrollments
  named : ∀ a ∈ s.history, a.hash ≠ ""
  firstSeen : s.history.Pairwise fun a b => a.id.id = b.id.id → a.hash ≠ b.hash

theorem exportCursor_named (r : Record) : exportCursor r.enrollment ≠ "" := by
  intro same
  have letters := congrArg String.toList same
  simp [exportCursor] at letters

variable {s : Store}

theorem exportAll_rows {rows : List Record} (increasing : Increasing (place Record.enrollment) rows)
    (separable : ∀ r ∈ rows, '\x00' ∉ r.enrollment.id.parentID.toList)
    (found : s.enrollments.values.Perm rows) (limit : Int) {fuel : Nat}
    (enough : rows.length < fuel) :
    exportAll s.exportPage limit fuel "" = .ok (rows.map s.exportLocked) := by
  have cursors : Increasing (fun r : Record => exportCursor r.enrollment) rows :=
    increasing.imp_of_mem fun first second below =>
      cursor_lt_cursor (separable _ first) (separable _ second) below
  have ordered : s.exportRows = rows := orderBy_perm cursors found
  let size := if limit ≤ 0 then defaultPageSize else limit.toNat
  have positive : 0 < size := by
    unfold size
    split
    · decide
    · omega
  refine exportAll_pages (fun r : Record => exportCursor r.enrollment) id positive cursors
    (fun row _ => exportCursor_named row) ?_ enough
  intro cursor started
  cases cursor with
  | none => simp [exportPage, reject, size, ordered]
  | some cursor =>
    obtain ⟨row, -, rfl⟩ := started cursor rfl
    have separated : '\x00' ∈ (exportCursor row.enrollment).toList := by simp [exportCursor]
    simp [exportPage, reject, size, ordered, exportCursor_named, separated]

theorem exportLocked_history (sound : s.Sound) (portable : s.Portable) {key : String} {r : Record}
    (there : s.enrollments[key]? = some r) :
    let history := (s.exportLocked r).certHistory
    (∀ a ∈ history, a.id = r.enrollment.id ∧ a.hash ≠ "") ∧
      (history.Pairwise fun a b => associationLe a b = true) ∧
      history.Pairwise fun a b => a.hash ≠ b.hash := by
  intro history
  cases user : r.enrollment.id.channel.isUser with
  | true => simp [history, exportLocked, user]
  | false =>
    have read : history =
        orderBy readKey (s.history.filter fun a => a.id.id = r.enrollment.id.id) := by
      simp [history, exportLocked, user, historyLocked, orderBy, associationLe_iff]
    refine ⟨fun a listed => ?_, ordered_history read ?_⟩
    · rw [read, (perm_orderBy _).mem_iff] at listed
      obtain ⟨recorded, own⟩ := List.mem_filter.1 listed
      obtain ⟨owner, found, same⟩ := sound.history a recorded
      have here : r.enrollment.id.id = key := sound.keyed key r there
      rw [of_decide_eq_true own, here, there] at found
      obtain rfl : r = owner := by simpa using found
      exact ⟨same.symm, portable.named a recorded⟩
    · refine (portable.firstSeen.filter _).imp_of_mem fun first second apart => apart ?_
      have own := (List.mem_filter.1 first).2
      have own' := (List.mem_filter.1 second).2
      rw [of_decide_eq_true own, of_decide_eq_true own']

theorem Portable.rendered (sound : s.Sound) (portable : s.Portable) :
    Rendered Record.enrollment s.enrollments s.exportLocked := by
  refine ⟨fun r => ?_, sound.keyed, fun key r there user => ?_, fun key r there => ?_⟩
  · unfold exportLocked
    split <;> rfl
  · exact ⟨sound.users key r there user, by simp [exportLocked, user]⟩
  · exact exportLocked_history sound portable there

theorem Portable.exportAll (sound : s.Sound) (portable : s.Portable) (limit : Int) {fuel : Nat}
    (enough : s.enrollments.size < fuel) :
    exportAll s.exportPage limit fuel "" =
      .ok ((orderBy (place Record.enrollment) s.enrollments.values).map s.exportLocked) := by
  refine exportAll_rows (increasing_place sound.keyed) (fun r member => ?_)
    (perm_orderBy _).symm limit ?_
  · obtain ⟨key, there⟩ := Table.mem_values.1 ((perm_orderBy _).mem_iff.1 member)
    exact portable.rows.separable key r there
  · rwa [(perm_orderBy _).length_eq, Table.length_values]

structure Loaded (s : Store) (done : List EnrollmentExport) : Prop where
  rows : ∀ (key : String) r, s.enrollments[key]? = some r ↔
    ∃ rec ∈ done, rec.enrollment.id.id = key ∧ r = ⟨rec.enrollment, []⟩
  certs : ∀ hash owner, hash ≠ "" → s.certs[hash]? = some owner →
    ∃ rec ∈ done, rec.enrollment.id = owner ∧ rec.enrollment.certHash = hash
  bootstrap : ∀ rec ∈ done, rec.enrollment.id.channel.isUser = false →
    (s.bootstrap[rec.enrollment.id.id]?).getD [] = rec.bootstrapToken
  history : s.history = done.flatMap (·.certHistory)

def sameAssociation (a b : CertAssociation) : Bool := b.id.id = a.id.id && b.hash = a.hash

theorem recordAssociationLocked_history (s : Store) (id : EnrollmentID) (hash : String)
    (atTime : Time) : (s.recordAssociationLocked id hash atTime).history =
      insertNew sameAssociation s.history ⟨id, hash, atTime⟩ := by
  rw [recordAssociationLocked, apply_ite Store.history]
  rfl

theorem recordAssociations_folded (s : Store) (id : EnrollmentID) (rows : List CertAssociation) :
    (rows.foldl (fun s a => s.recordAssociationLocked id a.hash a.atTime) s).history =
      (rows.map fun a => ⟨id, a.hash, a.atTime⟩).foldl (insertNew sameAssociation) s.history := by
  rw [List.foldl_map]
  exact (List.foldl_hom Store.history fun s a =>
    (recordAssociationLocked_history s id a.hash a.atTime).symm).symm

theorem recordAssociations_history (s : Store) {id : EnrollmentID} {rows : List CertAssociation}
    (own : ∀ a ∈ rows, a.id = id) (unseen : ∀ a ∈ s.history, a.id.id ≠ id.id)
    (distinct : rows.Pairwise fun a b => a.hash ≠ b.hash) :
    (rows.foldl (fun s a => s.recordAssociationLocked id a.hash a.atTime) s).history =
      s.history ++ rows := by
  have rebuilt : (rows.map fun a => (⟨id, a.hash, a.atTime⟩ : CertAssociation)) = rows :=
    (List.map_congr_left fun a member => by rw [← own a member, id_eq]).trans (List.map_id rows)
  rw [recordAssociations_folded, rebuilt]
  refine foldl_insertNew (fun a member old recorded => ?_) (distinct.imp fun apart => ?_)
  · simp [sameAssociation, own a member, unseen old recorded]
  · simp [sameAssociation, apart]

variable {done rest : List EnrollmentExport} {rec : EnrollmentExport}

theorem Loaded.importable (loaded : s.Loaded done) (loadable : Loadable (done ++ rec :: rest)) :
    s.Importable rec := by
  have member : rec ∈ done ++ rec :: rest := by simp
  refine ⟨loadable.valid rec member, loadable.own rec member, loadable.users rec member,
    fun user => ?_, fun named owner claimed => ?_, ?_⟩
  · obtain ⟨parent, before, same⟩ := loadable.parent_before user
    have there := (loaded.rows _ _).2 ⟨parent, before, congrArg EnrollmentID.id same, rfl⟩
    exact ⟨_, get_ok.2 ⟨(loadable.valid rec member).device, there, same⟩⟩
  · obtain ⟨holder, before, -, held⟩ := loaded.certs _ owner named claimed
    exact absurd held ((loadable.new before).2 (by rwa [held]))
  · simp [occupied, Filled.absent loaded.rows loadable]

theorem importDevice_certs {hash : String} {owner : EnrollmentID}
    (claimed : (s.importDevice rec).certs[hash]? = some owner) :
    owner = rec.enrollment.id ∧ hash = rec.enrollment.certHash ∨ s.certs[hash]? = some owner := by
  have kept (filtered : (s.dropCertLocked rec.enrollment.id.id).certs[hash]? = some owner) :
      s.certs[hash]? = some owner := by
    rw [dropCertLocked, Std.ExtTreeMap.getElem?_filter'] at filtered
    exact (Option.filter_eq_some_iff.1 filtered).1
  simp only [importDevice] at claimed
  split at claimed
  · rw [Std.ExtTreeMap.getElem?_insert] at claimed
    split at claimed
    · next same => exact .inl ⟨by simpa using claimed.symm, (compare_eq_iff_eq.1 same).symm⟩
    · exact .inr (kept claimed)
  · exact .inr (kept claimed)

theorem importDevice_bootstrap (s : Store) (rec : EnrollmentExport) (key : String) :
    ((s.importDevice rec).bootstrap[key]?).getD [] =
      if key = rec.enrollment.id.id then rec.bootstrapToken else (s.bootstrap[key]?).getD [] := by
  simp only [importDevice, dropCertLocked]
  by_cases same : key = rec.enrollment.id.id
  · split
    · simp [same]
    · next empty => simp [same, List.length_eq_zero_iff.1 (Nat.eq_zero_of_not_pos empty)]
  · split
    · simp [Std.ExtTreeMap.getElem?_insert, Ne.symm same]
    · simp [Std.ExtTreeMap.getElem?_erase, Ne.symm same]

theorem Loaded.imported (loaded : s.Loaded done) (loadable : Loadable (done ++ rec :: rest)) :
    (s.imported rec).Loaded (done ++ [rec]) := by
  have member : rec ∈ done ++ rec :: rest := by simp
  have rows : Filled (fun rec => ⟨rec.enrollment, []⟩) (s.imported rec).enrollments
      (done ++ [rec]) := by
    have queue : s.queueAt rec.enrollment.id.id = [] := by
      simp [queueAt, Filled.absent loaded.rows loadable]
    rw [imported_enrollments, queue]
    exact Filled.insert loaded.rows loadable
  cases user : rec.enrollment.id.channel.isUser with
  | true =>
    have kept : s.imported rec = s.put ⟨rec.enrollment, s.queueAt rec.enrollment.id.id⟩ := by
      simp [Store.imported, user]
    refine ⟨rows, fun hash owner named claimed => ?_, fun found among device => ?_, ?_⟩
    · rw [kept] at claimed
      obtain ⟨holder, before, held⟩ := loaded.certs hash owner named claimed
      exact ⟨holder, List.mem_append_left _ before, held⟩
    · rw [kept]
      rcases List.mem_append.1 among with before | last
      · exact loaded.bootstrap found before device
      · simp [List.mem_singleton.1 last, user] at device
    · rw [kept]
      simp [put, putAt, loaded.history, (loadable.users rec member user).2.2]
  | false =>
    obtain ⟨certs, bootstrap⟩ := imported_device s user
    refine ⟨rows, fun hash owner named claimed => ?_, fun found among device => ?_, ?_⟩
    · rw [certs] at claimed
      rcases importDevice_certs claimed with ⟨rfl, rfl⟩ | kept
      · exact ⟨rec, by simp, rfl, rfl⟩
      · obtain ⟨holder, before, held⟩ := loaded.certs hash owner named kept
        exact ⟨holder, List.mem_append_left _ before, held⟩
    · rw [bootstrap]
      rcases List.mem_append.1 among with before | last
      · rw [importDevice_bootstrap, if_neg (loadable.new before).1]
        exact loaded.bootstrap found before device
      · rw [List.mem_singleton.1 last, importDevice_bootstrap, if_pos rfl]
    · have unseen (a : CertAssociation) (recorded : a ∈ s.history) :
          a.id.id ≠ rec.enrollment.id.id := by
        rw [loaded.history] at recorded
        obtain ⟨before, among, listed⟩ := List.mem_flatMap.1 recorded
        rw [(loadable.own before (by simp [among]) a listed).1]
        exact (loadable.new among).1
      simp only [Store.imported, user, Bool.false_eq_true, if_false]
      refine (recordAssociations_history _ (fun a listed => (loadable.own rec member a listed).1)
        ?_ (loadable.firstSeen rec member)).trans ?_
      · exact unseen
      rw [List.flatMap_append, List.flatMap_singleton, ← loaded.history]
      rfl

variable {records : List EnrollmentExport}

theorem Loaded.exportLocked (loaded : s.Loaded records)
    (loadable : Loadable records) (member : rec ∈ records) :
    s.exportLocked ⟨rec.enrollment, []⟩ = rec := by
  cases user : rec.enrollment.id.channel.isUser with
  | true =>
    obtain ⟨-, bootstrap, history⟩ := loadable.users rec member user
    simp only [Store.exportLocked, user, if_true]
    rw [← bootstrap, ← history]
  | false =>
    simp only [Store.exportLocked, user, Bool.false_eq_true, if_false]
    have own : (s.history.filter fun a => a.id.id = rec.enrollment.id.id) = rec.certHistory := by
      rw [loaded.history]
      exact filter_flatMap (fun rec : EnrollmentExport => rec.enrollment.id.id)
        (fun a : CertAssociation => a.id.id) loadable.keys
        (fun rec member a listed => by rw [(loadable.own rec member a listed).1]) member
    have read : rec.certHistory.insertionSort (fun a b => associationLe a b = true) =
        rec.certHistory := (loadable.readOrder rec member).insertionSort_eq
    rw [historyLocked, own, read, loaded.bootstrap rec member user]

theorem importAll_loadable (loadable : Loadable records) :
    ∃ target : Store, records.foldlM importRecord {} = .ok target ∧ ∀ limit fuel,
      records.length < fuel → exportAll target.exportPage limit fuel "" = .ok records := by
  have accepted : ∀ (s : Store) done rec rest, records = done ++ rec :: rest → s.Loaded done →
      ∃ next : Store, next.Loaded (done ++ [rec]) ∧
        ∀ result, s.importRecord rec = .ok result ↔ True ∧ next = result := by
    rintro s done rec rest rfl loaded
    refine ⟨s.imported rec, loaded.imported loadable, fun result => ?_⟩
    rw [importRecord_ok, eq_comm (a := result)]
    simp only [loaded.importable loadable]
  obtain ⟨complete, loads⟩ := foldlM_iff Loaded (fun _ _ => True) {}
    ⟨by simp, by simp, by simp, by simp⟩ accepted
  obtain ⟨target, imported⟩ := complete.2 (by simp)
  have loaded := loads target imported
  refine ⟨target, imported, fun limit fuel enough => ?_⟩
  rw [exportAll_rows (List.pairwise_map.2 loadable.ordered) (List.forall_mem_map.2 loadable.separable)
    (Filled.values_perm (·.enrollment.id.id) (fun _ => rfl) loaded.rows loadable) limit (by simpa using enough), List.map_map]
  refine congrArg _ ((List.map_congr_left fun rec member => ?_).trans (List.map_id records))
  exact loaded.exportLocked loadable member

theorem roundTrips {rows : Nat} {source : Page → Except StoreError (PageResult EnrollmentExport)} (loadable : Loadable records) (length : records.length = rows)
    (exported : ∀ limit fuel, rows < fuel → exportAll source limit fuel "" = .ok records) :
    RoundTrips rows source importRecord {} exportPage := by
  obtain ⟨target, imported, reread⟩ := importAll_loadable loadable
  refine ⟨records, fun limit fuel enough => ⟨exported limit fuel enough, target, ?_, ?_⟩⟩
  · rw [migrate_exportAll importRecord (exported limit fuel enough), imported]
  · exact fun limit' => reread limit' fuel (by rwa [length])

section Soundness

variable {start s' : Store} {op : Op} {r : Record}

theorem Sound.put (sound : s.Sound) (free : ¬ s.occupied r.enrollment.id)
    (users : r.enrollment.id.channel.isUser = true → r.enrollment.certHash = "") :
    (s.put r).Sound := by
  have lookup (key : String) : (s.put r).enrollments[key]? =
      if r.enrollment.id.id = key then some r else s.enrollments[key]? := by
    simp [Store.put, putAt, Std.ExtTreeMap.getElem?_insert]
  refine ⟨fun key found there => ?_, fun key found there => ?_, fun a recorded => ?_⟩
  · rw [lookup] at there
    split at there
    · next same =>
      obtain rfl : r = found := by simpa using there
      exact same
    · exact sound.keyed key found there
  · rw [lookup] at there
    split at there
    · obtain rfl : r = found := by simpa using there
      exact users
    · exact sound.users key found there
  · rw [lookup]
    obtain ⟨owner, there, same⟩ := sound.history a recorded
    split
    · next here =>
      refine ⟨r, rfl, ?_⟩
      by_contra apart
      rw [← here] at there
      exact free (occupied_iff.2 ⟨owner, there, by rw [same]; exact Ne.symm apart⟩)
    · exact ⟨owner, there, same⟩

theorem Sound.map (sound : s.Sound) {f : Record → Record}
    (kept : ∀ r, (f r).enrollment.id = r.enrollment.id ∧
      ((f r).enrollment.certHash = r.enrollment.certHash ∨ (f r).enrollment.certHash = "")) :
    { s with enrollments := s.enrollments.map fun _ r => f r }.Sound := by
  refine ⟨fun key found there => ?_, fun key found there => ?_, fun a recorded => ?_⟩
  · rw [Std.ExtTreeMap.getElem?_map] at there
    obtain ⟨before, row, rfl⟩ := Option.map_eq_some_iff.1 there
    exact (congrArg EnrollmentID.id (kept before).1).trans (sound.keyed key before row)
  · rw [Std.ExtTreeMap.getElem?_map] at there
    obtain ⟨before, row, rfl⟩ := Option.map_eq_some_iff.1 there
    rw [(kept before).1]
    intro user
    rcases (kept before).2 with same | none
    · rw [same]
      exact sound.users key before row user
    · exact none
  · obtain ⟨owner, there, same⟩ := sound.history a recorded
    refine ⟨f owner, ?_, (kept owner).1.trans same⟩
    rw [Std.ExtTreeMap.getElem?_map, there]
    rfl

theorem Edit.sound (edit : Edit start op s s') (sound : s.Sound) : s'.Sound := by
  cases edit with
  | row r free _ pin _ =>
    refine sound.put free fun user => ?_
    generalize before : s.rowPin r.enrollment.id.id = row at pin
    cases pin with
    | kept =>
      obtain ⟨old, there, same⟩ := Option.map_eq_some_iff.1 before
      simp only [Prod.mk.injEq] at same
      rw [← same.2]
      exact sound.users _ old there (by rw [same.1]; exact user)
    | created _ unpinned => exact unpinned
    | written _ device =>
      by_contra named
      simp [user] at device
      exact named device
  | rows f identity _ pin _ =>
    exact sound.map fun r => ⟨identity r, (pin r).imp_right fun reset => reset.2.1⟩
  | association _ _ found hash atTime =>
    refine ⟨sound.keyed, sound.users, fun a recorded => ?_⟩
    rcases List.mem_append.1 recorded with old | new
    · exact sound.history a old
    · obtain rfl := List.mem_singleton.1 new
      simpa only [row_some] using found
  | _ => exact ⟨sound.keyed, sound.users, sound.history⟩

theorem apply_sound (decodeResponse : DecodeResponse) (sound : s.Sound)
    (accepted : s.apply decodeResponse op = .ok s') : s'.Sound := by
  have edits := apply_edits decodeResponse accepted
  clear accepted
  induction edits with
  | refl => exact sound
  | tail _ edit ih => exact edit.sound ih

theorem run_sound (decodeResponse : DecodeResponse) (ops : List Op) :
    (run (step decodeResponse) {} ops).Sound := by
  refine run_invariant Sound (fun s op sound => ?_) ⟨?_, ?_, ?_⟩ ops
  · exact settle_preserves Sound sound fun next accepted => apply_sound decodeResponse sound accepted
  · simp [Table.Keyed]
  · simp
  · simp

end Soundness

end Store

end AppleDM.Inmem
