import AppleDM.Inmem.Frame

set_option autoImplicit false

namespace AppleDM.Inmem

open Mdm Storage Checked Run

inductive Call where
  | change (op : Op)
  | get (id : EnrollmentID)
  | commands (id : EnrollmentID) (q : CommandQuery) (p : Page)
  | pushInfo (ids : List EnrollmentID)
  | certHash (id : EnrollmentID)
  | certHistory (id : EnrollmentID)
  | bootstrapToken (id : EnrollmentID)
  | userAuth (id : EnrollmentID)

inductive Answer where
  | done
  | authenticated (result : AuthenticateResult)
  | enqueued (result : EnqueueResult)
  | next (command : Option Command)
  | cleared (n : Nat)
  | replacement (r : Option Replacement)
  | enrollment (e : Enrollment)
  | commands (page : Option (PageResult QueuedCommand))
  | pushes (found : List (EnrollmentID × Push))
  | hash (hash : String)
  | history (rows : List CertAssociation)
  | token (token : Bytes)
  | userAuth (st : UserAuthState)

def Call.subjects : Call → List EnrollmentID
  | .change op => op.subjects
  | .pushInfo ids => ids
  | .get id | .commands id .. | .certHash id | .certHistory id | .bootstrapToken id
  | .userAuth id => [id]

def Call.consults (b : EnrollmentID) : Call → Prop
  | .certHash id | .certHistory id | .bootstrapToken id => id.device = b
  | _ => False

namespace Store

variable {s t : Store} {a b : EnrollmentID} (decodeResponse : DecodeResponse)

def answer (s : Store) : Call → Except StoreError Answer
  | .change (.authenticateEnrollment id c) =>
    (fun out => .authenticated out.2) <$> s.authenticateEnrollment id c
  | .change (.enqueue ids cmd o clock) => (fun out => .enqueued out.2) <$> s.enqueue ids cmd o clock
  | .change (.next id skipNotNow now) => (fun out => .next out.2) <$> s.next id skipNotNow now
  | .change (.clear id f now) => (fun out => .cleared out.2) <$> s.clear id f now
  | .change (.clearCommand id uuid now) => (fun out => .cleared out.2) <$> s.clearCommand id uuid now
  | .change (.transitionReplacement id change) =>
    (fun out => .replacement out.2) <$> s.transitionReplacement id change
  | .change op => (fun _ => .done) <$> s.apply decodeResponse op
  | .get id => (fun r => .enrollment r.enrollment) <$> s.get id
  | .commands id q p => .commands <$> s.commands id q p
  | .pushInfo ids => .ok (.pushes (s.pushInfo ids))
  | .certHash id => .hash <$> s.certHash id
  | .certHistory id => .history <$> s.certHistory id
  | .bootstrapToken id => .token <$> s.bootstrapToken id
  | .userAuth id => .userAuth <$> s.userAuthOf id

structure AgreeAside (b : EnrollmentID) (s t : Store) : Prop where
  rows : ∀ key : String, key ≠ b.id → s.enrollments[key]? = t.enrollments[key]?
  bootstrap : ∀ key : String, key ≠ b.id → s.bootstrap[key]? = t.bootstrap[key]?
  userAuth : ∀ key : String, key ≠ b.id → s.userAuth[key]? = t.userAuth[key]?
  replacements : ∀ key : String, key ≠ b.id → s.replacements[key]? = t.replacements[key]?
  certs : s.certs = t.certs
  history : s.history = t.history
  enrolled : (∃ r, s.row b = some r) ∧ ∃ r, t.row b = some r

def opening (s : Store) (b : EnrollmentID) : Option (Bool × Time) :=
  (s.row b).map fun r => (r.enrollment.enabled, r.enrollment.disabledAt)

structure Hides (a b : EnrollmentID) (s t : Store) : Prop where
  agree : AgreeAside b s t
  other : a ≠ b
  opening : a.device = b → s.opening b = t.opening b

theorem AgreeAside.symm (agree : AgreeAside b s t) : AgreeAside b t s :=
  ⟨fun key other => (agree.rows key other).symm, fun key other => (agree.bootstrap key other).symm,
    fun key other => (agree.userAuth key other).symm,
    fun key other => (agree.replacements key other).symm, agree.certs.symm, agree.history.symm,
    agree.enrolled.symm⟩

theorem Hides.symm (hides : Hides a b s t) : Hides a b t s :=
  ⟨hides.agree.symm, hides.other, fun own => (hides.opening own).symm⟩

section Agreeing

variable (agree : AgreeAside b s t)

include agree

theorem AgreeAside.occupied_key (other : a ≠ b) (key : a.id = b.id) :
    s.occupied a := by
  obtain ⟨r, there⟩ := agree.enrolled.1
  obtain ⟨row, same⟩ := row_some.1 there
  exact occupied_iff.2 ⟨r, key ▸ row, by rw [same]; exact other.symm⟩

theorem AgreeAside.unoccupied_self : ¬ s.occupied b := by
  obtain ⟨r, there⟩ := agree.enrolled.1
  obtain ⟨row, same⟩ := row_some.1 there
  simp [occupied, row, same]

theorem AgreeAside.occupied (a : EnrollmentID) :
    s.occupied a ↔ t.occupied a := by
  by_cases own : a = b
  · subst own
    exact iff_of_false agree.unoccupied_self agree.symm.unoccupied_self
  · by_cases key : a.id = b.id
    · exact iff_of_true (agree.occupied_key own key) (agree.symm.occupied_key own key)
    · simp only [Store.occupied, agree.rows a.id key]

omit agree in
theorem get_invalid (invalid : ¬ a.Valid) (s t : Store) : s.get a = t.get a := by
  cases checked : a.validate with
  | error error => simp [Store.get, checked]
  | ok done => exact absurd ((EnrollmentID.validate_ok a done).1 checked) invalid

theorem AgreeAside.get_refused (other : a ≠ b) (key : a.id = b.id)
    (valid : a.Valid) : s.get a = .error (.notFound ("enrollment " ++ a.id)) := by
  obtain ⟨r, there, different⟩ := occupied_iff.1 (agree.occupied_key other key)
  simp [Store.get, (EnrollmentID.validate_ok a ()).2 valid, there, different]

theorem AgreeAside.get (other : a ≠ b) : s.get a = t.get a := by
  by_cases valid : a.Valid
  · by_cases key : a.id = b.id
    · rw [agree.get_refused other key valid, agree.symm.get_refused other key valid]
    · simp only [Store.get, agree.rows a.id key]
  · exact get_invalid valid s t

theorem AgreeAside.get_key {r : Record} (other : a ≠ b)
    (found : s.get a = .ok r) : a.id ≠ b.id :=
  fun key => get_unoccupied found (agree.occupied_key other key)

end Agreeing

section Hiding

variable {p : Record} (hides : Hides a b s t)

include hides

theorem Hides.parent (found : s.get a.device = .ok p) :
    ∃ q, t.get a.device = .ok q ∧ q.enrollment.enabled = p.enrollment.enabled ∧
      q.enrollment.disabledAt = p.enrollment.disabledAt := by
  by_cases own : a.device = b
  · obtain ⟨valid, row, same⟩ := get_ok.1 found
    obtain ⟨q, there⟩ := hides.agree.enrolled.2
    have alike := hides.opening own
    rw [own] at row same
    simp only [Store.opening, row_some.2 ⟨row, same⟩, there, Option.map_some, Option.some.injEq,
      Prod.mk.injEq] at alike
    obtain ⟨row', same'⟩ := row_some.1 there
    exact ⟨q, get_ok.2 ⟨valid, own ▸ row', own ▸ same'⟩, alike.1.symm, alike.2.symm⟩
  · exact ⟨p, by rw [← hides.agree.get own, found], rfl, rfl⟩

theorem Hides.deviceRecord (found : s.deviceRecordLocked a = .ok p) :
    ∃ q, t.deviceRecordLocked a = .ok q ∧ q.enrollment.disabledAt = p.enrollment.disabledAt := by
  obtain ⟨valid, free, found⟩ := deviceRecordLocked_ok.1 found
  obtain ⟨q, found', -, same⟩ := hides.parent found
  refine ⟨q, deviceRecordLocked_ok.2 ⟨valid, ?_, found'⟩, same⟩
  rwa [← hides.agree.occupied a]

theorem Hides.deviceRecord_eq (elsewhere : a.device ≠ b)
    (found : s.deviceRecordLocked a = .ok p) : t.deviceRecordLocked a = .ok p := by
  obtain ⟨valid, free, found⟩ := deviceRecordLocked_ok.1 found
  refine deviceRecordLocked_ok.2 ⟨valid, ?_, ?_⟩
  · rwa [← hides.agree.occupied a]
  · rw [← hides.agree.get elsewhere, found]

theorem Hides.parentOpen
    (parent : a.channel.isUser = true → ∃ p, s.deviceRecordLocked a = .ok p ∧
      p.enrollment.disabledAt = 0) :
    a.channel.isUser = true → ∃ p, t.deviceRecordLocked a = .ok p ∧ p.enrollment.disabledAt = 0 := by
  intro user
  obtain ⟨p, found, enabled⟩ := parent user
  obtain ⟨q, found', same⟩ := hides.deviceRecord found
  exact ⟨q, found', same.trans enabled⟩

theorem Hides.parent_check :
    (s.get a.device >>= fun p => reject (inactive p.enrollment) StoreError.disabled) =
      t.get a.device >>= fun p => reject (inactive p.enrollment) StoreError.disabled := by
  by_cases own : a.device = b
  · by_cases valid : a.device.Valid
    · obtain ⟨r, there⟩ := hides.agree.enrolled.1
      obtain ⟨row, same⟩ := row_some.1 there
      have found : s.get a.device = .ok r := get_ok.2 ⟨valid, own ▸ row, own ▸ same⟩
      obtain ⟨q, found', enabled, disabledAt⟩ := hides.parent found
      have alike : inactive r.enrollment ↔ inactive q.enrollment := by
        rw [inactive, inactive, enabled, disabledAt]
      simp only [found, found', ok_bind, reject, alike]
    · rw [get_invalid valid s t]
  · rw [hides.agree.get own]

theorem Hides.activeRecord (refusal : StoreError) :
    s.activeRecord a refusal = t.activeRecord a refusal := by
  simp only [Store.activeRecord, hides.agree.get hides.other, hides.parent_check]

theorem Hides.checkAuthenticate (c : AuthenticateChange) :
    Storage.checkAuthenticate a ((s.enrollments[a.id]?).map (·.enrollment)) c =
      Storage.checkAuthenticate a ((t.enrollments[a.id]?).map (·.enrollment)) c := by
  by_cases key : a.id = b.id
  · obtain ⟨r, there, different⟩ := occupied_iff.1 (hides.agree.occupied_key hides.other key)
    obtain ⟨r', there', different'⟩ :=
      occupied_iff.1 (hides.agree.symm.occupied_key hides.other key)
    simp [Storage.checkAuthenticate, there, there', different, different']
  · rw [hides.agree.rows a.id key]

theorem Hides.userAuthTarget (target : s.userAuthTargetLocked a = .ok ()) :
    t.userAuthTargetLocked a = .ok () ∧ s.userAuth[a.id]? = t.userAuth[a.id]? := by
  have key : a.id ≠ b.id :=
    fun key => (userAuthTargetLocked_ok target).2.2.1 (hides.agree.occupied_key hides.other key)
  refine ⟨?_, hides.agree.userAuth a.id key⟩
  simp only [userAuthTargetLocked, bind_ok, validated_ok, reject_ok, hides.agree.rows a.id key,
    hides.agree.userAuth a.id key] at target ⊢
  obtain ⟨_, valid, _, user, _, usable, _, own, parent, found, enabled⟩ := target
  obtain ⟨q, found', same⟩ := hides.deviceRecord found
  exact ⟨(), valid, (), user, (), usable, (), own, q, found', by rwa [same]⟩

end Hiding

variable {new : Record}

theorem AgreeAside.put (agree : AgreeAside b s t) {old : Record} (found : s.get a = .ok old)
    (identity : new.enrollment.id = old.enrollment.id) (other : a ≠ b) :
    AgreeAside b (s.put new) (t.put new) := by
  refine ⟨fun key different => ?_, agree.bootstrap, agree.userAuth, agree.replacements,
    agree.certs, agree.history, ?_, ?_⟩
  · simp only [Store.put, putAt, Std.ExtTreeMap.getElem?_insert, agree.rows key different]
  · rw [row_put_get found identity other]
    exact agree.enrolled.1
  · rw [row_put_get (agree.get other ▸ found) identity other]
    exact agree.enrolled.2

theorem opening_put {old : Record} (found : s.get a = .ok old)
    (identity : new.enrollment.id = old.enrollment.id) (other : a ≠ b) :
    (s.put new).opening b = s.opening b := by
  rw [Store.opening, row_put_get found identity other]
  rfl

variable {ids : List EnrollmentID}

theorem enqueue_hides (agree : AgreeAside b s t)
    (hides : ∀ a ∈ ids, Hides a b s t) (cmd : Command) (o : EnqueueOptions) (now : Time) :
    (run (enqueueOne cmd o now) (s, {}) ids).2 = (run (enqueueOne cmd o now) (t, {}) ids).2 := by
  let Related (left right : Store × EnqueueResult) : Prop :=
    left.2 = right.2 ∧ AgreeAside b left.1 right.1 ∧
      left.1.opening b = s.opening b ∧ right.1.opening b = t.opening b
  have one (left right : Store × EnqueueResult) (a : EnrollmentID) (member : a ∈ ids)
      (related : Related left right) :
      Related (enqueueOne cmd o now left a) (enqueueOne cmd o now right a) := by
    obtain ⟨result, agree, before, before'⟩ := related
    have known := hides a member
    have here : Hides a b left.1 right.1 :=
      ⟨agree, known.other, fun own => by rw [before, before', known.opening own]⟩
    have target : left.1.enqueueTarget o a = right.1.enqueueTarget o a := by
      rw [enqueueTarget, enqueueTarget, here.activeRecord]
    cases queued : right.1.enqueueTarget o a with
    | error error =>
      simp only [enqueueOne, target, queued]
      exact ⟨by rw [result], agree, before, before'⟩
    | ok r =>
      have found := (activeRecord_ok.1 (enqueueTarget_ok.1 (target.trans queued)).1).1
      have found' := (activeRecord_ok.1 (enqueueTarget_ok.1 queued).1).1
      simp only [enqueueOne, target, queued]
      refine ⟨by rw [result], agree.put found rfl known.other, ?_, ?_⟩
      · rw [← before]
        exact opening_put found rfl known.other
      · rw [← before']
        exact opening_put found' rfl known.other
  have initial : Related (s, {}) (t, {}) := ⟨rfl, agree, rfl, rfl⟩
  exact (run_related Related one initial).1

theorem Hides.commit (hides : Hides a b s t) {e : Record} {r : Replacement} {atTime : Time}
    {mid : Store} (committed : s.commitReplacement a e r atTime = .ok mid) :
    ∃ mid', t.commitReplacement a e r atTime = .ok mid' := by
  simp only [commitReplacement, bind_ok, reject_ok, pure_ok, hides.agree.occupied,
    hides.agree.history] at committed
  obtain ⟨_, free, _, unused, -⟩ := committed
  exact ⟨_, by simp only [commitReplacement, bind_ok, reject_ok, pure_ok]; exact
    ⟨(), free, (), unused, rfl⟩⟩

theorem Hides.transition (hides : Hides a b s t) {change : ReplacementChange} {s' : Store}
    {out : Option Replacement} (accepted : s.transitionReplacement a change = .ok (s', out)) :
    ∃ t', t.transitionReplacement a change = .ok (t', out) := by
  simp only [transitionReplacement, bind_ok, reject_ok] at accepted
  obtain ⟨_, device, e, found, accepted⟩ := accepted
  have same : s.replacements[a.id]? = t.replacements[a.id]? :=
    hides.agree.replacements a.id (hides.agree.get_key hides.other found)
  rw [same] at accepted
  rw [hides.agree.get hides.other] at found
  simp only [transitionReplacement, bind_ok, reject_ok]
  -- Both stores advance the same attempt of the same row; they differ in where they put it.
  rcases advanced : advanceReplacement (cloneReplacement t.replacements[a.id]?) e.enrollment change
    with ⟨_ | r, error | _ | _⟩ <;>
    simp only [advanced, bind_ok, pure_ok, Prod.mk.injEq, reduceCtorEq] at accepted
  on_goal 4 =>
    obtain ⟨mid, committed, -, rfl⟩ := accepted
    obtain ⟨mid', committed'⟩ := hides.commit committed
    exact ⟨_, (), device, e, found, by rw [advanced]; simp [committed']; rfl⟩
  all_goals exact ⟨_, (), device, e, found, by rw [advanced]; simp [← accepted.2]; rfl⟩

theorem pushInfo_agree (agree : AgreeAside b s t) (other : b ∉ ids) :
    s.pushInfo ids = t.pushInfo ids := by
  refine List.filterMap_congr fun a member => ?_
  have different : a ≠ b := fun same => other (same ▸ List.mem_dedup.1 member)
  by_cases key : a.id = b.id
  · obtain ⟨r, there, apart⟩ := occupied_iff.1 (agree.occupied_key different key)
    obtain ⟨r', there', apart'⟩ := occupied_iff.1 (agree.symm.occupied_key different key)
    simp [there, there', apart, apart']
  · rw [agree.rows a.id key]

theorem importable_agree {rec : EnrollmentExport} (hides : Hides rec.enrollment.id b s t)
    (importable : s.Importable rec) : t.Importable rec := by
  refine ⟨importable.valid, importable.history, importable.user, fun user => ?_, ?_, ?_⟩
  · obtain ⟨p, found⟩ := importable.parent user
    obtain ⟨q, found', -⟩ := hides.parent found
    exact ⟨q, found'⟩
  · rw [← hides.agree.certs]
    exact importable.unclaimed
  · rw [← hides.agree.occupied]
    exact importable.free

theorem change_hides {op : Op} {x : Answer} (agree : AgreeAside b s t)
    (hides : ∀ a ∈ op.subjects, Hides a b s t)
    (accepted : s.answer decodeResponse (.change op) = .ok x) :
    t.answer decodeResponse (.change op) = .ok x := by
  cases op <;> simp only [Op.subjects, List.mem_singleton, forall_eq] at hides <;>
    simp only [answer, apply, map_ok, Prod.exists] at accepted ⊢
  case authenticateEnrollment id c =>
    obtain ⟨s', result, accepted, rfl⟩ := accepted
    simp only [authenticateEnrollment, hides.checkAuthenticate, agree.certs, agree.history,
      bind_ok] at accepted ⊢
    obtain ⟨retry, checked, accepted⟩ := accepted
    cases retry with
    | true =>
      simp only [if_true, pure_ok, Prod.mk.injEq] at accepted
      exact ⟨t, result, ⟨true, checked, by simp [accepted.2]⟩, rfl⟩
    | false =>
      simp only [Bool.false_eq_true, if_false, bind_ok, pure_ok, Prod.mk.injEq] at accepted
      obtain ⟨_, free, _, unused, -, same⟩ := accepted
      exact ⟨_, result, ⟨false, checked, by
        simp only [Bool.false_eq_true, if_false, bind_ok, pure_ok, Prod.mk.injEq]
        exact ⟨(), free, (), unused, rfl, same⟩⟩, rfl⟩
  case upsertAuthenticate id msg raw atTime =>
    obtain ⟨s', accepted, rfl⟩ := accepted
    simp only [upsertAuthenticate, bind_ok, validated_ok, reject_ok, onlyIf_ok, pure_ok, not_not,
      agree.occupied] at accepted ⊢
    obtain ⟨_, valid, _, free, _, parent, -⟩ := accepted
    exact ⟨_, ⟨(), valid, (), free, (), hides.parentOpen parent, rfl⟩, trivial⟩
  case storeTokenUpdate id push msg raw atTime =>
    obtain ⟨s', accepted, rfl⟩ := accepted
    simp only [storeTokenUpdate, bind_ok, reject_ok, onlyIf_ok, pure_ok, not_not,
      agree.get hides.other] at accepted ⊢
    obtain ⟨_, complete, r, found, _, enabled, _, parent, -⟩ := accepted
    exact ⟨_, ⟨(), complete, r, found, (), enabled, (), hides.parentOpen parent, rfl⟩, trivial⟩
  case disable =>
    obtain ⟨s', accepted, rfl⟩ := accepted
    simp only [disable, agree.get hides.other, bind_ok, pure_ok] at accepted ⊢
    obtain ⟨r, found, -⟩ := accepted
    exact ⟨_, ⟨r, found, rfl⟩, trivial⟩
  case touchLastSeen =>
    obtain ⟨s', accepted, rfl⟩ := accepted
    simp only [touchLastSeen, agree.get hides.other, bind_ok, pure_ok] at accepted ⊢
    obtain ⟨r, found, -⟩ := accepted
    exact ⟨_, ⟨r, found, rfl⟩, trivial⟩
  case enqueue ids cmd o clock =>
    obtain ⟨s', result, accepted, rfl⟩ := accepted
    unfold enqueue at accepted ⊢
    split at accepted
    · simp at accepted
    next cmd =>
    split at accepted
    · simp at accepted
    next named =>
    have same : result = _ := (congrArg Prod.snd (Except.ok.inj accepted)).symm
    refine ⟨(run (enqueueOne cmd o (if o.now = 0 then clock else o.now)) (t, {}) ids).1, result, ?_,
      rfl⟩
    rw [same, enqueue_hides agree hides, if_neg named]
  case next id skipNotNow now =>
    obtain ⟨s', found, accepted, rfl⟩ := accepted
    simp only [next, hides.activeRecord, bind_ok] at accepted ⊢
    obtain ⟨r, active, accepted⟩ := accepted
    split at accepted
    · next position =>
      simp only [pure_ok, Prod.mk.injEq] at accepted
      exact ⟨_, found, ⟨r, active, by rw [position]; simp [← accepted.2]; rfl⟩, rfl⟩
    · next position here =>
      simp only [pure_ok, Prod.mk.injEq] at accepted
      exact ⟨_, found, ⟨r, active, by rw [here]; simp [← accepted.2]; rfl⟩, rfl⟩
  case storeResult id resp now =>
    obtain ⟨s', accepted, rfl⟩ := accepted
    unfold storeResult at accepted ⊢
    split at accepted
    · simp at accepted
    next response =>
    simp only [hides.activeRecord, bind_ok] at accepted ⊢
    obtain ⟨_, named, r, active, accepted⟩ := accepted
    split at accepted
    · simp at accepted
    · next position here =>
      exact ⟨_, ⟨(), named, r, active, by rw [here]; rfl⟩, trivial⟩
  case clear id f now =>
    obtain ⟨s', n, accepted, rfl⟩ := accepted
    simp only [clear, agree.get hides.other, bind_ok, pure_ok, Prod.mk.injEq] at accepted ⊢
    obtain ⟨r, found, -, same⟩ := accepted
    exact ⟨_, n, ⟨r, found, rfl, same⟩, rfl⟩
  case clearCommand id uuid now =>
    obtain ⟨s', n, accepted, rfl⟩ := accepted
    simp only [clearCommand, clear, agree.get hides.other, bind_ok, pure_ok, Prod.mk.injEq]
      at accepted ⊢
    obtain ⟨_, named, r, found, -, same⟩ := accepted
    exact ⟨_, n, ⟨(), named, r, found, rfl, same⟩, rfl⟩
  case associateCert id hash atTime =>
    obtain ⟨s', accepted, rfl⟩ := accepted
    simp only [associateCert, agree.certs, bind_ok, pure_ok] at accepted ⊢
    obtain ⟨_, named, r, found, _, free, -⟩ := accepted
    obtain ⟨q, found', -⟩ := hides.deviceRecord found
    exact ⟨_, ⟨(), named, q, found', (), free, rfl⟩, trivial⟩
  case storeBootstrapToken id token atTime =>
    obtain ⟨s', accepted, rfl⟩ := accepted
    simp only [storeBootstrapToken, bind_ok, reject_ok, pure_ok] at accepted ⊢
    obtain ⟨r, found, _, enabled, -⟩ := accepted
    obtain ⟨q, found', same⟩ := hides.deviceRecord found
    exact ⟨_, ⟨q, found', (), by rwa [same], rfl⟩, trivial⟩
  case storeUserAuthChallenge id challenge raw atTime =>
    obtain ⟨s', accepted, rfl⟩ := accepted
    simp only [storeUserAuthChallenge, bind_ok, pure_ok] at accepted ⊢
    obtain ⟨_, named, _, target, -⟩ := accepted
    exact ⟨_, ⟨(), named, (), (hides.userAuthTarget target).1, rfl⟩, trivial⟩
  case storeUserAuthToken id token raw atTime =>
    obtain ⟨s', accepted, rfl⟩ := accepted
    simp only [storeUserAuthToken, bind_ok] at accepted ⊢
    obtain ⟨_, named, _, target, accepted⟩ := accepted
    obtain ⟨target', same⟩ := hides.userAuthTarget target
    rw [same] at accepted
    split at accepted
    · simp at accepted
    · exact ⟨_, ⟨(), named, (), target', rfl⟩, trivial⟩
  case clearUserAuth id =>
    obtain ⟨s', accepted, rfl⟩ := accepted
    simp only [clearUserAuth, bind_ok, pure_ok] at accepted ⊢
    obtain ⟨_, target, -⟩ := accepted
    exact ⟨_, ⟨(), (hides.userAuthTarget target).1, rfl⟩, trivial⟩
  case transitionReplacement id change =>
    obtain ⟨s', out, accepted, rfl⟩ := accepted
    obtain ⟨t', accepted'⟩ := hides.transition accepted
    exact ⟨t', out, accepted', rfl⟩
  case importRecord rec =>
    obtain ⟨s', accepted, rfl⟩ := accepted
    obtain ⟨importable, -⟩ := (importRecord_ok _ _ _).1 accepted
    exact ⟨_, (importRecord_ok _ _ _).2 ⟨importable_agree hides importable, rfl⟩, rfl⟩

theorem answer_hides {call : Call} {x : Answer} (agree : AgreeAside b s t)
    (hides : ∀ a ∈ call.subjects, Hides a b s t) (apart : ¬ call.consults b)
    (answered : s.answer decodeResponse call = .ok x) : t.answer decodeResponse call = .ok x := by
  cases call <;> simp only [Call.subjects, List.mem_singleton, forall_eq] at hides <;>
    simp only [Call.consults] at apart
  case change op => exact change_hides decodeResponse agree hides answered
  case get id => rwa [answer, ← agree.get hides.other]
  case commands id q p =>
    simp only [answer, commands] at answered ⊢
    rwa [← agree.get hides.other]
  case pushInfo ids =>
    have other : b ∉ ids := fun member => (hides b member).other rfl
    rwa [answer, ← pushInfo_agree agree other]
  case certHash id =>
    simp only [answer, certHash, map_ok, bind_ok, pure_ok] at answered ⊢
    obtain ⟨_, ⟨r, found, rfl⟩, rfl⟩ := answered
    exact ⟨_, ⟨r, hides.deviceRecord_eq apart found, rfl⟩, rfl⟩
  case certHistory id =>
    simp only [answer, certHistory, map_ok, bind_ok, pure_ok, historyLocked, agree.history]
      at answered ⊢
    obtain ⟨_, ⟨r, found, rfl⟩, rfl⟩ := answered
    exact ⟨_, ⟨r, hides.deviceRecord_eq apart found, rfl⟩, rfl⟩
  case bootstrapToken id =>
    simp only [answer, bootstrapToken, map_ok, bind_ok] at answered ⊢
    obtain ⟨token, ⟨r, found, _, enabled, held⟩, rfl⟩ := answered
    have key : id.device.id ≠ b.id :=
      agree.get_key apart (deviceRecordLocked_ok.1 found).2.2
    rw [agree.bootstrap _ key] at held
    exact ⟨token, ⟨r, hides.deviceRecord_eq apart found, (), enabled, held⟩, rfl⟩
  case userAuth id =>
    simp only [answer, userAuthOf, map_ok, bind_ok] at answered ⊢
    obtain ⟨st, ⟨_, target, held⟩, rfl⟩ := answered
    obtain ⟨target', same⟩ := hides.userAuthTarget target
    rw [same] at held
    exact ⟨st, ⟨(), target', held⟩, rfl⟩

theorem AgreeAside.rewritten {r : Record} (there : s.row b = some r)
    (own : new.enrollment.id = b) : AgreeAside b s (s.put new) := by
  refine ⟨fun key different => ?_, fun _ _ => rfl, fun _ _ => rfl, fun _ _ => rfl, rfl, rfl,
    ⟨r, there⟩, new, row_put_self s own⟩
  simp [Store.put, putAt, Std.ExtTreeMap.getElem?_insert, own, Ne.symm different]

theorem Pinned.indexed (pins : s.Pinned) {hash : String} (named : hash ≠ "") :
    s.certs[hash]? = some b ↔
      ∃ held, s.holding b = some held ∧ held.record.enrollment.certHash = hash := by
  have exact := pins.exact hash b
  rw [pinIndex, if_neg named, pinOf_some] at exact
  simp only [exact, named, holding, Option.map_eq_some_iff, row_some, ne_eq, not_false_eq_true,
    true_and]
  constructor
  · rintro ⟨r, there, own, hashed⟩
    exact ⟨_, ⟨r, ⟨there, own⟩, rfl⟩, hashed⟩
  · rintro ⟨_, ⟨r, ⟨there, own⟩, rfl⟩, hashed⟩
    exact ⟨r, there, own, hashed⟩

theorem certHistory_own (owned : s.HistoryOwned) {rows : List CertAssociation}
    (found : s.certHistory a = .ok rows) : ∀ h ∈ rows, h.id = a.device := by
  simp only [certHistory, bind_ok, pure_ok, deviceRecordLocked_ok] at found
  obtain ⟨r, ⟨-, -, there⟩, rfl⟩ := found
  intro h member
  rw [historyLocked, List.mem_insertionSort, List.mem_filter] at member
  obtain ⟨recorded, key⟩ := member
  obtain ⟨r', row'⟩ := owned h recorded
  obtain ⟨row, same⟩ := (get_ok.1 there).2
  obtain ⟨row', same'⟩ := row_some.1 row'
  rw [← same, ← same']
  rw [of_decide_eq_true key] at row'
  exact congrArg (·.enrollment.id) (Option.some.inj (row'.symm.trans row))

end Store

theorem identity_isolation (decodeResponse : DecodeResponse) (ops : List Op)
    (clean : ∀ op ∈ ops, op.clean) (b : EnrollmentID) :
    let s := run (Store.step decodeResponse) {} ops
    (∀ op, op.clean → b ∉ op.subjects → ¬ op.reaches b →
      (s.step decodeResponse op).holding b = s.holding b ∧
      ((∀ entry ∈ history (Store.step decodeResponse) {} ops, entry.1.Allowed entry.2) →
        s.Allowed op → ∀ hash, hash ≠ "" →
          ((s.step decodeResponse op).certs[hash]? = some b ↔ s.certs[hash]? = some b))) ∧
    (∀ call t, b ∉ call.subjects → ¬ call.consults b → Store.AgreeAside b s t →
      (b ∈ call.subjects.map EnrollmentID.device → s.opening b = t.opening b) →
      ∀ x, s.answer decodeResponse call = .ok x ↔ t.answer decodeResponse call = .ok x) ∧
    ∀ a rows, s.certHistory a = .ok rows → ∀ h ∈ rows, h.id = a.device := by
  intro s
  have owned : s.Owned :=
    allowed_invariant (fun _ (op : Op) => op.clean) Store.Owned
      (fun s op clean owned => Store.step_owned decodeResponse owned clean) Store.empty_owned
      fun entry member => clean _ (event_mem_of_history member)
  refine ⟨fun op clean other apart => ?_, fun call t other apart agree opening x => ?_,
    fun a rows found => Store.certHistory_own owned.history found⟩
  · have same : (s.step decodeResponse op).holding b = s.holding b :=
      settle_preserves (fun next : Store => next.holding b = s.holding b) rfl fun _ accepted =>
        Store.apply_holding decodeResponse owned clean other apart accepted
    refine ⟨same, fun allowed last hash named => ?_⟩
    have step (s : Store) (op : Op) (allowed : s.Allowed op) (pins : s.Pinned) :
        (s.step decodeResponse op).Pinned :=
      have ⟨rows, exact⟩ := Store.step_pins decodeResponse op pins
      ⟨rows, exact.2 allowed⟩
    have pins : s.Pinned := allowed_invariant Store.Allowed _ step Store.empty_pinned allowed
    rw [(step s op last pins).indexed named, same, pins.indexed named]
  have hides : ∀ a ∈ call.subjects, Store.Hides a b s t := fun a member =>
    ⟨agree, fun same => other (same ▸ member),
      fun own => opening (List.mem_map.2 ⟨a, member, own⟩)⟩
  exact ⟨Store.answer_hides decodeResponse agree hides apart,
    Store.answer_hides decodeResponse agree.symm (fun a member => (hides a member).symm) apart⟩

def enrollDevices : List Op :=
  [.authenticateEnrollment sampleA { hash := "first", atTime := 1 },
    .storeTokenUpdate sampleA samplePush none [] 1,
    .authenticateEnrollment sampleB { hash := "old", atTime := 1 },
    .storeTokenUpdate sampleB samplePush none [] 1]

def namesake : EnrollmentID := ⟨.user, "B", "A"⟩

theorem replaceB_isolated :
    let s := run (Store.step fun _ _ => none) {} (enrollDevices ++ replaceB "new")
    let t := run (Store.step fun _ _ => none) {} enrollDevices
    ((t.step (fun _ _ => none) (.associateCert sampleA "next" 9)).certs["old"]? = some sampleB ↔
      t.certs["old"]? = some sampleB) ∧
    namesake.Valid ∧ (s.holding sampleB).isSome = true ∧
      (s.step (fun _ _ => none) (.disable namesake 9)).holding sampleB = s.holding sampleB ∧
      ∀ x, s.answer (fun _ _ => none) (.certHash namesake) = .ok x ↔
        (s.put { enrollment := { id := sampleB } }).answer (fun _ _ => none) (.certHash namesake) =
          .ok x := by
  intro s t
  have indexed := (identity_isolation (fun _ _ => none) enrollDevices
    (by simp [enrollDevices, Op.clean]) sampleB).1 (.associateCert sampleA "next" 9)
    trivial (by simp [Op.subjects, sampleA, sampleB])
    (by simp [Op.reaches, sampleA, sampleB, EnrollmentID.device, Channel.isUser])
  have clean : ∀ op ∈ enrollDevices ++ replaceB "new", op.clean := by
    simp [enrollDevices, replaceB, Op.clean]
  have isolated := identity_isolation (fun _ _ => none) (enrollDevices ++ replaceB "new") clean sampleB
  have there : (s.holding sampleB).isSome = true := by decide +kernel
  refine ⟨indexed.2 ?_ trivial "old" (by decide), by decide, there, ?_, ?_⟩
  · simp [enrollDevices, Store.Allowed]
  · refine (isolated.1 (.disable namesake 9) trivial ?_ ?_).1
    · simp [Op.subjects, sampleB, namesake]
    · simp [Op.reaches, sampleB, namesake, Channel.isUser]
  · have row : (s.row sampleB).isSome = true := by simpa [Store.holding] using there
    obtain ⟨r, row⟩ := Option.isSome_iff_exists.1 row
    refine isolated.2.1 _ _ ?_ ?_ (.rewritten row rfl) ?_
    · simp [Call.subjects, sampleB, namesake]
    · simp [Call.consults, sampleB, namesake, EnrollmentID.device, Channel.isUser]
    · simp [Call.subjects, sampleB, namesake, EnrollmentID.device, Channel.isUser]

def foreignBegin : ReplacementChange :=
  { op := .begin, atTime := 2
    begin := some
      { id := "R", method := .acme, oldHash := "first", candidateHash := "next", expiresAt := 100
        command := ⟨"R", "InstallProfile", []⟩, authenticated := true, acknowledged := true
        tokens := [{ sampleBToken with id := sampleA }, sampleBToken] } }

theorem foreignToken_writes :
    let s := run (Store.step fun _ _ => none) {} enrollBoth
    let t := run (Store.step fun _ _ => none) {}
      (enrollDevices ++ [.transitionReplacement sampleA foreignBegin])
    (sampleUser.Valid ∧ sampleDevice.Valid ∧ sampleUser ≠ sampleDevice) ∧
      (s.step (fun _ _ => none) (.associateCert sampleUser "other" 9)).holding sampleDevice ≠
        s.holding sampleDevice ∧
      s.certHash sampleUser = .ok "old" ∧
      ((s.holding sampleDevice).map (·.record.enrollment.certHash) = some "old") ∧
      (sampleA.Valid ∧ sampleB.Valid ∧ sampleA ≠ sampleB) ∧
      (t.step (fun _ _ => none) (.transitionReplacement sampleA
        { op := .deliver, id := "R", hash := "first", atTime := 3 })).holding sampleB ≠
        t.holding sampleB ∧
      (run (Store.step fun _ _ => none) {} sharedPinRun.dropLast).certs["h"]? = some sampleA ∧
      (run (Store.step fun _ _ => none) {} sharedPinRun).certs["h"]? = some sampleB := by
  decide +kernel

end AppleDM.Inmem
