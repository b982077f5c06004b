import AppleDM.Inmem.Abandoned

set_option autoImplicit false

namespace AppleDM.Inmem

open Mdm Storage Checked Run

structure Holding where
  record : Record
  bootstrap : Option Bytes
  userAuth : Option UserAuthState
  replacement : Option Replacement
  history : List CertAssociation
  deriving DecidableEq

def Op.clean : Op → Prop
  | .transitionReplacement id change =>
    ∀ n, change.begin = some n → ∀ t ∈ n.tokens, t.id.device = id
  | _ => True

namespace Store

variable {start s s' : Store} {op : Op} {a b : EnrollmentID} {r : Record}

def holding (s : Store) (b : EnrollmentID) : Option Holding :=
  (s.row b).map fun r =>
    ⟨r, s.bootstrap[b.id]?, s.userAuth[b.id]?, s.replacements[b.id]?, s.history.filter (·.id = b)⟩

structure SameAside (s s' : Store) (b : EnrollmentID) : Prop where
  bootstrap : s'.bootstrap[b.id]? = s.bootstrap[b.id]?
  userAuth : s'.userAuth[b.id]? = s.userAuth[b.id]?
  replacement : s'.replacements[b.id]? = s.replacements[b.id]?
  history : s'.history.filter (·.id = b) = s.history.filter (·.id = b)

theorem holding_congr (rows : s'.row b = s.row b)
    (aside : ∀ r, s.row b = some r → SameAside s s' b) : s'.holding b = s.holding b := by
  unfold holding
  rw [rows]
  cases there : s.row b with
  | none => rfl
  | some r =>
    have same := aside r there
    simp [same.bootstrap, same.userAuth, same.replacement, same.history]

theorem keys_apart (there : s.row b = some r) (free : ¬ s.occupied a) (other : a ≠ b) :
    a.id ≠ b.id := by
  intro same
  obtain ⟨found, identity⟩ := row_some.1 there
  rw [← same] at found
  exact free (occupied_iff.2 ⟨r, found, by rw [identity]; exact other.symm⟩)

theorem row_putAt {key : String}
    (before : ∀ old, s.enrollments[key]? = some old → old.enrollment.id ≠ b)
    (other : r.enrollment.id ≠ b) : (s.putAt key r).row b = s.row b := by
  unfold row putAt
  rw [Std.ExtTreeMap.getElem?_insert]
  split
  · next same =>
    obtain rfl : key = b.id := by simpa using same
    cases there : s.enrollments[b.id]? with
    | none => simp [other]
    | some old => simp [Option.filter, other, before old there]
  · rfl

theorem row_put (free : ¬ s.occupied r.enrollment.id) (other : r.enrollment.id ≠ b) :
    (s.put r).row b = s.row b := by
  refine row_putAt (fun old there same => ?_) other
  exact free (occupied_iff.2 ⟨old, there, by rw [same]; exact other.symm⟩)

theorem row_put_get {new : Record} (found : s.get a = .ok r)
    (identity : new.enrollment.id = r.enrollment.id) (other : a ≠ b) :
    (s.put new).row b = s.row b := by
  have same : new.enrollment.id = a := identity.trans (get_ok.1 found).2.2
  exact row_put (by rw [same]; exact get_unoccupied found) (by rw [same]; exact other)

theorem row_map {f : Record → Record}
    (identity : ∀ r : Record, (f r).enrollment.id = r.enrollment.id)
    (kept : ∀ r : Record, r.enrollment.id = b → f r = r) :
    { s with enrollments := s.enrollments.map fun _ r => f r }.row b = s.row b := by
  simp only [row, Std.ExtTreeMap.getElem?_map]
  cases s.enrollments[b.id]? with
  | none => rfl
  | some r =>
    by_cases own : r.enrollment.id = b
    · simp [Option.filter, own, kept r own]
    · simp [Option.filter, own, identity]

def AuthOwned (s : Store) : Prop :=
  ∀ (key : String) st, s.userAuth[key]? = some st →
    ∃ r, s.enrollments[key]? = some r ∧ r.enrollment.id = st.id

def TokensOwned (s : Store) : Prop :=
  ∀ (key : String) x, s.replacements[key]? = some x → ∀ t ∈ x.tokens,
    ∃ r, s.enrollments[key]? = some r ∧ r.enrollment.id = t.id.device

def Persists (s s' : Store) : Prop :=
  ∀ (key : String) r, s.enrollments[key]? = some r →
    ∃ r', s'.enrollments[key]? = some r' ∧ r'.enrollment.id = r.enrollment.id

theorem Persists.row {key : String} {id : EnrollmentID} (persists : Persists s s')
    (found : ∃ r, s.enrollments[key]? = some r ∧ r.enrollment.id = id) :
    ∃ r, s'.enrollments[key]? = some r ∧ r.enrollment.id = id := by
  obtain ⟨r, row, identity⟩ := found
  obtain ⟨r', row', identity'⟩ := persists key r row
  exact ⟨r', row', identity'.trans identity⟩

def Appends (P : EnrollmentID → Prop) (s s' : Store) : Prop :=
  ∃ new, s'.history = s.history ++ new ∧ ∀ h ∈ new, P h.id

def HistoryOwned (s : Store) : Prop := ∀ h ∈ s.history, ∃ r, s.row h.id = some r

structure Owned (s : Store) : Prop where
  auth : s.AuthOwned
  tokens : s.TokensOwned
  history : s.HistoryOwned

theorem empty_owned : ({} : Store).Owned := by
  constructor <;> simp [AuthOwned, TokensOwned, HistoryOwned]

variable {next : Option Replacement} {commit : Bool}

theorem advanced_tokens {r : Option Replacement} {e : Enrollment} {c : ReplacementChange} (advanced : Advanced r e c next commit)
    (kept : ∀ x, r = some x → ∀ t ∈ x.tokens, t.id.device = e.id.device)
    (begun : ∀ n, cloneReplacement c.begin = some n → ∀ t ∈ n.tokens, t.id.device = e.id.device) :
    ∀ x, next = some x → ∀ t ∈ x.tokens, t.id.device = e.id.device := by
  intro x here t member
  cases advanced with
  | read _ =>
    obtain ⟨before, found, rfl⟩ := Option.map_eq_some_iff.1 here
    refine kept before found t ?_
    unfold Replacement.expire at member
    split at member <;> exact member
  | begin n _ cloned _ =>
    cases here
    exact begun n cloned t member
  | change current changed found _ applied _ | commit current changed found _ applied _ =>
    cases here
    exact ((applyChange_keeps applied).2 t member).elim (kept current found t) id

theorem clone_tokens {r : Option Replacement} {x : Replacement}
    (cloned : cloneReplacement r = some x) :
    ∀ t ∈ x.tokens, ∃ before, r = some before ∧ t ∈ before.tokens := by
  intro t member
  obtain ⟨before, rfl, same⟩ := Option.map_eq_some_iff.1 cloned
  split at same
  · exact ⟨before, rfl, same ▸ member⟩
  · rw [← same] at member
    cases member

theorem advance_tokens {e : Record} {change : ReplacementChange} (owned : s.TokensOwned) (clean : (Op.transitionReplacement a change).clean)
    (device : a.channel.isUser = false) (found : s.get a = .ok e)
    (advanced : advanceReplacement (s.attemptOf a) e.enrollment change = (next, .ok commit)) :
    ∀ x, next = some x → ∀ t ∈ x.tokens, t.id.device = a := by
  obtain ⟨-, row, same⟩ := get_ok.1 found
  have own : e.enrollment.id.device = a := by
    rw [same]
    exact EnrollmentID.device_of_device device
  refine own ▸ advanced_tokens (advanceReplacement_ok advanced) (fun x here t member => ?_)
    fun n here t member => ?_
  · obtain ⟨before, stored, member⟩ := clone_tokens here t member
    obtain ⟨r, there, identity⟩ := owned a.id before stored t member
    rw [own, ← identity, ← same]
    exact congrArg (·.enrollment.id) (Option.some.inj (there.symm.trans row))
  · obtain ⟨before, given, member⟩ := clone_tokens here t member
    exact own ▸ clean before given t member

theorem Edit.persists (edit : Edit start op s s') : Persists s s' := by
  intro key r there
  cases edit with
  | row new free _ _ _ =>
    simp only [put, putAt, Std.ExtTreeMap.getElem?_insert]
    split
    · next same =>
      obtain rfl : new.enrollment.id.id = key := by simpa using same
      refine ⟨new, rfl, ?_⟩
      by_contra different
      exact free (occupied_iff.2 ⟨r, there, Ne.symm different⟩)
    · exact ⟨r, there, rfl⟩
  | rows f identity _ _ _ => exact ⟨f r, by simp [Std.ExtTreeMap.getElem?_map, there], identity r⟩
  | _ => exact ⟨r, there, rfl⟩

theorem Edit.row_kept (edit : Edit start op s s') (apart : ¬ Touches start op b) :
    s'.row b = s.row b := by
  cases edit with
  | row r free own _ _ => exact row_put free fun same => apart (same ▸ own)
  | rows f identity own _ _ => exact row_map identity fun r same => own r (same ▸ apart)
  | _ => rfl

theorem Edit.appends (edit : Edit start op s s') :
    Appends (fun id => Touches start op id ∧ ∃ r, s.row id = some r) s s' := by
  cases edit with
  | association _ own found hash atTime => exact ⟨_, rfl, by simpa using ⟨own, found⟩⟩
  | _ => exact ⟨[], (List.append_nil _).symm, by simp⟩

theorem Edit.aside (edit : Edit start op s s') (owned : s.AuthOwned) (persists : Persists start s)
    (there : s.row b = some r) (apart : ¬ Touches start op b) : SameAside s s' b := by
  have other {a : EnrollmentID} (free : ¬ s.occupied a) (own : Touches start op a) : a.id ≠ b.id :=
    keys_apart there free fun same => apart (same ▸ own)
  have history : s'.history.filter (·.id = b) = s.history.filter (·.id = b) := by
    obtain ⟨new, same, known⟩ := edit.appends
    have none_ : new.filter (·.id = b) = [] := by
      refine List.filter_eq_nil_iff.2 fun h member => ?_
      simp only [decide_eq_true_eq]
      rintro rfl
      exact apart (known h member).1
    rw [same, List.filter_append, none_, List.append_nil]
  cases edit with
  | bootstrap _ free own table others => exact ⟨others _ (other free own), rfl, rfl, history⟩
  | auth _ free own table others _ => exact ⟨rfl, others _ (other free own), rfl, history⟩
  | auths _ keep own =>
    refine ⟨rfl, ?_, rfl, history⟩
    rw [Std.ExtTreeMap.getElem?_filter']
    cases auth : s.userAuth[b.id]? with
    | none => rfl
    | some st =>
      -- The authentication stands beside the row of its own enrollment.
      obtain ⟨row, here, identity⟩ := owned b.id st auth
      obtain ⟨mine, same⟩ := row_some.1 there
      have found : st.id = b := by
        rw [← identity, ← same]
        exact congrArg (·.enrollment.id) (Option.some.inj (here.symm.trans mine))
      simp [Option.filter, own st (found ▸ apart)]
  | @attempt a change e next commit x same device found advanced cloned =>
    obtain ⟨-, row, identity⟩ := get_ok.1 found
    obtain ⟨r', row', identity'⟩ := persists a.id e row
    have free : ¬ s.occupied a := by simp [occupied, row', identity', identity]
    have key := other free (same ▸ touches_self rfl)
    exact ⟨rfl, rfl, by simp [Std.ExtTreeMap.getElem?_insert, key], history⟩
  | _ => exact ⟨rfl, rfl, rfl, history⟩

theorem Edit.owned (edit : Edit start op s s') (owned : s.Owned) (persists : Persists start s)
    (tokens : start.TokensOwned) (clean : op.clean) : s'.Owned := by
  have kept := edit.persists
  refine ⟨fun key st there => ?_, fun key x there t member => ?_, fun h member => ?_⟩
  · cases edit with
    | @auth a _ free own table others self =>
      by_cases same : a.id = key
      · subst same
        rcases self st there with here | ⟨before, earlier, identity⟩
        · exact here
        · exact identity ▸ owned.auth a.id before earlier
      · rw [others key same] at there
        exact owned.auth key st there
    | auths _ keep _ =>
      rw [Std.ExtTreeMap.getElem?_filter', Option.filter_eq_some_iff] at there
      exact owned.auth key st there.1
    | _ => exact kept.row (owned.auth key st there)
  · cases edit with
    | @attempt a change e next commit new same device found advanced cloned =>
      subst same
      rw [Std.ExtTreeMap.getElem?_insert] at there
      split at there
      · next same =>
        obtain rfl : a.id = key := by simpa using same
        obtain rfl := Option.some.inj there
        obtain ⟨before, stored, member⟩ := clone_tokens cloned t member
        rw [advance_tokens tokens clean device found advanced before stored t member]
        exact persists.row ⟨e, (get_ok.1 found).2⟩
      · exact owned.tokens key x there t member
    | _ => exact kept.row (owned.tokens key x there t member)
  · obtain ⟨new, same, known⟩ := edit.appends
    rw [same] at member
    have before : ∃ r, s.row h.id = some r :=
      (List.mem_append.1 member).elim (owned.history h) fun added => (known h added).2
    simp only [row_some] at before ⊢
    exact kept.row before

theorem edits_framed (edits : Edits start op start s) (owned : start.Owned) (clean : op.clean) :
    Persists start s ∧ s.Owned ∧
      ∀ b, ¬ Touches start op b → s.holding b = start.holding b := by
  induction edits with
  | refl => exact ⟨fun key r there => ⟨r, there, rfl⟩, owned, fun _ _ => rfl⟩
  | tail _ edit ih =>
    obtain ⟨persists, owned', holding⟩ := ih
    refine ⟨fun key r there => edit.persists.row (persists key r there),
      edit.owned owned' persists owned.tokens clean, fun b apart => ?_⟩
    rw [← holding b apart]
    exact holding_congr (edit.row_kept apart) fun r there =>
      edit.aside owned'.auth persists there apart

theorem device_apart (other : a ≠ b) (device : a.channel.isUser = false)
    (apart : ¬ (a.channel.isUser = false ∧ b.parentID = a.id)) : b.device ≠ a := by
  rintro rfl
  cases user : b.channel.isUser with
  | false => exact other (EnrollmentID.device_of_device user)
  | true => exact apart ⟨device, (EnrollmentID.device_of_user user).1.symm⟩

theorem apply_holding (decodeResponse : DecodeResponse) (owned : s.Owned)
    (clean : op.clean) (other : b ∉ op.subjects) (apart : ¬ op.reaches b)
    (accepted : s.apply decodeResponse op = .ok s') : s'.holding b = s.holding b := by
  refine (edits_framed (apply_edits decodeResponse accepted) owned clean).2.2 b ?_
  rintro (subject | reached | ⟨d, change, rfl, ⟨e, x, found, -, advanced, t, member, rfl⟩⟩)
  · exact other subject
  · exact apart reached
  · simp only [apply, map_ok, Prod.exists, exists_and_right, exists_eq_right] at accepted
    obtain ⟨out, accepted⟩ := accepted
    have device := (transitionReplacement_ok accepted).choose_spec.1
    simp only [Op.subjects, List.mem_singleton] at other
    exact device_apart (Ne.symm other) device apart
      (advance_tokens owned.tokens clean device found advanced x rfl t member)

theorem step_owned (decodeResponse : DecodeResponse) (owned : s.Owned)
    (clean : op.clean) : (s.step decodeResponse op).Owned :=
  settle_preserves Owned owned fun _ accepted =>
    (edits_framed (apply_edits decodeResponse accepted) owned clean).2.1

end Store

end AppleDM.Inmem
