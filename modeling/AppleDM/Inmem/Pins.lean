import AppleDM.Shared.Index
import AppleDM.Inmem.Edits

set_option autoImplicit false

namespace AppleDM.Inmem

open Mdm Storage Checked Run Index

namespace Store

def pinned (row : Option (EnrollmentID × String)) (id : EnrollmentID) : Option String :=
  match row with
  | some (found, hash) => if found = id ∧ hash ≠ "" then some hash else none
  | none => none

def pinOf (s : Store) (id : EnrollmentID) : Option String := pinned (s.rowPin id.id) id

def pinIndex (s : Store) (hash : String) : Option EnrollmentID :=
  if hash = "" then none else s.certs[hash]?

structure WellFormed (s : Store) : Prop where
  keyed : ∀ key id hash, s.rowPin key = some (id, hash) → id.id = key
  device : ∀ key id hash, s.rowPin key = some (id, hash) → hash ≠ "" →
    id.Valid ∧ id.channel.isUser = false

structure Pinned (s : Store) : Prop where
  rows : s.WellFormed
  exact : Exact s.pinIndex s.pinOf

variable {start s s' : Store} {op : Op} {id : EnrollmentID} {r : Record}

theorem rowPin_putAt (s : Store) (key : String) (r : Record) :
    (s.putAt key r).rowPin = Function.update s.rowPin key
      (some (r.enrollment.id, r.enrollment.certHash)) := by
  funext other
  by_cases same : other = key
  · simp [rowPin, putAt, same]
  · simp [rowPin, putAt, same, Std.ExtTreeMap.getElem?_insert, Ne.symm same]

theorem rowPin_put (s : Store) (r : Record) :
    (s.put r).rowPin = Function.update s.rowPin r.enrollment.id.id
      (some (r.enrollment.id, r.enrollment.certHash)) :=
  rowPin_putAt s r.enrollment.id.id r

theorem rowPin_map {f : Record → Record}
    (kept : ∀ (key : String) r, s.enrollments[key]? = some r →
      (f r).enrollment.id = r.enrollment.id ∧ (f r).enrollment.certHash = r.enrollment.certHash) :
    { s with enrollments := s.enrollments.map fun _ r => f r }.rowPin = s.rowPin := by
  funext key
  simp only [rowPin, Std.ExtTreeMap.getElem?_map, Option.map_map]
  cases row : s.enrollments[key]? with
  | none => rfl
  | some r => simp [kept key r row]

theorem pinOf_of_rowPin (same : s'.rowPin = s.rowPin) : s'.pinOf = s.pinOf := by
  funext id
  simp [pinOf, same]

theorem pinIndex_of_certs (same : s'.certs = s.certs) : s'.pinIndex = s.pinIndex := by
  funext hash
  simp [pinIndex, same]

theorem WellFormed.of_rowPin (rows : s.WellFormed) (same : s'.rowPin = s.rowPin) :
    s'.WellFormed :=
  ⟨same ▸ rows.keyed, same ▸ rows.device⟩

theorem Pinned.frame (pins : s.Pinned) (rows : s'.rowPin = s.rowPin) (certs : s'.certs = s.certs) :
    s'.Pinned :=
  ⟨pins.rows.of_rowPin rows, by
    rw [pinOf_of_rowPin rows, pinIndex_of_certs certs]
    exact pins.exact⟩

theorem WellFormed.put (rows : s.WellFormed)
    (device : r.enrollment.certHash ≠ "" →
      r.enrollment.id.Valid ∧ r.enrollment.id.channel.isUser = false) :
    (s.put r).WellFormed := by
  constructor <;> intro key id hash found <;> rw [rowPin_put] at found <;>
    by_cases same : key = r.enrollment.id.id
  · simp only [same, Function.update_self, Option.some.injEq, Prod.mk.injEq] at found
    simp [same, found.1]
  · rw [Function.update_of_ne same] at found
    exact rows.keyed key id hash found
  · simp only [same, Function.update_self, Option.some.injEq, Prod.mk.injEq] at found
    rw [← found.1, ← found.2]
    exact device
  · rw [Function.update_of_ne same] at found
    exact rows.device key id hash found

theorem pinOf_put (free : ¬ s.occupied r.enrollment.id) :
    (s.put r).pinOf = Function.update s.pinOf r.enrollment.id
      (if r.enrollment.certHash = "" then none else some r.enrollment.certHash) := by
  funext other
  unfold pinOf
  rw [rowPin_put]
  by_cases same : other = r.enrollment.id
  · subst same
    by_cases empty : r.enrollment.certHash = "" <;> simp [pinned, empty]
  · rw [Function.update_of_ne same]
    by_cases key : other.id = r.enrollment.id.id
    · -- The row under this key belongs to the enrollment that is written, so to nobody else.
      have absent : pinned (s.rowPin other.id) other = none := by
        rw [key]
        cases row : s.enrollments[r.enrollment.id.id]? with
        | none => simp [rowPin, row, pinned]
        | some found =>
          have owner : found.enrollment.id = r.enrollment.id := by
            by_contra different
            exact free (occupied_iff.2 ⟨found, row, different⟩)
          simp [rowPin, row, pinned, owner, Ne.symm same]
      rw [absent, key]
      simp [pinned, Ne.symm same]
    · rw [Function.update_of_ne key]

variable {hash : String} {other : EnrollmentID}

theorem holder_of_key (held : s.pinOf other = some hash)
    (key : other.id = id.id) (free : ¬ s.occupied id) : other = id := by
  simp only [pinOf, rowPin, key] at held
  cases row : s.enrollments[id.id]? with
  | none => simp [row, pinned] at held
  | some found =>
    have here : found.enrollment.id = id := by
      by_contra different
      exact free (occupied_iff.2 ⟨found, row, different⟩)
    simp only [row, pinned, Option.map_some, here] at held
    by_contra different
    simp [Ne.symm different] at held

theorem pinIndex_dropCertLocked (exact : Exact s.pinIndex s.pinOf) (free : ¬ s.occupied id) :
    (s.dropCertLocked id.id).pinIndex = release s.pinIndex id := by
  funext hash
  by_cases empty : hash = ""
  · simp [pinIndex, release, empty]
  simp only [pinIndex, release, dropCertLocked, empty, if_false, Std.ExtTreeMap.getElem?_filter']
  cases owned : s.certs[hash]? with
  | none => rfl
  | some owner =>
    have held : s.pinOf owner = some hash := (exact hash owner).1 (by simp [pinIndex, empty, owned])
    have sameKey : owner.id = id.id ↔ owner = id :=
      ⟨fun key => holder_of_key held key free, fun same => by rw [same]⟩
    by_cases same : owner = id <;> simp [Option.filter, sameKey, same]

theorem occupied_rowPin : s.occupied id ↔ ∃ found hash, s.rowPin id.id = some (found, hash) ∧
    found ≠ id := by
  rw [occupied_iff]
  constructor
  · rintro ⟨row, found, different⟩
    exact ⟨_, row.enrollment.certHash, by simp [rowPin, found], different⟩
  · rintro ⟨found, hash, row, different⟩
    simp only [rowPin, Option.map_eq_some_iff, Prod.mk.injEq] at row
    obtain ⟨row, here, rfl, -⟩ := row
    exact ⟨row, here, different⟩

theorem occupied_of_rowPin (same : s'.rowPin = s.rowPin) : s'.occupied id ↔ s.occupied id := by
  rw [occupied_rowPin, occupied_rowPin, same]

theorem resetOwned_rowPin (rows : s.WellFormed) (valid : id.Valid) (atTime : Time) :
    (s.resetOwned id atTime).rowPin = s.rowPin := by
  unfold resetOwned
  split
  · rfl
  · refine rowPin_map fun key r found => ?_
    dsimp only [dropCertLocked] at found
    split
    · next child =>
      refine ⟨rfl, ?_⟩
      by_contra pinned
      have row : s.rowPin key = some (r.enrollment.id, r.enrollment.certHash) := by
        simp [rowPin, found]
      have device := rows.device _ _ _ row fun empty => pinned empty.symm
      rw [device.1.device_parent device.2] at child
      exact valid.named child.symm
    · exact ⟨rfl, rfl⟩

theorem reset_device (pins : s.Pinned) (valid : r.enrollment.id.Valid)
    (device : r.enrollment.id.channel.isUser = false) (free : ¬ s.occupied r.enrollment.id)
    (unpinned : r.enrollment.certHash = "") (atTime : Time) :
    (s.resetAuthenticateLocked r atTime).pinIndex = release s.pinIndex r.enrollment.id ∧
      (s.resetAuthenticateLocked r atTime).pinOf =
        Function.update s.pinOf r.enrollment.id none := by
  have rows := resetOwned_rowPin pins.rows valid atTime
  constructor
  · rw [← pinIndex_dropCertLocked pins.exact free, resetAuthenticateLocked]
    simp only [resetOwned, device, Bool.false_eq_true, if_false]
    rfl
  · rw [resetAuthenticateLocked, pinOf_put (by rwa [occupied_of_rowPin rows]),
      pinOf_of_rowPin rows, unpinned, if_pos rfl]

theorem pinOf_put_unheld (free : ¬ s.occupied r.enrollment.id)
    (unpinned : r.enrollment.certHash = "") (unheld : s.pinOf r.enrollment.id = none) :
    (s.put r).pinOf = s.pinOf := by
  rw [pinOf_put free, unpinned, if_pos rfl, Function.update_eq_self_iff, unheld]

theorem WellFormed.user_unheld (rows : s.WellFormed) (user : id.channel.isUser = true) :
    s.pinOf id = none := by
  unfold pinOf pinned
  split
  · next found hash row =>
    split
    · next pinned =>
      have device := (rows.device _ _ _ row pinned.2).2
      rw [pinned.1, user] at device
      cases device
    · rfl
  · rfl

theorem Pinned.reset (pins : s.Pinned) (valid : r.enrollment.id.Valid)
    (free : ¬ s.occupied r.enrollment.id) (unpinned : r.enrollment.certHash = "")
    (atTime : Time) : Exact (s.resetAuthenticateLocked r atTime).pinIndex
      (s.resetAuthenticateLocked r atTime).pinOf := by
  cases user : r.enrollment.id.channel.isUser with
  | false =>
    obtain ⟨index, held⟩ := reset_device pins valid user free unpinned atTime
    rw [index, held]
    exact pins.exact.release _
  | true =>
    have same : s.resetAuthenticateLocked r atTime = s.put r := by
      simp [resetAuthenticateLocked, resetOwned, user]
    rw [same, pinOf_put_unheld free unpinned (pins.rows.user_unheld user)]
    exact pins.exact

theorem pinIndex_insert {dev : EnrollmentID} (named : hash ≠ "")
    (certs : s'.certs = s.certs.insert hash dev) :
    s'.pinIndex = Function.update s.pinIndex hash (some dev) := by
  funext other
  by_cases same : other = hash
  · simp [pinIndex, certs, same, named]
  · simp [pinIndex, certs, same, Std.ExtTreeMap.getElem?_insert, Ne.symm same]

theorem rowPin_of_enrollments (same : s'.enrollments = s.enrollments) : s'.rowPin = s.rowPin := by
  funext key
  simp [rowPin, same]

theorem applyTokenLocked_pinOf (s : Store) (atTime : Time) (t : ReplacementToken) :
    (applyTokenLocked atTime s t).pinOf = s.pinOf := by
  have kept := applyReplacementToken_pin (s.tokenRow t atTime).enrollment t atTime
  have view : (applyTokenLocked atTime s t).rowPin = Function.update s.rowPin t.id.id
      (some ((s.tokenRow t atTime).enrollment.id, (s.tokenRow t atTime).enrollment.certHash)) := by
    rw [applyTokenLocked, rowPin_putAt, kept.1, kept.2]
  cases found : s.enrollments[t.id.id]? with
  | some row =>
    refine pinOf_of_rowPin ?_
    rw [view, Function.update_eq_self_iff]
    simp [tokenRow, rowPin, found]
  | none =>
    have created : (applyTokenLocked atTime s t).rowPin =
        (s.put { enrollment := { id := t.id } }).rowPin := by
      rw [view, rowPin_put]
      simp [tokenRow, found]
    rw [pinOf_of_rowPin created]
    exact pinOf_put_unheld (by simp [occupied, found]) rfl (by simp [pinOf, rowPin, found, pinned])

theorem applyTokens_pins (s : Store) (atTime : Time) (tokens : List ReplacementToken) :
    (tokens.foldl (applyTokenLocked atTime) s).certs = s.certs ∧
      (tokens.foldl (applyTokenLocked atTime) s).pinOf = s.pinOf := by
  induction tokens generalizing s with
  | nil => exact ⟨rfl, rfl⟩
  | cons token rest ih =>
    obtain ⟨certs, held⟩ := ih (applyTokenLocked atTime s token)
    exact ⟨certs, held.trans (applyTokenLocked_pinOf s atTime token)⟩

def Unclaimed (s : Store) (id : EnrollmentID) (change : ReplacementChange) : Prop :=
  ∀ e r, id.channel.isUser = false → s.get id = .ok e →
    advanceReplacement (s.attemptOf id) e.enrollment change = (some r, .ok true) →
    (∀ t ∈ r.tokens, ¬ s.occupied t.id) →
    (∀ h ∈ s.history, h.hash = r.candidateHash → h.id = id) → r.candidateHash ≠ "" →
    ∀ other, s.pinOf other = some r.candidateHash → other = id

def Allowed (s : Store) : Op → Prop
  | .transitionReplacement id change => s.Unclaimed id change
  | _ => True

theorem pin_exact_iff (mid : Store) (r : Record) (pins : s.Pinned)
    (named : hash ≠ "") (free : ¬ mid.occupied r.enrollment.id)
    (index : mid.pinIndex = release s.pinIndex r.enrollment.id)
    (held : ∀ other, other ≠ r.enrollment.id → mid.pinOf other = s.pinOf other)
    (certs : s'.certs = mid.certs.insert hash r.enrollment.id)
    (enrollments : s'.enrollments = (mid.put r).enrollments)
    (hashed : r.enrollment.certHash = hash) :
    Exact s'.pinIndex s'.pinOf ↔
      ∀ other, s.pinOf other = some hash → other = r.enrollment.id := by
  have view := rowPin_of_enrollments enrollments
  have owners : s'.pinOf = Function.update s.pinOf r.enrollment.id (some hash) := by
    rw [pinOf_of_rowPin view, pinOf_put free, hashed, if_neg named]
    funext other
    by_cases same : other = r.enrollment.id
    · simp [same]
    · simp [same, held other same]
  rw [pinIndex_insert named certs, owners, index]
  exact pins.exact.assign_iff r.enrollment.id hash

theorem Pinned.holder_of_certs (pins : s.Pinned) (named : hash ≠ "") (held : s.pinOf other = some hash) : s.certs[hash]? = some other := by
  simpa [pinIndex, named] using (pins.exact hash other).2 held

variable {c : AuthenticateChange}

theorem authenticateEnrollment_pinned (pins : s.Pinned)
    {result : AuthenticateResult} (accepted : s.authenticateEnrollment id c = .ok (s', result)) :
    Exact s'.pinIndex s'.pinOf := by
  obtain ⟨retry, checked, -, kept, changed⟩ := authenticateEnrollment_ok accepted
  obtain ⟨valid, device, -, -⟩ := checkAuthenticate_new checked
  cases retry with
  | true => exact kept rfl ▸ pins.exact
  | false =>
    obtain ⟨unclaimed, rfl⟩ := changed rfl
    have free := checkAuthenticate_unoccupied checked
    by_cases hash : c.hash = ""
    · simpa [hash] using pins.reset (r := freshRecord _ id _ _ _) valid free rfl c.atTime
    · simp only [ne_eq, hash, not_false_eq_true, if_true]
      obtain ⟨index, held⟩ :=
        reset_device (r := freshRecord (s.queueAt id.id) id c.message c.raw c.atTime) pins valid
          device free rfl c.atTime
      have assigned := pin_exact_iff (s.resetAuthenticateLocked
        (freshRecord (s.queueAt id.id) id c.message c.raw c.atTime) c.atTime)
        { freshRecord (s.queueAt id.id) id c.message c.raw c.atTime with
          enrollment := { (freshRecord (s.queueAt id.id) id c.message c.raw
            c.atTime).enrollment with certHash := c.hash, certHashAt := c.atTime } }
        pins hash (put_unoccupied _ _) index
        (fun other different => by rw [held, Function.update_of_ne different])
        (pin_certs _ _ _ _ _) (pin_enrollments _ _ _ _ _) rfl
      refine assigned.2 fun other holds => ?_
      exact unclaimed hash other (pins.holder_of_certs hash holds)

variable {atTime : Time}

theorem associateCert_pinned (pins : s.Pinned)
    (accepted : s.associateCert id hash atTime = .ok s') : Exact s'.pinIndex s'.pinOf := by
  obtain ⟨r, named, found, owned, rfl⟩ := associateCert_ok accepted
  have free := get_unoccupied found
  have same := (get_ok.1 found).2.2
  have assigned := pin_exact_iff (s.dropCertLocked id.device.id)
    { r with enrollment := { r.enrollment with certHash := hash, certHashAt := atTime } }
    pins named (by rw [same]; exact free)
    (by simpa [same] using pinIndex_dropCertLocked pins.exact free) (fun _ _ => rfl)
    (by rw [pin_certs, same]) (pin_enrollments _ _ _ _ _) rfl
  refine assigned.2 fun other holds => ?_
  rw [show r.enrollment.id = id.device from same]
  exact holder_of_key holds (owned other (pins.holder_of_certs named holds)) free

theorem storeUserAuthChallenge_pinned (pins : s.Pinned) {challenge : String} {raw : Bytes} (accepted : s.storeUserAuthChallenge id challenge raw atTime = .ok s') :
    Exact s'.pinIndex s'.pinOf := by
  obtain ⟨-, certs, same | ⟨absent, added⟩⟩ := storeUserAuthChallenge_ok accepted
  · rw [pinIndex_of_certs certs, pinOf_of_rowPin (rowPin_of_enrollments same)]
    exact pins.exact
  · rw [pinIndex_of_certs certs, pinOf_of_rowPin (rowPin_of_enrollments added),
      pinOf_put_unheld (by simp [occupied, absent]) rfl (by simp [pinOf, rowPin, absent, pinned])]
    exact pins.exact

theorem imported_pinned (pins : s.Pinned) {rec : EnrollmentExport}
    (importable : s.Importable rec) : Exact (s.imported rec).pinIndex (s.imported rec).pinOf := by
  have enrollments := imported_enrollments s rec
  have free := importable.free
  cases user : rec.enrollment.id.channel.isUser with
  | true =>
    simp only [imported, user, if_true]
    rw [pinOf_put_unheld free (importable.user user).1 (pins.rows.user_unheld user)]
    exact pins.exact
  | false =>
    have certs := (imported_device s user).1
    by_cases named : rec.enrollment.certHash = ""
    · have view := rowPin_of_enrollments (s := s.put ⟨rec.enrollment, _⟩) enrollments
      have index : (s.imported rec).pinIndex = release s.pinIndex rec.enrollment.id := by
        rw [← pinIndex_dropCertLocked pins.exact free]
        exact pinIndex_of_certs (by simp [certs, importDevice, named])
      rw [index, pinOf_of_rowPin view, pinOf_put free, if_pos named]
      exact pins.exact.release _
    · have assigned := pin_exact_iff (s.dropCertLocked rec.enrollment.id.id)
        { enrollment := rec.enrollment, queue := s.queueAt rec.enrollment.id.id } pins named free
        (pinIndex_dropCertLocked pins.exact free) (fun _ _ => rfl)
        (by simp [certs, importDevice, named]) enrollments rfl
      refine assigned.2 fun other holds => ?_
      exact holder_of_key holds
        (importable.unclaimed named other (pins.holder_of_certs named holds)) free

theorem commitReplacement_pins (pins : s.Pinned) {e : Record} {replacement : Replacement} (found : s.get id = .ok e)
    (accepted : s.commitReplacement id e replacement atTime = .ok s') :
    Exact s'.pinIndex s'.pinOf ↔ (replacement.candidateHash ≠ "" →
      ∀ other, s.pinOf other = some replacement.candidateHash → other = id) := by
  obtain ⟨-, -, rfl⟩ := commitReplacement_ok accepted
  have free := get_unoccupied found
  have same := (get_ok.1 found).2.2
  generalize pinnedRow : e.promote replacement atTime = row
  have identity : row.enrollment.id = id := by rw [← pinnedRow, ← same]; rfl
  have hashed : row.enrollment.certHash = replacement.candidateHash := by rw [← pinnedRow]; rfl
  generalize middle : s.promote id e replacement atTime = mid
  have enrollments : mid.enrollments = (s.put row).enrollments := by
    rw [← middle, promote_enrollments, pinnedRow]
  have certs : mid.certs = (s.dropCertLocked id.id).certs.insert replacement.candidateHash id := by
    rw [← middle]; rfl
  have settled : Exact mid.pinIndex mid.pinOf ↔ (replacement.candidateHash ≠ "" →
      ∀ other, s.pinOf other = some replacement.candidateHash → other = id) := by
    by_cases named : replacement.candidateHash = ""
    · have view := rowPin_of_enrollments (s := s.put row) enrollments
      have index : mid.pinIndex = release s.pinIndex id := by
        rw [← pinIndex_dropCertLocked pins.exact free]
        funext hash
        by_cases empty : hash = ""
        · simp [pinIndex, empty]
        · simp [pinIndex, empty, certs, named, Std.ExtTreeMap.getElem?_insert, Ne.symm empty]
      rw [index, pinOf_of_rowPin view, pinOf_put (by rwa [identity]), identity, hashed,
        if_pos named]
      simp [named, pins.exact.release id]
    · have assigned := pin_exact_iff (s.dropCertLocked id.id) row pins named (identity ▸ free)
        (by rw [identity]; exact pinIndex_dropCertLocked pins.exact free) (fun _ _ => rfl)
        (identity ▸ certs) enrollments hashed
      simpa [named, identity] using assigned
  obtain ⟨certs, held⟩ := applyTokens_pins mid atTime replacement.tokens
  rw [pinIndex_of_certs certs, held]
  exact settled

variable {change : ReplacementChange}

theorem transitionReplacement_pins (pins : s.Pinned)
    {out : Option Replacement} (accepted : s.transitionReplacement id change = .ok (s', out)) :
    Exact s'.pinIndex s'.pinOf ↔ s.Unclaimed id change := by
  obtain ⟨e, device, found, ⟨r, advanced, rfl⟩ | ⟨r, mid, advanced, committed, rfl⟩⟩ :=
    transitionReplacement_ok accepted
  · have kept : (s.putReplacement id.id (cloneReplacement r)).Pinned :=
      pins.frame (rowPin_of_enrollments (putReplacement_enrollments _ _ _))
        (putReplacement_certs _ _ _)
    refine iff_of_true kept.exact ?_
    intro e' r' _ found' advanced'
    rw [found] at found'
    cases found'
    simp [advanced] at advanced'
  · have exact_iff := commitReplacement_pins pins found committed
    obtain ⟨free, unused, -⟩ := commitReplacement_ok committed
    have view := rowPin_of_enrollments
      (putReplacement_enrollments mid id.id (cloneReplacement (some r)))
    rw [pinIndex_of_certs (putReplacement_certs _ _ _), pinOf_of_rowPin view, exact_iff]
    constructor
    · intro unclaimed e' r' _ found' advanced' _ _
      rw [found] at found'
      cases found'
      rw [advanced] at advanced'
      cases advanced'
      exact unclaimed
    · intro unclaimed
      exact unclaimed e r device found advanced free unused

theorem writesPin_keepsPins (writes : writesPin id op) : op.keepsPins = false := by
  cases op <;> simp [writesPin, Op.keepsPins] at writes ⊢

theorem Edit.keepsPins (edit : Edit start op s s') (keeps : op.keepsPins = true) :
    s'.rowPin = s.rowPin ∧ s'.certs = s.certs := by
  have absurd_ {P : Prop} (writes : op.keepsPins = false) : P := by simp [keeps] at writes
  cases edit with
  | row r free _ pin _ =>
    refine ⟨?_, rfl⟩
    rw [rowPin_put, Function.update_eq_self_iff]
    generalize s.rowPin r.enrollment.id.id = before at pin
    cases pin with
    | kept => rfl
    | created writes _ => exact absurd_ writes
    | written writes _ => exact absurd_ (writesPin_keepsPins writes)
  | rows f identity _ pin _ =>
    exact ⟨rowPin_map fun _ r _ => ⟨identity r, (pin r).resolve_right fun reset => absurd_ reset.1⟩,
      rfl⟩
  | certs writes _ => exact absurd_ writes
  | _ => exact ⟨rfl, rfl⟩

theorem rowPin_put_other (pin : s.rowPin id.id = some (id, hash))
    (free : ¬ s.occupied r.enrollment.id) (other : r.enrollment.id ≠ id) :
    (s.put r).rowPin id.id = some (id, hash) := by
  have key : id.id ≠ r.enrollment.id.id := by
    intro same
    rw [same] at pin
    exact free (occupied_rowPin.2 ⟨id, hash, pin, other.symm⟩)
  rw [rowPin_put, Function.update_of_ne key, pin]

theorem Edit.wellFormed (edit : Edit start op s s') (rows : s.WellFormed) : s'.WellFormed ∧
    ∀ id hash, ¬ writesPin id op → s.rowPin id.id = some (id, hash) →
      s'.rowPin id.id = some (id, hash) := by
  cases edit with
  | row r free _ pin _ =>
    generalize found : s.rowPin r.enrollment.id.id = before at pin
    refine ⟨rows.put fun named => ?_, fun id hash other pinned => ?_⟩
    · cases pin with
      | kept => exact rows.device _ _ _ found named
      | created _ unpinned => exact absurd unpinned named
      | written _ device => exact device named
    · by_cases own : r.enrollment.id = id
      · subst own
        rw [rowPin_put, Function.update_self, ← pinned, found]
        cases pin with
        | kept => rfl
        | created => simp [found] at pinned
        | written writes _ => exact absurd writes other
      · exact rowPin_put_other pinned free own
  | rows f identity _ pin _ =>
    have same : { s with enrollments := s.enrollments.map fun _ r => f r }.rowPin = s.rowPin := by
      refine rowPin_map fun key r found => ⟨identity r, ?_⟩
      rcases pin r with same | ⟨-, reset, child⟩
      · exact same
      rw [reset]
      by_contra pinned
      have device := rows.device key r.enrollment.id r.enrollment.certHash
        (by simp [rowPin, found]) (Ne.symm pinned)
      exact child (device.1.device_parent device.2)
    exact ⟨rows.of_rowPin same, fun _ _ _ pinned => by rw [same, pinned]⟩
  | _ => exact ⟨rows.of_rowPin rfl, fun _ _ _ pinned => pinned⟩

theorem edits_wellFormed (edits : Edits start op s s') (rows : s.WellFormed) : s'.WellFormed ∧
    ∀ id hash, ¬ writesPin id op → s.rowPin id.id = some (id, hash) →
      s'.rowPin id.id = some (id, hash) := by
  induction edits with
  | refl => exact ⟨rows, fun _ _ _ pinned => pinned⟩
  | tail _ edit ih =>
    obtain ⟨sound, kept⟩ := edit.wellFormed ih.1
    exact ⟨sound, fun id hash other pinned => kept id hash other (ih.2 id hash other pinned)⟩

variable (decodeResponse : DecodeResponse)

theorem apply_keepsPins (keeps : op.keepsPins = true)
    (accepted : s.apply decodeResponse op = .ok s') : s'.rowPin = s.rowPin ∧ s'.certs = s.certs := by
  have edits := apply_edits decodeResponse accepted
  clear accepted
  induction edits with
  | refl => exact ⟨rfl, rfl⟩
  | tail _ edit ih =>
    obtain ⟨rows, certs⟩ := edit.keepsPins keeps
    exact ⟨rows.trans ih.1, certs.trans ih.2⟩

theorem apply_wellFormed (rows : s.WellFormed)
    (accepted : s.apply decodeResponse op = .ok s') : s'.WellFormed :=
  (edits_wellFormed (apply_edits decodeResponse accepted) rows).1

theorem apply_rowPin
    (rows : s.WellFormed) (pin : s.rowPin id.id = some (id, hash)) (other : ¬ writesPin id op)
    (accepted : s.apply decodeResponse op = .ok s') : s'.rowPin id.id = some (id, hash) :=
  (edits_wellFormed (apply_edits decodeResponse accepted) rows).2 id hash other pin

theorem apply_pins (pins : s.Pinned) (accepted : s.apply decodeResponse op = .ok s') :
    Exact s'.pinIndex s'.pinOf ↔ s.Allowed op := by
  cases keeps : op.keepsPins with
  | true =>
    have kept := apply_keepsPins decodeResponse keeps accepted
    refine iff_of_true (pins.frame kept.1 kept.2).exact ?_
    cases op <;> simp [Op.keepsPins, Allowed] at keeps ⊢
  | false =>
    cases op <;> simp only [Op.keepsPins, Bool.true_eq_false] at keeps <;>
      simp only [apply, map_ok, Prod.exists, exists_and_right, exists_eq_right] at accepted
    case transitionReplacement =>
      obtain ⟨out, accepted⟩ := accepted
      exact transitionReplacement_pins pins accepted
    all_goals refine iff_of_true ?_ trivial
    case authenticateEnrollment =>
      obtain ⟨result, accepted⟩ := accepted
      exact authenticateEnrollment_pinned pins accepted
    case upsertAuthenticate =>
      obtain ⟨valid, free, -, rfl⟩ := upsertAuthenticate_ok accepted
      exact pins.reset valid free rfl _
    case associateCert => exact associateCert_pinned pins accepted
    case storeUserAuthChallenge => exact storeUserAuthChallenge_pinned pins accepted
    case importRecord rec =>
      obtain ⟨importable, rfl⟩ := (importRecord_ok _ _ _).1 accepted
      exact imported_pinned pins importable

theorem pin_rowPin (s : Store) (r : Record) (dev : EnrollmentID) (hash : String) (atTime : Time) :
    (s.pin r dev hash atTime).rowPin =
      Function.update s.rowPin r.enrollment.id.id (some (r.enrollment.id, hash)) := by
  rw [rowPin_of_enrollments (pin_enrollments s r dev hash atTime), rowPin_put]

theorem reset_pin (accepted : s.authenticateEnrollment id c = .ok (s', ⟨true, true⟩)) :
    s'.rowPin id.id = some (id, c.hash) := by
  obtain ⟨retry, -, same, -, changed⟩ := authenticateEnrollment_ok accepted
  simp only [AuthenticateResult.mk.injEq, true_and] at same
  obtain ⟨-, rfl⟩ := changed (by simpa using same.symm)
  dsimp only
  split
  · rw [pin_rowPin]
    exact Function.update_self _ _ _
  · next unpinned =>
    rw [resetAuthenticateLocked, rowPin_put]
    simp only [ne_eq, not_not] at unpinned
    simp [unpinned, freshRecord]

theorem step_wellFormed (rows : s.WellFormed) (op : Op) : (s.step decodeResponse op).WellFormed :=
  settle_preserves WellFormed rows fun _ accepted => apply_wellFormed decodeResponse rows accepted

theorem transitionReplacement_commits {e : Record} {r : Replacement}
    (device : id.channel.isUser = false) (found : s.get id = .ok e)
    (advanced : advanceReplacement (s.attemptOf id) e.enrollment change = (some r, .ok true))
    (free : ∀ t ∈ r.tokens, ¬ s.occupied t.id)
    (unused : ∀ h ∈ s.history, h.hash = r.candidateHash → h.id = id) :
    ∃ s' out, s.transitionReplacement id change = .ok (s', out) := by
  have open_ : ¬ ∃ t ∈ r.tokens, s.occupied t.id := by
    rintro ⟨t, member, occupied⟩
    exact free t member occupied
  obtain ⟨mid, committed⟩ : ∃ mid, s.commitReplacement id e r change.atTime = .ok mid := by
    simp only [commitReplacement, bind_ok, reject_ok, pure_ok]
    exact ⟨_, (), open_, (), by simpa using unused, rfl⟩
  refine ⟨mid.putReplacement id.id (cloneReplacement (some r)), cloneReplacement (some r), ?_⟩
  simp only [transitionReplacement, bind_ok, reject_ok]
  refine ⟨(), by simp [device], e, found, ?_⟩
  rw [show advanceReplacement (cloneReplacement s.replacements[id.id]?) e.enrollment change =
    (some r, .ok true) from advanced]
  simp only [committed, bind, Except.bind]
  rfl

theorem step_pins (op : Op) (pins : s.Pinned) : (s.step decodeResponse op).WellFormed ∧
      (Exact (s.step decodeResponse op).pinIndex (s.step decodeResponse op).pinOf ↔
        s.Allowed op) := by
  unfold step
  cases applied : s.apply decodeResponse op with
  | ok s' =>
    exact ⟨apply_wellFormed decodeResponse pins.rows applied,
      apply_pins decodeResponse pins applied⟩
  | error error =>
    refine ⟨pins.rows, iff_of_true pins.exact ?_⟩
    cases op
    case transitionReplacement id change =>
      intro e r device found advanced free unused
      obtain ⟨s', out, accepted⟩ :=
        transitionReplacement_commits device found advanced free unused
      simp [apply, accepted, Functor.map, Except.map] at applied
    all_goals trivial

structure ExactPins (s : Store) : Prop where
  exclusive : ∀ (first second : String) r r', s.enrollments[first]? = some r →
    s.enrollments[second]? = some r' → r.enrollment.certHash ≠ "" →
    r.enrollment.certHash = r'.enrollment.certHash → first = second
  indexed : ∀ hash id, hash ≠ "" → (s.certs[hash]? = some id ↔
    ∃ r, s.enrollments[id.id]? = some r ∧ r.enrollment.id = id ∧ r.enrollment.certHash = hash)
  agree : ∀ hash id, hash ≠ "" → id.channel.isUser = false →
    (s.enrollmentByCertHash hash = .ok id ↔ s.certHash id = .ok hash)

theorem pinOf_some : s.pinOf id = some hash ↔ hash ≠ "" ∧
    ∃ r, s.enrollments[id.id]? = some r ∧ r.enrollment.id = id ∧ r.enrollment.certHash = hash := by
  unfold pinOf pinned rowPin
  cases s.enrollments[id.id]? with
  | none => simp
  | some r =>
    simp only [Option.map_some, Option.ite_none_right_eq_some, Option.some.injEq, exists_eq_left']
    constructor
    · rintro ⟨⟨same, named⟩, rfl⟩
      exact ⟨named, same, rfl⟩
    · rintro ⟨named, same, rfl⟩
      exact ⟨⟨same, named⟩, rfl⟩

theorem exactPins_iff (rows : s.WellFormed) : s.ExactPins ↔ Exact s.pinIndex s.pinOf := by
  have key {key : String} {r : Record} (found : s.enrollments[key]? = some r) :
      r.enrollment.id.id = key :=
    rows.keyed key _ r.enrollment.certHash (by simp [rowPin, found])
  constructor
  · intro exact hash id
    by_cases named : hash = ""
    · simp [pinIndex, pinOf_some, named]
    · rw [pinOf_some, pinIndex, if_neg named, exact.indexed hash id named]
      simp [named]
  · intro exact
    have indexed (hash : String) (id : EnrollmentID) (named : hash ≠ "") : s.certs[hash]? = some id ↔
        ∃ r, s.enrollments[id.id]? = some r ∧ r.enrollment.id = id ∧
          r.enrollment.certHash = hash := by
      have here := exact hash id
      rw [pinOf_some, pinIndex, if_neg named] at here
      simpa [named] using here
    refine ⟨fun first second r r' found found' named same => ?_, indexed, ?_⟩
    · have held : s.pinOf r.enrollment.id = some r.enrollment.certHash :=
        pinOf_some.2 ⟨named, r, by rw [key found, found], rfl, rfl⟩
      have held' : s.pinOf r'.enrollment.id = some r.enrollment.certHash :=
        pinOf_some.2 ⟨named, r', by rw [key found', found'], rfl, same.symm⟩
      rw [← key found, ← key found', exact.exclusive held held']
    · intro hash id named device
      have byHash : s.enrollmentByCertHash hash = .ok id ↔ s.certs[hash]? = some id := by
        unfold enrollmentByCertHash
        cases s.certs[hash]? <;> simp
      rw [byHash, indexed hash id named]
      simp only [certHash, bind_ok, pure_ok, deviceRecordLocked_ok, get_ok,
        EnrollmentID.device_of_device device]
      constructor
      · rintro ⟨r, found, same, hashed⟩
        have row : s.rowPin id.id = some (id, hash) := by simp [rowPin, found, same, hashed]
        have valid := (rows.device _ _ _ row named).1
        exact ⟨r, ⟨valid, by simp [occupied, found, same], valid, found, same⟩, hashed⟩
      · rintro ⟨r, ⟨-, -, -, found, same⟩, hashed⟩
        exact ⟨r, found, same, hashed⟩

theorem empty_pinned : ({} : Store).Pinned := by
  refine ⟨⟨?_, ?_⟩, ?_⟩
  · simp [rowPin]
  · simp [rowPin]
  · intro hash id
    simp [pinIndex, pinOf, rowPin, pinned]

end Store

theorem exactPins_run_iff (decodeResponse : DecodeResponse) (ops : List Op) :
    (∀ visited, visited <+: ops → (run (Store.step decodeResponse) {} visited).ExactPins) ↔
      ∀ entry ∈ history (Store.step decodeResponse) {} ops, entry.1.Allowed entry.2 := by
  refine safe_iff (fun s pins => (Store.exactPins_iff pins.rows).2 pins.exact) ?_ ?_
    Store.empty_pinned ops
  · intro s op pins
    obtain ⟨rows, exact_iff⟩ := Store.step_pins decodeResponse op pins
    rw [Store.exactPins_iff rows, exact_iff]
  · intro s op pins allowed
    obtain ⟨rows, exact_iff⟩ := Store.step_pins decodeResponse op pins
    exact ⟨rows, exact_iff.2 allowed⟩

def sampleA : EnrollmentID := ⟨.device, "A", ""⟩

def sampleB : EnrollmentID := ⟨.device, "B", ""⟩

def sampleBToken : ReplacementToken :=
  ⟨sampleB, some ⟨"topic", [1], "magic", [], none, "", "", false⟩, []⟩

def replaceB (new : String) : List Op :=
  ([{ op := .begin, atTime := 2
      begin := some
        { id := "R", method := .acme, oldHash := "old", expiresAt := 100
          command := ⟨"R", "InstallProfile", []⟩ } },
    { op := .issue, id := "R", hash := new, method := .acme, atTime := 3 },
    { op := .authenticate, id := "R", hash := new, atTime := 4 },
    { op := .deliver, id := "R", hash := "old", atTime := 5 },
    { op := .token, id := "R", hash := new, atTime := 6, token := some sampleBToken },
    { op := .result, id := "R", hash := new, atTime := 7
      response := some ⟨sampleB, "R", .acknowledged, []⟩ }] : List ReplacementChange).map
    (Op.transitionReplacement sampleB)

def sharedPinRun : List Op :=
  [.importRecord ⟨{ id := sampleA, enabled := true, certHash := "h" }, [], []⟩,
    .authenticateEnrollment sampleB { hash := "old", atTime := 1 },
    .storeTokenUpdate sampleB ⟨"topic", [1], "magic"⟩ none [] 1] ++ replaceB "h"

theorem sharedPinRun_shares :
    let s := run (Store.step fun _ _ => none) {} sharedPinRun
    (s.enrollments["A"]?).map (·.enrollment.certHash) = some "h" ∧
      (s.enrollments["B"]?).map (·.enrollment.certHash) = some "h" ∧ ¬ s.ExactPins := by
  intro s
  have first : (s.enrollments["A"]?).map (·.enrollment.certHash) = some "h" := by decide +kernel
  have second : (s.enrollments["B"]?).map (·.enrollment.certHash) = some "h" := by decide +kernel
  refine ⟨first, second, fun exact => ?_⟩
  obtain ⟨r, found, hash⟩ := Option.map_eq_some_iff.1 first
  obtain ⟨r', found', hash'⟩ := Option.map_eq_some_iff.1 second
  have same := exact.exclusive "A" "B" r r' found found' (by simp [hash]) (hash.trans hash'.symm)
  simp at same

end AppleDM.Inmem
