import AppleDM.State.Held
import AppleDM.Pki.Lifecycle.Manager

set_option autoImplicit false

namespace AppleDM.Pki.Lifecycle

open Checked Mdm Evolution
open State (Memory StateError)
open AppleDM.Path (Plain)

inductive Place where
  | identity (id : String)
  | rollover (id rev : String)
  | migration (id rev hash : String)
  deriving DecidableEq

namespace Place

def key : Place → String
  | .identity id => identityKey id
  | .rollover id rev => rolloverKey id rev
  | .migration id rev hash => migrationPrefix id rev ++ hash

def Sound : Place → Prop
  | .identity _ => True
  | .rollover id rev => Plain id ∧ Plain rev
  | .migration id rev hash => Plain id ∧ Plain rev ∧ Plain hash

def letter : Place → Char
  | .identity _ => 'i'
  | .rollover _ _ => 'r'
  | .migration _ _ _ => 'm'

theorem key_letter (p : Place) : p.key.toList[14]? = some p.letter := by
  have within {root rest : String} {c : Char} (there : root.toList[14]? = some c) :
      (root ++ rest).toList[14]? = some c := by
    rw [String.toList_append,
      List.getElem?_append_left (List.getElem?_eq_some_iff.1 there).1]
    exact there
  cases p with
  | identity id =>
    have root : "pki/lifecycle/identity/".toList[14]? = some 'i' := by decide
    exact within root
  | rollover id rev =>
    have root : "pki/lifecycle/rollover/".toList[14]? = some 'r' := by decide
    exact within (within (within root))
  | migration id rev hash =>
    have root : "pki/lifecycle/migration/".toList[14]? = some 'm' := by decide
    exact within (within (within (within (within root))))

theorem key_inj {p q : Place} (sound : p.Sound) : p.key = q.key ↔ p = q := by
  refine ⟨fun same => ?_, fun same => by rw [same]⟩
  have letters : p.letter = q.letter := by
    rw [← Option.some.injEq, ← key_letter, ← key_letter, same]
  cases p with
  | identity id =>
    cases q with
    | identity id' => exact congrArg Place.identity (Path.root_inj.1 same)
    | _ => cases letters
  | rollover id rev =>
    cases q with
    | rollover id' rev' =>
      obtain ⟨rfl, rfl⟩ := (Path.pair_inj sound.1 sound.2).1 same
      rfl
    | _ => cases letters
  | migration id rev hash =>
    cases q with
    | migration id' rev' hash' =>
      obtain ⟨rfl, rfl, rfl⟩ := (Path.triple_inj sound.1 sound.2.1 sound.2.2).1 same
      rfl
    | _ => cases letters

end Place

section Lookups

variable {lib : Library} {m m' : Memory Value} {p q : Place} {value : Value}

def stored (m : Memory Value) (p : Place) : Option Value := (m[p.key]?).map (·.value)

def hash (lib : Library) (device : String) : String := lib.fingerprint device.toUTF8.toList

theorem stored_insert (sound : p.Sound) :
    stored (m.insert p.key ⟨value, 0⟩) q = if q = p then some value else stored m q := by
  unfold stored
  rw [getElem?_insert_eq]
  by_cases same : q = p
  · rw [if_pos (by rw [same]), if_pos same, Option.map_some]
  · rw [if_neg fun equal => same ((Place.key_inj sound).1 equal.symm).symm, if_neg same]

def Fits (lib : Library) : Place → Value → Prop
  | .identity id, .identity r => r.id = id ∧ validID id = true
  | .rollover _ _, .rollover _ => True
  | .migration _ _ name, .migration v => name = hash lib v.device
  | _, _ => False

def Stored (lib : Library) (m : Memory Value) : Prop :=
  ∀ (k : String) record, m[k]? = some record →
    record.expiresAt = 0 ∧ ∃ p : Place, p.Sound ∧ k = p.key ∧ Fits lib p record.value

theorem Stored.insert (kept : Stored lib m) (sound : p.Sound) (fits : Fits lib p value) :
    Stored lib (m.insert p.key ⟨value, 0⟩) := by
  intro k record there
  obtain ⟨same, rfl⟩ | ⟨-, there⟩ := insert_some.1 there
  · exact ⟨rfl, p, sound, same, fits⟩
  · exact kept k record there

theorem Stored.fits (kept : Stored lib m) (there : stored m p = some value) :
    p.Sound ∧ Fits lib p value := by
  obtain ⟨record, found, rfl⟩ := Option.map_eq_some_iff.1 there
  obtain ⟨-, q, sound, same, fits⟩ := kept _ _ found
  obtain rfl := (Place.key_inj sound).1 same.symm
  exact ⟨sound, fits⟩

theorem mapError_ok {A : Type} {result : Except StateError A} {a : A} :
    result.mapError stateFailure = .ok a ↔ result = .ok a := by
  cases result <;> simp [Except.mapError]

variable {k : String}

theorem mapError_get {record : State.Record Value} : (m.get k).mapError stateFailure = .ok record ↔
      State.validKey k = true ∧ m[k]? = some record :=
  mapError_ok.trans Memory.get_ok

theorem mapError_notFound
    (missing : (m.get k).mapError stateFailure = .error .notFound) : m[k]? = none := by
  unfold Memory.get at missing
  cases there : m[k]? with
  | none => rfl
  | some record =>
    rw [there] at missing
    by_cases valid : State.validKey k = true
    · simp [reject, valid, Except.mapError] at missing
    · rw [reject, if_pos valid] at missing
      cases missing

theorem putJSON_ok (ran : putJSON m k value = .ok m') : m' = m.insert k ⟨value, 0⟩ := by
  obtain ⟨-, rfl⟩ := Memory.put_ok.1 (mapError_ok.1 ran)
  rfl

variable {id : String}

theorem key_ok : key id = .ok k ↔ validID id = true ∧ identityKey id = k := by
  simp only [key, bind_ok, reject_ok, not_not, pure_ok, exists_const]

theorem read_ok {r : Record} (found : read m id = .ok r) :
    validID id = true ∧ stored m (.identity id) = some (.identity r) := by
  simp only [read, bind_ok, key_ok] at found
  obtain ⟨k, ⟨valid, rfl⟩, found⟩ := found
  refine ⟨valid, ?_⟩
  split at found
  · next r' expires there =>
    obtain rfl := Except.ok.inj found
    rw [stored, Place.key, (mapError_get.1 there).2]
    rfl
  · cases found
  · cases found

theorem read_notFound (missing : read m id = .error .notFound) :
    stored m (.identity id) = none := by
  simp only [read, bind_error] at missing
  obtain bad | ⟨k, named, missing⟩ := missing
  · simp only [key, bind_error, reject_error] at bad
    obtain ⟨-, bad⟩ | ⟨_, -, bad⟩ := bad <;> cases bad
  · obtain ⟨-, rfl⟩ := key_ok.1 named
    split at missing
    · cases missing
    · cases missing
    · next failure there =>
      obtain rfl := Except.error.inj missing
      rw [stored, Place.key, mapError_notFound there]
      rfl

variable {rev : String}

theorem getRollover_ok {job : Rollover} (found : getRollover m (rolloverKey id rev) = .ok job) :
    stored m (.rollover id rev) = some (.rollover job) := by
  unfold getRollover at found
  split at found
  · next job' expires there =>
    obtain rfl := Except.ok.inj found
    rw [stored, Place.key, (mapError_get.1 there).2]
    rfl
  · cases found
  · cases found

theorem getRollover_notFound (missing : getRollover m (rolloverKey id rev) = .error .notFound) :
    stored m (.rollover id rev) = none := by
  unfold getRollover at missing
  split at missing
  · cases missing
  · cases missing
  · next failure there =>
    obtain rfl := Except.error.inj missing
    rw [stored, Place.key, mapError_notFound there]
    rfl

theorem currentMigration_ok {device : String} {current : Migration}
    (found : currentMigration m (migrationKey lib id rev device) = .ok current) :
    stored m (.migration id rev (hash lib device)) = some (.migration current) ∨
      stored m (.migration id rev (hash lib device)) = none ∧ current.generation = 0 ∧
        current.phase ≠ .confirmed := by
  have place : migrationKey lib id rev device = (Place.migration id rev (hash lib device)).key := rfl
  unfold currentMigration getMigration at found
  rw [place] at found
  cases there : (m.get (Place.migration id rev (hash lib device)).key).mapError stateFailure with
  | ok record =>
    obtain ⟨value, expires⟩ := record
    rw [there] at found
    cases value with
    | migration v =>
      obtain rfl := Except.ok.inj found
      left
      rw [stored, (mapError_get.1 there).2]
      rfl
    | identity | rollover => cases found
  | error failure =>
    rw [there] at found
    cases failure with
    | notFound =>
      obtain rfl := Except.ok.inj found
      right
      exact ⟨by rw [stored, mapError_notFound there]; rfl, rfl, by simp⟩
    | _ => cases found

theorem plain_of_validID (valid : validID id = true) : Plain id := by
  unfold validID at valid
  unfold Plain
  cases letters : id.toList with
  | nil => simp
  | cons first rest =>
    simp only [letters, Bool.and_eq_true, List.all_eq_true] at valid
    obtain ⟨⟨head, -⟩, tail⟩ := valid
    intro member
    obtain rfl | later := List.mem_cons.1 member
    · revert head
      decide
    · have bad := tail _ later
      revert bad
      decide

end Lookups

section Listing

variable {lib : Library} {m : Memory Value} {id rev : String}

theorem migrationRows_eq : migrationRows id rev m =
    .ok (m.toList.filter fun row =>
      (migrationPrefix id rev).toList.isPrefixOf row.1.toList) := by
  have named : migrationPrefix id rev ≠ "" := by
    intro empty
    have letter := Place.key_letter (.migration id rev "")
    rw [Place.key, empty] at letter
    cases letter
  have paged (after : String) : migrationPage id rev m after = (m.toList.filter fun row =>
      (migrationPrefix id rev).toList.isPrefixOf row.1.toList && after < row.1).take 100 := by
    simp [migrationPage, Memory.list, reject]
  rw [migrationRows, Memory.scan_all named (by decide) paged]

theorem migrationRows_settled {rows : List (String × State.Record Value)} {done : Unit}
    (listed : migrationRows id rev m = .ok rows) (checked : rows.forM checkSettled = .ok done)
    {name : String} {v : Migration}
    (there : stored m (.migration id rev name) = some (.migration v)) : v.phase.settled = true := by
  rw [migrationRows_eq] at listed
  obtain rfl := Except.ok.inj listed
  obtain ⟨record, found, value⟩ := Option.map_eq_some_iff.1 there
  have member : ((Place.migration id rev name).key, record) ∈ m.toList.filter fun row =>
      (migrationPrefix id rev).toList.isPrefixOf row.1.toList := by
    refine List.mem_filter.2 ⟨Std.ExtTreeMap.mem_toList_iff_getElem?_eq_some.2 found, ?_⟩
    exact List.isPrefixOf_iff_prefix.2 ⟨name.toList, by simp [Place.key, String.toList_append]⟩
  have settled := (forM_ok ..).1 checked _ member
  simpa [checkSettled, value] using settled

end Listing

end AppleDM.Pki.Lifecycle
