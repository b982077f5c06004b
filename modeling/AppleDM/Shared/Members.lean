import Std.Data.ExtTreeSet
import AppleDM.Shared.Table

set_option autoImplicit false
set_option linter.unusedSectionVars false

namespace AppleDM

abbrev KeySet (Key : Type) [Ord Key] := Std.ExtTreeSet Key compare

abbrev Members (Owner Key : Type) [Ord Owner] [Ord Key] := Table Owner (KeySet Key)

namespace Members

variable {Owner Key : Type} [Ord Owner] [Std.TransOrd Owner] [Std.LawfulEqOrd Owner]
  [Ord Key] [Std.TransOrd Key] [Std.LawfulEqOrd Key]

def of (m : Members Owner Key) (owner : Owner) : KeySet Key := (m[owner]?).getD ∅

def add (m : Members Owner Key) (owner : Owner) (key : Key) : Members Owner Key × Bool :=
  if key ∈ m.of owner then (m, false) else (m.insert owner ((m.of owner).insert key), true)

def remove (m : Members Owner Key) (owner : Owner) (key : Key) : Members Owner Key × Bool :=
  match m[owner]? with
  | none => (m, false)
  | some inner =>
    if key ∈ inner then
      let inner := inner.erase key
      (if inner.isEmpty then m.erase owner else m.insert owner inner, true)
    else (m, false)

def removeEverywhere (m : Members Owner Key) (key : Key) : Members Owner Key :=
  m.keys.foldl (fun m owner => (m.remove owner key).1) m

def Tidy (m : Members Owner Key) : Prop :=
  ∀ (owner : Owner) inner, m[owner]? = some inner → inner.isEmpty = false

variable [DecidableEq Owner] {m : Members Owner Key} {owner other : Owner} {key found : Key}

@[simp] theorem of_empty : of (∅ : Members Owner Key) owner = ∅ := by simp [of]

theorem of_insert (inner : KeySet Key) :
    of (m.insert owner inner) other = if owner = other then inner else m.of other := by
  simp only [of, Std.ExtTreeMap.getElem?_insert, Std.compare_eq_iff_eq]
  split <;> simp

theorem of_erase : of (m.erase owner) other = if owner = other then ∅ else m.of other := by
  simp only [of, Std.ExtTreeMap.getElem?_erase, Std.compare_eq_iff_eq]
  split <;> simp

theorem mem_add : found ∈ (m.add owner key).1.of other ↔
    found ∈ m.of other ∨ owner = other ∧ key = found := by
  unfold add
  split
  · next there =>
    constructor
    · exact .inl
    · rintro (member | ⟨rfl, rfl⟩) <;> assumption
  · simp only [of_insert]
    split
    · next same =>
      subst same
      simp only [Std.ExtTreeSet.mem_insert, Std.compare_eq_iff_eq, true_and]
      exact or_comm
    · next apart => simp [apart]

theorem add_unchanged (same : (m.add owner key).2 = false) : (m.add owner key).1 = m := by
  unfold add at same ⊢
  split at same
  · rw [if_pos ‹_›]
  · cases same

theorem remove_of : (m.remove owner key).1.of other =
    if owner = other then (m.of owner).erase key else m.of other := by
  unfold remove
  split
  · next absent =>
    split
    · next same =>
      subst same
      simp [of, absent]
    · rfl
  · next inner there =>
    have row : m.of owner = inner := by simp [of, there]
    split
    · dsimp only
      split
      · next empty =>
        rw [of_erase, row]
        split
        · exact (Std.ExtTreeSet.isEmpty_iff.1 empty).symm
        · rfl
      · rw [of_insert, row]
    · next absent =>
      split
      · next same =>
        subst same
        rw [row]
        refine Std.ExtTreeSet.ext_mem fun k => ?_
        simp only [Std.ExtTreeSet.mem_erase, ne_eq, Std.compare_eq_iff_eq]
        constructor
        · exact fun member => ⟨fun same => absent (same ▸ member), member⟩
        · exact And.right
      · rfl

theorem mem_remove : found ∈ (m.remove owner key).1.of other ↔
    found ∈ m.of other ∧ ¬ (owner = other ∧ key = found) := by
  rw [remove_of]
  split
  · next same =>
    subst same
    simp only [Std.ExtTreeSet.mem_erase, ne_eq, Std.compare_eq_iff_eq, true_and]
    exact and_comm
  · next apart => simp [apart]

theorem removeAll_of (owners : List Owner) (m : Members Owner Key) :
    (owners.foldl (fun m owner => (m.remove owner key).1) m).of other =
      if other ∈ owners then (m.of other).erase key else m.of other := by
  induction owners generalizing m with
  | nil => simp
  | cons owner rest ih =>
    rw [List.foldl_cons, ih, remove_of]
    by_cases same : owner = other
    · subst same
      simp only [if_true, List.mem_cons, true_or]
      split
      · refine Std.ExtTreeSet.ext_mem fun k => ?_
        simp [Std.ExtTreeSet.mem_erase]
      · rfl
    · simp [same, Ne.symm same]

theorem mem_removeEverywhere : found ∈ (m.removeEverywhere key).of other ↔
    found ∈ m.of other ∧ key ≠ found := by
  rw [removeEverywhere, removeAll_of]
  split
  · simp only [Std.ExtTreeSet.mem_erase, ne_eq, Std.compare_eq_iff_eq]
    exact and_comm
  · next absent =>
    have none_ : m.of other = ∅ := by
      simp only [Std.ExtTreeMap.mem_keys] at absent
      simp [of, Std.ExtTreeMap.getElem?_eq_none absent]
    simp [none_]

theorem Tidy.insert (tidy : m.Tidy) {inner : KeySet Key} (filled : inner.isEmpty = false) :
    Tidy (m.insert owner inner) := by
  intro other found there
  rw [Std.ExtTreeMap.getElem?_insert] at there
  split at there
  · exact Option.some.inj there ▸ filled
  · exact tidy other found there

theorem Tidy.erase (tidy : m.Tidy) : Tidy (m.erase owner) := by
  intro other found there
  rw [Std.ExtTreeMap.getElem?_erase] at there
  split at there
  · cases there
  · exact tidy other found there

theorem Tidy.add (tidy : m.Tidy) : Tidy (m.add owner key).1 := by
  unfold Members.add
  split
  · exact tidy
  · exact tidy.insert (by simp)

theorem Tidy.remove (tidy : m.Tidy) : Tidy (m.remove owner key).1 := by
  unfold Members.remove
  split
  · exact tidy
  · split
    · dsimp only
      split
      · exact tidy.erase
      · next filled => exact tidy.insert (by simpa using filled)
    · exact tidy

theorem Tidy.removeEverywhere (tidy : m.Tidy) : Tidy (m.removeEverywhere key) := by
  unfold Members.removeEverywhere
  generalize m.keys = owners
  induction owners generalizing m with
  | nil => exact tidy
  | cons owner rest ih => exact ih tidy.remove

structure Linked (owners : Owner → Prop) (keys : Key → Prop) (m : Members Owner Key) : Prop where
  known : ∀ owner key, key ∈ m.of owner → owners owner ∧ keys key
  tidy : m.Tidy

namespace Linked

variable {owners owners' : Owner → Prop} {keys keys' : Key → Prop}

theorem owners_mono (linked : Linked owners keys m)
    (more : ∀ owner, owners owner → owners' owner) : Linked owners' keys m :=
  ⟨fun owner key member => (linked.known owner key member).imp_left (more owner), linked.tidy⟩

theorem keys_mono (linked : Linked owners keys m) (more : ∀ key, keys key → keys' key) :
    Linked owners keys' m :=
  ⟨fun owner key member => (linked.known owner key member).imp_right (more key), linked.tidy⟩

theorem add (linked : Linked owners keys m) (own : owners owner) (named : keys key) :
    Linked owners keys (m.add owner key).1 := by
  refine ⟨fun other found member => ?_, linked.tidy.add⟩
  obtain before | ⟨rfl, rfl⟩ := mem_add.1 member
  · exact linked.known other found before
  · exact ⟨own, named⟩

theorem remove (linked : Linked owners keys m) : Linked owners keys (m.remove owner key).1 :=
  ⟨fun other found member => linked.known other found (mem_remove.1 member).1, linked.tidy.remove⟩

theorem removeEverywhere (linked : Linked owners keys m) :
    Linked owners (fun found => keys found ∧ key ≠ found) (m.removeEverywhere key) := by
  refine ⟨fun other found member => ?_, linked.tidy.removeEverywhere⟩
  obtain ⟨before, apart⟩ := mem_removeEverywhere.1 member
  obtain ⟨own, named⟩ := linked.known other found before
  exact ⟨own, named, apart⟩

theorem erase (linked : Linked owners keys m) :
    Linked (fun other => owners other ∧ owner ≠ other) keys (m.erase owner) := by
  refine ⟨fun other found member => ?_, linked.tidy.erase⟩
  rw [of_erase] at member
  split at member
  · simp at member
  · next apart =>
    obtain ⟨own, named⟩ := linked.known other found member
    exact ⟨⟨own, apart⟩, named⟩

end Linked

end Members

end AppleDM
