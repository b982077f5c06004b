import AppleDM.Shared.Table

set_option autoImplicit false

-- Tables whose rows only change in known ways and whose keys are never given out twice.
namespace AppleDM.Evolution

variable {Key Row : Type} [Ord Key] [Std.TransOrd Key] {Moves : Row → Row → Prop} {used used' : List Key} {before after last : Table Key Row}

def Evolves (Moves : Row → Row → Prop) (used : List Key) (before after : Table Key Row) : Prop :=
  ∀ key row', after[key]? = some row' →
    (∃ row, before[key]? = some row ∧ Moves row row') ∨ key ∉ used

def Knows (used : List Key) (table : Table Key Row) (key : Key) (P : Row → Prop) : Prop :=
  key ∈ used ∧ ∀ row, table[key]? = some row → P row

theorem evolves_of_sub (reflexive : ∀ row, Moves row row)
    (sub : ∀ (key : Key) row, after[key]? = some row → before[key]? = some row) :
    Evolves Moves used before after :=
  fun key row there => .inl ⟨row, sub key row there, reflexive row⟩

variable {key : Key} {row : Row}

theorem Evolves.moves (evolved : Evolves Moves used before after) {row row' : Row}
    (member : key ∈ used) (there : before[key]? = some row) (there' : after[key]? = some row') :
    Moves row row' := by
  obtain ⟨old, found, moved⟩ | unused := evolved key row' there'
  · exact Option.some.inj (there.symm.trans found) ▸ moved
  · exact absurd member unused

theorem Evolves.refl (reflexive : ∀ row, Moves row row) : Evolves Moves used before before :=
  evolves_of_sub reflexive fun _ _ there => there

theorem evolves_write [DecidableEq Key] (reflexive : ∀ row, Moves row row)
    (written : ∀ other, after[other]? = if other = key then some row else before[other]?)
    (came : (∃ old, before[key]? = some old ∧ Moves old row) ∨ key ∉ used) :
    Evolves Moves used before after := by
  intro other row' there
  rw [written] at there
  split at there
  · next same =>
    obtain rfl := Option.some.inj there
    rw [same]
    exact came
  · exact .inl ⟨row', there, reflexive row'⟩

theorem Knows.later {P : Row → Prop} (known : Knows used before key P)
    (kept : ∀ id ∈ used, id ∈ used') (evolved : Evolves Moves used before after)
    (preserved : ∀ row row', P row → Moves row row' → P row') : Knows used' after key P := by
  refine ⟨kept key known.1, fun row' there => ?_⟩
  obtain ⟨row, old, moved⟩ | unused := evolved key row' there
  · exact preserved row row' (known.2 row old) moved
  · exact absurd known.1 unused

theorem knows_of_read (member : key ∈ used)
    (there : before[key]? = some row) {P : Row → Prop} (holds : P row) :
    Knows used before key P :=
  ⟨member, fun _ found => Option.some.inj (there.symm.trans found) ▸ holds⟩

theorem ne_of_absent {key key' : Key} (there : before[key]? = some row)
    (absent : before[key']? = none) : key ≠ key' := by
  rintro rfl
  rw [absent] at there
  cases there

variable [Std.LawfulEqOrd Key] [DecidableEq Key] (table : Table Key Row)

theorem getElem?_insert_eq (other : Key) : (Std.ExtTreeMap.insert table key row)[other]? =
      if other = key then some row else table[other]? := by
  rw [Std.ExtTreeMap.getElem?_insert]
  simp only [Std.compare_eq_iff_eq, eq_comm (a := key)]

variable {table} in
theorem insert_some {other : Key} {row' : Row} :
    (Std.ExtTreeMap.insert table key row)[other]? = some row' ↔
      other = key ∧ row = row' ∨ other ≠ key ∧ table[other]? = some row' := by
  rw [getElem?_insert_eq, ite_eq_iff, Option.some.injEq]

theorem Evolves.insert (evolved : Evolves Moves used before after) (unused : key ∉ used) :
    Evolves Moves used before (Std.ExtTreeMap.insert after key row) := by
  intro other row' there
  obtain ⟨rfl, -⟩ | ⟨-, there⟩ := insert_some.1 there
  · exact .inr unused
  · exact evolved other row' there

theorem insert_comm {key key' : Key} {row row' : Row} (apart : key ≠ key') :
    (Std.ExtTreeMap.insert table key row).insert key' row' =
      (Std.ExtTreeMap.insert table key' row').insert key row := by
  refine Std.ExtTreeMap.ext_getElem? fun other => ?_
  simp only [getElem?_insert_eq]
  split_ifs with first second
  · exact absurd (second.symm.trans first) apart
  all_goals rfl

theorem getElem?_erase_eq (other : Key) : (Std.ExtTreeMap.erase table key)[other]? =
      if other = key then none else table[other]? := by
  rw [Std.ExtTreeMap.getElem?_erase]
  simp only [Std.compare_eq_iff_eq, eq_comm (a := key)]

end AppleDM.Evolution
