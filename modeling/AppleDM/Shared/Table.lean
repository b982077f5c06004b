import Std.Data.ExtTreeMap
import Mathlib.Data.List.Sort

set_option autoImplicit false

namespace AppleDM

abbrev Table (Key Value : Type) [Ord Key] := Std.ExtTreeMap Key Value compare

instance pairOrd {A B : Type} [Ord A] [Ord B] : Ord (A × B) := lexOrd

namespace Table

variable {Key Value : Type} [Ord Key] [Std.TransOrd Key] [Std.LawfulEqOrd Key]

def values (table : Table Key Value) : List Value := table.toList.map (·.2)

variable {table : Table Key Value} {key : Value → Key}

theorem mem_values {value : Value} :
    value ∈ table.values ↔ ∃ key : Key, table[key]? = some value := by
  simp [values, Std.ExtTreeMap.mem_toList_iff_getElem?_eq_some]

theorem entry_cases {entries : List (Key × Value)}
    (read : table.toList = entries) {key : Key} {value : Value} (there : table[key]? = some value) :
    (key, value) ∈ entries := by
  rw [← read]
  exact Std.ExtTreeMap.mem_toList_iff_getElem?_eq_some.2 there

omit [Std.LawfulEqOrd Key] in
theorem length_values (table : Table Key Value) : table.values.length = table.size := by
  rw [values, List.length_map, Std.ExtTreeMap.length_toList]

omit [Std.LawfulEqOrd Key] in
theorem foldl_insert (entries : List (Key × Value)) (table : Table Key Value) :
    entries.foldl (fun t e => t.insert e.1 e.2) table = table.insertMany entries := by
  induction entries generalizing table with
  | nil => exact Std.ExtTreeMap.insertMany_nil.symm
  | cons e rest ih => rw [List.foldl_cons, ih, Std.ExtTreeMap.insertMany_cons]

def Keyed (key : Value → Key) (table : Table Key Value) : Prop :=
  ∀ found value, table[found]? = some value → key value = found

theorem Keyed.insert (keyed : Keyed key table)
    {found : Key} {value : Value} (own : key value = found) :
    Keyed key (Std.ExtTreeMap.insert table found value) := by
  intro other stored there
  rw [Std.ExtTreeMap.getElem?_insert] at there
  split at there
  · next same =>
    rw [← Option.some.inj there, own]
    exact Std.compare_eq_iff_eq.1 same
  · exact keyed other stored there

omit [Std.LawfulEqOrd Key] in
theorem Keyed.erase (keyed : Keyed key table)
    {found : Key} : Keyed key (Std.ExtTreeMap.erase table found) := by
  intro other stored there
  rw [Std.ExtTreeMap.getElem?_erase] at there
  split at there
  · cases there
  · exact keyed other stored there

theorem nodup_keys (table : Table Key Value) : (table.toList.map (·.1)).Nodup := by
  have distinct := Std.ExtTreeMap.distinct_keys_toList (t := table)
  rw [List.Nodup, List.pairwise_map]
  exact distinct.imp fun apart same => apart (by rw [same]; exact Std.ReflCmp.compare_self)

theorem nodup_map_filter {Other : Type} (table : Table Key Value) (p : Key × Value → Bool)
    (f : Key × Value → Other)
    (apart : ∀ e e', p e = true → p e' = true → f e = f e' → e.1 = e'.1) :
    ((table.toList.filter p).map f).Nodup := by
  have single := List.inj_on_of_nodup_map (nodup_keys table)
  refine List.Nodup.map_on (fun e member e' member' same => ?_) ((nodup_keys table).of_map.filter p)
  rw [List.mem_filter] at member member'
  exact single member.1 member'.1 (apart e e' member.2 member'.2 same)

theorem Keyed.nodup (keyed : Keyed key table) : (table.values.map key).Nodup := by
  have keys : table.values.map key = table.toList.map (·.1) := by
    rw [values, List.map_map]
    refine List.map_congr_left fun entry member => ?_
    exact keyed entry.1 entry.2 (Std.ExtTreeMap.mem_toList_iff_getElem?_eq_some.1 member)
  rw [keys]
  exact nodup_keys table

theorem Keyed.values_perm (keyed : Keyed key table)
    {rows : List Value} (distinct : (rows.map key).Nodup)
    (entries : ∀ value, value ∈ rows ↔ table[key value]? = some value) :
    table.values.Perm rows := by
  refine (List.perm_ext_iff_of_nodup keyed.nodup.of_map distinct.of_map).2 fun value => ?_
  rw [mem_values, entries]
  constructor
  · rintro ⟨found, there⟩
    rwa [keyed found value there]
  · intro there
    exact ⟨_, there⟩

end Table

end AppleDM
