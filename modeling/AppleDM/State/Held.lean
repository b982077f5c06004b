import AppleDM.State.Memory
import AppleDM.Shared.Evolution
import AppleDM.Shared.Paging
import Mathlib.Data.Finset.Card
import Mathlib.Data.String.Basic

set_option autoImplicit false

namespace AppleDM.State.Memory

open Checked Mdm

variable {Value : Type} {m : Memory Value} {pre key : String}

def Under (pre key : String) : Prop := pre.toList <+: key.toList

instance (pre key : String) : Decidable (Under pre key) :=
  inferInstanceAs (Decidable (_ <+: _))

def held (m : Memory Value) (pre : String) : Finset String :=
  ((m.toList.filter fun entry => pre.toList.isPrefixOf entry.1.toList).map (·.1)).toFinset

theorem mem_held : key ∈ m.held pre ↔ Under pre key ∧ ∃ record, m[key]? = some record := by
  simp only [held, List.mem_toFinset, List.mem_map, List.mem_filter, Prod.exists,
    exists_and_right, exists_eq_right, Std.ExtTreeMap.mem_toList_iff_getElem?_eq_some,
    List.isPrefixOf_iff_prefix, Under]
  exact and_comm

theorem keys_nodup (m : Memory Value) : (m.toList.map (·.1)).Nodup := by
  have distinct := Std.ExtTreeMap.distinct_keys_toList (t := m)
  rw [List.Nodup, List.pairwise_map]
  exact distinct.imp fun apart same => apart (by rw [same]; exact Std.ReflCmp.compare_self)

theorem after_empty (named : pre ≠ "") {entry : String × Record Value}
    (inside : pre.toList.isPrefixOf entry.1.toList = true) : "" < entry.1 := by
  have letters : pre.toList ≠ [] := by simpa using named
  obtain ⟨first, rest, same⟩ := List.exists_cons_of_ne_nil letters
  rw [String.lt_iff_toList_lt]
  cases name : entry.1.toList with
  | nil => simp [name, same] at inside
  | cons first rest => exact List.nil_lt_cons first rest

theorem scan_all {size : Nat} (named : pre ≠ "") (positive : 0 < size)
    {fetch : String → List (String × Record Value)}
    (paged : ∀ after, fetch after = (m.toList.filter fun entry =>
      pre.toList.isPrefixOf entry.1.toList && after < entry.1).take size) :
    Paging.scan Prod.fst size fetch (m.size + 1) "" =
      some (m.toList.filter fun entry => pre.toList.isPrefixOf entry.1.toList) := by
  set rows := m.toList.filter fun entry => pre.toList.isPrefixOf entry.1.toList with chosen
  have sorted : rows.Pairwise fun a b => a.1 < b.1 :=
    (m.ordered_keys_toList.imp compare_lt_iff_lt.1).filter _
  have pages : fetch = Paging.after Prod.fst size rows := by
    funext after
    rw [paged, Paging.after, chosen, List.filter_filter]
    simp only [Bool.and_comm]
  have all : rows.filter (fun entry => "" < entry.1) = rows := by
    refine List.filter_eq_self.2 fun entry member => decide_eq_true ?_
    exact after_empty named (List.mem_filter.1 member).2
  have enough : (rows.filter fun entry => "" < entry.1).length < m.size + 1 := by
    rw [all, ← Std.ExtTreeMap.length_toList]
    exact Nat.lt_succ_of_le (List.length_filter_le _ _)
  rw [pages, Paging.scan_after positive sorted _ "" enough, all]

theorem list_all {limit : Int} (named : pre ≠ "") (positive : 0 < limit) (most : limit ≤ 10000)
    (room : (m.held pre).card ≤ limit.toNat) :
    ∃ records, m.list pre "" limit = .ok records ∧ (records.map (·.1)).Nodup ∧
      ∀ entry : String × Record Value,
        entry ∈ records ↔ Under pre entry.1 ∧ m[entry.1]? = some entry.2 := by
  set under := m.toList.filter fun entry => pre.toList.isPrefixOf entry.1.toList with chosen
  have distinct : (under.map (·.1)).Nodup :=
    (List.filter_sublist.map _).nodup (keys_nodup m)
  have size : under.length ≤ limit.toNat := by
    have counted : (m.held pre).card = (under.map (·.1)).length :=
      List.toFinset_card_of_nodup distinct
    rw [List.length_map] at counted
    omega
  have all : (m.toList.filter fun entry =>
      pre.toList.isPrefixOf entry.1.toList && "" < entry.1) = under := by
    refine List.filter_congr fun entry _ => ?_
    by_cases inside : pre.toList.isPrefixOf entry.1.toList = true
    · simp [inside, after_empty named inside]
    · simp [inside]
  refine ⟨under, ?_, distinct, fun entry => ?_⟩
  · simp only [list, reject, all, not_lt.mpr most, not_le.mpr positive, or_self, if_false,
      List.take_of_length_le size]
    rfl
  · rw [chosen, List.mem_filter, Std.ExtTreeMap.mem_toList_iff_getElem?_eq_some,
      List.isPrefixOf_iff_prefix]
    exact and_comm

end AppleDM.State.Memory
