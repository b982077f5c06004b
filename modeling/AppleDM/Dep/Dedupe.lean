import Mathlib.Data.List.Induction
import AppleDM.Mdm.Identity
import AppleDM.Shared.Table

set_option autoImplicit false

namespace AppleDM.Dep

open Mdm

inductive OpType
  | added
  | modified
  | deleted
  | other (text : String)
  deriving DecidableEq

structure Device where
  serialNumber : String
  opType : OpType
  opDate : Option Time
  assetTag : String := ""
  deriving DecidableEq

/-- A missing date reads as the zero time, the first instant of year 1. -/
def opDate (d : Device) : Time := d.opDate.getD 0

def replaces (a b : Device) : Bool :=
  if opDate a > opDate b then true
  else if opDate b > opDate a then false
  else !(b.opType = .deleted ∧ a.opType ≠ .deleted)

structure Page where
  index : Table String Nat := ∅
  out : List Device := []

def Page.add (page : Page) (d : Device) : Page :=
  match page.index[d.serialNumber]? with
  | none => ⟨page.index.insert d.serialNumber page.out.length, page.out ++ [d]⟩
  | some i =>
    if (page.out[i]?).any (replaces d) then { page with out := page.out.set i d } else page

def dedupe (devs : List Device) : List Device := (devs.foldl Page.add {}).out

abbrev serials (devs : List Device) : List String := devs.map (·.serialNumber)

structure Chosen (devs : List Device) (r : Device) : Prop where
  newest : ∀ d ∈ devs, d.serialNumber = r.serialNumber → opDate d ≤ opDate r
  last : ∃ before after, devs = before ++ r :: after ∧ ∀ d ∈ after,
    d.serialNumber = r.serialNumber → opDate d = opDate r →
      r.opType = .deleted ∧ d.opType ≠ .deleted
  deletion : r.opType ≠ .deleted → ∀ d ∈ devs, d.serialNumber = r.serialNumber →
    opDate d = opDate r → d.opType ≠ .deleted

variable {devs : List Device} {d r : Device}

theorem replaces_iff : replaces d r = true ↔
    opDate r < opDate d ∨ opDate r = opDate d ∧ (r.opType = .deleted → d.opType = .deleted) := by
  unfold replaces
  split_ifs <;> grind

theorem Chosen.keep (chosen : Chosen devs r)
    (kept : d.serialNumber = r.serialNumber → replaces d r = false) : Chosen (devs ++ [d]) r := by
  have loses (same : d.serialNumber = r.serialNumber) : opDate d ≤ opDate r ∧
      (opDate d = opDate r → r.opType = .deleted ∧ d.opType ≠ .deleted) := by
    have := (Bool.eq_false_iff.1 (kept same)).imp replaces_iff.2
    grind
  obtain ⟨before, after, rfl, final⟩ := chosen.last
  refine ⟨fun e member => ?_, ⟨before, after ++ [d], by simp, fun e member => ?_⟩,
    fun live e member => ?_⟩
  · rcases List.mem_append.1 member with old | new
    · exact chosen.newest e old
    · obtain rfl := List.mem_singleton.1 new
      exact fun same => (loses same).1
  · rcases List.mem_append.1 member with old | new
    · exact final e old
    · obtain rfl := List.mem_singleton.1 new
      exact fun same => (loses same).2
  · rcases List.mem_append.1 member with old | new
    · exact chosen.deletion live e old
    · obtain rfl := List.mem_singleton.1 new
      exact fun same tie => ((loses same).2 tie).2

theorem Chosen.replace (chosen : Chosen devs r) (same : d.serialNumber = r.serialNumber)
    (wins : replaces d r = true) : Chosen (devs ++ [d]) d := by
  have better := replaces_iff.1 wins
  refine ⟨fun e member own => ?_, ⟨devs, [], rfl, by simp⟩, fun live e member own tie => ?_⟩
  · rcases List.mem_append.1 member with old | new
    · have := chosen.newest e old (own.trans same)
      grind
    · rw [List.mem_singleton.1 new]
  · rcases List.mem_append.1 member with old | new
    · have below := chosen.newest e old (own.trans same)
      exact chosen.deletion (by grind) e old (own.trans same) (by grind)
    · rwa [List.mem_singleton.1 new]

structure Page.Correct (page : Page) (devs : List Device) : Prop where
  order : serials page.out = (serials devs).eraseDups
  index : ∀ serial (i : Nat), page.index[serial]? = some i ↔
    (serials page.out)[i]? = some serial
  chosen : ∀ r ∈ page.out, Chosen devs r

theorem Page.Correct.add {page : Page} (correct : page.Correct devs) (d : Device) :
    (page.add d).Correct (devs ++ [d]) := by
  obtain ⟨order, index, chosen⟩ := correct
  have known : d.serialNumber ∈ serials devs ↔ d.serialNumber ∈ serials page.out := by
    rw [← List.mem_eraseDups, ← order]
  have others : ∀ r ∈ page.out, r.serialNumber ≠ d.serialNumber → Chosen (devs ++ [d]) r :=
    fun r member apart => (chosen r member).keep fun same => absurd same.symm apart
  have listed : (serials (devs ++ [d])).eraseDups = serials page.out ++
      if d.serialNumber ∈ serials page.out then [] else [d.serialNumber] := by
    rw [serials, List.map_append, List.eraseDups_append, ← order, List.map_singleton,
      List.cons_removeAll]
    by_cases old : d.serialNumber ∈ serials devs
    · rw [if_neg (by simpa using old), if_pos (known.1 old)]
      rfl
    · rw [if_pos (by simpa using old), if_neg (mt known.2 old)]
      rfl
  unfold Page.add
  split
  · next unseen =>
    have fresh : d.serialNumber ∉ serials page.out := by
      intro member
      obtain ⟨i, there⟩ := List.getElem?_of_mem member
      rw [(index d.serialNumber i).2 there] at unseen
      cases unseen
    rw [if_neg fresh] at listed
    refine ⟨?_, fun serial i => ?_, fun r member => ?_⟩
    · rw [listed, serials, List.map_append, List.map_singleton]
    · rw [Std.ExtTreeMap.getElem?_insert, serials, List.map_append, List.getElem?_append]
      grind
    · rcases List.mem_append.1 member with old | added
      · exact others r old fun same => fresh (List.mem_map.2 ⟨r, old, same⟩)
      · rw [List.mem_singleton.1 added]
        have alone : ∀ e ∈ devs ++ [d], e.serialNumber = d.serialNumber → e = d := by
          grind
        exact ⟨fun e there same => alone e there same ▸ le_refl _, ⟨devs, [], rfl, by simp⟩,
          fun live e there same _ => alone e there same ▸ live⟩
  · next i seen =>
    have there := (index _ _).1 seen
    rw [if_pos (List.mem_of_getElem? there), List.append_nil] at listed
    rw [List.getElem?_map] at there
    obtain ⟨kept, there, own⟩ := Option.map_eq_some_iff.1 there
    have unique : ∀ (j : Nat) r, page.out[j]? = some r →
        r.serialNumber = d.serialNumber → j = i := by
      intro j r found same
      rw [(index _ j).2 (by rw [List.getElem?_map, found, ← same, Option.map_some])] at seen
      exact Option.some.inj seen
    rw [there, Option.any_some]
    split_ifs with wins
    · have named : serials (page.out.set i d) = serials page.out := by
        refine List.ext_getElem? fun j => ?_
        rw [List.getElem?_map, List.getElem?_set, List.getElem?_map]
        grind
      refine ⟨named.trans listed.symm, fun serial j => ?_, fun r member => ?_⟩
      · rw [index, named]
      · obtain ⟨j, found⟩ := List.getElem?_of_mem member
        rw [List.getElem?_set] at found
        by_cases here : i = j
        · obtain rfl : d = r := by grind
          exact (chosen kept (List.mem_of_getElem? there)).replace own.symm wins
        · rw [if_neg here] at found
          exact others r (List.mem_of_getElem? found) fun same => here (unique j r found same).symm
    · refine ⟨listed.symm, index, fun r member => ?_⟩
      by_cases same : r.serialNumber = d.serialNumber
      · obtain ⟨j, found⟩ := List.getElem?_of_mem member
        obtain rfl := unique j r found same
        obtain rfl := Option.some.inj (found.symm.trans there)
        exact (chosen r member).keep fun _ => Bool.eq_false_iff.2 wins
      · exact others r member same

theorem dedupe_chosen (devs : List Device) :
    serials (dedupe devs) = (serials devs).eraseDups ∧
      ∀ r ∈ dedupe devs, Chosen devs r := by
  have correct : (devs.foldl Page.add {}).Correct devs := by
    induction devs using List.reverseRecOn with
    | nil => exact ⟨rfl, by simp, by simp⟩
    | append_singleton devs d ih =>
      rw [List.foldl_append]
      exact ih.add d
  exact ⟨correct.order, correct.chosen⟩

theorem dedupe_undated :
    dedupe [⟨"C02", .modified, some (-1), "dated"⟩, ⟨"C02", .modified, none, "undated"⟩] =
      [⟨"C02", .modified, none, "undated"⟩] := by decide +kernel

end AppleDM.Dep
