import AppleDM.Shared.Run
import AppleDM.Shared.Table

set_option autoImplicit false

namespace AppleDM.Reports

open Run

structure Stamps (Key Row Time : Type) where
  key : Row → Key
  first : Row → Time
  stamp : Row → Time → Time → Row
  key_stamp : ∀ row first last, key (stamp row first last) = key row
  first_stamp : ∀ row since last, first (stamp row since last) = since

structure Report (Row Time : Type) where
  entries : List Row
  whole : Bool
  atTime : Time

variable {Key Row Time : Type} [DecidableEq Key] (k : Stamps Key Row Time)

def entry (report : Report Row Time) (key : Key) : Option Row :=
  report.entries.reverse.find? fun row => k.key row = key

def mentions (report : Report Row Time) (key : Key) : Bool :=
  report.entries.any fun row => k.key row = key

def observe (known : Key → Option Row) (report : Report Row Time) (key : Key) : Option Row :=
  match entry k report key with
  | some row => some (k.stamp row (((known key).map k.first).getD report.atTime) report.atTime)
  | none => if report.whole then none else known key

def observed (reports : List (Report Row Time)) : Key → Option Row :=
  run (observe k) (fun _ => none) reports

def Present (reports : List (Report Row Time)) (key : Key) : Prop :=
  ∃ before report after, reports = before ++ report :: after ∧ mentions k report key = true ∧
    ∀ later ∈ after, later.whole = true → mentions k later key = true

def Since (reports : List (Report Row Time)) (key : Key) (first : Report Row Time) : Prop :=
  ∃ before after, reports = before ++ first :: after ∧ ¬ Present k before key ∧
    mentions k first key = true ∧ ∀ later ∈ after, later.whole = true → mentions k later key = true

def Latest (reports : List (Report Row Time)) (key : Key) (last : Report Row Time) (row : Row) :
    Prop :=
  ∃ before after, reports = before ++ last :: after ∧ entry k last key = some row ∧
    ∀ later ∈ after, mentions k later key = false

variable {k} {report : Report Row Time} {reports : List (Report Row Time)} {key : Key} {row : Row}

theorem entry_isSome : (entry k report key).isSome = mentions k report key := by
  rw [Bool.eq_iff_iff]
  simp [entry, mentions, List.find?_isSome]

theorem mentions_of_entry (found : entry k report key = some row) : mentions k report key = true := by
  rw [← entry_isSome, found]
  rfl

theorem entry_none : entry k report key = none ↔ mentions k report key = false := by
  rw [← entry_isSome]
  simp

theorem entry_key (found : entry k report key = some row) : k.key row = key := by
  simpa using List.find?_some found

theorem observed_append : observed k (reports ++ [report]) = observe k (observed k reports) report := by
  simp [observed, run_append]

theorem present_append : Present k (reports ++ [report]) key ↔
    mentions k report key = true ∨ Present k reports key ∧ report.whole = false := by
  constructor
  · rintro ⟨before, found, after, same, mentioned, kept⟩
    rcases List.eq_nil_or_concat after with rfl | ⟨rest, last, rfl⟩
    · obtain ⟨-, ⟨⟩⟩ := List.append_inj' same rfl
      exact .inl mentioned
    · have split : reports ++ [report] = (before ++ found :: rest) ++ [last] := by simp [same]
      obtain ⟨rfl, ⟨⟩⟩ := List.append_inj' split rfl
      by_cases again : mentions k report key = true
      · exact .inl again
      · refine .inr ⟨⟨before, found, rest, rfl, mentioned, fun later member =>
          kept later (by simp [member])⟩, ?_⟩
        by_contra whole
        exact again (kept report (by simp) (by simpa using whole))
  · rintro (mentioned | ⟨⟨before, found, after, rfl, mentioned, kept⟩, open_⟩)
    · exact ⟨reports, report, [], by simp, mentioned, by simp⟩
    · refine ⟨before, found, after ++ [report], by simp, mentioned, fun later member whole => ?_⟩
      rcases List.mem_append.1 member with earlier | last
      · exact kept later earlier whole
      · rw [List.mem_singleton.1 last, open_] at whole
        cases whole

theorem since_extend {first : Report Row Time} (since : Since k reports key first)
    (kept : report.whole = true → mentions k report key = true) :
    Since k (reports ++ [report]) key first := by
  obtain ⟨before, after, rfl, fresh, mentioned, held⟩ := since
  refine ⟨before, after ++ [report], by simp, fresh, mentioned, fun later member => ?_⟩
  rcases List.mem_append.1 member with earlier | last
  · exact held later earlier
  · exact List.mem_singleton.1 last ▸ kept

theorem observed_correct (reports : List (Report Row Time)) (key : Key) :
    ((observed k reports key).isSome = true ↔ Present k reports key) ∧
      ∀ row, observed k reports key = some row → ∃ first last said, Since k reports key first ∧
        Latest k reports key last said ∧ row = k.stamp said first.atTime last.atTime := by
  induction reports using List.reverseRecOn with
  | nil =>
    refine ⟨?_, fun row found => ?_⟩
    · simp [observed, Present]
    · simp [observed] at found
  | append_singleton reports report ih =>
    obtain ⟨known, stamped⟩ := ih
    rw [observed_append, present_append]
    cases said : entry k report key with
    | none =>
      have silent := entry_none.1 said
      cases whole : report.whole with
      | true => simp [observe, said, whole, silent]
      | false =>
        simp only [observe, said, whole, Bool.false_eq_true, if_false, silent, false_or, and_true]
        refine ⟨known, fun row found => ?_⟩
        obtain ⟨first, last, entry_, since, ⟨before, after, rfl, told, quiet⟩, same⟩ :=
          stamped row found
        refine ⟨first, last, entry_, since_extend since (by simp [whole]),
          ⟨before, after ++ [report], by simp, told, fun later member => ?_⟩, same⟩
        rcases List.mem_append.1 member with earlier | last
        · exact quiet later earlier
        · exact List.mem_singleton.1 last ▸ silent
    | some entry_ =>
      have mentioned := mentions_of_entry said
      simp only [observe, said, Option.isSome_some, mentioned, true_or, Option.some.injEq]
      refine ⟨trivial, ?_⟩
      rintro row rfl
      have latest : Latest k (reports ++ [report]) key report entry_ :=
        ⟨reports, [], rfl, said, by simp⟩
      cases before : observed k reports key with
      | none =>
        refine ⟨report, report, entry_, ⟨reports, [], rfl, ?_, mentioned, by simp⟩, latest, by simp⟩
        rw [← known, before]
        simp
      | some old =>
        obtain ⟨first, last, older, since, -, rfl⟩ := stamped old before
        exact ⟨first, report, entry_, since_extend since fun _ => mentioned, latest,
          by simp [k.first_stamp]⟩

theorem observe_keyed {known : Key → Option Row}
    (keyed : ∀ key row, known key = some row → k.key row = key) (report : Report Row Time) :
    ∀ key row, observe k known report key = some row → k.key row = key := by
  intro key row there
  unfold observe at there
  split at there
  · next said found =>
    obtain rfl := Option.some.inj there
    rw [k.key_stamp, entry_key found]
  · split at there
    · cases there
    · exact keyed key row there

section Retention

variable {A : Type}

def lastOf (keep : Int) (entries : List A) : List A :=
  if keep ≤ 0 then entries else entries.drop (entries.length - keep.toNat)

theorem lastOf_map {B : Type} (f : A → B) (keep : Int) (entries : List A) :
    (lastOf keep entries).map f = lastOf keep (entries.map f) := by
  unfold lastOf
  split
  · rfl
  · rw [List.map_drop, List.length_map]

def retain (kept : List A) (arrival : A × Int) : List A := lastOf arrival.2 (kept ++ [arrival.1])

def Covered (arrivals : List (A × Int)) (position : Nat) : Prop :=
  ∀ later arrival, position ≤ later → arrivals[later]? = some arrival → 0 < arrival.2 →
    (later : Int) - position < arrival.2

theorem covered_append {arrivals : List (A × Int)} {arrival : A × Int} {position : Nat}
    (within : position ≤ arrivals.length) :
    Covered (arrivals ++ [arrival]) position ↔ Covered arrivals position ∧
      (0 < arrival.2 → (arrivals.length : Int) - position < arrival.2) := by
  constructor
  · intro covered
    refine ⟨fun later found after there => covered later found after ?_,
      covered arrivals.length arrival within (by simp)⟩
    rw [List.getElem?_append_left (List.getElem?_eq_some_iff.1 there).1, there]
  · rintro ⟨earlier, last⟩ later found after there
    rcases Nat.lt_or_ge later arrivals.length with before | beyond
    · rw [List.getElem?_append_left before] at there
      exact earlier later found after there
    · have bound := (List.getElem?_eq_some_iff.1 there).1
      obtain rfl : later = arrivals.length := by
        rw [List.length_append, List.length_singleton] at bound
        omega
      obtain rfl : arrival = found := by simpa using there
      exact last

theorem retain_run (arrivals : List (A × Int)) :
    ∃ dropped ≤ arrivals.length, run retain [] arrivals = (arrivals.map (·.1)).drop dropped ∧
      ∀ position < arrivals.length, dropped ≤ position ↔ Covered arrivals position := by
  induction arrivals using List.reverseRecOn with
  | nil => exact ⟨0, by simp⟩
  | append_singleton arrivals arrival ih =>
    obtain ⟨dropped, bound, kept, exact_⟩ := ih
    have joined : run retain [] (arrivals ++ [arrival]) =
        lastOf arrival.2 (((arrivals ++ [arrival]).map (·.1)).drop dropped) := by
      rw [run_append, run_cons, run_nil, kept, retain, List.map_append,
        List.drop_append_of_le_length (by simpa using bound)]
      rfl
    have covers : ∀ position < arrivals.length + 1,
        (dropped ≤ position ↔ Covered arrivals position) := by
      intro position within
      rcases Nat.lt_succ_iff_lt_or_eq.1 within with before | rfl
      · exact exact_ position before
      · refine ⟨fun _ later found after there => ?_, fun _ => bound⟩
        have := (List.getElem?_eq_some_iff.1 there).1
        omega
    by_cases open_ : arrival.2 ≤ 0
    · refine ⟨dropped, by simp; omega, by rw [joined, lastOf, if_pos open_], fun position within => ?_⟩
      rw [List.length_append, List.length_singleton] at within
      rw [covered_append (by omega), covers position within]
      constructor
      · exact fun covered => ⟨covered, by omega⟩
      · exact And.left
    · refine ⟨max dropped (arrivals.length + 1 - arrival.2.toNat), by simp; omega, ?_,
        fun position within => ?_⟩
      · rw [joined, lastOf, if_neg open_, List.drop_drop]
        congr 1
        simp
        omega
      · rw [List.length_append, List.length_singleton] at within
        rw [covered_append (by omega), ← covers position within, Nat.max_le]
        refine and_congr_right fun _ => ?_
        omega

theorem retain_constant {keep : Int} (positive : 0 < keep) (arrivals : List A) :
    run retain [] (arrivals.map fun arrival => (arrival, keep)) =
      arrivals.drop (arrivals.length - keep.toNat) := by
  induction arrivals using List.reverseRecOn with
  | nil => simp
  | append_singleton arrivals arrival ih =>
    rw [List.map_append, run_append, ih, List.map_singleton, run_cons, run_nil, retain, lastOf,
      if_neg (by omega), ← List.drop_append_of_le_length (by omega), List.drop_drop]
    congr 1
    simp
    omega

end Retention

section Tables

variable [Ord Key] [Std.TransOrd Key] [Std.LawfulEqOrd Key]

def upsert (k : Stamps Key Row Time) (atTime : Time) (rows : Table Key Row) (row : Row) :
    Table Key Row :=
  rows.insert (k.key row) (k.stamp row (((rows[k.key row]?).map k.first).getD atTime) atTime)

def absorb (k : Stamps Key Row Time) (rows : Table Key Row) (report : Report Row Time) :
    Table Key Row × List Row :=
  let rows := report.entries.foldl (upsert k report.atTime) rows
  if report.whole then
    (rows.filter fun key _ => mentions k report key,
      Table.values (rows.filter fun key _ => !mentions k report key))
  else (rows, [])

theorem upserts_lookup (atTime : Time) (entries : List Row) (rows : Table Key Row) (key : Key) :
    (entries.foldl (upsert k atTime) rows)[key]? =
      match entries.reverse.find? fun row => k.key row = key with
      | some row => some (k.stamp row (((rows[key]?).map k.first).getD atTime) atTime)
      | none => rows[key]? := by
  induction entries using List.reverseRecOn with
  | nil => simp
  | append_singleton entries row ih =>
    rw [List.foldl_append, List.foldl_cons, List.foldl_nil, upsert, Std.ExtTreeMap.getElem?_insert]
    simp only [List.reverse_append, List.reverse_cons, List.reverse_nil, List.nil_append,
      List.singleton_append, List.find?_cons]
    by_cases own : k.key row = key
    · subst own
      simp only [Std.compare_self, if_true, decide_true, ih]
      -- An earlier entry of the same report has already settled since when the row is there.
      split <;> simp [k.first_stamp]
    · simp only [Std.compare_eq_iff_eq, own, if_false, decide_false, ih]

theorem absorb_lookup (rows : Table Key Row) (report : Report Row Time) (key : Key) :
    (absorb k rows report).1[key]? = observe k (fun key => rows[key]?) report key := by
  have said := upserts_lookup (k := k) report.atTime report.entries rows key
  unfold absorb observe entry
  dsimp only
  cases found : report.entries.reverse.find? fun row => k.key row = key with
  | some row =>
    rw [found] at said
    have told : entry k report key = some row := found
    have mentioned := mentions_of_entry told
    split
    · simp only [Std.ExtTreeMap.getElem?_filter', said, mentioned, Option.filter_some, if_true]
    · exact said
  | none =>
    rw [found] at said
    have silent : mentions k report key = false := entry_none.1 found
    split
    · simp [said, silent]
    · exact said

theorem mem_absorb_removed (rows : Table Key Row) (keyed : Table.Keyed k.key rows)
    (report : Report Row Time) (row : Row) :
    row ∈ (absorb k rows report).2 ↔
      rows[k.key row]? = some row ∧ (absorb k rows report).1[k.key row]? = none := by
  rw [absorb_lookup]
  unfold absorb observe
  dsimp only
  cases whole : report.whole with
  | false =>
    simp only [Bool.false_eq_true, if_false, List.not_mem_nil, false_iff, not_and]
    intro there
    split <;> simp [there]
  | true =>
    simp only [if_true, Table.mem_values, Std.ExtTreeMap.getElem?_filter',
      Option.filter_eq_some_iff, upserts_lookup, Bool.not_eq_true']
    constructor
    · rintro ⟨key, there, silent⟩
      have none_ := entry_none.2 silent
      rw [entry] at none_
      rw [none_] at there
      dsimp only at there
      have own := keyed key row there
      subst own
      exact ⟨there, by rw [entry, none_]⟩
    · rintro ⟨there, gone⟩
      refine ⟨k.key row, ?_, ?_⟩
      · cases found : entry k report (k.key row) with
        | some said => simp [found] at gone
        | none =>
          rw [entry] at found
          rw [found]
          exact there
      · cases found : entry k report (k.key row) with
        | some said => simp [found] at gone
        | none => exact entry_none.1 found

theorem absorb_removed_nodup {rows : Table Key Row} (keyed : Table.Keyed k.key rows)
    (report : Report Row Time) : ((absorb k rows report).2.map k.key).Nodup := by
  unfold absorb
  dsimp only
  split
  · refine Table.Keyed.nodup fun key row there => ?_
    simp only [Std.ExtTreeMap.getElem?_filter', Option.filter_eq_some_iff, Bool.not_eq_true'] at there
    have silent := entry_none.2 there.2
    rw [entry] at silent
    rw [upserts_lookup, silent] at there
    exact keyed key row there.1
  · exact List.nodup_nil

section Owners

variable {Owner : Type} [DecidableEq Owner] [Ord Owner] [Std.TransOrd Owner] [Std.LawfulEqOrd Owner]

def Stamps.scoped (k : Stamps Key Row Time) (owner : Owner) : Stamps (Owner × Key) Row Time where
  key row := (owner, k.key row)
  first := k.first
  stamp := k.stamp
  key_stamp row first last := by rw [k.key_stamp]
  first_stamp := k.first_stamp

def stale (k : Stamps Key Row Time) (owner : Owner) (rows : Table (Owner × Key) Row)
    (report : Report Row Time) : List (Key × Row) :=
  if report.whole then
    rows.toList.filterMap fun (key, row) =>
      if key.1 = owner ∧ mentions k report key.2 = false then some (key.2, row) else none
  else []

def refresh (k : Stamps Key Row Time) (owner : Owner) (rows : Table (Owner × Key) Row)
    (report : Report Row Time) : Table (Owner × Key) Row × List (Key × Row) :=
  let gone := stale k owner rows report
  let rows := report.entries.foldl (upsert (k.scoped owner) report.atTime) rows
  (gone.foldl (fun rows entry => rows.erase (owner, entry.1)) rows, gone)

variable {owner : Owner} {rows : Table (Owner × Key) Row}

theorem mem_stale {key : Key} {row : Row} : (key, row) ∈ stale k owner rows report ↔
    report.whole = true ∧ rows[(owner, key)]? = some row ∧ mentions k report key = false := by
  unfold stale
  split
  · next whole =>
    simp only [List.mem_filterMap, Option.ite_none_right_eq_some, Option.some.injEq,
      Prod.mk.injEq, Prod.exists, Std.ExtTreeMap.mem_toList_iff_getElem?_eq_some, whole, true_and]
    constructor
    · rintro ⟨found, other, row, there, ⟨rfl, silent⟩, rfl, rfl⟩
      exact ⟨there, silent⟩
    · rintro ⟨there, silent⟩
      exact ⟨owner, key, row, there, ⟨rfl, silent⟩, rfl, rfl⟩
  · next open_ => simp [open_]

theorem erases_lookup (gone : List (Key × Row)) (rows : Table (Owner × Key) Row)
    (key : Owner × Key) :
    (gone.foldl (fun rows entry => rows.erase (owner, entry.1)) rows)[key]? =
      if key.1 = owner ∧ key.2 ∈ gone.map (·.1) then none else rows[key]? := by
  induction gone generalizing rows with
  | nil => simp
  | cons entry rest ih =>
    rw [List.foldl_cons, ih, Std.ExtTreeMap.getElem?_erase]
    obtain ⟨found, key⟩ := key
    by_cases own : found = owner
    · subst own
      by_cases same : entry.1 = key
      · simp [same]
      · have later : key ∈ (entry :: rest).map (·.1) ↔ key ∈ rest.map (·.1) := by
          simp [Ne.symm same]
        have kept : compare (found, entry.1) (found, key) ≠ .eq := by simpa using same
        rw [if_neg kept, if_congr (and_congr_right fun _ => later) rfl rfl]
    · have other : ¬ owner = found := Ne.symm own
      simp [own, other]

theorem refresh_lookup (key : Key) : (refresh k owner rows report).1[(owner, key)]? =
    observe k (fun key => rows[(owner, key)]?) report key := by
  have gone : key ∈ (stale k owner rows report).map (·.1) ↔ report.whole = true ∧
      (rows[(owner, key)]?).isSome = true ∧ mentions k report key = false := by
    simp only [List.mem_map, Prod.exists, mem_stale, exists_and_right, exists_eq_right,
      Option.isSome_iff_exists]
    exact ⟨fun ⟨row, whole, there, silent⟩ => ⟨whole, ⟨row, there⟩, silent⟩,
      fun ⟨whole, ⟨row, there⟩, silent⟩ => ⟨row, whole, there, silent⟩⟩
  rw [refresh, erases_lookup, upserts_lookup, observe, entry]
  simp only [Stamps.scoped, Prod.mk.injEq, true_and, gone]
  cases found : report.entries.reverse.find? fun row => k.key row = key with
  | some row =>
    have mentioned : mentions k report key = true := mentions_of_entry found
    simp [mentioned]
  | none =>
    have silent : mentions k report key = false := entry_none.1 found
    cases whole : report.whole <;> cases there : rows[(owner, key)]? <;> simp [silent]

theorem refresh_other {other : Owner} (apart : owner ≠ other) (key : Key) :
    (refresh k owner rows report).1[(other, key)]? = rows[(other, key)]? := by
  have unnamed (entries : List Row) :
      (entries.reverse.find? fun row => (k.scoped owner).key row = (other, key)) = none := by
    simp [Stamps.scoped, apart]
  rw [refresh, erases_lookup, upserts_lookup, unnamed]
  simp [apart.symm]

theorem mem_refresh_removed {key : Key} {row : Row} : (key, row) ∈ (refresh k owner rows report).2 ↔
    rows[(owner, key)]? = some row ∧ (refresh k owner rows report).1[(owner, key)]? = none := by
  rw [refresh_lookup, refresh, mem_stale, observe]
  cases found : entry k report key with
  | some said => simp [mentions_of_entry found]
  | none =>
    have silent := entry_none.1 found
    cases whole : report.whole
    · simp only [Bool.false_eq_true, false_and, if_false, false_iff, not_and]
      intro there
      simp [there]
    · simp [silent]

theorem refresh_removed_nodup : ((refresh k owner rows report).2.map (·.1)).Nodup := by
  unfold refresh stale
  dsimp only
  split
  · have distinct := Std.ExtTreeMap.distinct_keys_toList (t := rows)
    rw [List.Nodup, List.pairwise_map, List.pairwise_filterMap]
    refine distinct.imp fun {a b} apart e chosen e' chosen' same => apart ?_
    simp only [Option.ite_none_right_eq_some, Option.some.injEq] at chosen chosen'
    obtain ⟨⟨own, -⟩, rfl⟩ := chosen
    obtain ⟨⟨own', -⟩, rfl⟩ := chosen'
    rw [Prod.ext (own.trans own'.symm) same]
    exact Std.ReflCmp.compare_self
  · exact List.nodup_nil

section Keyed

variable (keyed : ∀ key row, rows[(owner, key)]? = some row → k.key row = key)

include keyed

theorem mem_refresh_rows {row : Row} : row ∈ (refresh k owner rows report).2.map (·.2) ↔
    rows[(owner, k.key row)]? = some row ∧
      (refresh k owner rows report).1[(owner, k.key row)]? = none := by
  simp only [List.mem_map, Prod.exists, exists_eq_right, mem_refresh_removed]
  constructor
  · rintro ⟨key, there, gone⟩
    obtain rfl := keyed key row there
    exact ⟨there, gone⟩
  · exact fun both => ⟨_, both⟩

theorem refresh_keys : ((refresh k owner rows report).2.map (·.2)).map k.key =
    (refresh k owner rows report).2.map (·.1) := by
  rw [List.map_map]
  exact List.map_congr_left fun entry member => keyed entry.1 entry.2 (mem_refresh_removed.1 member).1

end Keyed

end Owners

end Tables

end AppleDM.Reports
