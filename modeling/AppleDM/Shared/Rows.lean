import Mathlib.Data.List.Sort

set_option autoImplicit false

namespace AppleDM.Rows

variable {Row Key : Type} [LinearOrder Key] (key : Row → Key)

abbrev Increasing (rows : List Row) : Prop := rows.Pairwise fun a b => key a < key b

def orderBy (rows : List Row) : List Row := rows.insertionSort fun a b => key a ≤ key b

def update (chosen : List Key) (change : Row → Row) (rows : List Row) : List Row :=
  rows.map fun row => if key row ∈ chosen then change row else row

variable {key}

theorem perm_orderBy (rows : List Row) : (orderBy key rows).Perm rows := List.perm_insertionSort _ _

variable {rows : List Row} {change : Row → Row} {chosen : List Key}

theorem orderBy_increasing (increasing : Increasing key rows) : orderBy key rows = rows :=
  (increasing.imp le_of_lt).insertionSort_eq

theorem Increasing.injective (increasing : Increasing key rows) {a b : Row}
    (first : a ∈ rows) (second : b ∈ rows) (same : key a = key b) : a = b :=
  List.inj_on_of_nodup_map (List.pairwise_map.2 (increasing.imp ne_of_lt)) first second same

theorem increasing_orderBy (distinct : (rows.map key).Nodup) :
    Increasing key (orderBy key rows) := by
  have sorted : (orderBy key rows).Pairwise fun a b => key a ≤ key b :=
    List.pairwise_insertionSort _ _
  have apart : (orderBy key rows).Pairwise fun a b => key a ≠ key b := by
    rw [← List.pairwise_map (f := key) (R := (· ≠ ·))]
    exact ((perm_orderBy rows).map key).nodup_iff.2 distinct
  exact sorted.and apart |>.imp fun both => lt_of_le_of_ne both.1 both.2

theorem orderBy_perm {rows rows' : List Row} (increasing : Increasing key rows)
    (same : rows'.Perm rows) : orderBy key rows' = rows := by
  have sorted : (orderBy key rows').Pairwise fun a b => key a ≤ key b :=
    List.pairwise_insertionSort _ _
  have found : (orderBy key rows').Perm rows := (perm_orderBy rows').trans same
  refine found.eq_of_pairwise ?_ sorted (increasing.imp le_of_lt)
  intro a b first second below above
  exact increasing.injective (found.mem_iff.1 first) second (le_antisymm below above)

theorem orderBy_map {Other : Type} (key : Other → Key) (f : Row → Other) (rows : List Row) :
    orderBy key (rows.map f) = (orderBy (fun row => key (f row)) rows).map f :=
  (List.map_insertionSort _ _ f rows fun _ _ _ _ => Iff.rfl).symm

theorem update_other
    (other : ∀ row ∈ rows, key row ∉ chosen) : update key chosen change rows = rows := by
  refine (List.map_congr_left fun row member => ?_).trans (List.map_id rows)
  rw [if_neg (other row member), id]

theorem filter_update {keep : Row → Bool} (stable : ∀ row, keep (change row) = keep row) :
    (update key chosen change rows).filter keep = update key chosen change (rows.filter keep) := by
  unfold update
  rw [List.filter_map]
  congr 1
  refine List.filter_congr fun row _ => ?_
  simp only [Function.comp_apply]
  split
  · exact stable row
  · rfl

theorem map_update {View : Type} {view : Row → View} (stable : ∀ row, view (change row) = view row) :
    (update key chosen change rows).map view = rows.map view := by
  rw [update, List.map_map]
  refine List.map_congr_left fun row _ => ?_
  simp only [Function.comp_apply]
  split
  · exact stable row
  · rfl

theorem Increasing.of_keys {rows rows' : List Row} (increasing : Increasing key rows)
    (same : rows'.map key = rows.map key) : Increasing key rows' := by
  rw [Increasing, ← List.pairwise_map (f := key) (R := (· < ·))] at increasing ⊢
  rwa [same]

theorem update_modify (increasing : Increasing key rows)
    {position : Nat} {row : Row} (here : rows[position]? = some row) :
    update key [key row] change rows = rows.modify position change := by
  induction rows generalizing position with
  | nil => simp at here
  | cons head rest ih =>
    obtain ⟨below, later⟩ := List.pairwise_cons.1 increasing
    cases position with
    | zero =>
      obtain rfl : head = row := by simpa using here
      have others : update key [key head] change rest = rest :=
        update_other fun row member => by simpa using (below row member).ne'
      simpa [update] using others
    | succ position =>
      have there : rest[position]? = some row := by simpa using here
      have apart : key head ≠ key row := (below row (List.mem_of_getElem? there)).ne
      simpa [update, apart] using ih later there

theorem filter_from (increasing : Increasing key rows) {position : Nat} {row : Row}
    (here : rows[position]? = some row) :
    (rows.filter fun found => !decide (key found < key row)) = rows.drop position := by
  induction rows generalizing position with
  | nil => simp at here
  | cons head rest ih =>
    obtain ⟨below, later⟩ := List.pairwise_cons.1 increasing
    cases position with
    | zero =>
      obtain rfl : head = row := by simpa using here
      rw [List.drop_zero, List.filter_eq_self]
      intro found member
      rcases List.mem_cons.1 member with rfl | member
      · simp
      · simpa using (below found member).le
    | succ position =>
      have there : rest[position]? = some row := by simpa using here
      have smaller : key head < key row := below row (List.mem_of_getElem? there)
      simpa [List.filter_cons, smaller] using ih later there

def insertNew (same : Row → Row → Bool) (rows : List Row) (row : Row) : List Row :=
  if rows.any (same row) then rows else rows ++ [row]

theorem foldl_insertNew {same : Row → Row → Bool} {rows added : List Row}
    (fresh : ∀ row ∈ added, ∀ old ∈ rows, same row old = false)
    (distinct : added.Pairwise fun a b => same b a = false) :
    added.foldl (insertNew same) rows = rows ++ added := by
  induction added generalizing rows with
  | nil => simp
  | cons row rest ih =>
    obtain ⟨later, distinct⟩ := List.pairwise_cons.1 distinct
    have new : rows.any (same row) = false :=
      List.any_eq_false.2 fun old member => by simp [fresh row List.mem_cons_self old member]
    have first : insertNew same rows row = rows ++ [row] := by simp [insertNew, new]
    rw [List.foldl_cons, first, ih ?_ distinct, List.append_assoc, List.singleton_append]
    intro other member old among
    rcases List.mem_append.1 among with among | here
    · exact fresh other (List.mem_cons_of_mem row member) old among
    · rw [List.mem_singleton.1 here]
      exact later other member

structure Firsts {Tag : Type} [DecidableEq Tag] (tag : Row → Tag) (all kept : List Row) :
    Prop where
  distinct : (kept.map tag).Nodup
  covers : ∀ row ∈ all, tag row ∈ kept.map tag
  first : ∀ row ∈ kept, all.find? (fun other => tag other = tag row) = some row

theorem Firsts.insertNew {Tag : Type} [DecidableEq Tag] {tag : Row → Tag} {all kept : List Row}
    (firsts : Firsts tag all kept) (row : Row) :
    Firsts tag (all ++ [row]) (insertNew (fun a b => tag b = tag a) kept row) := by
  have found : kept.any (fun old => tag old = tag row) = true ↔ tag row ∈ kept.map tag := by
    simp only [List.any_eq_true, decide_eq_true_eq, List.mem_map]
  have before : ∀ old ∈ kept, (all ++ [row]).find? (fun other => tag other = tag old) = some old :=
    fun old member => by rw [List.find?_append, firsts.first old member, Option.some_or]
  unfold Rows.insertNew
  split
  · next known =>
    refine ⟨firsts.distinct, fun other member => ?_, before⟩
    rcases List.mem_append.1 member with member | member
    · exact firsts.covers other member
    · rw [List.mem_singleton.1 member]
      exact found.1 known
  · next fresh =>
    rw [found] at fresh
    refine ⟨?_, fun other member => ?_, fun old member => ?_⟩
    · simpa [List.nodup_append, firsts.distinct] using fresh
    · rw [List.map_append, List.mem_append]
      exact (List.mem_append.1 member).imp (firsts.covers other) (List.mem_map_of_mem (f := tag))
    · rcases List.mem_append.1 member with member | member
      · exact before old member
      · have none_ : all.find? (fun other => tag other = tag row) = none := by
          refine List.find?_eq_none.2 fun other earlier same => fresh ?_
          exact of_decide_eq_true same ▸ firsts.covers other earlier
        rw [List.mem_singleton.1 member, List.find?_append, none_]
        simp

theorem Firsts.foldl {Tag : Type} [DecidableEq Tag] {tag : Row → Tag} {all kept : List Row}
    (firsts : Firsts tag all kept) (added : List Row) :
    Firsts tag (all ++ added) (added.foldl (Rows.insertNew fun a b => tag b = tag a) kept) := by
  induction added generalizing all kept with
  | nil => simpa using firsts
  | cons row rest ih => simpa using ih (firsts.insertNew row)

theorem filter_flatMap {Item : Type} (key : Row → Key) (tag : Item → Key) {items : Row → List Item} (distinct : rows.Pairwise fun a b => key a ≠ key b)
    (tagged : ∀ row ∈ rows, ∀ item ∈ items row, tag item = key row) {row : Row}
    (member : row ∈ rows) :
    ((rows.flatMap items).filter fun item => tag item = key row) = items row := by
  induction rows with
  | nil => simp at member
  | cons head rest ih =>
    obtain ⟨apart, later⟩ := List.pairwise_cons.1 distinct
    have here := tagged head List.mem_cons_self
    have there := fun row member => tagged row (List.mem_cons_of_mem head member)
    rw [List.flatMap_cons, List.filter_append]
    rcases List.mem_cons.1 member with rfl | member
    · have kept : ((items row).filter fun item => tag item = key row) = items row := by
        rw [List.filter_eq_self]
        simpa using here
      have others : ((rest.flatMap items).filter fun item => tag item = key row) = [] := by
        rw [List.filter_eq_nil_iff]
        intro item found
        obtain ⟨other, among, from_⟩ := List.mem_flatMap.1 found
        rw [there other among item from_]
        simpa using (apart other among).symm
      rw [kept, others, List.append_nil]
    · have dropped : ((items head).filter fun item => tag item = key row) = [] := by
        rw [List.filter_eq_nil_iff]
        intro item found
        rw [here item found]
        simpa using apart row member
      rw [dropped, List.nil_append]
      exact ih later there member

section Batches

variable {rows : List Row} {keep : Row → Bool} {change : Row → Row}

def batch (key : Row → Key) (keep : Row → Bool) (size : Nat) (rows : List Row) : List Key :=
  ((orderBy key (rows.filter keep)).take size).map key

theorem mem_batch (increasing : Increasing key rows) {size : Nat} {row : Row} (member : row ∈ rows) :
    key row ∈ batch key keep size rows ↔ row ∈ (rows.filter keep).take size := by
  rw [batch, orderBy_increasing (increasing.filter keep), List.mem_map]
  constructor
  · rintro ⟨found, taken, same⟩
    have chosen := List.mem_of_mem_filter (List.mem_of_mem_take taken)
    exact increasing.injective chosen member same ▸ taken
  · intro taken
    exact ⟨row, taken, rfl⟩

theorem length_batch (size : Nat) :
    (batch key keep size rows).length = min size (rows.countP keep) := by
  simp [batch, orderBy, List.countP_eq_length_filter]

theorem filter_batch (increasing : Increasing key rows) (settled : ∀ row, keep (change row) = false)
    (size : Nat) :
    (update key (batch key keep size rows) change rows).filter keep =
      (rows.filter keep).drop size := by
  rw [batch, orderBy_increasing (increasing.filter keep)]
  induction rows generalizing size with
  | nil => simp [update]
  | cons row rest ih =>
    obtain ⟨below, later⟩ := List.pairwise_cons.1 increasing
    cases matched : keep row with
    | false =>
      have unchosen : key row ∉ ((rest.filter keep).take size).map key := by
        intro chosen
        obtain ⟨found, taken, same⟩ := List.mem_map.1 chosen
        exact (below found (List.mem_of_mem_filter (List.mem_of_mem_take taken))).ne' same
      have rest_ := ih later size
      simp only [update, List.filter_cons, matched, Bool.false_eq_true, if_false, List.map_cons,
        unchosen] at rest_ ⊢
      exact rest_
    | true =>
      cases size with
      | zero => simp [update, matched]
      | succ size =>
        have others : rest.map (fun found => if key found ∈ key row ::
              ((rest.filter keep).take size).map key then change found else found) =
            update key (((rest.filter keep).take size).map key) change rest := by
          refine List.map_congr_left fun found member => ?_
          simp only [List.mem_cons, (below found member).ne', false_or]
        simp only [update, List.filter_cons, matched, if_true, List.take_succ_cons, List.map_cons,
          List.mem_cons, true_or, settled, Bool.false_eq_true, if_false, List.drop_succ_cons]
        simp only [List.mem_cons] at others
        rw [others]
        exact ih later size

theorem map_batch (increasing : Increasing key rows) (settled : ∀ row, keep (change row) = false)
    (size : Nat) :
    ((update key (batch key keep size rows) change rows).map fun row =>
      if keep row then change row else row) =
    rows.map fun row => if keep row then change row else row := by
  rw [update, List.map_map]
  refine List.map_congr_left fun row member => ?_
  simp only [Function.comp_apply]
  split
  · next chosen =>
    have matched := List.of_mem_filter (List.mem_of_mem_take ((mem_batch increasing member).1 chosen))
    simp [settled, matched]
  · rfl

end Batches

section Comparisons

variable {A : Type} {cmp : A → A → Ordering} [Std.TransCmp cmp] {entries : List A}

theorem insertionSort_le (entries : List A) :
    (entries.insertionSort fun a b => cmp a b ≠ .gt).Pairwise fun a b => cmp a b ≠ .gt := by
  have total : Std.Total fun a b => cmp a b ≠ .gt := ⟨fun a b => by
    have swap : cmp b a = (cmp a b).swap := Std.OrientedCmp.eq_swap
    rw [swap]
    cases cmp a b <;> simp⟩
  have trans : IsTrans A fun a b => cmp a b ≠ .gt := ⟨fun a b c first second =>
    Ordering.ne_gt_iff_isLE.2 (Std.TransCmp.isLE_trans (Ordering.ne_gt_iff_isLE.1 first)
      (Ordering.ne_gt_iff_isLE.1 second))⟩
  exact List.pairwise_insertionSort (fun a b => cmp a b ≠ .gt) entries

theorem insertionSort_lt (distinct : entries.Pairwise fun a b => cmp a b ≠ .eq) :
    (entries.insertionSort fun a b => cmp a b ≠ .gt).Pairwise fun a b => cmp a b = .lt := by
  have symm : ∀ {a b}, cmp a b ≠ .eq → cmp b a ≠ .eq := fun apart same =>
    apart (Std.OrientedCmp.eq_symm same)
  have apart := ((List.perm_insertionSort (fun a b => cmp a b ≠ .gt) entries).pairwise_iff symm).2
    distinct
  have sorted : (entries.insertionSort fun a b => cmp a b ≠ .gt).Pairwise fun a b => cmp a b ≠ .gt :=
    insertionSort_le entries
  exact (sorted.and apart).imp fun both => by
    revert both
    cases cmp _ _ <;> simp

theorem insertionSort_perm [Std.LawfulEqCmp cmp] {others : List A} (same : entries.Perm others) :
    entries.insertionSort (fun a b => cmp a b ≠ .gt) =
      others.insertionSort fun a b => cmp a b ≠ .gt := by
  have found := ((List.perm_insertionSort (fun a b => cmp a b ≠ .gt) entries).trans same).trans
    (List.perm_insertionSort (fun a b => cmp a b ≠ .gt) others).symm
  have antisymm (a b : A) (below : cmp a b ≠ .gt) (above : cmp b a ≠ .gt) : a = b :=
    Std.LawfulEqCmp.eq_of_compare (Std.OrientedCmp.isLE_antisymm
      (Ordering.ne_gt_iff_isLE.1 below) (Ordering.ne_gt_iff_isLE.1 above))
  exact found.eq_of_pairwise (fun a b _ _ => antisymm a b) (insertionSort_le entries)
    (insertionSort_le others)

end Comparisons

end AppleDM.Rows
