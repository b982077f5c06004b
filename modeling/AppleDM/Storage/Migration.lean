import Mathlib.Data.Prod.Lex
import Mathlib.Data.String.Basic
import AppleDM.Shared.Checked
import AppleDM.Shared.Paging
import AppleDM.Shared.Rows
import AppleDM.Shared.Table
import AppleDM.Storage.Types

set_option autoImplicit false

namespace AppleDM.Storage

open Mdm Checked Rows

section Pages

variable {Item Target : Type}

def exportAll (fetch : Page → Except StoreError (PageResult Item)) (limit : Int) :
    Nat → String → Except StoreError (List Item)
  | 0, _ => .error (.invalid "pages remain")
  | fuel + 1, cursor => do
    let res ← fetch ⟨cursor, limit⟩
    if res.nextCursor = "" then pure res.items
    else (res.items ++ ·) <$> exportAll fetch limit fuel res.nextCursor

def migrate (fetch : Page → Except StoreError (PageResult Item))
    (load : Target → Item → Except StoreError Target) (limit : Int) :
    Nat → String → Target → Except StoreError Target
  | 0, _, _ => .error (.invalid "pages remain")
  | fuel + 1, cursor, target => do
    let res ← fetch ⟨cursor, limit⟩
    let target ← res.items.foldlM load target
    if res.nextCursor = "" then pure target else migrate fetch load limit fuel res.nextCursor target

variable {fetch : Page → Except StoreError (PageResult Item)} {limit : Int} {fuel : Nat}

theorem migrate_exportAll (load : Target → Item → Except StoreError Target) {cursor : String}
    {items : List Item} (exported : exportAll fetch limit fuel cursor = .ok items)
    (target : Target) :
    migrate fetch load limit fuel cursor target = items.foldlM load target := by
  induction fuel generalizing cursor items target with
  | zero => simp [exportAll] at exported
  | succ fuel ih =>
    unfold exportAll at exported
    unfold migrate
    cases fetched : fetch ⟨cursor, limit⟩ with
    | error error => simp [fetched] at exported
    | ok res =>
      simp only [fetched, ok_bind] at exported ⊢
      split at exported
      · next last =>
        obtain rfl : res.items = items := by simpa using exported
        simp [last]
      · next more =>
        obtain ⟨rest, later, rfl⟩ := (map_ok _ _ _).1 exported
        simp only [more, if_false, List.foldlM_append]
        congr 1
        funext loaded
        exact ih later loaded

variable {Row Key : Type} [LinearOrder Key] {key : Row → Key} {size : Nat} {rows : List Row}

theorem exportAll_collect {encode : Key → String} {render : Row → Item}
    (named : ∀ row ∈ rows, encode (key row) ≠ "")
    (pages : ∀ cursor : Option Key, (∀ k, cursor = some k → ∃ row ∈ rows, key row = k) →
      fetch ⟨(cursor.map encode).getD "", limit⟩ =
        .ok ⟨(Paging.page key size rows cursor).1.map render,
          ((Paging.page key size rows cursor).2.map encode).getD ""⟩) {cursor : Option Key} (started : ∀ k, cursor = some k → ∃ row ∈ rows, key row = k)
    {found : List Row}
    (collected : Paging.collect (Paging.page key size rows) fuel cursor = some found) :
    exportAll fetch limit fuel ((cursor.map encode).getD "") = .ok (found.map render) := by
  induction fuel generalizing cursor found with
  | zero => simp [Paging.collect] at collected
  | succ fuel ih =>
    unfold exportAll
    unfold Paging.collect at collected
    rw [pages cursor started, ok_bind]
    cases here : Paging.page key size rows cursor with
    | mk items next =>
    rw [here] at collected
    cases next with
    | none =>
      obtain rfl : items = found := by simpa using collected
      simp
    | some next =>
      obtain ⟨row, member, same⟩ := Paging.next_mem (by rw [here])
      obtain ⟨rest, later, rfl⟩ := Option.map_eq_some_iff.1 collected
      have continued := ih (by rintro k ⟨⟩; exact ⟨row, member, same⟩) later
      simp only [Option.map_some, Option.getD_some] at continued ⊢
      rw [if_neg (same ▸ named row member), continued]
      simp

theorem exportAll_pages (key : Row → Key) (encode : Key → String) {render : Row → Item}
    (positive : 0 < size) (sorted : rows.Pairwise fun a b => key a < key b)
    (named : ∀ row ∈ rows, encode (key row) ≠ "")
    (pages : ∀ cursor : Option Key, (∀ k, cursor = some k → ∃ row ∈ rows, key row = k) →
      fetch ⟨(cursor.map encode).getD "", limit⟩ =
        .ok ⟨(Paging.page key size rows cursor).1.map render,
          ((Paging.page key size rows cursor).2.map encode).getD ""⟩) (enough : rows.length < fuel) :
    exportAll fetch limit fuel "" = .ok (rows.map render) := by
  have collected := Paging.collect_page positive sorted enough
  simpa using exportAll_collect named pages (by simp) collected

end Pages

def associationLe (a b : CertAssociation) : Bool :=
  if a.atTime ≠ b.atTime then a.atTime < b.atTime
  else if a.hash ≠ b.hash then a.hash < b.hash
  else ¬ b.id.id < a.id.id

def readKey (a : CertAssociation) : Int ×ₗ String ×ₗ String :=
  toLex (a.atTime, toLex (a.hash, a.id.id))

theorem associationLe_iff (a b : CertAssociation) :
    associationLe a b = true ↔ readKey a ≤ readKey b := by
  simp only [associationLe, readKey, Prod.Lex.toLex_le_toLex]
  split
  · next apart => simp [apart]
  · next same =>
    split
    · next apart => simp [not_not.1 same, apart]
    · next equal =>
      simp only [not_not.1 same, not_not.1 equal, decide_eq_true_eq, not_lt, lt_irrefl, true_and,
        false_or]

def position (e : Enrollment) : String ×ₗ String := toLex (e.id.parentID, e.id.id)

theorem empty_lt {text : String} (named : text ≠ "") : "" < text := by
  have letters : text.toList ≠ [] := by simpa using named
  obtain ⟨letter, rest, same⟩ := List.exists_cons_of_ne_nil letters
  rw [String.lt_iff_toList_lt, same]
  exact List.nil_lt_cons letter rest

theorem cursor_lt_cursor {a b : Enrollment} (free : '\x00' ∉ a.id.parentID.toList)
    (free' : '\x00' ∉ b.id.parentID.toList) (below : position a < position b) :
    a.id.parentID ++ "\x00" ++ a.id.id < b.id.parentID ++ "\x00" ++ b.id.id := by
  have least (letter : Char) : '\x00' ≤ letter := by
    rw [Char.le_def]
    exact UInt32.zero_le
  have together : a.id.parentID.toList ++ '\x00' :: a.id.id.toList <
      b.id.parentID.toList ++ '\x00' :: b.id.id.toList := by
    refine Paging.join_lt_join least free free' ?_
    rcases Prod.Lex.toLex_lt_toLex.1 below with below | ⟨same, below⟩
    · exact .inl (String.lt_iff_toList_lt.1 below)
    · exact .inr ⟨congrArg String.toList same, String.lt_iff_toList_lt.1 below⟩
  rw [String.lt_iff_toList_lt]
  simpa using together

structure Loadable (records : List EnrollmentExport) : Prop where
  ordered : records.Pairwise fun a b => position a.enrollment < position b.enrollment
  keys : records.Pairwise fun a b => a.enrollment.id.id ≠ b.enrollment.id.id
  pins : records.Pairwise fun a b => a.enrollment.certHash ≠ "" →
    a.enrollment.certHash ≠ b.enrollment.certHash
  valid : ∀ rec ∈ records, rec.enrollment.id.Valid
  separable : ∀ rec ∈ records, '\x00' ∉ rec.enrollment.id.parentID.toList
  parents : ∀ rec ∈ records, rec.enrollment.id.channel.isUser = true →
    ∃ parent ∈ records, parent.enrollment.id = rec.enrollment.id.device
  users : ∀ rec ∈ records, rec.enrollment.id.channel.isUser = true →
    rec.enrollment.certHash = "" ∧ rec.bootstrapToken = [] ∧ rec.certHistory = []
  own : ∀ rec ∈ records, ∀ a ∈ rec.certHistory, a.id = rec.enrollment.id ∧ a.hash ≠ ""
  readOrder : ∀ rec ∈ records, rec.certHistory.Pairwise fun a b => associationLe a b = true
  firstSeen : ∀ rec ∈ records, rec.certHistory.Pairwise fun a b => a.hash ≠ b.hash

variable {done rest : List EnrollmentExport} {rec : EnrollmentExport}

theorem Loadable.new
    (loadable : Loadable (done ++ rec :: rest)) {before : EnrollmentExport} (member : before ∈ done) :
    before.enrollment.id.id ≠ rec.enrollment.id.id ∧ (before.enrollment.certHash ≠ "" →
      before.enrollment.certHash ≠ rec.enrollment.certHash) :=
  ⟨(List.pairwise_append.1 loadable.keys).2.2 before member rec (by simp),
    (List.pairwise_append.1 loadable.pins).2.2 before member rec (by simp)⟩

theorem Loadable.before {parent : EnrollmentExport} (loadable : Loadable (done ++ rec :: rest))
    (user : rec.enrollment.id.channel.isUser = true) (member : parent ∈ done ++ rec :: rest)
    (same : parent.enrollment.id = rec.enrollment.id.device) : parent ∈ done := by
  have valid := loadable.valid rec (by simp)
  have below : position parent.enrollment < position rec.enrollment := by
    refine Prod.Lex.toLex_lt_toLex.2 (.inl ?_)
    rw [same, (EnrollmentID.device_of_user user).2]
    exact empty_lt (valid.parent.1 user)
  have ordered := loadable.ordered
  rw [List.pairwise_append] at ordered
  rcases List.mem_append.1 member with found | found
  · exact found
  · rcases List.mem_cons.1 found with rfl | found
    · exact absurd below (lt_irrefl _)
    · exact absurd below (lt_asymm ((List.pairwise_cons.1 ordered.2.1).1 parent found))

theorem Loadable.parent_before (loadable : Loadable (done ++ rec :: rest))
    (user : rec.enrollment.id.channel.isUser = true) :
    ∃ parent ∈ done, parent.enrollment.id = rec.enrollment.id.device := by
  obtain ⟨parent, member, same⟩ := loadable.parents rec (by simp) user
  exact ⟨parent, loadable.before user member same, same⟩

section Sources

variable {Row : Type} (enrollment : Row → Enrollment)

structure PortableRows (table : Table String Row) : Prop where
  valid : ∀ (key : String) row, table[key]? = some row → (enrollment row).id.Valid
  separable : ∀ (key : String) row, table[key]? = some row →
    '\x00' ∉ (enrollment row).id.parentID.toList
  parents : ∀ (key : String) row, table[key]? = some row →
    (enrollment row).id.channel.isUser = true → ∃ parent,
      table[(enrollment row).id.parentID]? = some parent ∧
        (enrollment parent).id = (enrollment row).id.device
  exclusive : ∀ (first second : String) row row', table[first]? = some row →
    table[second]? = some row' → (enrollment row).certHash ≠ "" →
    (enrollment row).certHash = (enrollment row').certHash → first = second

structure Rendered (table : Table String Row) (render : Row → EnrollmentExport) : Prop where
  same : ∀ row, (render row).enrollment = enrollment row
  keyed : table.Keyed fun row => (enrollment row).id.id
  users : ∀ (key : String) row, table[key]? = some row →
    (enrollment row).id.channel.isUser = true →
    (enrollment row).certHash = "" ∧ (render row).bootstrapToken = [] ∧ (render row).certHistory = []
  history : ∀ (key : String) row, table[key]? = some row →
    (∀ a ∈ (render row).certHistory, a.id = (enrollment row).id ∧ a.hash ≠ "") ∧
      ((render row).certHistory.Pairwise fun a b => associationLe a b = true) ∧
      (render row).certHistory.Pairwise fun a b => a.hash ≠ b.hash

def place (row : Row) : String ×ₗ String := position (enrollment row)

variable {enrollment} {table : Table String Row} {render : Row → EnrollmentExport}

theorem increasing_place (keyed : table.Keyed fun row => (enrollment row).id.id) :
    Increasing (place enrollment) (orderBy (place enrollment) table.values) := by
  have keys := keyed.nodup
  have split : table.values.map (fun row => (enrollment row).id.id) =
      (table.values.map (place enrollment)).map fun key => (ofLex key).2 := by
    rw [List.map_map]
    rfl
  rw [split] at keys
  exact increasing_orderBy keys.of_map

theorem PortableRows.loadable (portable : PortableRows enrollment table)
    (rendered : Rendered enrollment table render) :
    Loadable ((orderBy (place enrollment) table.values).map render) := by
  generalize ordered : orderBy (place enrollment) table.values = rows
  have found : rows.Perm table.values := by
    rw [← ordered]
    exact perm_orderBy _
  have there {row : Row} (member : row ∈ rows) : table[(enrollment row).id.id]? = some row := by
    obtain ⟨key, there⟩ := Table.mem_values.1 (found.mem_iff.1 member)
    have same : (enrollment row).id.id = key := rendered.keyed key row there
    rwa [same]
  have keys : rows.Pairwise fun a b => (enrollment a).id.id ≠ (enrollment b).id.id := by
    rw [← List.pairwise_map (f := fun row => (enrollment row).id.id) (R := (· ≠ ·))]
    exact (found.map _).nodup_iff.2 rendered.keyed.nodup
  constructor <;> simp only [List.pairwise_map, List.forall_mem_map, rendered.same]
  case ordered =>
    rw [← ordered]
    exact increasing_place rendered.keyed
  case keys => exact keys
  case pins =>
    refine keys.imp_of_mem fun first second apart named same => ?_
    exact apart (portable.exclusive _ _ _ _ (there first) (there second) named same)
  case valid => exact fun row member => portable.valid _ row (there member)
  case separable => exact fun row member => portable.separable _ row (there member)
  case parents =>
    intro row member user
    obtain ⟨parent, above, same⟩ := portable.parents _ row (there member) user
    refine ⟨_, List.mem_map_of_mem (found.mem_iff.2 (Table.mem_values.2 ⟨_, above⟩)), ?_⟩
    rwa [rendered.same]
  case users => exact fun row member => rendered.users _ row (there member)
  case own => exact fun row member => (rendered.history _ row (there member)).1
  case readOrder => exact fun row member => (rendered.history _ row (there member)).2.1
  case firstSeen => exact fun row member => (rendered.history _ row (there member)).2.2

def OpenParents (enrollment : Row → Enrollment) (table : Table String Row) : Prop :=
  ∀ (key : String) row, table[key]? = some row → (enrollment row).id.channel.isUser = true →
    ∀ parent, table[(enrollment row).id.parentID]? = some parent → (enrollment parent).disabledAt = 0

def AllAccepted (records : List EnrollmentExport) : Prop :=
  ∀ rec ∈ records, rec.enrollment.id.channel.isUser = true → ∀ parent ∈ records,
    parent.enrollment.id = rec.enrollment.id.device → parent.enrollment.disabledAt = 0

theorem PortableRows.accepted_iff (portable : PortableRows enrollment table)
    (rendered : Rendered enrollment table render) :
    AllAccepted ((orderBy (place enrollment) table.values).map render) ↔
      OpenParents enrollment table := by
  have listed {row : Row} : row ∈ orderBy (place enrollment) table.values ↔
      ∃ key : String, table[key]? = some row := by
    rw [(perm_orderBy _).mem_iff, Table.mem_values]
  simp only [AllAccepted, List.forall_mem_map, rendered.same, listed]
  constructor
  · intro accepted key row there user parent above
    obtain ⟨known, found, same⟩ := portable.parents key row there user
    obtain rfl : parent = known := by simpa [found] using above.symm
    exact accepted row ⟨key, there⟩ user parent ⟨_, above⟩ same
  · rintro open_ row ⟨key, there⟩ user parent ⟨above, found⟩ same
    have here : (enrollment parent).id.id = above := rendered.keyed above parent found
    rw [same, (EnrollmentID.device_of_user user).1] at here
    exact open_ key row there user parent (by rw [here, found])

end Sources

section Targets

variable {Row : Type} (make : EnrollmentExport → Row)

def Filled (table : Table String Row) (done : List EnrollmentExport) : Prop :=
  ∀ (key : String) row, table[key]? = some row ↔
    ∃ rec ∈ done, rec.enrollment.id.id = key ∧ row = make rec

variable {make} {table : Table String Row} {rec : EnrollmentExport}

theorem Filled.absent (filled : Filled make table done) (loadable : Loadable (done ++ rec :: rest)) :
    table[rec.enrollment.id.id]? = none := by
  refine Option.eq_none_iff_forall_ne_some.2 fun row there => ?_
  obtain ⟨before, member, same, -⟩ := (filled _ row).1 there
  exact (loadable.new member).1 same

theorem Filled.insert (filled : Filled make table done) (loadable : Loadable (done ++ rec :: rest)) :
    Filled make (Std.ExtTreeMap.insert table rec.enrollment.id.id (make rec)) (done ++ [rec]) := by
  intro key row
  rw [Std.ExtTreeMap.getElem?_insert]
  simp only [List.mem_append, List.mem_singleton, or_and_right, exists_or, exists_eq_left]
  by_cases same : rec.enrollment.id.id = key
  · have other : ¬ ∃ found ∈ done, found.enrollment.id.id = key ∧ row = make found := by
      rintro ⟨found, before, here, -⟩
      exact (loadable.new before).1 (here.trans same.symm)
    simp only [other, false_or]
    simp [same, eq_comm]
  · simp [same, filled key row]

theorem Filled.values_perm (key : Row → String) (own : ∀ rec, key (make rec) = rec.enrollment.id.id)
    (filled : Filled make table done) (loadable : Loadable done) :
    table.values.Perm (done.map make) := by
  have keyed : table.Keyed key := by
    intro found row there
    obtain ⟨rec, -, same, rfl⟩ := (filled found row).1 there
    exact (own rec).trans same
  refine keyed.values_perm ?_ fun row => ?_
  · simpa only [List.map_map, List.Nodup, List.pairwise_map, Function.comp_apply, own] using
      loadable.keys
  · rw [filled, List.mem_map]
    constructor
    · rintro ⟨rec, member, rfl⟩
      exact ⟨rec, member, (own rec).symm, rfl⟩
    · rintro ⟨rec, member, -, rfl⟩
      exact ⟨rec, member, rfl⟩

end Targets

theorem ordered_history {rows history : List CertAssociation} (read : history = orderBy readKey rows)
    (distinct : rows.Pairwise fun a b => a.hash ≠ b.hash) :
    (history.Pairwise fun a b => associationLe a b = true) ∧
      history.Pairwise fun a b => a.hash ≠ b.hash := by
  subst read
  constructor
  · simp only [associationLe_iff]
    exact List.pairwise_insertionSort _ _
  · exact ((perm_orderBy _).pairwise_iff fun apart => Ne.symm apart).2 distinct

def RoundTrips {Target : Type} (rows : Nat)
    (source : Page → Except StoreError (PageResult EnrollmentExport))
    (load : Target → EnrollmentExport → Except StoreError Target) (empty : Target)
    (target : Target → Page → Except StoreError (PageResult EnrollmentExport)) : Prop :=
  ∃ records, ∀ limit fuel, rows < fuel →
    exportAll source limit fuel "" = .ok records ∧
    ∃ loaded, migrate source load limit fuel "" empty = .ok loaded ∧
      ∀ limit', exportAll (target loaded) limit' fuel "" = .ok records

end AppleDM.Storage
