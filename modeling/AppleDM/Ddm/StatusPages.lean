import AppleDM.Ddm.SqlStatus
import AppleDM.Shared.Paging
import AppleDM.Storage.Types
import Mathlib.Data.Prod.Lex

set_option autoImplicit false

-- Reading the status of one declaration page by page.
namespace AppleDM.Ddm

open Mdm Checked Storage

structure EnrollmentDeclarationStatus where
  id : EnrollmentID
  status : DeclarationStatus

section Following

variable {Row : Type} (name : Row → String)

def cut (size : Nat) (rows : List Row) (cursor : String) : PageResult Row :=
  let rest := if cursor = "" then rows else rows.filter fun row => cursor < name row
  { items := rest.take size
    nextCursor := if size < rest.length then ((rest[size - 1]?).map name).getD "" else "" }

/-- Follows the cursors until there is none; `fuel` bounds the number of pages. -/
def follow (fetch : Page → Except Error (PageResult Row)) (limit : Int) :
    Nat → String → Option (List Row)
  | 0, _ => none
  | fuel + 1, cursor =>
    match fetch ⟨cursor, limit⟩ with
    | .error _ => none
    | .ok res =>
      if res.nextCursor = "" then some res.items
      else (follow fetch limit fuel res.nextCursor).map (res.items ++ ·)

-- One row for each key that a row is stored under, in any order.
def Lists {Key : Type} (stored : Key → Option Row) (rows : List Row) : Prop :=
  ∃ keys : List Key, keys.Nodup ∧ (∀ key, key ∈ keys ↔ (stored key).isSome) ∧
    rows.Perm (keys.filterMap stored)

def ReadsAll {Key : Type} (fetch : Page → Except Error (PageResult Row)) (limit : Int)
    (stored : Key → Option Row) : Prop :=
  ∃ fuel out, follow fetch limit fuel "" = some out ∧ Lists stored out

def Parted (size : Nat) (rows : List Row) : Prop :=
  ∀ n a b, rows[(n + 1) * size - 1]? = some a → rows[(n + 1) * size]? = some b →
    name a ≠ "" ∧ name a ≠ name b

variable {name} {size : Nat} {rows rest : List Row} {Key : Type} {stored : Key → Option Row}

theorem Lists.perm {out : List Row} (first : Lists stored out) (second : Lists stored rows) :
    out.Perm rows := by
  obtain ⟨keys, distinct, all, same⟩ := first
  obtain ⟨keys', distinct', all', same'⟩ := second
  have alike : keys.Perm keys' :=
    (List.perm_ext_iff_of_nodup distinct distinct').2 fun key => (all key).trans (all' key).symm
  exact (same.trans (alike.filterMap stored)).trans same'.symm

theorem parted_short (short : rows.length ≤ size) : Parted name size rows := by
  intro n a b _ there
  have inside := (List.getElem?_eq_some_iff.1 there).1
  have : (n + 1) * size = n * size + size := Nat.succ_mul n size
  omega

theorem parted_drop (positive : 0 < size) {last next : Row} (ends : rows[size - 1]? = some last)
    (follows : rows[size]? = some next) :
    Parted name size rows ↔
      (name last ≠ "" ∧ name last ≠ name next) ∧ Parted name size (rows.drop size) := by
  have shift (n : Nat) : (n + 1 + 1) * size = size + (n + 1) * size := by
    rw [Nat.succ_mul (n + 1), Nat.add_comm]
  have whole (n : Nat) : size ≤ (n + 1) * size := Nat.le_mul_of_pos_left _ (by omega)
  constructor
  · intro parted
    refine ⟨parted 0 last next (by simpa using ends) (by simpa using follows), ?_⟩
    intro n a b first second
    rw [List.getElem?_drop] at first second
    refine parted (n + 1) a b ?_ (by rwa [shift])
    rwa [shift, Nat.add_sub_assoc (by have := whole n; omega)]
  · rintro ⟨here, parted⟩ n a b first second
    cases n with
    | zero =>
      simp only [Nat.zero_add, Nat.one_mul] at first second
      obtain rfl := Option.some.inj (ends.symm.trans first)
      obtain rfl := Option.some.inj (follows.symm.trans second)
      exact here
    | succ n =>
      refine parted n a b ?_ (by rwa [List.getElem?_drop, ← shift])
      rw [List.getElem?_drop, ← Nat.add_sub_assoc (by have := whole n; omega), ← shift, first]

theorem ordered_at (sorted : rest.Pairwise fun a b => name a ≤ name b) {a b : Row} {i j : Nat}
    (here : rest[i]? = some a) (there : rest[j]? = some b) (le : i ≤ j) : name a ≤ name b := by
  obtain ⟨inside, rfl⟩ := List.getElem?_eq_some_iff.1 here
  obtain ⟨inside', rfl⟩ := List.getElem?_eq_some_iff.1 there
  obtain rfl | lt := Nat.eq_or_lt_of_le le
  · exact le_refl _
  · exact List.pairwise_iff_getElem.1 sorted i j inside inside' lt

theorem beyond_page (sorted : rest.Pairwise fun a b => name a ≤ name b) (positive : 0 < size)
    {last next : Row} (ends : rest[size - 1]? = some last) (follows : rest[size]? = some next) :
    (rest.filter fun row => name last < name row).Sublist (rest.drop size) ∧
      ((rest.filter fun row => name last < name row) = rest.drop size ↔ name last ≠ name next) := by
  have behind : (rest.filter fun row => name last < name row) =
      (rest.drop size).filter fun row => name last < name row := by
    conv_lhs => rw [← List.take_append_drop size rest, List.filter_append]
    rw [List.filter_eq_nil_iff.2, List.nil_append]
    intro row member
    obtain ⟨i, there⟩ := List.mem_iff_getElem?.1 member
    have inside := (List.getElem?_eq_some_iff.1 there).1
    rw [List.length_take] at inside
    rw [List.getElem?_take_of_lt (by omega)] at there
    rw [decide_eq_true_eq, not_lt]
    exact ordered_at sorted there ends (by omega)
  rw [behind]
  refine ⟨List.filter_sublist, List.filter_eq_self.trans ⟨fun above same => ?_, fun apart row member => ?_⟩⟩
  · have member : next ∈ rest.drop size :=
      List.mem_iff_getElem?.2 ⟨0, by rw [List.getElem?_drop, Nat.add_zero, follows]⟩
    exact absurd (of_decide_eq_true (above next member)) (by rw [same]; exact lt_irrefl _)
  · obtain ⟨i, there⟩ := List.mem_iff_getElem?.1 member
    rw [List.getElem?_drop] at there
    have below := lt_of_le_of_ne (ordered_at sorted ends follows (by omega)) apart
    exact decide_eq_true (below.trans_le (ordered_at sorted follows there (by omega)))

variable {fetch : Page → Except Error (PageResult Row)}

theorem follow_reads {limit : Int}
    (positive : 0 < size) (sorted : rows.Pairwise fun a b => name a ≤ name b)
    (pages : ∀ cursor, fetch ⟨cursor, limit⟩ = .ok (cut name size rows cursor)) (fuel : Nat)
    {cursor : String}
    (here : (if cursor = "" then rows else rows.filter fun row => cursor < name row) = rest) :
    (∀ out, follow fetch limit fuel cursor = some out →
      out.Sublist rest ∧ (out = rest ↔ Parted name size rest)) ∧
    (rest.length < fuel → (follow fetch limit fuel cursor).isSome) := by
  induction fuel generalizing cursor rest with
  | zero => exact ⟨fun out done => by simp [follow] at done, fun enough => by omega⟩
  | succ fuel ih =>
    have ordered : rest.Pairwise fun a b => name a ≤ name b := by
      rw [← here]
      split
      · exact sorted
      · exact sorted.filter _
    simp only [follow, pages, cut, here]
    by_cases more : size < rest.length
    · obtain ⟨last, ends⟩ : ∃ last, rest[size - 1]? = some last :=
        ⟨_, List.getElem?_eq_getElem (by omega)⟩
      obtain ⟨next, follows⟩ : ∃ next, rest[size]? = some next := ⟨_, List.getElem?_eq_getElem more⟩
      simp only [more, if_true, ends, Option.map_some, Option.getD_some]
      split
      · next unnamed =>
        -- a row without a name ends the reading early
        refine ⟨?_, fun _ => rfl⟩
        rintro out ⟨⟩
        refine ⟨List.take_sublist _ _, iff_of_false (fun whole => ?_) fun parted => ?_⟩
        · have := congrArg List.length whole
          rw [List.length_take] at this
          omega
        · exact ((parted_drop positive ends follows).1 parted).1.1 unnamed
      · next named =>
        obtain ⟨behind, apart⟩ := beyond_page ordered positive ends follows
        have narrowed : (if name last = "" then rows else rows.filter fun row => name last < name row) =
            rest.filter fun row => name last < name row := by
          have member := List.mem_of_getElem? ends
          rw [if_neg named, ← here]
          rw [← here] at member
          split at member
          · next first => rw [if_pos first]
          · next later =>
            have beyond : cursor < name last := of_decide_eq_true (List.mem_filter.1 member).2
            rw [if_neg later, List.filter_filter]
            refine List.filter_congr fun row _ => ?_
            by_cases above : name last < name row
            · simp only [above, beyond.trans above, decide_true, Bool.and_self]
            · simp only [above, decide_false, Bool.false_and]
        obtain ⟨reads, enough⟩ := ih narrowed
        refine ⟨fun out done => ?_, fun bound => ?_⟩
        · obtain ⟨out', found, rfl⟩ := Option.map_eq_some_iff.1 done
          obtain ⟨part, whole⟩ := reads out' found
          have split : rest.take size ++ rest.drop size = rest := List.take_append_drop size rest
          refine ⟨?_, ?_⟩
          · conv_rhs => rw [← split]
            exact (List.Sublist.refl _).append (part.trans behind)
          · rw [parted_drop positive ends follows]
            constructor
            · intro same
              have all : out' = rest.drop size := List.append_cancel_left (same.trans split.symm)
              have kept := behind.antisymm (all ▸ part)
              exact ⟨⟨named, apart.1 kept⟩, kept ▸ whole.1 (all.trans kept.symm)⟩
            · rintro ⟨⟨-, different⟩, parted⟩
              have kept := apart.2 different
              rw [whole.2 (kept.symm ▸ parted), kept, split]
        · have shorter := behind.length_le
          rw [List.length_drop] at shorter
          simpa using enough (by omega)
    · simp only [more, if_false, if_true, Option.some.injEq]
      rw [List.take_of_length_le (by omega)]
      refine ⟨?_, fun _ => rfl⟩
      rintro out rfl
      exact ⟨List.Sublist.refl _, iff_of_true rfl (parted_short (by omega))⟩

theorem readsAll_iff {limit : Int} (lists : Lists stored rows)
    (positive : 0 < size) (sorted : rows.Pairwise fun a b => name a ≤ name b)
    (pages : ∀ cursor, fetch ⟨cursor, limit⟩ = .ok (cut name size rows cursor)) :
    ReadsAll fetch limit stored ↔ Parted name size rows := by
  have reading (fuel : Nat) := follow_reads positive sorted pages fuel (if_pos rfl)
  constructor
  · rintro ⟨fuel, out, done, all⟩
    obtain ⟨part, whole⟩ := (reading fuel).1 out done
    exact whole.1 (part.eq_of_length (all.perm lists).length_eq)
  · intro parted
    obtain ⟨out, done⟩ := Option.isSome_iff_exists.1
      ((reading (rows.length + 1)).2 (Nat.lt_succ_self _))
    obtain ⟨-, whole⟩ := (reading _).1 out done
    exact ⟨_, out, done, whole.2 parted ▸ lists⟩

end Following

abbrev EnrollmentDeclarationStatus.order (row : EnrollmentDeclarationStatus) : String ×ₗ String :=
  toLex (row.id.id, row.status.kind.text)

structure Ordered (stored : String × Kind → Option EnrollmentDeclarationStatus)
    (rows : List EnrollmentDeclarationStatus) : Prop where
  lists : Lists stored rows
  sorted : rows.Pairwise fun a b => a.order ≤ b.order

theorem Ordered.named {stored : String × Kind → Option EnrollmentDeclarationStatus}
    {rows : List EnrollmentDeclarationStatus} (ordered : Ordered stored rows) :
    rows.Pairwise fun a b => a.id.id ≤ b.id.id := by
  refine ordered.sorted.imp fun le => ?_
  obtain below | ⟨same, -⟩ := Prod.Lex.le_iff.1 le
  · exact le_of_lt below
  · exact le_of_eq same

theorem orderBy_ordered {stored : String × Kind → Option EnrollmentDeclarationStatus}
    {rows : List EnrollmentDeclarationStatus} (lists : Lists stored rows) :
    Ordered stored (Rows.orderBy (·.order) rows) := by
  obtain ⟨keys, distinct, all, same⟩ := lists
  exact ⟨⟨keys, distinct, all, (List.perm_insertionSort _ _).trans same⟩,
    List.pairwise_insertionSort _ _⟩

namespace State

/-- The row of `statusDecls` for an enrollment and a kind, with the identity of the enrollment. -/
def storedStatus (st : State) (identifier : String) (key : String × Kind) :
    Option EnrollmentDeclarationStatus :=
  (st.statusDecls[key.1]?).bind fun decls => (decls[(key.2, identifier)]?).map fun row =>
    ⟨(st.ids[key.1]?).getD ⟨.unknown, "", ""⟩, row⟩

def statusOf (st : State) (identifier : String) : List EnrollmentDeclarationStatus :=
  Rows.orderBy (·.order) (st.statusDecls.toList.flatMap fun (key, decls) =>
    decls.toList.filterMap fun (k, row) =>
      if k.2 = identifier then some ⟨(st.ids[key]?).getD ⟨.unknown, "", ""⟩, row⟩ else none)

def statusKeys (st : State) (identifier : String) : List (String × Kind) :=
  st.statusDecls.toList.flatMap fun entry =>
    (entry.2.toList.filter fun row => row.1.2 = identifier).map fun row => (entry.1, row.1.1)

theorem statusKeys_nodup (st : State) (identifier : String) : (st.statusKeys identifier).Nodup := by
  refine List.nodup_flatMap.2 ⟨fun entry _ => ?_, ?_⟩
  · refine Table.nodup_map_filter entry.2 _ _ fun row row' own own' same => ?_
    simp only [decide_eq_true_eq] at own own'
    exact Prod.ext (Prod.mk.inj same).2 (own.trans own'.symm)
  · have distinct := Table.nodup_keys st.statusDecls
    rw [List.Nodup, List.pairwise_map] at distinct
    refine distinct.imp fun apart => ?_
    intro key member member'
    obtain ⟨_, -, rfl⟩ := List.mem_map.1 member
    obtain ⟨_, -, same⟩ := List.mem_map.1 member'
    exact apart (Prod.mk.inj same).1.symm

theorem mem_statusKeys {st : State} {identifier : String} {key : String × Kind} :
    key ∈ st.statusKeys identifier ↔ (st.storedStatus identifier key).isSome := by
  simp only [statusKeys, storedStatus, List.mem_flatMap, List.mem_map, List.mem_filter,
    decide_eq_true_eq, Option.isSome_iff_exists, Option.bind_eq_some_iff, Option.map_eq_some_iff]
  constructor
  · rintro ⟨entry, there, row, ⟨found, rfl⟩, rfl⟩
    rw [Std.ExtTreeMap.mem_toList_iff_getElem?_eq_some] at there found
    exact ⟨_, entry.2, there, row.2, found, rfl⟩
  · rintro ⟨_, decls, there, row, found, rfl⟩
    rw [← Std.ExtTreeMap.mem_toList_iff_getElem?_eq_some] at there found
    exact ⟨(key.1, decls), there, ((key.2, identifier), row), ⟨found, rfl⟩, rfl⟩

theorem statusOf_ordered (st : State) (identifier : String) :
    Ordered (st.storedStatus identifier) (st.statusOf identifier) := by
  refine orderBy_ordered ⟨st.statusKeys identifier, st.statusKeys_nodup identifier,
    fun _ => mem_statusKeys, .of_eq ?_⟩
  rw [statusKeys, List.filterMap_flatMap]
  refine List.flatMap_congr fun entry there => ?_
  rw [List.filterMap_map, List.filterMap_filter]
  refine List.filterMap_congr fun row found => ?_
  rw [Std.ExtTreeMap.mem_toList_iff_getElem?_eq_some] at there found
  by_cases own : row.1.2 = identifier
  · subst own
    simp [storedStatus, there, found]
  · simp [own]

def limitOf (p : Page) : Nat := if p.limit ≤ 0 then defaultPageSize else p.limit.toNat

def declarationStatusByIdentifier (st : State) (identifier : String) (p : Page) :
    Except Error (PageResult EnrollmentDeclarationStatus) := do
  validName "identifier" identifier
  pure (cut (·.id.id) (limitOf p) (st.statusOf identifier) p.cursor)

end State

namespace Sql.State

variable (st : State) (identifier : String)

def statusOf : List EnrollmentDeclarationStatus :=
  Rows.orderBy (·.order) ((st.declarations.toList.filter fun entry => entry.1.2.2 = identifier).map
    fun entry =>
      let columns := (st.identities[entry.1.1]?).getD ⟨.unknown, "", ""⟩
      ⟨⟨columns.channel, entry.1.1, columns.parentID⟩, entry.2⟩)

/-- The row of `ddm_status_declarations` for an enrollment and a kind, with the identity joined. -/
def storedStatus (key : String × Kind) : Option EnrollmentDeclarationStatus :=
  (st.declarations[(key.1, key.2, identifier)]?).map fun row =>
    let columns := (st.identities[key.1]?).getD ⟨.unknown, "", ""⟩
    ⟨⟨columns.channel, key.1, columns.parentID⟩, row⟩

theorem statusOf_ordered : Ordered (st.storedStatus identifier) (st.statusOf identifier) := by
  refine orderBy_ordered ⟨(st.declarations.toList.filter fun entry => entry.1.2.2 = identifier).map
    fun entry => (entry.1.1, entry.1.2.1), ?_, fun key => ?_, .of_eq ?_⟩
  · refine Table.nodup_map_filter st.declarations _ _ fun entry entry' own own' same => ?_
    simp only [decide_eq_true_eq] at own own'
    obtain ⟨first, second⟩ := Prod.mk.inj same
    exact Prod.ext first (Prod.ext second (own.trans own'.symm))
  · simp only [storedStatus, List.mem_map, List.mem_filter, Option.isSome_iff_exists,
      Option.map_eq_some_iff, decide_eq_true_eq]
    constructor
    · rintro ⟨entry, ⟨there, rfl⟩, rfl⟩
      rw [Std.ExtTreeMap.mem_toList_iff_getElem?_eq_some] at there
      exact ⟨_, entry.2, there, rfl⟩
    · rintro ⟨_, row, there, rfl⟩
      rw [← Std.ExtTreeMap.mem_toList_iff_getElem?_eq_some] at there
      exact ⟨((key.1, key.2, identifier), row), ⟨there, rfl⟩, rfl⟩
  · rw [List.filterMap_map, ← List.filterMap_eq_map]
    refine List.filterMap_congr fun entry member => ?_
    obtain ⟨there, own⟩ := List.mem_filter.1 member
    rw [Std.ExtTreeMap.mem_toList_iff_getElem?_eq_some] at there
    rw [decide_eq_true_eq] at own
    subst own
    simp [storedStatus, there]

def keyset (size : Nat) (rows : List EnrollmentDeclarationStatus) (cursor : String) :
    PageResult EnrollmentDeclarationStatus :=
  let found := (if cursor = "" then rows else rows.filter fun row => cursor < row.id.id).take (size + 1)
  if size < found.length then
    ⟨found.take size, (((found.take size)[size - 1]?).map (·.id.id)).getD ""⟩
  else ⟨found, ""⟩

def declarationStatusByIdentifier (p : Page) :
    Except Error (PageResult EnrollmentDeclarationStatus) := do
  validName "identifier" identifier
  pure (keyset p.size (st.statusOf identifier) p.cursor)

theorem keyset_eq_cut {size : Nat} (positive : 0 < size) (rows : List EnrollmentDeclarationStatus)
    (cursor : String) : keyset size rows cursor = cut (·.id.id) size rows cursor := by
  unfold keyset cut
  dsimp only
  generalize (if cursor = "" then rows else rows.filter fun row => cursor < row.id.id) = rest
  obtain ⟨items, more, last⟩ := Paging.probe positive rest
  split
  · next longer => rw [items, if_pos (more.1 longer), ← last, items]
  · next short =>
    rw [if_neg (mt more.2 short)]
    rw [List.length_take] at short
    rw [List.take_of_length_le (by omega), List.take_of_length_le (by omega)]

theorem declarationStatusByIdentifier_eq (p : Page) :
    st.declarationStatusByIdentifier identifier p = (do
      validName "identifier" identifier
      pure (cut (·.id.id) p.size (st.statusOf identifier) p.cursor)) := by
  rw [declarationStatusByIdentifier, keyset_eq_cut p.size_pos]

end Sql.State

variable {rows : List EnrollmentDeclarationStatus}

theorem reads_named {identifier : String} {limit : Int} {size : Nat} (positive : 0 < size)
    {stored : String × Kind → Option EnrollmentDeclarationStatus} (ordered : Ordered stored rows)
    {fetch : Page → Except Error (PageResult EnrollmentDeclarationStatus)}
    (pages : ∀ cursor, fetch ⟨cursor, limit⟩ = (do
      validName "identifier" identifier
      pure (cut (·.id.id) size rows cursor))) :
    ReadsAll fetch limit stored ↔ identifier ≠ "" ∧ Parted (·.id.id) size rows := by
  by_cases named : identifier = ""
  · refine iff_of_false ?_ fun both => both.1 named
    rintro ⟨fuel, out, done, -⟩
    cases fuel <;> simp [follow, pages, validName, reject, named, bind, Except.bind] at done
  · rw [readsAll_iff ordered.lists positive ordered.named fun cursor => ?_]
    · exact (and_iff_right named).symm
    · rw [pages, (validName_ok "identifier" identifier ()).2 named]
      rfl

theorem statusPages_iff (identifier : String) (limit : Int) :
    (∀ st : State, Ordered (st.storedStatus identifier) (st.statusOf identifier) ∧
      (ReadsAll (st.declarationStatusByIdentifier identifier) limit (st.storedStatus identifier) ↔
        identifier ≠ "" ∧
          Parted (·.id.id) (State.limitOf ⟨"", limit⟩) (st.statusOf identifier))) ∧
    ∀ st : Sql.State, Ordered (st.storedStatus identifier) (st.statusOf identifier) ∧
      (ReadsAll (st.declarationStatusByIdentifier identifier) limit (st.storedStatus identifier) ↔
        identifier ≠ "" ∧ Parted (·.id.id) (Page.size ⟨"", limit⟩) (st.statusOf identifier)) := by
  refine ⟨fun st => ⟨st.statusOf_ordered identifier, reads_named ?_ (st.statusOf_ordered identifier)
    fun cursor => rfl⟩, fun st => ⟨st.statusOf_ordered identifier, reads_named (Page.size_pos _)
      (st.statusOf_ordered identifier) fun cursor =>
        Sql.State.declarationStatusByIdentifier_eq st identifier ⟨cursor, limit⟩⟩⟩
  unfold State.limitOf
  split
  · decide
  · omega

def sampleDevice : EnrollmentID := ⟨.device, "A", ""⟩

def twoKinds : StatusUpdate :=
  { receivedAt := 1
    declarations := [⟨.configuration, "x", "t", true, "valid", [], 0, 0⟩,
      ⟨.asset, "x", "t", true, "valid", [], 0, 0⟩] }

theorem not_parted {key : String}
    (repeated : rows.map (·.id.id) = [key, key]) : ¬ Parted (·.id.id) 1 rows := by
  intro parted
  obtain ⟨a, rest, rfl, same, next⟩ := List.map_eq_cons_iff.1 repeated
  obtain ⟨b, rest, rfl, same', -⟩ := List.map_eq_cons_iff.1 next
  exact (parted 0 a b rfl rfl).2 (same.trans same'.symm)

theorem statusPages_skip :
    let st := settle {} ((·.1) <$> State.putStatus {} sampleDevice twoKinds)
    let sql := settle {} ((·.1) <$> Sql.State.putStatus {} sampleDevice twoKinds)
    ¬ ReadsAll (st.declarationStatusByIdentifier "x") 1 (st.storedStatus "x") ∧
      ¬ ReadsAll (sql.declarationStatusByIdentifier "x") 1 (sql.storedStatus "x") := by
  intro st sql
  have rows : (st.statusOf "x").map (·.id.id) = ["A", "A"] := by decide +kernel
  have rows' : (sql.statusOf "x").map (·.id.id) = ["A", "A"] := by decide +kernel
  refine ⟨fun reads => not_parted rows ?_, fun reads => not_parted rows' ?_⟩
  · exact ((reads_named (by decide) (st.statusOf_ordered "x") fun cursor => rfl).1 reads).2
  · exact ((reads_named (by decide) (sql.statusOf_ordered "x") fun cursor =>
      Sql.State.declarationStatusByIdentifier_eq sql "x" ⟨cursor, 1⟩).1 reads).2

end AppleDM.Ddm
