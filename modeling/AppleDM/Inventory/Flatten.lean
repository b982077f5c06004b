import AppleDM.Shared.Table

set_option autoImplicit false

namespace AppleDM.Inventory

abbrev Text := List Char

/-- A JSON value and its source text. The members of an object stand in the order in which a run
of `Flatten` meets them in the decoded map. -/
inductive Doc where
  | leaf (raw : Text)
  | object (raw : Text) (members : List (Text × Doc))

def replaceAll (text : Text) (old : Char) (new : Text) : Text :=
  text.flatMap fun c => if c = old then new else [c]

def escaped (k : Text) : Text := replaceAll (replaceAll k '\\' ['\\', '\\']) '.' ['\\', '.']

def joined (path k : Text) : Text := if path = [] then escaped k else path ++ '.' :: escaped k

def put (out : Table Text Text) (path value : Text) : Table Text Text :=
  if path ≠ [] then out.insert path value else out

mutual

def visit (out : Table Text Text) (path : Text) : Doc → Table Text Text
  | .leaf raw => put out path raw
  | .object raw members => visitAll (put out path raw) path members

def visitAll (out : Table Text Text) (path : Text) : List (Text × Doc) → Table Text Text
  | [] => out
  | (k, v) :: rest => visitAll (visit out (joined path k) v) path rest

end

def flatten (d : Doc) : Table Text Text := visit ∅ [] d

def pathOf (chain : List Text) : Text := chain.foldl joined []

mutual

def chains : Doc → List (List Text × Text)
  | .leaf raw => [([], raw)]
  | .object raw members => ([], raw) :: chainsAll members

def chainsAll : List (Text × Doc) → List (List Text × Text)
  | [] => []
  | (k, v) :: rest => (chains v).map (fun c => (k :: c.1, c.2)) ++ chainsAll rest

end

def Doc.Unique (d : Doc) : Prop := ((chains d).map (·.1)).Nodup

def Doc.Named : Doc → Prop
  | .leaf _ => True
  | .object _ members => ∀ m ∈ members, m.1 ≠ []

structure Identifies (d : Doc) : Prop where
  distinct : ∀ c t c' t', (c, t) ∈ chains d → (c', t') ∈ chains d → pathOf c = pathOf c' → c = c'
  entries : ∀ path t, (flatten d)[path]? = some t ↔
    ∃ c, c ≠ [] ∧ (c, t) ∈ chains d ∧ pathOf c = path
  order : ∀ d' : Doc, (chains d').Perm (chains d) → flatten d' = flatten d

mutual

theorem visit_chains (out : Table Text Text) (path : Text) : ∀ d, visit out path d =
    (chains d).foldl (fun out c => put out (c.1.foldl joined path) c.2) out
  | .leaf raw => by simp [visit, chains]
  | .object raw members => by
    rw [visit, visitAll_chains]
    rfl

theorem visitAll_chains (out : Table Text Text) (path : Text) : ∀ members,
    visitAll out path members = (chainsAll members).foldl
      (fun out c => put out (c.1.foldl joined path) c.2) out
  | [] => rfl
  | (k, v) :: rest => by
    rw [visitAll, visitAll_chains, visit_chains]
    simp [chainsAll, List.foldl_map]

end

variable {c : List Text}

theorem mem_chainsAll {members : List (Text × Doc)} {t : Text} : (c, t) ∈ chainsAll members ↔
      ∃ k v rest, (k, v) ∈ members ∧ c = k :: rest ∧ (rest, t) ∈ chains v := by
  induction members with
  | nil => simp [chainsAll]
  | cons m members ih =>
    simp only [chainsAll, List.mem_append, List.mem_map, Prod.mk.injEq, Prod.exists, ih,
      List.mem_cons, or_and_right, exists_or]
    refine or_congr_left ⟨?_, ?_⟩
    · rintro ⟨rest, _, here, rfl, rfl⟩
      exact ⟨m.1, m.2, rest, rfl, rfl, here⟩
    · rintro ⟨_, _, rest, rfl, rfl, here⟩
      exact ⟨rest, t, here, rfl, rfl⟩

theorem chains_named {d : Doc} (named : d.Named) : ∀ c ∈ chains d, c.1.head? ≠ some [] := by
  rintro ⟨c, t⟩ member
  cases d with
  | leaf raw => simp_all [chains]
  | object raw members =>
    rcases List.mem_cons.1 member with same | inner
    · simp_all
    · obtain ⟨k, v, rest, listed, rfl, -⟩ := mem_chainsAll.1 inner
      simpa using named _ listed

def escape (c : Char) : Text := if c = '\\' ∨ c = '.' then ['\\', c] else [c]

theorem escaped_eq (k : Text) : escaped k = k.flatMap escape := by
  simp only [escaped, replaceAll, List.flatMap_assoc]
  congr 1
  funext c
  by_cases slash : c = '\\'
  · subst slash
    rfl
  · by_cases dot : c = '.' <;> simp [slash, dot, escape]

def dotted (chain : List Text) : Text := chain.flatMap fun k => '.' :: escaped k

-- No character of a name is written so that it could be taken for the dot before the next name.
theorem dotted_ends (chain : List Text) (c : Char) (more : Text) :
    dotted chain ≠ escape c ++ more := by
  unfold escape
  cases chain <;> split <;> simp_all [dotted, eq_comm]

variable {c' : List Text}

theorem escaped_dotted {a b : Text}
    (same : escaped a ++ dotted c = escaped b ++ dotted c') : a = b ∧ dotted c = dotted c' := by
  simp only [escaped_eq] at same
  induction a generalizing b with
  | nil =>
    cases b with
    | nil => exact ⟨rfl, same⟩
    | cons x b => exact absurd same (by simpa using dotted_ends c x _)
  | cons x a ih =>
    cases b with
    | nil => exact absurd same.symm (by simpa using dotted_ends c' x _)
    | cons y b =>
      simp only [List.flatMap_cons, List.append_assoc] at same
      have heads : x = y ∧ a.flatMap escape ++ dotted c = b.flatMap escape ++ dotted c' := by
        generalize a.flatMap escape ++ dotted c = left at same
        generalize b.flatMap escape ++ dotted c' = right at same
        unfold escape at same
        split at same <;> split at same <;> grind
      obtain ⟨rfl, tail⟩ := heads
      exact (ih tail).imp_left (congrArg _)

theorem dotted_injective (same : dotted c = dotted c') : c = c' := by
  induction c generalizing c' with
  | nil =>
    cases c' with
    | nil => rfl
    | cons k c' => simp [dotted] at same
  | cons k c ih =>
    cases c' with
    | nil => simp [dotted] at same
    | cons k' c' =>
      obtain ⟨rfl, rest⟩ := escaped_dotted (by simpa [dotted] using same)
      rw [ih rest]

theorem foldl_joined {path : Text} (started : path ≠ []) (chain : List Text) :
    chain.foldl joined path = path ++ dotted chain := by
  induction chain generalizing path with
  | nil => simp [dotted]
  | cons k rest ih =>
    rw [List.foldl_cons, joined, if_neg started, ih (by simp)]
    simp [dotted]

theorem dotted_pathOf (rooted : c.head? ≠ some []) (named : c ≠ []) :
    dotted c = '.' :: pathOf c ∧ pathOf c ≠ [] := by
  cases c with
  | nil => exact absurd rfl named
  | cons k chain =>
    have started : escaped k ≠ [] := by
      cases k with
      | nil => exact absurd rfl rooted
      | cons x rest =>
        rw [escaped_eq, List.flatMap_cons, escape]
        split <;> simp
    have path : pathOf (k :: chain) = escaped k ++ dotted chain := foldl_joined started chain
    simp [path, started, dotted]

theorem pathOf_injective (rooted : c.head? ≠ some [])
    (rooted' : c'.head? ≠ some []) (same : pathOf c = pathOf c') : c = c' := by
  by_cases empty : c = [] <;> by_cases empty' : c' = []
  · rw [empty, empty']
  · exact absurd (by rw [← same, empty]; rfl) (dotted_pathOf rooted' empty').2
  · exact absurd (by rw [same, empty']; rfl) (dotted_pathOf rooted empty).2
  · apply dotted_injective
    rw [(dotted_pathOf rooted empty).1, (dotted_pathOf rooted' empty').1, same]

theorem flatten_getElem? {d : Doc} (unique : d.Unique)
    (rooted : ∀ c ∈ chains d, c.1.head? ≠ some []) (path t : Text) :
    (flatten d)[path]? = some t ↔ ∃ c, c ≠ [] ∧ (c, t) ∈ chains d ∧ pathOf c = path := by
  let entries := ((chains d).map fun c => (pathOf c.1, c.2)).filter fun e => e.1 ≠ []
  have built : flatten d = (∅ : Table Text Text).insertMany entries := by
    rw [← Table.foldl_insert, List.foldl_filter, List.foldl_map, flatten, visit_chains]
    congr 1
    funext out c
    by_cases empty : pathOf c.1 = [] <;> simp_all [put, pathOf]
  have distinct : entries.Pairwise fun a b => ¬ compare a.1 b.1 = .eq := by
    refine List.Pairwise.filter _ (List.pairwise_map.2 ?_)
    refine (List.pairwise_map.1 unique).imp_of_mem fun first second apart same => ?_
    exact apart (pathOf_injective (rooted _ first) (rooted _ second) (by simpa using same))
  have listed : (path, t) ∈ entries ↔ ∃ c, c ≠ [] ∧ (c, t) ∈ chains d ∧ pathOf c = path := by
    simp only [entries, List.mem_filter, List.mem_map, Prod.mk.injEq, Prod.exists, decide_eq_true_eq]
    constructor
    · rintro ⟨⟨c, _, member, rfl, rfl⟩, named⟩
      exact ⟨c, fun empty => named (by rw [empty]; rfl), member, rfl⟩
    · rintro ⟨c, named, member, rfl⟩
      exact ⟨⟨c, t, member, rfl, rfl⟩, (dotted_pathOf (rooted _ member) named).2⟩
  rw [built, ← listed]
  refine ⟨fun there => ?_, Std.ExtTreeMap.getElem?_insertMany_list_of_mem Std.compare_self distinct⟩
  by_cases known : path ∈ entries.map (·.1)
  · obtain ⟨⟨_, t'⟩, member, rfl⟩ := List.mem_map.1 known
    rw [Std.ExtTreeMap.getElem?_insertMany_list_of_mem Std.compare_self distinct member] at there
    exact Option.some.inj there ▸ member
  · rw [Std.ExtTreeMap.getElem?_insertMany_list_of_contains_eq_false (by simpa using known)] at there
    simp at there

theorem flatten_identifies_iff (d : Doc) (unique : d.Unique) : Identifies d ↔ d.Named := by
  constructor
  · intro identifies
    cases d with
    | leaf raw => trivial
    | object raw members =>
      rintro ⟨k, v⟩ member rfl
      -- Its path is the empty one of the root.
      obtain ⟨t, root⟩ : ∃ t, ([], t) ∈ chains v := by cases v <;> simp [chains]
      have same := identifies.distinct [] raw [[]] t List.mem_cons_self
        (List.mem_cons_of_mem _ (mem_chainsAll.2 ⟨[], v, [], member, rfl, root⟩)) rfl
      cases same
  · intro named
    have rooted := chains_named named
    refine ⟨fun c t c' t' member member' => pathOf_injective (rooted _ member) (rooted _ member'),
      flatten_getElem? unique rooted, fun d' same => Std.ExtTreeMap.ext_getElem? fun path => ?_⟩
    refine Option.ext fun t => ?_
    rw [flatten_getElem? unique rooted, flatten_getElem? ((same.map _).nodup_iff.2 unique)
      fun c member => rooted c (same.mem_iff.1 member)]
    simp only [same.mem_iff]

theorem flatten_identifies_dotted :
    Identifies (.object ['o']
      [(['.'], .object ['x'] [([], .leaf ['1'])]), (['\\', '.'], .leaf ['2'])]) := by
  refine (flatten_identifies_iff _ ?_).2 ?_
  · simp [Doc.Unique, chains, chainsAll]
  · simp [Doc.Named]

theorem flatten_ambiguous :
    let inner : Text × Doc := ([], .object ['x'] [(['a'], .leaf ['1'])])
    let outer : Text × Doc := (['a'], .leaf ['2'])
    (flatten (.object ['o'] [inner, outer])).toList = [(['a'], ['2'])] ∧
      (flatten (.object ['o'] [outer, inner])).toList = [(['a'], ['1'])] := by
  decide +kernel

end AppleDM.Inventory
