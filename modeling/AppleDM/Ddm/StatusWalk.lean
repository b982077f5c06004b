import AppleDM.Shared.Path
import AppleDM.Ddm.Store

set_option autoImplicit false

namespace AppleDM.Ddm

open Mdm Checked

/-- A decoded JSON value. The members of an object stand in the order in which they are walked. -/
inductive Item (Leaf : Type) where
  | leaf (v : Leaf)
  | object (members : List (String × Item Leaf))

structure ReportedDeclaration (Leaf : Type) where
  identifier : String
  serverToken : String
  active : Bool
  valid : String
  reasons : List (Item Leaf) := []

structure ManagementDeclarations (Leaf : Type) where
  activations : List (ReportedDeclaration Leaf) := []
  configurations : List (ReportedDeclaration Leaf) := []
  assets : List (ReportedDeclaration Leaf) := []
  management : List (ReportedDeclaration Leaf) := []

structure StatusReport (Leaf : Type) where
  statusItems : List (String × Item Leaf) := []
  errors : List (String × List (Item Leaf)) := []
  fullReport : Option Bool := none

section Chains

variable {Leaf : Type}

mutual

def chains : Item Leaf → List (List String × Item Leaf)
  | .leaf v => [([], .leaf v)]
  | .object members => ([], .object members) :: chainsAll members

def chainsAll : List (String × Item Leaf) → List (List String × Item Leaf)
  | [] => []
  | (name, v) :: rest => (chains v).map (fun c => (name :: c.1, c.2)) ++ chainsAll rest

end

variable (report : StatusReport Leaf)

def StatusReport.nodes : List (List String × Item Leaf) := chainsAll report.statusItems

def StatusReport.Unique : Prop := (report.nodes.map (·.1)).Nodup

instance : Decidable report.Unique := inferInstanceAs (Decidable (List.Nodup _))

def StatusReport.PlainNames : Prop :=
  ∀ node ∈ report.nodes, ∀ name ∈ node.1, name ≠ "" ∧ '.' ∉ name.toList

end Chains

inductive StatusFailure where
  | malformed (detail : String)
  | tooLarge

/-- The JSON packages, the limits of the engine and the table of registered status items. Objects
are decoded into maps, so no object has two members of one name. -/
structure StatusLibrary (Leaf : Type) where
  checkStructure : Bytes → Except StatusFailure Unit
  report : Bytes → Except String (StatusReport Leaf)
  unique : ∀ body found, report body = .ok found → found.Unique
  marshal : Item Leaf → Except String Bytes
  marshalAll : List (Item Leaf) → Except String Bytes
  declarations : Bytes → Except String (ManagementDeclarations Leaf)
  isStatusItem : String → Bool

def statusItemDeclarations : String := "management.declarations"

structure StatusWalker where
  values : List StatusValue := []
  decls : Table String DeclarationStatus := ∅
  order : List String := []
  hasDeclarations : Bool := false

def declarationKey (kind : Kind) (identifier : String) : String := kind.text ++ "/" ++ identifier

variable {Leaf : Type}

def ManagementDeclarations.groups (typed : ManagementDeclarations Leaf) :
    List (Kind × ReportedDeclaration Leaf) :=
  typed.activations.map (.activation, ·) ++ typed.configurations.map (.configuration, ·) ++
    typed.assets.map (.asset, ·) ++ typed.management.map (.management, ·)

def malformedAs {A : Type} (what : String) : Except String A → Except StatusFailure A
  | .ok value => .ok value
  | .error detail => .error (.malformed (what ++ detail))

@[simp] theorem malformedAs_ok {A : Type} (what : String) (outcome : Except String A) (value : A) :
    malformedAs what outcome = .ok value ↔ outcome = .ok value := by
  cases outcome <;> simp [malformedAs]

def ReportedDeclaration.reasonBytes (lib : StatusLibrary Leaf) (row : ReportedDeclaration Leaf) :
    Except StatusFailure Bytes :=
  if row.reasons.isEmpty then .ok [] else malformedAs "reasons: " (lib.marshalAll row.reasons)

section Walk

variable (lib : StatusLibrary Leaf) (now : Time) (snapshot : Table String String)

namespace StatusWalker

def value (path : String) (v : Item Leaf) (w : StatusWalker) : Except StatusFailure StatusWalker :=
  if path = "" then .ok w
  else do
    let b ← malformedAs (path ++ ": ") (lib.marshal v)
    pure { w with values := w.values ++ [⟨path, b, now, now⟩] }

def declaration (w : StatusWalker) (group : Kind × ReportedDeclaration Leaf) :
    Except StatusFailure StatusWalker := do
  let row := group.2
  reject (row.identifier = "") (.malformed (group.1.text ++ " entry without identifier"))
  let reasons ← row.reasonBytes lib
  let key := declarationKey group.1 row.identifier
  let ds : DeclarationStatus :=
    ⟨group.1, row.identifier, row.serverToken, row.active, row.valid, reasons, now, now⟩
  match w.decls[key]? with
  | none => pure { w with order := w.order ++ [key], decls := w.decls.insert key ds }
  | some prev =>
    if (snapshot[key]?).any fun want => prev.serverToken = want ∧ row.serverToken ≠ want then pure w
    else pure { w with decls := w.decls.insert key ds }

def item (path : String) (v : Item Leaf) (w : StatusWalker) : Except StatusFailure StatusWalker := do
  let w ← w.value lib now path v
  if path ≠ statusItemDeclarations then pure w
  else
    let raw ← malformedAs (path ++ ": ") (lib.marshal v)
    let typed ← malformedAs (path ++ ": ") (lib.declarations raw)
    typed.groups.foldlM (declaration lib now snapshot)
      { w with hasDeclarations := true, decls := ∅ }

/-- A key that the map has lost gives the zero row, `none`. -/
def declarations (w : StatusWalker) : List (Option DeclarationStatus) :=
  w.order.map fun key => w.decls[key]?

end StatusWalker

def childPath (path name : String) : String := if path = "" then name else path ++ "." ++ name

mutual

def walk (path : String) : Item Leaf → StatusWalker → Except StatusFailure StatusWalker
  | .leaf v, w =>
    if path ≠ "" ∧ lib.isStatusItem path then w.item lib now snapshot path (.leaf v)
    else w.value lib now path (.leaf v)
  | .object members, w =>
    if path ≠ "" ∧ lib.isStatusItem path then w.item lib now snapshot path (.object members)
    else if path ≠ "" ∧ members.isEmpty then w.value lib now path (.object members)
    else walkAll path members w

def walkAll (path : String) :
    List (String × Item Leaf) → StatusWalker → Except StatusFailure StatusWalker
  | [], w => .ok w
  | (name, v) :: rest, w => do
    let w ← walk (childPath path name) v w
    walkAll path rest w

end

end Walk

structure ParsedStatus where
  raw : Bytes
  receivedAt : Time
  keepReports : Int
  fullReport : Bool
  values : List StatusValue
  declarations : List (Option DeclarationStatus)
  hasDeclarations : Bool
  errors : List StatusError

def State.snapshotTokens (st : State) (id : EnrollmentID) : Table String String :=
  match st.snapshot id with
  | .error _ => ∅
  | .ok snap => snap.items.foldl
      (fun tokens it => tokens.insert (declarationKey it.kind it.identifier) it.serverToken) ∅

def parseStatus (lib : StatusLibrary Leaf) (keep : Int) (st : State) (id : EnrollmentID) (now : Time)
    (body : Bytes) : Except StatusFailure ParsedStatus := do
  lib.checkStructure body
  let report ← malformedAs "" (lib.report body)
  let w ← walkAll lib now (st.snapshotTokens id) "" report.statusItems {}
  let errors ← report.errors.mapM fun se => do
    let reasons ← malformedAs "" (lib.marshalAll se.2)
    pure { statusItem := se.1, reasons := reasons, receivedAt := now }
  pure ⟨body, now, keep, report.fullReport.getD false, w.values, w.declarations,
    w.hasDeclarations, errors⟩

def pathOf (chain : List String) : String := chain.foldl childPath ""

section Stops

variable (lib : StatusLibrary Leaf)

def registered (path : String) : Bool := path ≠ "" && lib.isStatusItem path

def ends (path : String) : Item Leaf → Bool
  | .leaf _ => true
  | .object members => path ≠ "" && (lib.isStatusItem path || members.isEmpty)

-- No registered item stands above the end of the chain.
def reached (path : String) : List String → Bool
  | [] => true
  | name :: rest => !registered lib path && reached (childPath path name) rest

def stopsAt (path : String) (node : List String × Item Leaf) : Bool :=
  reached lib path node.1 && ends lib (node.1.foldl childPath path) node.2

def StatusReport.Distinct (report : StatusReport Leaf) : Prop :=
  ∀ node ∈ report.nodes, ∀ node' ∈ report.nodes, stopsAt lib "" node → stopsAt lib "" node' →
    pathOf node.1 ≠ "" → pathOf node.1 = pathOf node'.1 → node.1 = node'.1

def Names (nodes : List (List String × Item Leaf)) (kind : Kind) (identifier : String) : Prop :=
  ∃ node ∈ nodes, pathOf node.1 = statusItemDeclarations ∧ ∃ raw typed row,
    lib.marshal node.2 = .ok raw ∧ lib.declarations raw = .ok typed ∧ (kind, row) ∈ typed.groups ∧
      row.identifier = identifier

structure WellKeyed (report : StatusReport Leaf) (u : ParsedStatus) : Prop where
  values : (u.values.map (·.path)).Nodup
  declarations : ∃ rows : List DeclarationStatus, u.declarations = rows.map some ∧
    (rows.map fun d => (d.kind, d.identifier)).Nodup ∧
    ∀ d ∈ rows, d.identifier ≠ "" ∧ Names lib report.nodes d.kind d.identifier

end Stops

variable {lib : StatusLibrary Leaf} {now : Time} {snapshot : Table String String}
  {w w' : StatusWalker}

def visit (lib : StatusLibrary Leaf) (now : Time) (snapshot : Table String String) (path : String)
    (w : StatusWalker) (node : List String × Item Leaf) : Except StatusFailure StatusWalker :=
  let place := node.1.foldl childPath path
  if place ≠ "" ∧ lib.isStatusItem place then w.item lib now snapshot place node.2
  else w.value lib now place node.2

theorem chainsAll_named {members : List (String × Item Leaf)} {node : List String × Item Leaf}
    (member : node ∈ chainsAll members) : ∃ name rest, node.1 = name :: rest := by
  induction members with
  | nil => cases member
  | cons entry others ih =>
    rw [chainsAll, List.mem_append] at member
    rcases member with first | later
    · obtain ⟨inner, -, rfl⟩ := List.mem_map.1 first
      exact ⟨entry.1, inner.1, rfl⟩
    · exact ih later

mutual

theorem walk_chains (path : String) (v : Item Leaf) (w : StatusWalker) :
    walk lib now snapshot path v w =
      ((chains v).filter (stopsAt lib path)).foldlM (visit lib now snapshot path) w := by
  have here : visit lib now snapshot path w ([], v) =
      if path ≠ "" ∧ lib.isStatusItem path then w.item lib now snapshot path v
      else w.value lib now path v := rfl
  cases v with
  | leaf v => rw [walk, ← here]; simp [chains, stopsAt, reached, ends]
  | object members =>
    have own : stopsAt lib path ([], .object members) =
        (path ≠ "" && (lib.isStatusItem path || members.isEmpty)) := rfl
    rw [walk, chains, List.filter_cons, own]
    by_cases item : path ≠ "" ∧ lib.isStatusItem path
    · -- Nothing below a registered item is reached.
      have below : (chainsAll members).filter (stopsAt lib path) = [] := by
        refine List.filter_eq_nil_iff.2 fun node member => ?_
        obtain ⟨name, rest, same⟩ := chainsAll_named member
        simp [stopsAt, same, reached, registered, item]
      rw [if_pos item, ← (here.trans (if_pos item) :)]
      simp [item, below]
    · rw [if_neg item]
      by_cases empty : path ≠ "" ∧ members.isEmpty
      · rw [if_pos empty, ← (here.trans (if_neg item) :), List.isEmpty_iff.1 empty.2]
        simp [empty.1, chainsAll]
      · have open_ : ¬ (path ≠ "" && (lib.isStatusItem path || members.isEmpty)) = true := by
          simp only [Bool.and_eq_true, Bool.or_eq_true, decide_eq_true_eq]
          tauto
        rw [if_neg empty, if_neg open_, walkAll_chains path members w ?_]
        simpa [registered] using item

theorem walkAll_chains (path : String) (members : List (String × Item Leaf)) (w : StatusWalker)
    (passed : registered lib path = false) : walkAll lib now snapshot path members w =
      ((chainsAll members).filter (stopsAt lib path)).foldlM (visit lib now snapshot path) w := by
  cases members with
  | nil => rfl
  | cons member rest =>
    obtain ⟨name, v⟩ := member
    have inside : (stopsAt lib path ∘ fun node => (name :: node.1, node.2)) =
        stopsAt lib (childPath path name) := by
      funext node
      simp [stopsAt, reached, passed]
    rw [walkAll, chainsAll, List.filter_append, List.foldlM_append, List.filter_map, inside,
      List.foldlM_map, walk_chains (childPath path name) v w]
    congr 1
    funext w
    exact walkAll_chains path rest w passed

end

structure Listed (Held : Kind → String → Prop) (w : StatusWalker) : Prop where
  distinct : w.order.Nodup
  keys : ∀ key, key ∈ w.order ↔ key ∈ w.decls
  rows : ∀ key d, w.decls[key]? = some d → key = declarationKey d.kind d.identifier ∧
    d.identifier ≠ "" ∧ Held d.kind d.identifier

variable {Held : Kind → String → Prop}

theorem Listed.mono {Held' : Kind → String → Prop} (listed : Listed Held w)
    (weaker : ∀ kind identifier, Held kind identifier → Held' kind identifier) :
    Listed Held' w :=
  { listed with rows := fun key d there => (listed.rows key d there).imp_right (.imp_right (weaker _ _)) }

theorem declaration_ok {kind : Kind} {row : ReportedDeclaration Leaf}
    (accepted : w.declaration lib now snapshot (kind, row) = .ok w') :
    row.identifier ≠ "" ∧ w'.values = w.values ∧ (w' = w ∨ ∃ ds : DeclarationStatus,
      ds.kind = kind ∧ ds.identifier = row.identifier ∧
      w'.decls = w.decls.insert (declarationKey kind row.identifier) ds ∧
      (declarationKey kind row.identifier ∈ w.decls ∧ w'.order = w.order ∨
        declarationKey kind row.identifier ∉ w.decls ∧
          w'.order = w.order ++ [declarationKey kind row.identifier])) := by
  simp only [StatusWalker.declaration, bind_ok, reject_ok] at accepted
  obtain ⟨_, named, reasons, -, accepted⟩ := accepted
  refine ⟨named, ?_⟩
  split at accepted
  · next absent =>
    obtain rfl := Except.ok.inj accepted
    have new : declarationKey kind row.identifier ∉ w.decls := by
      simp [Std.ExtTreeMap.mem_iff_isSome_getElem?, absent]
    exact ⟨rfl, .inr ⟨_, rfl, rfl, rfl, .inr ⟨new, rfl⟩⟩⟩
  · next prev there =>
    have old : declarationKey kind row.identifier ∈ w.decls :=
      Std.ExtTreeMap.mem_iff_isSome_getElem?.2 (by rw [there]; rfl)
    split at accepted <;> obtain rfl := Except.ok.inj accepted
    · exact ⟨rfl, .inl rfl⟩
    · exact ⟨rfl, .inr ⟨_, rfl, rfl, rfl, .inl ⟨old, rfl⟩⟩⟩

theorem declaration_listed {kind : Kind}
    {row : ReportedDeclaration Leaf} (listed : Listed Held w)
    (reported : Held kind row.identifier)
    (accepted : w.declaration lib now snapshot (kind, row) = .ok w') : Listed Held w' := by
  obtain ⟨named, -, rfl | ⟨ds, rfl, same, decls, order⟩⟩ := declaration_ok accepted
  · exact listed
  constructor
  · rcases order with ⟨-, order⟩ | ⟨new, order⟩ <;> rw [order]
    · exact listed.distinct
    · exact listed.distinct.append (List.nodup_singleton _)
        (List.disjoint_singleton.2 fun member => new ((listed.keys _).1 member))
  · intro key
    rw [decls, Std.ExtTreeMap.mem_insert, Std.compare_eq_iff_eq, ← listed.keys]
    rcases order with ⟨old, order⟩ | ⟨-, order⟩ <;> rw [order]
    · exact ⟨.inr, fun member => member.elim (fun own => own ▸ (listed.keys _).2 old) id⟩
    · rw [List.mem_append, List.mem_singleton, or_comm, eq_comm]
  · intro key d there
    simp only [decls, Std.ExtTreeMap.getElem?_insert, Std.compare_eq_iff_eq] at there
    split at there
    · next own =>
      obtain rfl := Option.some.inj there
      rw [same]
      exact ⟨own.symm, named, reported⟩
    · exact listed.rows key d there

theorem declarations_ok {groups : List (Kind × ReportedDeclaration Leaf)}
    (accepted : groups.foldlM (StatusWalker.declaration lib now snapshot) w = .ok w') :
    w'.values = w.values ∧ (w.order = [] → w.decls = ∅ → Listed (fun kind identifier =>
      ∃ row, (kind, row) ∈ groups ∧ row.identifier = identifier) w') := by
  refine foldlM_loaded (fun (w' : StatusWalker) _ => w'.values = w.values ∧ (w.order = [] →
    w.decls = ∅ → Listed (fun kind identifier =>
      ∃ row, (kind, row) ∈ groups ∧ row.identifier = identifier) w')) w ?_ ?_ accepted
  · rintro mid done ⟨kind, row⟩ rest next split ⟨values, listed⟩ accepted
    refine ⟨(declaration_ok accepted).2.1.trans values, fun order decls => ?_⟩
    exact declaration_listed (listed order decls) ⟨row, by simp [split], rfl⟩ accepted
  · exact ⟨rfl, fun order decls => ⟨by simp [order], by simp [order, decls], by simp [decls]⟩⟩

theorem value_ok {path : String} {v : Item Leaf} (accepted : w.value lib now path v = .ok w') :
    w'.values.map (·.path) = w.values.map (·.path) ++ [path].filter (· ≠ "") ∧
      w'.decls = w.decls ∧ w'.order = w.order := by
  unfold StatusWalker.value at accepted
  split at accepted
  · next top =>
    obtain rfl := Except.ok.inj accepted
    simp [top]
  · next named =>
    simp only [bind_ok, pure_ok] at accepted
    obtain ⟨b, -, rfl⟩ := accepted
    simp [named]

structure Walked (lib : StatusLibrary Leaf) (w : StatusWalker)
    (done : List (List String × Item Leaf)) : Prop where
  values : w.values.map (·.path) = (done.map (pathOf ·.1)).filter (· ≠ "")
  fresh : statusItemDeclarations ∉ done.map (pathOf ·.1) → w.order = []
  once : (done.map (pathOf ·.1)).count statusItemDeclarations ≤ 1 → Listed (Names lib done) w

theorem Names.mono {nodes nodes' : List (List String × Item Leaf)} {kind : Kind}
    {identifier : String} (names : Names lib nodes kind identifier) (among : nodes ⊆ nodes') :
    Names lib nodes' kind identifier := by
  obtain ⟨node, member, rest⟩ := names
  exact ⟨node, among member, rest⟩

theorem visit_walked {done : List (List String × Item Leaf)} {node : List String × Item Leaf}
    (walked : Walked lib w done) (accepted : visit lib now snapshot "" w node = .ok w') :
    Walked lib w' (done ++ [node]) := by
  have stored {mid : StatusWalker} (accepted : w.value lib now (pathOf node.1) node.2 = .ok mid) :
      mid.values.map (·.path) = ((done ++ [node]).map (pathOf ·.1)).filter (· ≠ "") := by
    rw [(value_ok accepted).1, walked.values, List.map_append, List.filter_append]
    rfl
  have plain (accepted : w.value lib now (pathOf node.1) node.2 = .ok w') :
      Walked lib w' (done ++ [node]) := by
    obtain ⟨-, decls, order⟩ := value_ok accepted
    refine ⟨stored accepted, fun absent => ?_, fun few => ?_⟩
    · rw [order]
      exact walked.fresh fun there => absent (by simp_all)
    · rw [List.map_append, List.count_append] at few
      have listed : Listed (Names lib (done ++ [node])) w :=
        (walked.once (by omega)).mono fun _ _ names => names.mono (List.subset_append_left _ _)
      exact ⟨order ▸ listed.distinct, order ▸ decls ▸ listed.keys, decls ▸ listed.rows⟩
  unfold visit at accepted
  dsimp only at accepted
  split at accepted
  · simp only [StatusWalker.item, bind_ok] at accepted
    obtain ⟨mid, valued, accepted⟩ := accepted
    split at accepted
    · obtain rfl : mid = w' := Except.ok.inj accepted
      exact plain valued
    · next declared =>
      have item : pathOf node.1 = statusItemDeclarations := not_not.1 declared
      simp only [bind_ok, malformedAs_ok] at accepted
      obtain ⟨raw, marshalled, typed, decoded, accepted⟩ := accepted
      obtain ⟨values, listed⟩ := declarations_ok accepted
      refine ⟨values ▸ (stored valued :), fun absent => absurd (by simp [item]) absent,
        fun few => ?_⟩
      -- The item was not reached before, so nothing is left from an earlier one.
      rw [List.map_append, List.count_append] at few
      have first : statusItemDeclarations ∉ done.map (pathOf ·.1) := by
        rw [← List.count_eq_zero]
        simp [item] at few
        omega
      refine (listed ((value_ok valued).2.2.trans (walked.fresh first)) rfl).mono ?_
      rintro kind identifier ⟨row, member, same⟩
      exact ⟨node, by simp, item, raw, typed, row, marshalled, decoded, member, same⟩
  · exact plain accepted

def StatusReport.stops (lib : StatusLibrary Leaf) (report : StatusReport Leaf) :
    List (List String × Item Leaf) :=
  report.nodes.filter (stopsAt lib "")

theorem parseStatus_walked {keep : Int} {st : State} {id : EnrollmentID} {body : Bytes}
    {u : ParsedStatus} (accepted : parseStatus lib keep st id now body = .ok u) :
    ∃ report w, lib.report body = .ok report ∧ u.values = w.values ∧
      u.declarations = w.declarations ∧ Walked lib w (report.stops lib) := by
  simp only [parseStatus, bind_ok, malformedAs_ok, pure_ok] at accepted
  obtain ⟨_, -, report, decoded, w, walked, errors, -, rfl⟩ := accepted
  rw [walkAll_chains "" _ _ (by simp [registered])] at walked
  refine ⟨report, w, decoded, rfl, rfl, ?_⟩
  refine foldlM_loaded (Walked lib) _ (fun w done node rest next split walked accepted =>
    visit_walked walked accepted) ⟨rfl, fun _ => rfl, fun _ => ?_⟩ walked
  exact ⟨by simp, by simp, by simp⟩

theorem Listed.declarations (listed : Listed Held w) :
    ∃ rows : List DeclarationStatus, w.declarations = rows.map some ∧
      (rows.map fun d => (d.kind, d.identifier)).Nodup ∧
      ∀ d ∈ rows, d.identifier ≠ "" ∧ Held d.kind d.identifier := by
  have rows (keys : List String) (member : ∀ key ∈ keys, key ∈ w.decls) :
      ∃ rows : List DeclarationStatus, keys.map (fun key => w.decls[key]?) = rows.map some ∧
        rows.map (fun d => declarationKey d.kind d.identifier) = keys ∧
        ∀ d ∈ rows, ∃ key : String, w.decls[key]? = some d := by
    induction keys with
    | nil => exact ⟨[], rfl, rfl, by simp⟩
    | cons key rest ih =>
      obtain ⟨rows, same, keys, known⟩ := ih fun key later => member key (List.mem_cons_of_mem _ later)
      obtain ⟨d, there⟩ := Option.isSome_iff_exists.1
        (Std.ExtTreeMap.mem_iff_isSome_getElem?.1 (member key (by simp)))
      refine ⟨d :: rows, by simp [there, same], by simp [keys, ← (listed.rows key d there).1], ?_⟩
      exact List.forall_mem_cons.2 ⟨⟨key, there⟩, known⟩
  obtain ⟨rows, same, keys, known⟩ := rows w.order fun key member => (listed.keys key).1 member
  refine ⟨rows, same, ?_, fun d member => ?_⟩
  · refine List.Nodup.of_map (fun pair => declarationKey pair.1 pair.2) ?_
    rw [List.map_map]
    exact keys ▸ listed.distinct
  · obtain ⟨key, there⟩ := known d member
    exact (listed.rows key d there).2

theorem places_nodup {report : StatusReport Leaf} (unique : report.Unique) :
    (((report.stops lib).map (pathOf ·.1)).filter (· ≠ "")).Nodup ↔ report.Distinct lib := by
  rw [List.filter_map]
  have once : (((report.stops lib).filter ((· ≠ "") ∘ fun node => pathOf node.1)).map
      (·.1)).Nodup :=
    List.Nodup.sublist (((List.filter_sublist).trans List.filter_sublist).map _) unique
  have apart := List.nodup_map_iff_inj_on (f := pathOf) once
  rw [List.map_map] at apart
  refine apart.trans ⟨fun inj node member node' member' stop stop' named same => ?_,
    fun distinct chain member chain' member' same => ?_⟩
  · refine inj node.1 (List.mem_map_of_mem ?_) node'.1 (List.mem_map_of_mem ?_) same
    · simp [StatusReport.stops, member, stop, named]
    · simp [StatusReport.stops, member', stop', ← same, named]
  · obtain ⟨node, there, rfl⟩ := List.mem_map.1 member
    obtain ⟨node', there', rfl⟩ := List.mem_map.1 member'
    simp only [StatusReport.stops, List.mem_filter, Function.comp_apply, decide_eq_true_eq]
      at there there'
    exact distinct node there.1.1 node' there'.1.1 there.1.2 there'.1.2 there.2 same

theorem foldl_childPath {path : String} (named : path ≠ "") (chain : List String) :
    (chain.foldl childPath path).toList =
      path.toList ++ (chain.map String.toList).flatMap ('.' :: ·) := by
  induction chain generalizing path with
  | nil => simp
  | cons name rest ih =>
    have longer : path ++ "." ++ name ≠ "" := fun same => by
      have letters := congrArg String.toList same
      simp at letters
    rw [List.foldl_cons, childPath, if_neg named, ih longer]
    simp

theorem StatusReport.PlainNames.distinct {report : StatusReport Leaf} (plain : report.PlainNames) :
    report.Distinct lib := by
  intro node member node' member' _ _ named same
  have letters (node : List String × Item Leaf) (member : node ∈ report.nodes) :
      ∃ first rest, node.1 = first :: rest ∧ (pathOf node.1).toList =
        first.toList ++ (rest.map String.toList).flatMap ('.' :: ·) := by
    obtain ⟨first, rest, split⟩ := chainsAll_named member
    have started := (plain node member first (by simp [split])).1
    exact ⟨first, rest, split, by rw [split]; exact foldl_childPath started rest⟩
  have dotless (node : List String × Item Leaf) (member : node ∈ report.nodes) :
      ∀ part ∈ node.1.map String.toList, '.' ∉ part := by
    intro part listed
    obtain ⟨name, there, rfl⟩ := List.mem_map.1 listed
    exact (plain node member name there).2
  obtain ⟨first, rest, split, path⟩ := letters node member
  obtain ⟨first', rest', split', path'⟩ := letters node' member'
  have parts := dotless node member
  have parts' := dotless node' member'
  rw [split] at parts ⊢
  rw [split'] at parts' ⊢
  have alike := Path.joined_inj parts parts'
    (path.symm.trans ((congrArg String.toList same).trans path'))
  exact List.map_injective_iff.2 (fun _ _ letters => String.toList_injective letters) alike

theorem parseStatus_wellKeyed (lib : StatusLibrary Leaf) (keep : Int) (st : State)
    (id : EnrollmentID) (now : Time) (body : Bytes) (report : StatusReport Leaf) (u : ParsedStatus)
    (decoded : lib.report body = .ok report)
    (accepted : parseStatus lib keep st id now body = .ok u) :
    (WellKeyed lib report u ↔ report.Distinct lib) ∧
      (report.PlainNames → WellKeyed lib report u) := by
  obtain ⟨report', w, decoded', values, declarations, walked⟩ := parseStatus_walked accepted
  obtain rfl := Except.ok.inj (decoded.symm.trans decoded')
  have places : _ ↔ report.Distinct lib := places_nodup (lib.unique body report decoded)
  rw [← walked.values, ← values] at places
  have keyed : WellKeyed lib report u ↔ report.Distinct lib := by
    refine ⟨fun keyed => places.1 keyed.values, fun distinct => ⟨places.2 distinct, ?_⟩⟩
    rw [declarations]
    have few := List.nodup_iff_count_le_one.1 (places.2 distinct) statusItemDeclarations
    rw [values, walked.values, List.count_filter (by decide)] at few
    exact ((walked.once few).mono fun _ _ names =>
      names.mono (List.filter_subset_self _)).declarations
  exact ⟨keyed, fun plain => keyed.2 plain.distinct⟩

def sampleDeclaration : ManagementDeclarations Unit :=
  { configurations := [⟨"c", "t", true, "valid", []⟩] }

def sampleReport : StatusReport Unit where
  statusItems := [("management", .object [("declarations", .leaf ())]),
    (statusItemDeclarations, .object [])]

def sampleStatusLibrary (report : StatusReport Unit) (unique : report.Unique) :
    StatusLibrary Unit where
  checkStructure _ := .ok ()
  report _ := .ok report
  unique _ _ same := Except.ok.inj same ▸ unique
  marshal
    | .leaf _ => .ok [1]
    | .object _ => .ok []
  marshalAll _ := .ok []
  declarations raw := .ok (if raw = [] then {} else sampleDeclaration)
  isStatusItem path := path = statusItemDeclarations

def sampleParse (report : StatusReport Unit) (unique : report.Unique) :
    Except StatusFailure ParsedStatus :=
  parseStatus (sampleStatusLibrary report unique) 0 {} ⟨.device, "D", ""⟩ 0 []

theorem sampleReport_unique : sampleReport.Unique := by decide

theorem parseStatus_collides : ∃ u, sampleParse sampleReport sampleReport_unique = .ok u ∧
    u.values.map (·.path) = [statusItemDeclarations, statusItemDeclarations] ∧
    u.declarations = [none] ∧
    ¬ WellKeyed (sampleStatusLibrary sampleReport sampleReport_unique) sampleReport u := by
  have ran : (sampleParse sampleReport sampleReport_unique).toOption.map
      (fun u => (u.values.map (·.path), u.declarations)) =
        some ([statusItemDeclarations, statusItemDeclarations], [none]) := by decide +kernel
  cases parsed : sampleParse sampleReport sampleReport_unique with
  | error failure => simp [parsed, Except.toOption] at ran
  | ok u =>
    simp only [parsed, Except.toOption, Option.map_some, Option.some.injEq, Prod.mk.injEq] at ran
    refine ⟨u, rfl, ran.1, ran.2, fun keyed => ?_⟩
    have distinct := keyed.values
    simp [ran.1] at distinct

def nestedReport : StatusReport Unit :=
  { statusItems := [("management", .object [("declarations", .leaf ())])] }

theorem nestedReport_unique : nestedReport.Unique := by decide

theorem nestedReport_plain : nestedReport.PlainNames := by
  simp [StatusReport.PlainNames, StatusReport.nodes, nestedReport, chainsAll, chains]

theorem parseStatus_nested : ∃ u, sampleParse nestedReport nestedReport_unique = .ok u ∧
    nestedReport.Distinct (sampleStatusLibrary nestedReport nestedReport_unique) ∧
    WellKeyed (sampleStatusLibrary nestedReport nestedReport_unique) nestedReport u := by
  have ran : (sampleParse nestedReport nestedReport_unique).toOption.isSome = true := by
    decide +kernel
  cases parsed : sampleParse nestedReport nestedReport_unique with
  | error failure => simp [parsed, Except.toOption] at ran
  | ok u =>
    obtain ⟨keyed, plain⟩ := parseStatus_wellKeyed _ _ _ _ _ _ _ _ rfl parsed
    exact ⟨u, rfl, keyed.1 (plain nestedReport_plain), plain nestedReport_plain⟩

end AppleDM.Ddm
