import AppleDM.Pki.Lifecycle.Manager

set_option autoImplicit false

-- What an identity looks like between two transactions, and what a transition can do to it.
namespace AppleDM.Pki.Lifecycle

open Checked Mdm

variable {id : String}

theorem edit_go {f : StoredRevision → StoredRevision} (vs : List StoredRevision)
    (distinct : (vs.map (·.id)).Nodup) :
    Record.edit.go id f vs = vs.map fun v => if v.id = id then f v else v := by
  induction vs with
  | nil => rfl
  | cons v rest ih =>
    obtain ⟨fresh, distinct⟩ := List.nodup_cons.1 distinct
    rw [Record.edit.go, List.map_cons]
    split
    · next same =>
      have others : ∀ u ∈ rest, u.id ≠ id := fun u member equal =>
        fresh (List.mem_map.2 ⟨u, member, equal.trans same.symm⟩)
      have kept : (rest.map fun u => if u.id = id then f u else u) = rest :=
        (List.map_congr_left fun u member => if_neg (others u member)).trans (List.map_id' rest)
      rw [kept]
    · rw [ih distinct]

structure Shape (r : Record) : Prop where
  numbered : r.revisions.map (·.id) = (List.range r.revisions.length).map fun n => (n + 1).repr
  active : ∀ v ∈ r.revisions, v.phase = .active ↔ v.id = r.active
  pending : ∀ v ∈ r.revisions,
    v.phase = .awaitingCertificate ∨ v.phase = .ready ↔ v.id = r.pending
  last : r.pending = "" ∨ r.pending = r.revisions.length.repr
  present : r.active = "" ∨ ∃ v ∈ r.revisions, v.id = r.active
  single : r.kind = .enrollmentCA → ∀ v ∈ r.revisions, ∀ v' ∈ r.revisions,
    v.phase = .retained → v'.phase = .retained → v.id = v'.id

namespace Shape

variable {r : Record} (shape : Shape r)
include shape

theorem distinct : (r.revisions.map (·.id)).Nodup := by
  rw [shape.numbered]
  refine List.nodup_range.map fun n n' same => ?_
  exact Nat.succ.inj (Path.repr_inj.1 same)

variable {v : StoredRevision}

theorem number (member : v ∈ r.revisions) : ∃ n, v.id = (n + 1).repr := by
  have named := List.mem_map_of_mem (f := fun v : StoredRevision => v.id) member
  rw [shape.numbered] at named
  obtain ⟨n, -, same⟩ := List.mem_map.1 named
  exact ⟨n, same.symm⟩

theorem named (member : v ∈ r.revisions) : v.id ≠ "" := by
  obtain ⟨n, same⟩ := shape.number member
  rw [same]
  exact Nat.repr_ne_empty

theorem fresh (member : v ∈ r.revisions) : v.id ≠ (r.revisions.length + 1).repr := by
  have named := List.mem_map_of_mem (f := fun v : StoredRevision => v.id) member
  rw [shape.numbered] at named
  obtain ⟨n, within, same⟩ := List.mem_map.1 named
  intro equal
  have last := Path.repr_inj.1 (same.trans equal)
  have bound := List.mem_range.1 within
  omega

theorem countP_le_one {p : StoredRevision → Bool}
    (one : ∀ v ∈ r.revisions, ∀ v' ∈ r.revisions, p v = true → p v' = true → v.id = v'.id) :
    r.revisions.countP p ≤ 1 := by
  rw [List.countP_eq_length_filter]
  have distinct : ((r.revisions.filter p).map (·.id)).Nodup :=
    (List.filter_sublist.map _).nodup shape.distinct
  cases chosen : r.revisions.filter p with
  | nil => simp
  | cons v rest =>
    cases rest with
    | nil => simp
    | cons v' rest =>
      have member (u : StoredRevision) (listed : u ∈ v :: v' :: rest) : u ∈ r.revisions ∧ p u = true :=
        List.mem_filter.1 (chosen ▸ listed)
      obtain ⟨there, holds⟩ := member v (by simp)
      obtain ⟨there', holds'⟩ := member v' (by simp)
      have same := one v there v' there' holds holds'
      simp [chosen, same] at distinct

theorem first (pending : r.pending = "1") : r.active = "" := by
  obtain none | last := shape.last
  · exact absurd (pending.symm.trans none) (by decide)
  obtain none | ⟨v, member, same⟩ := shape.present
  · exact none
  have one : (1 : Nat).repr = r.revisions.length.repr := by rw [← last, pending]; rfl
  have named := List.mem_map_of_mem (f := fun v : StoredRevision => v.id) member
  rw [shape.numbered, ← Path.repr_inj.1 one] at named
  have waiting : v.id = r.pending := by
    rw [last, ← one]
    simpa using named
  obtain phase | phase := (shape.pending v member).2 waiting
  all_goals
    have active := (shape.active v member).2 same
    rw [phase] at active
    cases active

theorem append (idle : r.pending = "") {next : StoredRevision}
    (numbered : next.id = (r.revisions.length + 1).repr) (waits : next.phase = .awaitingCertificate)
    {generation : Int} :
    Shape { r with pending := next.id, revisions := r.revisions ++ [next], generation } where
  numbered := by
    simp only [List.map_append, List.length_append, List.length_singleton, List.range_succ,
      shape.numbered, List.map_singleton, numbered]
  active v member := by
    obtain old | new := List.mem_append.1 member
    · exact shape.active v old
    · rw [List.mem_singleton.1 new, waits]
      refine ⟨fun phase => (by cases phase), fun same => ?_⟩
      obtain none | ⟨u, there, active⟩ := shape.present
      · rw [numbered, none] at same
        exact absurd same Nat.repr_ne_empty
      · exact absurd (active.trans (same.symm.trans numbered)) (shape.fresh there)
  pending v member := by
    obtain old | new := List.mem_append.1 member
    · have waiting := shape.pending v old
      have named := shape.named old
      have apart := shape.fresh old
      grind
    · rw [List.mem_singleton.1 new, waits]
      simp
  last := .inr (by simpa using numbered)
  present := shape.present.imp_right fun ⟨v, member, same⟩ =>
    ⟨v, List.mem_append_left _ member, same⟩
  single ca v member v' member' retained retained' := by
    have old {u : StoredRevision} (member : u ∈ r.revisions ++ [next])
        (retained : u.phase = .retained) : u ∈ r.revisions := by
      obtain old | new := List.mem_append.1 member
      · exact old
      · rw [List.mem_singleton.1 new, waits] at retained
        cases retained
    exact shape.single ca v (old member retained) v' (old member' retained') retained retained'

end Shape

structure Turns (r r' : Record) (phase : StoredRevision → Phase) : Prop where
  request : r'.toRequest = r.toRequest
  revisions : ∃ f : StoredRevision → StoredRevision, r'.revisions = r.revisions.map f ∧
    ∀ v ∈ r.revisions, (f v).id = v.id ∧ (f v).phase = phase v

inductive Turn (Allowed : String → Prop) (r r' : Record) : Prop where
  | still (active : r'.active = r.active) (pending : r'.pending = r.pending)
    (turns : Turns r r' fun v => v.phase)
  | readied (active : r'.active = r.active) (pending : r'.pending = r.pending)
    (turns : Turns r r' fun v => if v.id = r.pending then .ready else v.phase)
  | cancelled (active : r'.active = r.active) (pending : r'.pending = "")
    (turns : Turns r r' fun v => if v.id = r.pending then .cancelled else v.phase)
  | switched (found : ∃ v ∈ r.revisions, v.id = r.pending) (active : r'.active = r.pending)
    (pending : r'.pending = "")
    (free : r.kind = .enrollmentCA → r.active = "" ∨ ∀ v ∈ r.revisions, v.phase ≠ .retained)
    (turns : Turns r r' fun v =>
      if v.id = r.pending then .active else if v.id = r.active then .retained else v.phase)
  | retired (rev : String) (allowed : Allowed rev) (apart : rev ≠ r.active)
    (apart' : rev ≠ r.pending) (active : r'.active = r.active) (pending : r'.pending = r.pending)
    (turns : Turns r r' fun v => if v.id = rev then .retired else v.phase)

namespace Turns

variable {r r' : Record} {phase : StoredRevision → Phase} (turns : Turns r r' phase)
include turns

theorem mem {v' : StoredRevision} (member : v' ∈ r'.revisions) :
    ∃ v ∈ r.revisions, v'.id = v.id ∧ v'.phase = phase v := by
  obtain ⟨f, same, kept⟩ := turns.revisions
  rw [same] at member
  obtain ⟨v, old, rfl⟩ := List.mem_map.1 member
  exact ⟨v, old, kept v old⟩

theorem names : r'.revisions.map (·.id) = r.revisions.map (·.id) := by
  obtain ⟨f, same, kept⟩ := turns.revisions
  rw [same, List.map_map]
  exact List.map_congr_left fun v member => (kept v member).1

theorem exists_id (found : ∃ v ∈ r.revisions, v.id = id) : ∃ v ∈ r'.revisions, v.id = id := by
  rw [← List.mem_map] at found ⊢
  rwa [turns.names]

theorem generation (next : Int) : Turns r { r' with generation := next } phase :=
  ⟨turns.request, turns.revisions⟩

theorem shape (shape : Shape r)
    (active : ∀ v ∈ r.revisions, phase v = .active ↔ v.id = r'.active)
    (pending : ∀ v ∈ r.revisions,
      phase v = .awaitingCertificate ∨ phase v = .ready ↔ v.id = r'.pending)
    (last : r'.pending = "" ∨ r'.pending = r.pending)
    (present : r'.active = "" ∨ ∃ v ∈ r.revisions, v.id = r'.active)
    (single : r.kind = .enrollmentCA → ∀ v ∈ r.revisions, ∀ v' ∈ r.revisions,
      phase v = .retained → phase v' = .retained → v.id = v'.id) : Shape r' where
  numbered := by
    obtain ⟨f, same, -⟩ := turns.revisions
    rw [turns.names, shape.numbered, same, List.length_map]
  active v' member := by
    obtain ⟨v, member, name, turned⟩ := turns.mem member
    rw [name, turned]
    exact active v member
  pending v' member := by
    obtain ⟨v, member, name, turned⟩ := turns.mem member
    rw [name, turned]
    exact pending v member
  last := by
    obtain ⟨f, same, -⟩ := turns.revisions
    rw [same, List.length_map]
    obtain none | kept := last
    · exact .inl none
    · rw [kept]
      exact shape.last
  present := present.imp_right turns.exists_id
  single ca u member u' member' := by
    obtain ⟨v, member, name, turned⟩ := turns.mem member
    obtain ⟨v', member', name', turned'⟩ := turns.mem member'
    rw [name, name', turned, turned']
    refine single ?_ v member v' member'
    rw [← turns.request]
    exact ca

end Turns

namespace Turn

variable {Allowed : String → Prop} {r r' : Record} (turn : Turn Allowed r r')
include turn

theorem generation (next : Int) : Turn Allowed r { r' with generation := next } := by
  cases turn with
  | still active pending turns => exact .still active pending (turns.generation next)
  | readied active pending turns => exact .readied active pending (turns.generation next)
  | cancelled active pending turns => exact .cancelled active pending (turns.generation next)
  | switched found active pending free turns =>
    exact .switched found active pending free (turns.generation next)
  | retired rev allowed apart apart' active pending turns =>
    exact .retired rev allowed apart apart' active pending (turns.generation next)

theorem request : r'.toRequest = r.toRequest := by
  cases turn <;> exact Turns.request (by assumption)

theorem exists_id (found : ∃ v ∈ r.revisions, v.id = id) : ∃ v ∈ r'.revisions, v.id = id := by
  cases turn <;> exact Turns.exists_id (by assumption) found

theorem shape (shape : Shape r) : Shape r' := by
  cases turn with
  | still active pending turns =>
    exact turns.shape shape (by rw [active]; exact shape.active) (by rw [pending]; exact shape.pending)
      (.inr pending) (by rw [active]; exact shape.present) shape.single
  | readied active pending turns | cancelled active pending turns =>
    refine turns.shape shape (fun v member => ?_) (fun v member => ?_)
      (by first | exact .inl pending | exact .inr pending) (by rw [active]; exact shape.present)
      (fun ca v member v' member' => ?_)
    · have waiting := shape.pending v member
      have current := shape.active v member
      grind
    · have waiting := shape.pending v member
      have named := shape.named member
      grind
    · have one := shape.single ca v member v' member'
      grind
  | switched found active pending free turns =>
    refine turns.shape shape (fun v member => ?_) (fun v member => ?_) (.inl pending)
      (.inr (by rw [active]; exact found)) (fun ca v member v' member' => ?_)
    · have current := shape.active v member
      grind
    · have waiting := shape.pending v member
      have named := shape.named member
      grind
    · have one := shape.single ca v member v' member'
      have named := shape.named member
      have named' := shape.named member'
      obtain none | free := free ca
      · grind
      · have free := free v member
        grind
  | retired rev allowed apart apart' active pending turns =>
    refine turns.shape shape (fun v member => ?_) (fun v member => ?_) (.inr pending)
      (by rw [active]; exact shape.present) (fun ca v member v' member' => ?_)
    · have current := shape.active v member
      grind
    · have waiting := shape.pending v member
      grind
    · have one := shape.single ca v member v' member'
      grind

theorem retired_from {v' : StoredRevision} (member : v' ∈ r'.revisions)
    (retired : v'.phase = .retired) :
    (∃ v ∈ r.revisions, v.id = v'.id ∧ v.phase = .retired) ∨
      r'.active = r.active ∧ Allowed v'.id := by
  cases turn with
  | still active pending turns =>
    obtain ⟨v, old, name, phase⟩ := turns.mem member
    exact .inl ⟨v, old, name.symm, phase.symm.trans retired⟩
  | readied active pending turns | cancelled active pending turns
  | switched found active pending free turns =>
    obtain ⟨v, old, name, phase⟩ := turns.mem member
    refine .inl ⟨v, old, name.symm, ?_⟩
    grind
  | retired rev allowed apart apart' active pending turns =>
    obtain ⟨v, old, name, phase⟩ := turns.mem member
    by_cases own : v.id = rev
    · exact .inr ⟨active, name ▸ own ▸ allowed⟩
    · rw [if_neg own] at phase
      exact .inl ⟨v, old, name.symm, phase.symm.trans retired⟩

theorem pending_from : r'.pending = "" ∨ r'.pending = r.pending ∧
    ∀ v' ∈ r'.revisions, v'.phase = .retained → ∃ v ∈ r.revisions, v.phase = .retained := by
  cases turn with
  | still active pending turns =>
    refine .inr ⟨pending, fun v' member retained => ?_⟩
    obtain ⟨v, old, -, phase⟩ := turns.mem member
    exact ⟨v, old, phase.symm.trans retained⟩
  | readied active pending turns | retired rev allowed apart apart' active pending turns =>
    refine .inr ⟨pending, fun v' member retained => ?_⟩
    obtain ⟨v, old, -, phase⟩ := turns.mem member
    refine ⟨v, old, ?_⟩
    grind
  | cancelled active pending turns | switched found active pending free turns => exact .inl pending

end Turn

section Transitions

variable {lib : Library} {now : Time} {rev : String} {r r' r₁ : Record} {Allowed : String → Prop}

theorem turns_same (request : r₁.toRequest = r.toRequest) (revisions : r₁.revisions = r.revisions) :
    Turns r r₁ fun v => v.phase :=
  ⟨request, id, by simp [revisions], fun _ _ => ⟨rfl, rfl⟩⟩

theorem Turns.congr {phase phase' : StoredRevision → Phase} (turns : Turns r r' phase)
    (same : ∀ v ∈ r.revisions, phase v = phase' v) : Turns r r' phase' := by
  obtain ⟨f, mapped, kept⟩ := turns.revisions
  refine ⟨turns.request, f, mapped, fun v member => ?_⟩
  rw [← same v member]
  exact kept v member

theorem Turns.edit {phase : StoredRevision → Phase} (turns : Turns r r₁ phase) (shape : Shape r)
    (rev : String) {next : Phase} {f : StoredRevision → StoredRevision}
    (kept : ∀ v, (f v).id = v.id ∧ (f v).phase = next) :
    Turns r (r₁.edit rev f) fun v => if v.id = rev then next else phase v := by
  obtain ⟨g, same, turned⟩ := turns.revisions
  refine ⟨turns.request, fun v => if (g v).id = rev then f (g v) else g v, ?_, fun v member => ?_⟩
  · have distinct : (r₁.revisions.map (·.id)).Nodup := by
      rw [turns.names]
      exact shape.distinct
    change Record.edit.go rev f r₁.revisions = _
    rw [edit_go _ distinct, same, List.map_map]
    rfl
  · obtain ⟨name, phased⟩ := turned v member
    dsimp only
    rw [name]
    split
    · exact ⟨(kept (g v)).1.trans name, (kept (g v)).2⟩
    · exact ⟨name, phased⟩

theorem revision_ok {v : StoredRevision} (found : r.revision id = .ok v) :
    v ∈ r.revisions ∧ v.id = id := by
  unfold Record.revision at found
  split at found
  · next v' there =>
    obtain rfl := Except.ok.inj found
    exact ⟨List.mem_of_find?_eq_some there, by simpa using List.find?_some there⟩
  · cases found

theorem switch_turn (shape : Shape r) (pending : r.pending = rev)
    (found : ∃ v ∈ r.revisions, v.id = rev)
    (free : r.kind = .enrollmentCA → r.active = "" ∨ ∀ v ∈ r.revisions, v.phase ≠ .retained)
    (ran : r.switch rev now = .ok r') : Turn Allowed r r' := by
  subst pending
  unfold Record.switch at ran
  dsimp only at ran
  split at ran
  · next none =>
    obtain rfl := Except.ok.inj ran
    refine .switched found rfl rfl free ?_
    have base : Turns r { r with active := r.pending, pending := "" } fun v => v.phase :=
      turns_same rfl rfl
    have turned : Turns r ({ r with active := r.pending, pending := "" }.edit r.pending fun v =>
        { v with phase := .active, activatedAt := now })
        fun v => if v.id = r.pending then .active else v.phase :=
      base.edit shape r.pending fun v => ⟨rfl, rfl⟩
    refine turned.congr fun v member => ?_
    have named := shape.named member
    grind
  · split at ran
    · obtain rfl := Except.ok.inj ran
      refine .switched found rfl rfl free ?_
      have base : Turns r r fun v => v.phase := turns_same rfl rfl
      have retained := base.edit shape r.active
        (f := fun v => { v with phase := .retained }) fun v => ⟨rfl, rfl⟩
      have moved : Turns r { r.edit r.active fun v => { v with phase := .retained } with
          active := r.pending, pending := "" } _ := ⟨retained.request, retained.revisions⟩
      exact moved.edit shape r.pending fun v => ⟨rfl, rfl⟩
    · cases ran

theorem importCertificate_turn {certificate : Bytes} (shape : Shape r)
    (ran : importCertificate lib now rev r certificate = .ok r') : Turn Allowed r r' := by
  simp only [importCertificate, bind_ok] at ran
  obtain ⟨v, found, ran⟩ := ran
  split at ran
  · split at ran
    · split at ran
      · obtain rfl := Except.ok.inj ran
        exact .still rfl rfl (turns_same rfl rfl)
      · cases ran
    · cases ran
  · next pending =>
    obtain rfl : r.pending = rev := not_not.1 pending
    simp only [bind_ok, pure_ok] at ran
    obtain ⟨⟨material, leaf, topic⟩, -, _, -, rfl⟩ := ran
    have base : Turns r { r with topic := if topic = "" then r.topic else topic } fun v => v.phase :=
      turns_same rfl rfl
    exact .readied rfl rfl (base.edit shape r.pending fun v => ⟨rfl, rfl⟩)

theorem createIssuer_turn {validity : Time} {random : Bytes} (shape : Shape r)
    (ran : createIssuer lib now rev r validity random = .ok r') : Turn Allowed r r' := by
  simp only [createIssuer, bind_ok, reject_ok] at ran
  obtain ⟨_, pending, v, found, ran⟩ := ran
  obtain rfl : r.pending = rev := by
    by_contra other
    exact pending (.inr other)
  split at ran
  · obtain rfl := Except.ok.inj ran
    exact .still rfl rfl (turns_same rfl rfl)
  · simp only [bind_ok, pure_ok] at ran
    obtain ⟨_, -, ⟨material, leaf, topic⟩, -, _, -, rfl⟩ := ran
    have base : Turns r r fun v => v.phase := turns_same rfl rfl
    exact .readied rfl rfl (base.edit shape r.pending fun v => ⟨rfl, rfl⟩)

theorem cancel_turn (shape : Shape r) (ran : cancel rev r = .ok r') : Turn Allowed r r' := by
  simp only [cancel, bind_ok] at ran
  obtain ⟨v, found, ran⟩ := ran
  split at ran
  · obtain rfl := Except.ok.inj ran
    exact .still rfl rfl (turns_same rfl rfl)
  · simp only [bind_ok, reject_ok, not_not, pure_ok] at ran
    obtain ⟨_, rfl, rfl⟩ := ran
    have base : Turns r { r with pending := "" } fun v => v.phase := turns_same rfl rfl
    exact .cancelled rfl rfl (base.edit shape r.pending fun v => ⟨rfl, rfl⟩)

theorem activate_turn {published : Except Failure Unit} (shape : Shape r)
    (first : r.kind = .enrollmentCA → rev = "1" ∨ r.active = "" ∨ r.pending ≠ rev)
    (ran : activate lib now rev r published = .ok r') : Turn Allowed r r' := by
  unfold activate at ran
  split at ran
  · obtain rfl := Except.ok.inj ran
    exact .still rfl rfl (turns_same rfl rfl)
  · simp only [bind_ok, reject_ok, pure_ok] at ran
    obtain ⟨v, found, _, checked, _, -, switched, ran, _, -, rfl⟩ := ran
    have pending : r.pending = rev := by
      by_contra other
      exact checked (.inl other)
    refine switch_turn shape pending ⟨v, revision_ok found⟩ (fun ca => .inl ?_) ran
    obtain one | none | other := first ca
    · exact shape.first (pending.trans one)
    · exact none
    · exact absurd pending other

theorem retireIssuer_turn {seen : Except Failure Rollover} (shape : Shape r)
    (allowed : ∀ job, seen = .ok job → job.fromRevision = rev → job.phase = .complete → Allowed rev)
    (ran : retireIssuer rev r seen = .ok r') : Turn Allowed r r' := by
  simp only [retireIssuer, bind_ok, reject_ok, pure_ok, not_or, not_not] at ran
  obtain ⟨_, ⟨-, apart, apart'⟩, job, known, _, ⟨from_, complete⟩, v, -, rfl⟩ := ran
  have base : Turns r r fun v => v.phase := turns_same rfl rfl
  exact .retired rev (allowed job known from_ complete) (Ne.symm apart) (Ne.symm apart') rfl rfl
    (base.edit shape rev fun v => ⟨rfl, rfl⟩)

end Transitions

end AppleDM.Pki.Lifecycle
