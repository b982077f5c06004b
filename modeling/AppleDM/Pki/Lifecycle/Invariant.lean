import AppleDM.Pki.Lifecycle.Records
import AppleDM.Pki.Lifecycle.Shape

set_option autoImplicit false

namespace AppleDM.Pki.Lifecycle

open Checked Mdm Process
open State (Memory)
open AppleDM.Path (Plain)

section Invariant

structure Good (lib : Library) (m : Memory Value) : Prop where
  placed : Stored lib m
  shape : ∀ id r, stored m (.identity id) = some (.identity r) → Shape r
  known : ∀ id rev job, stored m (.rollover id rev) = some (.rollover job) →
    ∃ r, stored m (.identity id) = some (.identity r) ∧ ∃ v ∈ r.revisions, v.id = rev
  prepared : ∀ id r job, stored m (.identity id) = some (.identity r) →
    stored m (.rollover id r.pending) = some (.rollover job) → job.phase = .prepared →
    ∀ v ∈ r.revisions, v.phase ≠ .retained
  cohort : ∀ id rev name v, stored m (.migration id rev name) = some (.migration v) →
    ∃ job, stored m (.rollover id rev) = some (.rollover job)
  settled : ∀ id rev job, stored m (.rollover id rev) = some (.rollover job) →
    job.phase = .complete → ∀ name v, stored m (.migration id rev name) = some (.migration v) →
      v.phase.settled = true

structure Advances (m m' : Memory Value) : Prop where
  rollovers : ∀ id rev job, stored m (.rollover id rev) = some (.rollover job) →
    ∃ job', stored m' (.rollover id rev) = some (.rollover job') ∧
      (job.phase = .complete → job' = job)
  migrations : ∀ id rev name v, stored m (.migration id rev name) = some (.migration v) →
    ∃ v', stored m' (.migration id rev name) = some (.migration v') ∧
      (v.phase = .confirmed → v'.phase = .confirmed)
  frozen : ∀ id rev job, stored m (.rollover id rev) = some (.rollover job) →
    job.phase = .complete → ∀ name,
      stored m' (.migration id rev name) = stored m (.migration id rev name)
  retired : ∀ id r', stored m' (.identity id) = some (.identity r') →
    ∀ v' ∈ r'.revisions, v'.phase = .retired →
      ∃ r, stored m (.identity id) = some (.identity r) ∧
        ((∃ v ∈ r.revisions, v.id = v'.id ∧ v.phase = .retired) ∨
          r'.active = r.active ∧ ∃ job, stored m (.rollover id r.active) = some (.rollover job) ∧
            job.fromRevision = v'.id ∧ job.phase = .complete)

theorem Advances.refl (m : Memory Value) : Advances m m where
  rollovers _ _ job there := ⟨job, there, fun _ => rfl⟩
  migrations _ _ _ v there := ⟨v, there, id⟩
  frozen _ _ _ _ _ _ := rfl
  retired _ r there v member retired := ⟨r, there, .inl ⟨v, member, rfl, retired⟩⟩

theorem Advances.followed {m m' m'' : Memory Value} (first : Advances m m')
    (second : Advances m' m'')
    (same : ∀ id, stored m'' (.identity id) = stored m' (.identity id)) : Advances m m'' where
  rollovers id rev job there := by
    obtain ⟨job', there', kept⟩ := first.rollovers id rev job there
    obtain ⟨job'', there'', kept'⟩ := second.rollovers id rev job' there'
    refine ⟨job'', there'', fun complete => ?_⟩
    obtain rfl := kept complete
    exact kept' complete
  migrations id rev name v there := by
    obtain ⟨v', there', kept⟩ := first.migrations id rev name v there
    obtain ⟨v'', there'', kept'⟩ := second.migrations id rev name v' there'
    exact ⟨v'', there'', fun confirmed => kept' (kept confirmed)⟩
  frozen id rev job there complete name := by
    obtain ⟨job', there', kept⟩ := first.rollovers id rev job there
    obtain rfl := kept complete
    rw [second.frozen id rev _ there' complete, first.frozen id rev _ there complete]
  retired id r there := first.retired id r (same id ▸ there)

def Keeps (lib : Library) (m m' : Memory Value) : Prop := Advances m m' ∧ Good lib m'

variable {lib : Library} {m m' : Memory Value} {id rev : String}

theorem Good.still (good : Good lib m) : Keeps lib m m := ⟨.refl m, good⟩

end Invariant

section Writes

variable {lib : Library} {m m' : Memory Value} {id rev : String} {r r' : Record} {job : Rollover}

structure Wrote (lib : Library) (p : Place) (value : Value) (m m' : Memory Value) : Prop where
  placed : Stored lib m → Stored lib m'
  reads : ∀ q, stored m' q = if q = p then some value else stored m q

theorem putJSON_wrote {p : Place} {value : Value} (ran : putJSON m p.key value = .ok m')
    (sound : p.Sound) (fits : Fits lib p value) : Wrote lib p value m m' := by
  obtain rfl := putJSON_ok ran
  exact ⟨fun placed => placed.insert sound fits, fun _ => stored_insert sound⟩

namespace Wrote

variable {p q : Place} {value found : Value} (wrote : Wrote lib p value m m')
include wrote

theorem own : stored m' p = some value := by
  rw [wrote.reads, if_pos rfl]

theorem other (apart : q ≠ p) : stored m' q = stored m q := by
  rw [wrote.reads, if_neg apart]

theorem cases (read : stored m' q = some found) :
    q = p ∧ found = value ∨ stored m q = some found := by
  rw [wrote.reads] at read
  split at read
  · next same => exact .inl ⟨same, (Option.some.inj read).symm⟩
  · exact .inr read

end Wrote

theorem Good.write (good : Good lib m) (wrote : Wrote lib (.identity id) (.identity r') m m')
    (shape : Shape r')
    (kept : ∀ r, stored m (.identity id) = some (.identity r) → ∀ name,
      (∃ v ∈ r.revisions, v.id = name) → ∃ v ∈ r'.revisions, v.id = name)
    (free : ∀ job, stored m (.rollover id r'.pending) = some (.rollover job) →
      job.phase = .prepared → ∀ v ∈ r'.revisions, v.phase ≠ .retained)
    (retires : ∀ v' ∈ r'.revisions, v'.phase = .retired →
      ∃ r, stored m (.identity id) = some (.identity r) ∧
        ((∃ v ∈ r.revisions, v.id = v'.id ∧ v.phase = .retired) ∨
          r'.active = r.active ∧ ∃ job, stored m (.rollover id r.active) = some (.rollover job) ∧
            job.fromRevision = v'.id ∧ job.phase = .complete)) : Keeps lib m m' := by
  have rolls (id' rev' : String) : stored m' (.rollover id' rev') = stored m (.rollover id' rev') :=
    wrote.other (by simp)
  have moves (id' rev' name : String) :
      stored m' (.migration id' rev' name) = stored m (.migration id' rev' name) :=
    wrote.other (by simp)
  have owns {id' : String} {found : Record}
      (read : stored m' (.identity id') = some (.identity found)) :
      id' = id ∧ found = r' ∨ stored m (.identity id') = some (.identity found) := by
    simpa using wrote.cases read
  have same := Advances.refl m
  refine ⟨⟨by simpa only [rolls] using same.rollovers, by simpa only [moves] using same.migrations,
    fun _ _ _ _ _ _ => moves _ _ _, fun id' found read v' member retired => ?_⟩, wrote.placed good.placed,
    fun id' found read => ?_, fun id' rev' job found => ?_, fun id' found job read rolled phase => ?_,
    by simpa only [rolls, moves] using good.cohort, by simpa only [rolls, moves] using good.settled⟩
  · obtain ⟨rfl, rfl⟩ | old := owns read
    · exact retires v' member retired
    · exact ⟨found, old, .inl ⟨v', member, rfl, retired⟩⟩
  · obtain ⟨rfl, rfl⟩ | old := owns read
    · exact shape
    · exact good.shape _ _ old
  · rw [rolls] at found
    obtain ⟨owner, read, listed⟩ := good.known id' rev' job found
    by_cases same : id' = id
    · subst same
      exact ⟨r', wrote.own, kept owner read _ listed⟩
    · exact ⟨owner, (wrote.other (by simpa using same)).trans read, listed⟩
  · rw [rolls] at rolled
    obtain ⟨rfl, rfl⟩ | old := owns read
    · exact free job rolled phase
    · exact good.prepared id' found job old rolled phase

theorem Good.turn (good : Good lib m) (wrote : Wrote lib (.identity id) (.identity r') m m')
    (there : stored m (.identity id) = some (.identity r))
    (turn : Turn (fun rev => ∃ job, stored m (.rollover id r.active) = some (.rollover job) ∧
      job.fromRevision = rev ∧ job.phase = .complete) r r') : Keeps lib m m' := by
  refine good.write wrote (turn.shape (good.shape id r there)) (fun found read name listed => ?_)
    (fun job rolled phase v' member retained => ?_)
    fun v' member retired => ⟨r, there, turn.retired_from member retired⟩
  · obtain rfl : r = found := by simpa using there.symm.trans read
    exact turn.exists_id listed
  · obtain none | ⟨same, from_⟩ := turn.pending_from
    · obtain ⟨known, found, v, member, same⟩ := good.known _ _ job rolled
      exact absurd (same.trans none) ((good.shape id known found).named member)
    · rw [same] at rolled
      obtain ⟨v, old, retained⟩ := from_ v' member retained
      exact good.prepared id r job there rolled phase v old retained

theorem Good.append (good : Good lib m) (next : StoredRevision) {generation : Int}
    (wrote : Wrote lib (.identity id) (.identity { r with
      pending := next.id, revisions := r.revisions ++ [next], generation }) m m')
    (found : stored m (.identity id) = some (.identity r) ∨
      stored m (.identity id) = none ∧ r.revisions = [] ∧ r.active = "")
    (idle : r.pending = "") (numbered : next.id = (r.revisions.length + 1).repr)
    (waits : next.phase = .awaitingCertificate) : Keeps lib m m' := by
  have shape : Shape r := by
    obtain there | ⟨-, none, inactive⟩ := found
    · exact good.shape id r there
    · exact ⟨by simp [none], by simp [none], by simp [none], .inl idle, .inl inactive, by simp [none]⟩
  have owner {found' : Record} (read : stored m (.identity id) = some (.identity found')) :
      found' = r := by
    obtain there | ⟨missing, -⟩ := found
    · simpa using read.symm.trans there
    · rw [missing] at read
      cases read
  have apart {v : StoredRevision} (member : v ∈ r.revisions) : v.id ≠ next.id := by
    rw [numbered]
    exact shape.fresh member
  refine good.write wrote (shape.append idle numbered waits) (fun found' read name ⟨v, member, same⟩ => ?_) (fun job rolled phase => ?_)
    fun v' member retired => ?_
  · obtain rfl := owner read
    exact ⟨v, List.mem_append_left _ member, same⟩
  · obtain ⟨found', read, v, member, same⟩ := good.known id next.id job rolled
    obtain rfl := owner read
    exact absurd same (apart member)
  · obtain old | new := List.mem_append.1 member
    · obtain there | ⟨-, none, -⟩ := found
      · exact ⟨r, there, .inl ⟨v', old, rfl, retired⟩⟩
      · rw [none] at old
        cases old
    · rw [List.mem_singleton.1 new, waits] at retired
      cases retired

theorem Good.sound (good : Good lib m) (there : stored m (.rollover id rev) = some (.rollover job)) :
    Plain id ∧ Plain rev :=
  (good.placed.fits there).1

theorem Good.roll (good : Good lib m) {job' : Rollover}
    (wrote : Wrote lib (.rollover id rev) (.rollover job') m m')
    (there : stored m (.rollover id rev) = some (.rollover job)) (outstanding : job.phase ≠ .complete)
    (begun : job'.phase ≠ .prepared)
    (settles : job'.phase = .complete → ∀ name v,
      stored m (.migration id rev name) = some (.migration v) → v.phase.settled = true) :
    Keeps lib m m' := by
  have owners (id' : String) : stored m' (.identity id') = stored m (.identity id') :=
    wrote.other (by simp)
  have moves (id' rev' name : String) :
      stored m' (.migration id' rev' name) = stored m (.migration id' rev' name) :=
    wrote.other (by simp)
  have rolls {id' rev' : String} {found : Rollover}
      (read : stored m' (.rollover id' rev') = some (.rollover found)) :
      (id' = id ∧ rev' = rev) ∧ found = job' ∨
        stored m (.rollover id' rev') = some (.rollover found) := by
    simpa using wrote.cases read
  have same := Advances.refl m
  refine ⟨⟨fun id' rev' found read => ?_, by simpa only [moves] using same.migrations,
    fun _ _ _ _ _ _ => moves _ _ _, by simpa only [owners] using same.retired⟩, wrote.placed good.placed,
    by simpa only [owners] using good.shape, fun id' rev' found read => ?_,
    fun id' found job read rolled phase => ?_, fun id' rev' name v found => ?_,
    fun id' rev' found read complete name v device => ?_⟩
  · rw [wrote.reads]
    split
    · next same =>
      simp only [Place.rollover.injEq] at same
      obtain ⟨rfl, rfl⟩ := same
      obtain rfl : job = found := by simpa using there.symm.trans read
      exact ⟨job', rfl, fun complete => absurd complete outstanding⟩
    · exact ⟨found, read, fun _ => rfl⟩
  · simp only [owners]
    obtain ⟨⟨rfl, rfl⟩, -⟩ | old := rolls read
    · exact good.known _ _ job there
    · exact good.known id' rev' found old
  · rw [owners] at read
    obtain ⟨-, rfl⟩ | old := rolls rolled
    · exact absurd phase begun
    · exact good.prepared id' found job read old phase
  · rw [moves] at found
    rw [wrote.reads]
    split
    · exact ⟨job', rfl⟩
    · exact good.cohort id' rev' name v found
  · rw [moves] at device
    obtain ⟨⟨rfl, rfl⟩, rfl⟩ | old := rolls read
    · exact settles complete name v device
    · exact good.settled id' rev' found old complete name v device

theorem Good.migrate (good : Good lib m) {name : String} {v : Migration}
    (wrote : Wrote lib (.migration id rev name) (.migration v) m m')
    (there : stored m (.rollover id rev) = some (.rollover job)) (outstanding : job.phase ≠ .complete)
    (confirmed : ∀ v₀, stored m (.migration id rev name) = some (.migration v₀) →
      v₀.phase = .confirmed → v.phase = .confirmed) : Keeps lib m m' := by
  have owners (id' : String) : stored m' (.identity id') = stored m (.identity id') :=
    wrote.other (by simp)
  have rolls (id' rev' : String) : stored m' (.rollover id' rev') = stored m (.rollover id' rev') :=
    wrote.other (by simp)
  -- What is recorded under this rollover can only change while it is not complete.
  have open_ {id' rev' name : String} {found : Rollover}
      (read : stored m (.rollover id' rev') = some (.rollover found))
      (complete : found.phase = .complete) :
      stored m' (.migration id' rev' name) = stored m (.migration id' rev' name) := by
    refine wrote.other ?_
    simp only [ne_eq, Place.migration.injEq, not_and]
    rintro rfl rfl
    obtain rfl : job = found := by simpa using there.symm.trans read
    exact absurd complete outstanding
  have same := Advances.refl m
  refine ⟨⟨by simpa only [rolls] using same.rollovers, fun id' rev' name v₀ found => ?_,
    fun _ _ _ read complete _ => open_ read complete, by simpa only [owners] using same.retired⟩,
    wrote.placed good.placed, by simpa only [owners] using good.shape, by simpa only [owners, rolls] using good.known,
    by simpa only [owners, rolls] using good.prepared, fun id' rev' name v₀ found => ?_,
    fun id' rev' found read complete name v₀ device => ?_⟩
  · rw [wrote.reads]
    split
    · next same =>
      simp only [Place.migration.injEq] at same
      obtain ⟨rfl, rfl, rfl⟩ := same
      exact ⟨v, rfl, confirmed v₀ found⟩
    · exact ⟨v₀, found, fun confirmed => confirmed⟩
  · rw [rolls]
    obtain ⟨same, -⟩ | old := wrote.cases found
    · simp only [Place.migration.injEq] at same
      obtain ⟨rfl, rfl, -⟩ := same
      exact ⟨job, there⟩
    · exact good.cohort id' rev' name v₀ old
  · rw [rolls] at read
    rw [open_ read complete] at device
    exact good.settled id' rev' found read complete name v₀ device

structure Queued (lib : Library) (id rev : String) (m m' : Memory Value) : Prop where
  placed : Stored lib m → Stored lib m'
  others : ∀ q, (∀ name, q ≠ .migration id rev name) → stored m' q = stored m q
  recorded : ∀ name v, stored m (.migration id rev name) = some (.migration v) →
    ∃ v', stored m' (.migration id rev name) = some (.migration v')

theorem queueDevice_queued {now : Time} {device : String} (plain : Plain id) (plain' : Plain rev)
    (ran : queueDevice lib now id rev m device = .ok m') : Queued lib id rev m m' ∧
      ∃ v, stored m' (.migration id rev (hash lib device)) = some (.migration v) := by
  simp only [queueDevice, bind_ok] at ran
  obtain ⟨_, -, ran⟩ := ran
  have wrote : Wrote lib (.migration id rev (hash lib device)) _ m m' :=
    putJSON_wrote ran ⟨plain, plain', lib.plain _⟩ rfl
  refine ⟨⟨wrote.placed, fun q apart => wrote.other (apart _),
    fun name v there => ?_⟩, _, wrote.own⟩
  rw [wrote.reads]
  split
  · exact ⟨_, rfl⟩
  · exact ⟨v, there⟩

theorem queueAll_queued {now : Time} (plain : Plain id) (plain' : Plain rev)
    (devices : List String) (ran : devices.foldlM (queueDevice lib now id rev) m = .ok m') :
    Queued lib id rev m m' ∧ ∀ device ∈ devices,
      ∃ v, stored m' (.migration id rev (hash lib device)) = some (.migration v) := by
  induction devices generalizing m with
  | nil =>
    obtain rfl : m = m' := Except.ok.inj ran
    exact ⟨⟨fun placed => placed, fun _ _ => rfl, fun _ v there => ⟨v, there⟩⟩, by simp⟩
  | cons device rest ih =>
    rw [List.foldlM_cons] at ran
    obtain ⟨between, queued, ran⟩ := (bind_ok ..).1 ran
    obtain ⟨first, v, there⟩ := queueDevice_queued plain plain' queued
    obtain ⟨second, listed⟩ := ih ran
    refine ⟨⟨fun placed => second.placed (first.placed placed), fun q apart => ?_,
      fun name v there => ?_⟩, fun device' member => ?_⟩
    · rw [second.others q apart, first.others q apart]
    · obtain ⟨v', there'⟩ := first.recorded name v there
      exact second.recorded name v' there'
    · obtain rfl | later := List.mem_cons.1 member
      · exact second.recorded _ v there
      · exact listed device' later

theorem Good.prepare (good : Good lib m) (missing : stored m (.rollover id rev) = none)
    (there : stored m (.identity id) = some (.identity r)) (listed : ∃ v ∈ r.revisions, v.id = rev)
    (free : ∀ v ∈ r.revisions, v.phase ≠ .retained) (begun : job.phase = .prepared)
    {m₁ : Memory Value} (queued : Queued lib id rev m m₁)
    (wrote : Wrote lib (.rollover id rev) (.rollover job) m₁ m') : Keeps lib m m' := by
  have owners (id' : String) : stored m' (.identity id') = stored m (.identity id') :=
    (wrote.other (by simp)).trans (queued.others _ (by simp))
  have rolls {id' rev' : String} (apart : ¬ (id' = id ∧ rev' = rev)) :
      stored m' (.rollover id' rev') = stored m (.rollover id' rev') :=
    (wrote.other (by simpa using apart)).trans (queued.others _ (by simp))
  have moves {id' rev' : String} (apart : ¬ (id' = id ∧ rev' = rev)) (name : String) :
      stored m' (.migration id' rev' name) = stored m (.migration id' rev' name) := by
    refine (wrote.other (by simp)).trans (queued.others _ fun other same => apart ?_)
    simp only [Place.migration.injEq] at same
    exact ⟨same.1, same.2.1⟩
  have other {id' rev' : String} {found : Rollover}
      (read : stored m (.rollover id' rev') = some (.rollover found)) : ¬ (id' = id ∧ rev' = rev) := by
    rintro ⟨rfl, rfl⟩
    rw [missing] at read
    cases read
  refine ⟨⟨fun id' rev' found read => ?_, fun id' rev' name v read => ?_,
    fun id' rev' found read _ name => moves (other read) name,
    by simpa only [owners] using (Advances.refl m).retired⟩, wrote.placed (queued.placed good.placed),
    by simpa only [owners] using good.shape, fun id' rev' found read => ?_,
    fun id' found job' read rolled phase => ?_, fun id' rev' name v read => ?_,
    fun id' rev' found read complete name v device => ?_⟩
  · exact ⟨found, by rw [rolls (other read)]; exact read, fun _ => rfl⟩
  · obtain ⟨found, rolled⟩ := good.cohort id' rev' name v read
    exact ⟨v, by rw [moves (other rolled)]; exact read, fun confirmed => confirmed⟩
  · simp only [owners]
    by_cases same : id' = id ∧ rev' = rev
    · obtain ⟨rfl, rfl⟩ := same
      exact ⟨r, there, listed⟩
    · rw [rolls same] at read
      exact good.known id' rev' found read
  · rw [owners] at read
    by_cases same : id' = id ∧ found.pending = rev
    · obtain ⟨rfl, -⟩ := same
      obtain rfl : r = found := by simpa using there.symm.trans read
      exact free
    · rw [rolls same] at rolled
      exact good.prepared id' found job' read rolled phase
  · by_cases same : id' = id ∧ rev' = rev
    · obtain ⟨rfl, rfl⟩ := same
      exact ⟨job, wrote.own⟩
    · rw [moves same] at read
      rw [rolls same]
      exact good.cohort id' rev' name v read
  · by_cases same : id' = id ∧ rev' = rev
    · obtain ⟨rfl, rfl⟩ := same
      obtain rfl : job = found := by simpa using wrote.own.symm.trans read
      rw [begun] at complete
      cases complete
    · rw [rolls same] at read
      rw [moves same] at device
      exact good.settled id' rev' found read complete name v device

end Writes

end AppleDM.Pki.Lifecycle
