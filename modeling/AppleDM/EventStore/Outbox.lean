import AppleDM.EventStore.Store
import AppleDM.Shared.Evolution

set_option autoImplicit false

namespace AppleDM.EventStore

open Checked Mdm Process Relation Run Evolution

section Invariant

structure Good (T : String → Prop) (w : World) : Prop where
  named : ∀ (id : String) (rec : Record), w.records[id]? = some rec → rec.eventID = id
  owned : ∀ lease ∈ w.leases, lease.expires ≤ w.clock ∨
    ∃ row, w.deliveries[lease.key]? = some row ∧ row.state = .pending ∧
      row.leaseToken = lease.token ∧ row.leaseUntil = lease.expires
  drawn : ∀ lease ∈ w.leases, lease.token ∈ w.used
  distinct : (w.leases.map (·.token)).Nodup
  counted : ∀ key : Key, w.effects.count key + w.acknowledged.count key =
    if (w.deliveries[key]?).any (fun row => row.state = .delivered) then 1 else 0
  apart : ∀ key ∈ w.acknowledged, ¬ T key.2

structure Advances (w w' : World) : Prop where
  clock : w.clock ≤ w'.clock
  records : ∀ (id : String) rec, w.records[id]? = some rec → w'.records[id]? = some rec
  rows : ∀ (key : Key) row, w.deliveries[key]? = some row →
    ∃ row', w'.deliveries[key]? = some row' ∧ (row.state = .delivered → row' = row)

variable {T : String → Prop} {w w' : World}

theorem Advances.refl (w : World) : Advances w w :=
  ⟨Int.le_refl _, fun _ _ there => there, fun _ row there => ⟨row, there, fun _ => rfl⟩⟩

theorem Advances.trans {w'' : World} (first : Advances w w') (second : Advances w' w'') :
    Advances w w'' where
  clock := Int.le_trans first.clock second.clock
  records id rec there := second.records id rec (first.records id rec there)
  rows key row there := by
    obtain ⟨row', there', same⟩ := first.rows key row there
    obtain ⟨row'', there'', same'⟩ := second.rows key row' there'
    refine ⟨row'', there'', fun done => ?_⟩
    obtain rfl := same done
    exact same' done

def Keeps (T : String → Prop) (w w' : World) : Prop := Advances w w' ∧ Good T w'

theorem Good.tick (good : Good T w) {clock : Int} (later : w.clock ≤ clock) :
    Good T { w with clock } :=
  { good with
    owned := fun lease member => (good.owned lease member).imp_left (Int.le_trans · later) }

theorem Good.draw (good : Good T w) (token : String) :
    Good T { w with used := token :: w.used } :=
  { good with drawn := fun lease member => List.mem_cons_of_mem _ (good.drawn lease member) }

end Invariant

variable {d : Delivery} {code : String} {retryAfter : Int}

section Transactions

variable {T : String → Prop} {w w' : World}

theorem insertDelivery_keeps (good : Good T w) {id dest : String}
    (ran : insertDelivery id w dest = .ok w') : Keeps T w w' := by
  simp only [insertDelivery, bind_ok, reject_ok, pure_ok] at ran
  obtain ⟨_, fresh, rfl⟩ := ran
  have absent : w.deliveries[(id, dest)]? = none := by simpa using fresh
  have kept {key : Key} {row : Row} (there : w.deliveries[key]? = some row) :
      (w.deliveries.insert (id, dest) {})[key]? = some row := by
    rw [getElem?_insert_eq, if_neg]
    · exact there
    · rintro rfl
      rw [absent] at there
      cases there
  refine ⟨⟨Int.le_refl _, fun _ _ there => there, fun key row there =>
    ⟨row, kept there, fun _ => rfl⟩⟩, good.named, fun lease member => ?_, good.drawn, good.distinct,
    fun key => ?_, good.apart⟩
  · obtain ended | ⟨row, there, rest⟩ := good.owned lease member
    · exact .inl ended
    · exact .inr ⟨row, kept there, rest⟩
  · rw [good.counted key]
    dsimp only
    rw [getElem?_insert_eq]
    by_cases same : key = (id, dest)
    · simp [same, absent]
    · rw [if_neg same]

theorem insertAll_keeps {id : String} (destinations : List String) (good : Good T w)
    (ran : destinations.foldlM (insertDelivery id) w = .ok w') : Keeps T w w' := by
  induction destinations generalizing w with
  | nil =>
    obtain rfl : w = w' := Except.ok.inj ran
    exact ⟨.refl w, good⟩
  | cons dest rest ih =>
    rw [List.foldlM_cons] at ran
    obtain ⟨between, inserted, ran⟩ := (bind_ok ..).1 ran
    obtain ⟨first, kept⟩ := insertDelivery_keeps good inserted
    obtain ⟨second, kept'⟩ := ih kept ran
    exact ⟨first.trans second, kept'⟩

theorem capture_keeps {encoded : Record → Option Nat} {rec : Record} {destinations : List String}
    (good : Good T w) (ran : capture encoded rec destinations w = .ok w') : Keeps T w w' := by
  simp only [capture, bind_ok, reject_ok] at ran
  obtain ⟨_, -, _, -, _, -, _, fresh, ran⟩ := ran
  have absent : w.records[rec.eventID]? = none := by simpa using fresh
  have stored : Good T { w with records := w.records.insert rec.eventID rec } := by
    refine ⟨fun id found there => ?_, good.owned, good.drawn, good.distinct, good.counted, good.apart⟩
    dsimp only at there
    obtain ⟨same, rfl⟩ | ⟨-, there⟩ := insert_some.1 there
    · exact same.symm
    · exact good.named id found there
  obtain ⟨inserted, kept⟩ := insertAll_keeps _ stored ran
  have added : Advances w { w with records := w.records.insert rec.eventID rec } := by
    refine ⟨Int.le_refl _, fun id found there => ?_, fun key row there =>
      ⟨row, there, fun _ => rfl⟩⟩
    dsimp only
    rw [getElem?_insert_eq, if_neg]
    · exact there
    · rintro rfl
      rw [absent] at there
      cases there
  exact ⟨added.trans inserted, kept⟩

variable {locked : List Key}

theorem ready_mem {key : Key} {row : Row} {rec : Record}
    (member : (key, row, rec) ∈ ready w locked) :
    w.deliveries[key]? = some row ∧ w.records[key.1]? = some rec ∧ row.state = .pending ∧
      row.leaseUntil ≤ w.clock := by
  simp only [ready, List.mem_filter, List.mem_filterMap, Option.map_eq_some_iff, Prod.mk.injEq,
    decide_eq_true_eq] at member
  obtain ⟨⟨entry, listed, rec', found, rfl, rfl, rfl⟩, pending, -, free, -⟩ := member
  exact ⟨Std.ExtTreeMap.mem_toList_iff_getElem?_eq_some.1 listed, found, pending, free⟩

def Row.Holds (row : Row) (lease : Lease) : Prop :=
  row.state = .pending ∧ row.leaseToken = lease.token ∧ row.leaseUntil = lease.expires

variable {effects acknowledged : List Key}

theorem replace_keeps (good : Good T w) {key : Key} {row row' : Row} {leases : List Lease} (there : w.deliveries[key]? = some row)
    (undelivered : row.state ≠ .delivered)
    (others : ∀ lease ∈ leases, lease.key ≠ key → lease ∈ w.leases)
    (own : ∀ lease ∈ leases, lease.key = key → lease.expires ≤ w.clock ∨ row'.Holds lease)
    (drawn : ∀ lease ∈ leases, lease.token ∈ w.used) (distinct : (leases.map (·.token)).Nodup)
    (counted : ∀ other : Key, effects.count other + acknowledged.count other =
      w.effects.count other + w.acknowledged.count other +
        if other = key ∧ row'.state = .delivered then 1 else 0)
    (apart : ∀ key ∈ acknowledged, ¬ T key.2) :
    Keeps T w { w with
      deliveries := w.deliveries.insert key row', leases, effects, acknowledged } := by
  refine ⟨⟨Int.le_refl _, fun _ _ there => there, fun other old found => ?_⟩, good.named, ?_, drawn,
    distinct, fun other => ?_, apart⟩
  · dsimp only
    rw [getElem?_insert_eq]
    split
    · next same =>
      subst same
      obtain rfl := Option.some.inj (there.symm.trans found)
      exact ⟨row', rfl, fun done => absurd done undelivered⟩
    · exact ⟨old, found, fun _ => rfl⟩
  · intro lease listed
    dsimp only
    rw [getElem?_insert_eq]
    split
    · next same =>
      rcases own lease listed same with ended | held
      · exact .inl ended
      · exact .inr ⟨row', rfl, held⟩
    · next other => exact good.owned lease (others lease listed other)
  · dsimp only
    rw [counted other, good.counted other, getElem?_insert_eq]
    by_cases same : other = key
    · subst same
      simp [there, undelivered]
    · simp [same]

theorem claim_keeps {lease : Int} {token : String}
    (good : Good T w) (fresh : ∀ lease ∈ w.leases, lease.token ≠ token) (drawn : token ∈ w.used)
    (ran : claim lease token locked w = .ok (d, w')) : Keeps T w w' := by
  simp only [claim, bind_ok, reject_ok] at ran
  obtain ⟨_, -, ran⟩ := ran
  split at ran
  · cases ran
  · next key row rec first =>
    obtain ⟨-, rfl⟩ := Prod.mk.inj (Except.ok.inj ran)
    have member : (key, row, rec) ∈ ready w locked :=
      (Rows.perm_orderBy (ready w locked)).mem_iff.1 (List.mem_of_mem_head? first)
    obtain ⟨there, found, pending, free⟩ := ready_mem member
    have own : ((rec.eventID, key.2) : Key) = key := by
      rw [good.named key.1 rec found]
    simp only [own, updateRow, there]
    refine replace_keeps good there (by simp [pending]) ?_ ?_ ?_ ?_ ?_ good.apart
    · intro other listed elsewhere
      exact (List.mem_cons.1 listed).resolve_left fun same => elsewhere (by rw [same])
    · intro other listed same
      obtain rfl | old := List.mem_cons.1 listed
      · exact .inr ⟨pending, rfl, rfl⟩
      · obtain ended | ⟨held, present, -, -, expires⟩ := good.owned other old
        · exact .inl ended
        · rw [same, there] at present
          obtain rfl := Option.some.inj present
          exact .inl (expires ▸ free)
    · intro other listed
      obtain rfl | old := List.mem_cons.1 listed
      · exact drawn
      · exact good.drawn other old
    · rw [List.map_cons, List.nodup_cons]
      refine ⟨fun clash => ?_, good.distinct⟩
      obtain ⟨other, listed, same⟩ := List.mem_map.1 clash
      exact fresh other listed same
    · simp [pending]

theorem finish_ok (ran : finish d code retryAfter w = .ok w') :
    ∃ state row row', stateOf code = some state ∧
      w.deliveries[((d.record.eventID, d.destination) : Key)]? = some row ∧
      row.leaseToken = d.token ∧ w.clock < row.leaseUntil ∧ row.state = .pending ∧
      row'.state = state ∧
      w' = { w with
        deliveries := w.deliveries.insert (d.record.eventID, d.destination) row'
        leases := w.leases.filter fun lease =>
          ¬ (lease.key = (d.record.eventID, d.destination) ∧ lease.token = d.token) } := by
  unfold finish at ran
  split at ran
  · cases ran
  · next state named =>
    obtain ⟨_, -, ran⟩ := (bind_ok ..).1 ran
    unfold finishRow at ran
    dsimp only at ran
    split at ran
    · cases ran
    · next row there =>
      split at ran
      · next held =>
        obtain rfl := Except.ok.inj ran
        exact ⟨state, row, _, named, there, held.1, held.2.1, held.2.2, rfl, rfl⟩
      · cases ran

theorem stateOf_delivered : stateOf code = some .delivered ↔ code = "" := by
  unfold stateOf
  split_ifs <;> simp_all

theorem finish_keeps (good : Good T w) (ran : finish d code retryAfter { w with effects } = .ok w')
    (counted : ∀ key : Key, effects.count key + acknowledged.count key =
      w.effects.count key + w.acknowledged.count key +
        if key = (d.record.eventID, d.destination) ∧ code = "" then 1 else 0)
    (apart : ∀ key ∈ acknowledged, ¬ T key.2) : Keeps T w { w' with acknowledged } := by
  obtain ⟨state, row, row', named, there, token, early, pending, changed, rfl⟩ := finish_ok ran
  have delivered : row'.state = .delivered ↔ code = "" := by
    rw [changed, ← stateOf_delivered, named, Option.some.injEq]
  refine replace_keeps good there (by simp [pending]) ?_ ?_ ?_ ?_ ?_ apart
  · exact fun lease listed _ => (List.mem_filter.1 listed).1
  · intro lease listed same
    obtain ⟨listed, other⟩ := List.mem_filter.1 listed
    obtain ended | ⟨held, present, -, holder, -⟩ := good.owned lease listed
    · exact .inl ended
    · rw [same] at present
      obtain rfl := Option.some.inj (there.symm.trans present)
      exact absurd ⟨same, holder.symm.trans token⟩ (of_decide_eq_true other)
  · exact fun lease listed => good.drawn lease (List.mem_filter.1 listed).1
  · exact (List.filter_sublist.map _).nodup good.distinct
  · simpa only [delivered] using counted

theorem retry_keeps {eventID destination : String} (good : Good T w)
    (ran : retry eventID destination w = .ok w') : Keeps T w w' := by
  simp only [retry, bind_ok, reject_ok] at ran
  obtain ⟨_, -, ran⟩ := ran
  split at ran
  · cases ran
  · next row there =>
    split at ran
    · next waiting =>
      obtain ⟨state, free⟩ := waiting
      obtain rfl := Except.ok.inj ran
      have undelivered : row.state ≠ .delivered := by
        rcases state with state | state <;> simp [state]
      refine replace_keeps good there undelivered (fun _ listed _ => listed) ?_ good.drawn
        good.distinct (by simp) good.apart
      intro lease listed same
      obtain ended | ⟨held, present, -, -, expires⟩ := good.owned lease listed
      · exact .inl ended
      · rw [same, there] at present
        obtain rfl := Option.some.inj present
        exact .inl (expires ▸ free)
    · cases ran

end Transactions

section Exec

variable {T : String → Prop} {w w' : World} {encoded : Record → Option Nat}

def Needs (T : String → Prop) : Action → World → Prop
  | .finish d code _, _ => code = "" → ¬ T d.destination
  | _, _ => True

theorem transact_keeps {A : Type} {choice : Choice} (good : Good T w)
    (later : w.clock ≤ choice.clock) {tx : World → Except Failure (A × World)}
    {result : Except Failure A} (performed : transact choice w tx = (result, w'))
    (each : ∀ value after, tx { w with clock := choice.clock } = .ok (value, after) →
      Keeps T { w with clock := choice.clock } after) : Keeps T w w' := by
  have ticked : Keeps T w { w with clock := choice.clock } :=
    ⟨⟨later, fun _ _ there => there, fun _ row there => ⟨row, there, fun _ => rfl⟩⟩, good.tick later⟩
  unfold transact at performed
  dsimp only at performed
  split at performed
  · obtain ⟨-, rfl⟩ := Prod.mk.inj performed
    exact ticked
  · split at performed
    · obtain ⟨-, rfl⟩ := Prod.mk.inj performed
      exact ticked
    · next value after ran =>
      obtain ⟨-, rfl⟩ := Prod.mk.inj performed
      obtain ⟨advanced, kept⟩ := each value after ran
      exact ⟨ticked.1.trans advanced, kept⟩

theorem quiet_ok {r : Except Failure World} {value : Unit} {after : World}
    (ran : quiet r = .ok (value, after)) : r = .ok after := by
  cases r with
  | error failure => cases ran
  | ok w => exact congrArg Except.ok (Prod.mk.inj (Except.ok.inj ran)).2

theorem count_cons_key (key other : Key) (rest : List Key) :
    (other :: rest).count key = rest.count key + if key = other then 1 else 0 := by
  rw [List.count_cons]
  by_cases same : key = other
  · simp [same]
  · simp [same, Ne.symm same]

theorem acknowledge_keeps (good : Good T w) (needed : code = "" → ¬ T d.destination)
    (ran : acknowledge d code retryAfter w = .ok w') : Keeps T w w' := by
  obtain ⟨between, finished, ran⟩ := (bind_ok ..).1 ran
  obtain rfl := Except.ok.inj ran
  refine finish_keeps good finished (fun key => ?_) fun key listed => ?_
  · by_cases acknowledged : code = ""
    · simp only [acknowledged, if_true, and_true, count_cons_key]
      omega
    · simp [acknowledged]
  · split at listed
    · next acknowledged =>
      obtain rfl | old := List.mem_cons.1 listed
      · exact needed acknowledged
      · exact good.apart key old
    · exact good.apart key listed

theorem applyEffect_keeps {sends : Bool} (good : Good T w)
    (ran : applyEffect sends d w = .ok w') : Keeps T w w' := by
  obtain ⟨_, -, finished⟩ := (bind_ok ..).1 ran
  have kept := finish_keeps good finished (fun key => ?_) good.apart
  · obtain ⟨_, _, _, -, -, -, -, -, -, rfl⟩ := finish_ok finished
    exact kept
  · simp only [count_cons_key, and_true]
    omega

theorem exec_keeps : Stepwise (exec encoded) Advances (Good T) (Needs T) fun _ _ _ => True where
  keeps action choice w answer after good needed performed := by
    suffices keeps : Keeps T w after from ⟨keeps.1, keeps.2, trivial⟩
    unfold exec at performed
    split at performed
    · cases performed
    next forward =>
    have later : w.clock ≤ choice.clock := Int.not_lt.1 forward
    have ticked := good.tick later
    cases action with
    | capture rec destinations =>
      exact transact_keeps good later (Option.some.inj performed) fun _ _ ran =>
        capture_keeps ticked (quiet_ok ran)
    | claim lease =>
      dsimp only [perform] at performed
      split at performed
      · cases performed
      next fresh =>
      have unused : choice.token ∉ w.used := fun used => fresh (.inr used)
      have drawn := good.draw choice.token
      obtain ⟨advanced, kept⟩ := transact_keeps drawn later (Option.some.inj performed)
        fun _ _ ran => claim_keeps (drawn.tick later)
          (fun lease listed same => unused (by rw [← same]; exact good.drawn lease listed)) (by simp)
          ran
      exact ⟨⟨advanced.clock, advanced.records, advanced.rows⟩, kept⟩
    | finish d code retryAfter =>
      exact transact_keeps good later (Option.some.inj performed) fun _ _ ran =>
        acknowledge_keeps ticked needed (quiet_ok ran)
    | apply d =>
      exact transact_keeps good later (Option.some.inj performed) fun _ _ ran =>
        applyEffect_keeps ticked (quiet_ok ran)
    | retry eventID destination =>
      exact transact_keeps good later (Option.some.inj performed) fun _ _ ran =>
        retry_keeps ticked (quiet_ok ran)
    | resolve | send | stopping =>
      obtain ⟨-, rfl⟩ := answered performed
      exact ⟨.refl w, good⟩
    | jitter bound =>
      dsimp only [perform] at performed
      split at performed
      · obtain ⟨-, rfl⟩ := answered performed
        exact ⟨.refl w, good⟩
      · cases performed

end Exec

section Calls

variable {T : String → Prop} {w : World} {encoded : Record → Option Nat} {A B : Type}
  {post : B → World → Prop}

abbrev Runs (encoded : Record → Option Nat) (T : String → Prop) (p : Handler A)
    (post : A → World → Prop) (w : World) : Prop :=
  Safe (exec encoded) Advances (Good T) p post w

theorem runs_ask {action : Action} {next : Answer action → Handler B}
    (needed : ∀ found, Needs T action found)
    (rest : ∀ answer after, Runs encoded T (next answer) post after) :
    Runs encoded T (ask action >>= next) post w :=
  exec_keeps.invoke (fun found _ => needed found) fun answer after _ _ => rest answer after

theorem runs_pure {value : A} {post : A → World → Prop} (holds : post value w) :
    Runs encoded T (pure value) post w :=
  holds

def Respects (T : String → Prop) : Request → Prop
  | .finish d code _ => code = "" → ¬ T d.destination
  | .step worker => ∀ dest, T dest →
    dest ∈ worker.transactional ∨ (dest ∉ worker.destinations ∧ worker.resolves = false)
  | _ => True

theorem spread_runs (d : Delivery) (delay : Int) :
    Runs encoded T (spread d delay) (fun _ _ => True) w := by
  unfold spread
  split
  · exact runs_ask (fun _ => trivial) fun _ _ => runs_pure trivial
  · exact runs_pure trivial

theorem attempt_runs (d : Delivery) : Runs encoded T (attempt d) (fun _ _ => True) w := by
  refine runs_ask (fun _ => trivial) fun err after => ?_
  split
  · exact safe_pure.2 fun _ _ => trivial
  · exact safe_bind.2 ((spread_runs d _).mono fun _ _ _ _ => runs_pure trivial)

theorem tryDelivery_runs (worker : Worker) (d : Delivery)
    (none : T d.destination → d.destination ∉ worker.destinations ∧ worker.resolves = false) :
    Runs encoded T (worker.tryDelivery d) (fun result _ => result.1 = "" → ¬ T d.destination) w := by
  have known : Runs encoded T (worker.hasSender d.destination)
      (fun known _ => known = true → ¬ T d.destination) w := by
    unfold Worker.hasSender
    split
    · next listed => exact runs_pure fun _ own => (none own).1 listed
    · split
      · next resolves =>
        have other : ¬ T d.destination := fun own => by
          rw [(none own).2] at resolves
          cases resolves
        exact runs_ask (fun _ => trivial) fun _ _ => safe_pure.2 fun _ _ _ => other
      · exact runs_pure fun absurd_ => by cases absurd_
  refine safe_bind.2 (known.mono fun known after _ sender => ?_)
  cases known with
  | true => exact (attempt_runs d).mono fun _ _ _ _ _ => sender rfl
  | false => exact runs_pure fun code => absurd code (by decide)

theorem step_runs (worker : Worker) (respects : Respects T (.step worker)) :
    Runs encoded T worker.step (fun _ _ => True) w := by
  refine safe_early fun _ _ => safe_early fun _ _ => runs_ask (fun _ => trivial) fun claimed after => ?_
  refine safe_early fun d _ => ?_
  split
  · exact runs_ask (fun _ => trivial) fun _ _ => safe_pure.2 fun _ _ => trivial
  · next network =>
    have none (own : T d.destination) := (respects d.destination own).resolve_left network
    refine safe_bind.2 ((tryDelivery_runs worker d none).mono fun result after _ allowed => ?_)
    refine runs_ask (fun _ => trivial) fun stopping after => safe_early fun _ _ => ?_
    exact runs_ask (fun _ => allowed) fun _ _ => safe_pure.2 fun _ _ => trivial

theorem handle_runs (request : Request) (respects : Respects T request) :
    Runs encoded T (handle request) (fun _ _ => True) w := by
  cases request with
  | capture | retry =>
    exact runs_ask (fun _ => trivial) fun _ _ => safe_pure.2 fun _ _ => trivial
  | claim lease => exact runs_ask (fun _ => trivial) fun _ _ => safe_pure.2 fun _ _ => trivial
  | finish d code retryAfter =>
    exact runs_ask (fun _ => respects) fun _ _ => safe_pure.2 fun _ _ => trivial
  | step worker => exact step_runs worker respects

theorem disciplined (encoded : Record → Option Nat) (T : String → Prop) :
    Disciplined (exec encoded) Advances (Good T)
      (fun request : { request // Respects T request } => (handle request.1).run)
      fun _ _ => True where
  reflexive := fun w _ => .refl w
  starts := fun request _ _ => Meets.mono (handle_runs request.1 request.2) fun _ _ _ => trivial
  stable := fun _ _ _ _ _ => trivial

end Calls

section Runs

variable (encoded : Record → Option Nat)

/-- One move: a call begins, or one under way performs its next action. A call that makes no more
moves has crashed. -/
def step (c : System) (m : Move Request Choice) : System :=
  move (exec encoded) (fun request => (handle request).run) c m

def stepWith (T : String → Prop) (c : System) (m : Move { r : Request // Respects T r } Choice) :
    System :=
  move (exec encoded) (fun request : { r : Request // Respects T r } => (handle request.1).run) c m

def start (clock : Int) : System := { world := { clock } }

theorem start_kept (T : String → Prop) (clock : Int) :
    Kept (exec encoded) Advances (Good T) (fun _ _ => True) (start clock) :=
  ⟨⟨by simp [start], by simp [start], by simp [start], by simp [start], by simp [start],
    by simp [start]⟩, by simp [start]⟩

def Finishes (d : Delivery) : Action → Prop
  | .finish found _ _ | .apply found => found = d
  | _ => False

structure Outbox (T : String → Prop) (before after : World) : Prop where
  lease : ∀ a ∈ after.leases, ∀ b ∈ after.leases, a.key = b.key → after.clock < a.expires →
    after.clock < b.expires → a = b
  tokens : (after.leases.map (·.token)).Nodup
  finish : ∀ action d choice answer next, Finishes d action →
    exec encoded action choice after = some (answer, next) →
    ∀ key : Key, next.deliveries[key]? ≠ after.deliveries[key]? →
      key = (d.record.eventID, d.destination) ∧ ∃ row, after.deliveries[key]? = some row ∧
        row.leaseToken = d.token ∧ choice.clock < row.leaseUntil ∧ row.state = .pending
  kept : ∀ (key : Key) (row : Row), before.deliveries[key]? = some row →
    ∃ row', after.deliveries[key]? = some row' ∧ (row.state = .delivered → row' = row)
  effects : ∀ id dest, T dest → after.effects.count (id, dest) =
    if (after.deliveries[((id, dest) : Key)]?).any (fun row => row.state = .delivered) then 1 else 0

variable {w : World}

theorem transact_changes {choice : Choice} {next : World}
    {result : Except Failure Unit} {tx : World → Except Failure World}
    (performed : transact choice w (fun w => quiet (tx w)) = (result, next))
    (finishes : ∀ w after, tx w = .ok after → ∃ code retryAfter effects between,
      finish d code retryAfter { w with effects } = .ok between ∧
        after.deliveries = between.deliveries)
    {key : Key} (changed : next.deliveries[key]? ≠ w.deliveries[key]?) :
    key = (d.record.eventID, d.destination) ∧ ∃ row, w.deliveries[key]? = some row ∧
      row.leaseToken = d.token ∧ choice.clock < row.leaseUntil ∧ row.state = .pending := by
  unfold transact at performed
  dsimp only at performed
  split at performed
  · obtain ⟨-, rfl⟩ := Prod.mk.inj performed
    exact absurd rfl changed
  · split at performed
    · obtain ⟨-, rfl⟩ := Prod.mk.inj performed
      exact absurd rfl changed
    · next value after committed =>
      obtain ⟨-, rfl⟩ := Prod.mk.inj performed
      obtain ⟨code, retryAfter, effects, between, finished, same⟩ :=
        finishes _ _ (quiet_ok committed)
      obtain ⟨_, row, row', -, there, token, early, pending, -, rfl⟩ := finish_ok finished
      rw [same] at changed
      dsimp only at changed
      rw [getElem?_insert_eq] at changed
      split at changed
      · next same =>
        subst same
        exact ⟨rfl, row, there, token, early, pending⟩
      · exact absurd rfl changed

theorem reflTransGen_advances {w' : World} (since : ReflTransGen Advances w w') :
    Advances w w' := by
  induction since with
  | refl => exact .refl w
  | tail _ last ih => exact ih.trans last

theorem outbox_fenced (T : String → Prop) (clock : Int)
    (earlier later : List (Move { r : Request // Respects T r } Choice)) :
    Outbox encoded T (run (stepWith encoded T) (start clock) earlier).world
      (run (stepWith encoded T) (start clock) (earlier ++ later)).world := by
  have kept := run_kept (disciplined encoded T) (start_kept encoded T clock) earlier
  have since := reflTransGen_advances (run_later (disciplined encoded T) kept later)
  have good : Good T (run (stepWith encoded T) (run (stepWith encoded T) (start clock) earlier)
      later).world := (run_kept (disciplined encoded T) kept later).1
  rw [run_append]
  refine ⟨?_, good.distinct, ?_, since.rows, ?_⟩
  · intro a listed b listed' same early early'
    obtain ended | ⟨row, there, -, token, -⟩ := good.owned a listed
    · exact absurd early (Int.not_lt.2 ended)
    obtain ended | ⟨row', there', -, token', -⟩ := good.owned b listed'
    · exact absurd early' (Int.not_lt.2 ended)
    rw [same, there'] at there
    obtain rfl := Option.some.inj there
    exact List.inj_on_of_nodup_map good.distinct listed listed' (token.symm.trans token')
  · intro action d choice answer next finishes performed key changed
    unfold exec at performed
    split at performed
    · cases performed
    cases action with
    | finish found code retryAfter =>
      obtain rfl : found = d := finishes
      refine transact_changes (Option.some.inj performed) (fun w after ran => ?_) changed
      obtain ⟨between, finished, same⟩ := (bind_ok ..).1 ran
      obtain rfl := Except.ok.inj same
      exact ⟨code, retryAfter, w.effects, between, finished, rfl⟩
    | apply found =>
      obtain rfl : found = d := finishes
      refine transact_changes (Option.some.inj performed) (fun w after ran => ?_) changed
      obtain ⟨_, -, finished⟩ := (bind_ok ..).1 ran
      exact ⟨"", 0, _, after, finished, rfl⟩
    | _ => exact finishes.elim
  · intro id dest own
    rw [← good.counted (id, dest)]
    exact (Nat.add_eq_left.2 (List.count_eq_zero.2 fun listed => good.apart _ listed own)).symm

def sampleRecord : Record := { eventID := "e", type := "t", time := 1 }

-- The first worker's transaction is lost; a second worker claims the delivery when its lease ends.
example :
    let worker : Request := .step { transactional := ["audit"] }
    let w := (run (step fun _ => some 1) (start 0)
      [.start (.capture sampleRecord ["audit"]), .advance 0 { clock := 1 },
        .start worker, .advance 1 { clock := 2, token := "k" },
        .advance 1 { clock := 3, fault := .lost },
        .start worker, .advance 2 { clock := 21000002, token := "l" },
        .advance 2 { clock := 21000003 }]).world
    (w.deliveries[(("e", "audit") : Key)]?).map (·.state) = some .delivered ∧
      w.effects = [("e", "audit")] := by
  decide +kernel

def sampleDelivery : Delivery :=
  { record := sampleRecord, destination := "audit", token := "k", attempts := 1 }

theorem outbox_by_hand :
    let moves : List (Move Request Choice) :=
      [.start (.capture sampleRecord ["audit"]), .advance 0 { clock := 1 },
        .start (.claim 1000000), .advance 1 { clock := 2, token := "k" },
        .start (.finish sampleDelivery "" 0), .advance 2 { clock := 3 }]
    let w := (run (step fun _ => some 1) (start 0) moves).world
    (w.deliveries[(("e", "audit") : Key)]?).map (·.state) = some .delivered ∧ w.effects = [] := by
  decide +kernel

end Runs

end AppleDM.EventStore
