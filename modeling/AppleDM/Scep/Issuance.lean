import AppleDM.Scep.Single

set_option autoImplicit false

namespace AppleDM.Scep

open Mdm Pki Checked Process State Relation Run Evolution

variable {Ext Policy : Type}

def clockAt : Move (Request Policy) (Choice Ext) → Option Time
  | .start _ => none
  | .advance _ choice => some choice.now

def Forward (moves : List (Move (Request Policy) (Choice Ext))) : Prop :=
  (moves.filterMap clockAt).Pairwise (· ≤ ·)

instance (moves : List (Move (Request Policy) (Choice Ext))) : Decidable (Forward moves) :=
  inferInstanceAs (Decidable (List.Pairwise _ _))

def signs (p : String) (c : System Policy) (m : Move (Request Policy) (Choice Ext)) :
    Option Time :=
  match m with
  | .start _ => none
  | .advance n choice =>
    match c.pool[n]? with
    | some (.act (.receipt q _ _) _) => if q = p then some choice.now else none
    | _ => none

def World.expiries (w : World) (p : String) : List Time :=
  w.log.filterMap fun event => match event with
    | .issued q _ cert => if q = p then some cert.notAfter else none
    | _ => none

def InTime (p : String) (c : System Policy) (m : Move (Request Policy) (Choice Ext)) : Prop :=
  ∀ now ∈ signs p c m, ∀ expiry ∈ c.world.expiries p, now < expiry

instance (p : String) (c : System Policy) (m : Move (Request Policy) (Choice Ext)) :
    Decidable (InTime p c m) :=
  inferInstanceAs (Decidable (∀ now ∈ signs p c m, ∀ expiry ∈ c.world.expiries p, now < expiry))

variable {csr : Csr}

section Identical

variable (s : Config Ext Policy) (p : String)

def Recorded (w : World) : Prop :=
  ∀ csr cert, .issued p csr cert ∈ w.log → ∃ csr' cert', .issued p csr' cert' ∈ w.log ∧
    w.records[certificateKey s p csr]? = some ⟨.certificate cert.raw, cert'.notAfter⟩

structure Identical (now : Time) (w : World) : Prop where
  same : ∀ csr csr' cert cert', .issued p csr cert ∈ w.log → .issued p csr' cert' ∈ w.log →
    cert.raw = cert'.raw
  fixed : (∃ csr cert, .issued p csr cert ∈ w.log ∧ cert.notAfter ≤ now) ∨ Recorded s p w

variable {s p} {w w' : World} {now now' : Time}

theorem Identical.frame (identical : Identical s p now w) (later : now ≤ now')
    (log : ∀ csr cert, .issued p csr cert ∈ w'.log ↔ .issued p csr cert ∈ w.log)
    (records : ∀ csr, w'.records[certificateKey s p csr]? = w.records[certificateKey s p csr]?) :
    Identical s p now' w' := by
  refine ⟨fun csr csr' cert cert' first second =>
    identical.same csr csr' cert cert' ((log _ _).1 first) ((log _ _).1 second), ?_⟩
  obtain ⟨csr, cert, given, old⟩ | recorded := identical.fixed
  · exact .inl ⟨csr, cert, (log _ _).2 given, old.trans later⟩
  · refine .inr fun csr cert given => ?_
    obtain ⟨csr', cert', given', there⟩ := recorded csr cert ((log _ _).1 given)
    exact ⟨csr', cert', (log _ _).2 given', (records csr).trans there⟩

theorem Identical.prune (identical : Identical s p now w) (later : now ≤ now') (limit : Int)
    (order : List String) :
    Identical s p now' { w with records := (w.records.prune now' limit order).2 } := by
  refine ⟨identical.same, ?_⟩
  obtain ⟨csr, cert, given, old⟩ | recorded := identical.fixed
  · exact .inl ⟨csr, cert, given, old.trans later⟩
  -- Either no record of the challenge was deleted, or the one that was had expired.
  by_cases gone : ∃ csr cert, .issued p csr cert ∈ w.log ∧
      (w.records.prune now' limit order).2[certificateKey s p csr]? ≠
        w.records[certificateKey s p csr]?
  · obtain ⟨csr, cert, given, changed⟩ := gone
    obtain ⟨csr', cert', given', there⟩ := recorded csr cert given
    obtain kept | ⟨-, record, found, -, expired⟩ :=
      Memory.prune_cases w.records now' limit order (certificateKey s p csr)
    · exact absurd kept changed
    · rw [there] at found
      obtain rfl := Option.some.inj found
      exact .inl ⟨csr', cert', given', expired⟩
  · refine .inr fun csr cert given => ?_
    obtain ⟨csr', cert', given', there⟩ := recorded csr cert given
    refine ⟨csr', cert', given', ?_⟩
    rw [← there]
    by_contra changed
    exact gone ⟨csr, cert, given, changed⟩

theorem Identical.receipt (good : Good s w) (identical : Identical s p now w) (later : now ≤ now')
    (inTime : ∀ expiry ∈ w.expiries p, now' < expiry) {cert : X509}
    (checked : ∃ at_, .verified p csr.raw at_ ∈ w.log)
    (kept : ∀ raw expiresAt,
      w.records[certificateKey s p csr]? = some ⟨.certificate raw, expiresAt⟩ → cert.raw = raw) :
    Identical s p now' { w with
      records := w.records.insert (certificateKey s p csr) ⟨.certificate cert.raw, cert.notAfter⟩
      log := .issued p csr cert :: w.log } := by
  obtain ⟨csr₀, cert₀, given, old⟩ | recorded := identical.fixed
  · have expires : cert₀.notAfter ∈ w.expiries p := List.mem_filterMap.2 ⟨_, given, by simp⟩
    exact absurd (old.trans later) (not_le.2 (inTime _ expires))
  obtain ⟨at_, checked⟩ := checked
  -- The request is the same as before, so its receipt is under the same key.
  have sameKey {csr' : Csr} {cert' : X509} (given : .issued p csr' cert' ∈ w.log) :
      certificateKey s p csr' = certificateKey s p csr := by
    obtain ⟨-, at', checked'⟩ := good.issued p csr' cert' given
    have raw := good.same p _ _ _ _ checked' checked
    simp only [certificateKey, raw]
  have sameRaw {csr' : Csr} {cert' : X509} (given : .issued p csr' cert' ∈ w.log) :
      cert.raw = cert'.raw := by
    obtain ⟨csr'', cert'', -, there⟩ := recorded csr' cert' given
    exact kept _ _ (sameKey given ▸ there)
  refine ⟨?_, .inr ?_⟩
  · intro csr₁ csr₂ cert₁ cert₂ first second
    obtain new | given := List.mem_cons.1 first
    · cases new
      obtain new' | given' := List.mem_cons.1 second
      · cases new'
        rfl
      · exact sameRaw given'
    · obtain new' | given' := List.mem_cons.1 second
      · cases new'
        exact (sameRaw given).symm
      · exact identical.same csr₁ csr₂ cert₁ cert₂ given given'
  · intro csr' cert' entry
    refine ⟨csr, cert, List.mem_cons_self .., ?_⟩
    obtain new | given := List.mem_cons.1 entry
    · cases new
      rw [getElem?_insert_eq, if_pos rfl]
    · rw [sameKey given, getElem?_insert_eq, if_pos rfl, sameRaw given]

theorem Identical.granting {A : Type} (identical : Identical s p now w) (later : now ≤ now')
    {used : List String} (q : String)
    {fn : Memory Value → Except Failure (A × Memory Value)} {event : A → Event}
    (other : ∀ value q csr cert, event value ≠ .issued q csr cert)
    (writes : ∀ value m, fn w.records = .ok (value, m) →
      ∃ record, m = w.records.insert (grantKey s q) record)
    (keys : List String) :
    Identical s p now'
      ({ w with used }.after (w.records.update (.state .invalid) keys fn) event) := by
  obtain ⟨value, m, ran, same⟩ | ⟨failure, same⟩ :=
    Memory.update_cases w.records (.state .invalid) keys fn
  · rw [same]
    obtain ⟨record, rfl⟩ := writes value m ran
    refine identical.frame later (fun csr cert => ?_) fun csr => ?_
    · exact ⟨fun member => (List.mem_cons.1 member).resolve_left (other _ _ _ _).symm,
        fun member => List.mem_cons_of_mem _ member⟩
    · rw [World.after, getElem?_insert_eq, if_neg (grantKey_ne_certificateKey q p csr).symm]
  · rw [same]
    exact identical.frame later (fun _ _ => .rfl) fun _ => rfl

theorem exec_identical (good : Good s w) (after : Good s w') {action : Action Policy}
    (identical : Identical s p now w) {choice : Choice Ext} (later : now ≤ choice.now)
    (inTime : ∀ csr policy, action = .receipt p csr policy →
      ∀ expiry ∈ w.expiries p, choice.now < expiry)
    {answer : Answer action} (performed : exec s action choice w = some (answer, w')) :
    Identical s p choice.now w' := by
  have idle : Identical s p choice.now w := identical.frame later (fun _ _ => .rfl) fun _ => rfl
  cases action with
  | putGrant g =>
    obtain ⟨-, -, rfl⟩ := answered_unless performed
    refine identical.granting later (Base64.encodeToString choice.secret) (by simp)
      (fun value m ran => ?_) _
    obtain ⟨-, -, rfl⟩ := putGrant_ok ran
    exact ⟨_, rfl⟩
  | reserve q authorized csr =>
    obtain ⟨-, rfl⟩ := answered performed
    refine identical.granting later q (by simp) (fun value m ran => ?_) _
    obtain ⟨_, _, _, -, -, -, -, -, -, rfl⟩ := reserve_ok ran
    exact ⟨_, rfl⟩
  | receipt q csr policy =>
    obtain ⟨-, rfl⟩ := answered performed
    obtain ⟨cert, m, ran, same⟩ | ⟨failure, same⟩ := Memory.update_cases w.records
      (.state .invalid) [certificateKey s q csr]
      (receipt s choice.now choice.ext (certificateKey s q csr) csr policy)
    · rw [same]
      obtain ⟨-, -, rfl, kept⟩ := receipt_ok ran
      by_cases mine : q = p
      · subst mine
        rw [same] at after
        obtain ⟨-, at_, checked⟩ := after.issued q csr cert (List.mem_cons_self ..)
        have checked := (List.mem_cons.1 checked).resolve_left (by simp)
        exact identical.receipt good later (inTime csr policy rfl) ⟨at_, checked⟩ kept
      · refine identical.frame later (fun csr' cert' => ?_) fun csr' => ?_
        · refine ⟨fun member => (List.mem_cons.1 member).resolve_left ?_,
            fun member => List.mem_cons_of_mem _ member⟩
          intro new
          exact mine (Event.issued.inj new).1.symm
        · rw [World.after, getElem?_insert_eq, if_neg]
          exact fun key => mine (certificateKey_injective key).1.symm
    · rw [same]
      exact idle
  | prune limit =>
    obtain ⟨-, rfl⟩ := answered performed
    exact identical.prune later limit choice.order
  | _ =>
    obtain ⟨-, rfl⟩ := answered performed
    exact idle

theorem step_identical {c : System Policy}
    (kept : Kept (exec s) (Advances s) (Good s) Answered c)
    (identical : Identical s p now c.world) (m : Move (Request Policy) (Choice Ext))
    (later : ∀ t ∈ clockAt m, now ≤ t) (inTime : InTime p c m) :
    Identical s p ((clockAt m).getD now) (step s c m).world := by
  obtain same | ⟨n, choice, action, next, answer, rfl, there, performed⟩ :=
    move_world (exec s) (fun request => (handle s request).run) c m
  · unfold step
    rw [same]
    refine identical.frame ?_ (fun _ _ => .rfl) fun _ => rfl
    cases clock : clockAt m with
    | none => exact le_refl now
    | some t => exact later t clock
  · have own := kept.2 _ (List.mem_of_getElem? there) c.world .refl kept.1 choice answer _ performed
    refine exec_identical kept.1 own.2.1 identical (later _ rfl) (fun csr policy same => ?_) performed
    subst same
    exact inTime choice.now (by simp [signs, there])

theorem run_identical {c : System Policy}
    (kept : Kept (exec s) (Advances s) (Good s) Answered c)
    (identical : Identical s p now c.world) {moves : List (Move (Request Policy) (Choice Ext))}
    (later : ∀ t ∈ moves.filterMap clockAt, now ≤ t) (forward : Forward moves)
    (inTime : ∀ entry ∈ history (step s) c moves, InTime p entry.1 entry.2) :
    ∃ last, Identical s p last (run (step s) c moves).world := by
  induction moves generalizing c now with
  | nil => exact ⟨now, identical⟩
  | cons m rest ih =>
    simp only [history_cons, List.mem_cons, forall_eq_or_imp] at inTime
    have next := step_identical kept identical m
      (fun t clock => later t (List.mem_filterMap.2 ⟨m, List.mem_cons_self .., clock⟩)) inTime.1
    have kept := (move_kept (disciplined s) kept m).2
    unfold Forward at forward
    cases clock : clockAt m with
    | none =>
      rw [List.filterMap_cons_none clock] at later forward
      rw [clock] at next
      exact ih kept next later forward inTime.2
    | some t =>
      rw [List.filterMap_cons_some clock] at forward
      rw [clock] at next
      exact ih kept next (List.pairwise_cons.1 forward).1 (List.pairwise_cons.1 forward).2 inTime.2

end Identical

section Runs

variable (s : Config Ext Policy) (moves : List (Move (Request Policy) (Choice Ext)))

theorem start_kept : Kept (exec s) (Advances s) (Good s) Answered (start : System Policy) := by
  refine ⟨⟨?_, ?_, ?_, ?_, ?_, ?_⟩, ?_⟩ <;> simp [start]

theorem run_good : Good s (run (step s) start moves).world :=
  (run_kept (disciplined s) (start_kept s) moves).1

variable {s moves} {cert : X509} {p : String}

theorem returned_issued (member : .certificate p csr cert ∈ returned (run (step s) start moves)) :
    .issued p csr cert ∈ (run (step s) start moves).world.log := by
  obtain ⟨proc, there, shown⟩ := List.mem_filterMap.1 member
  have met := (run_kept (disciplined s) (start_kept s) moves).2 proc there
  match proc, shown, met with
  | .done (.ok response), shown, met =>
    obtain rfl := Option.some.inj shown
    exact met _ rfl

theorem exec_issued {w w' : World} {action : Action Policy} {choice : Choice Ext}
    {answer : Answer action} (performed : exec s action choice w = some (answer, w')) (given : .issued p csr cert ∈ w'.log) :
    .issued p csr cert ∈ w.log ∨
      w'.records[certificateKey s p csr]? = some ⟨.certificate cert.raw, cert.notAfter⟩ := by
  have other {A : Type} {w : World} {result : Except Failure A × Memory Value}
      {event : A → Event} (none : ∀ value q csr cert, event value ≠ .issued q csr cert)
      (given : .issued p csr cert ∈ (w.after result event).log) : .issued p csr cert ∈ w.log := by
    unfold World.after at given
    dsimp only at given
    split at given
    · exact (List.mem_cons.1 given).resolve_left (none _ _ _ _).symm
    · exact given
  cases action with
  | putGrant g =>
    obtain ⟨-, -, rfl⟩ := answered_unless performed
    exact .inl (other (by simp) given)
  | reserve q authorized csr' =>
    obtain ⟨-, rfl⟩ := answered performed
    exact .inl (other (by simp) given)
  | receipt q csr' policy =>
    obtain ⟨-, rfl⟩ := answered performed
    obtain ⟨cert', m, ran, same⟩ | ⟨failure, same⟩ := Memory.update_cases w.records
      (.state .invalid) [certificateKey s q csr']
      (receipt s choice.now choice.ext (certificateKey s q csr') csr' policy)
    · rw [same] at given ⊢
      obtain ⟨-, -, rfl, -⟩ := receipt_ok ran
      obtain new | old := List.mem_cons.1 given
      · cases new
        exact .inr (by rw [World.after, getElem?_insert_eq, if_pos rfl])
      · exact .inl old
    · rw [same] at given
      exact .inl given
  | _ =>
    obtain ⟨-, rfl⟩ := answered performed
    exact .inl given

theorem step_issued (c : System Policy) (m : Move (Request Policy) (Choice Ext)) (given : .issued p csr cert ∈ (step s c m).world.log) :
    .issued p csr cert ∈ c.world.log ∨
      (step s c m).world.records[certificateKey s p csr]? =
        some ⟨.certificate cert.raw, cert.notAfter⟩ := by
  obtain same | ⟨n, choice, action, next, answer, -, -, performed⟩ :=
    move_world (exec s) (fun request => (handle s request).run) c m
  · exact .inl (same ▸ given)
  · exact exec_issued performed given

theorem issued_recorded (given : .issued p csr cert ∈ (run (step s) start moves).world.log) :
    ∃ visited, visited <+: moves ∧
      (run (step s) start visited).world.records[certificateKey s p csr]? =
        some ⟨.certificate cert.raw, cert.notAfter⟩ := by
  induction moves using List.reverseRecOn with
  | nil => cases given
  | append_singleton earlier m ih =>
    have last : run (step s) start (earlier ++ [m]) = step s (run (step s) start earlier) m := by
      rw [run_append]
      rfl
    obtain old | recorded := step_issued _ m (last ▸ given)
    · obtain ⟨visited, early, there⟩ := ih old
      exact ⟨visited, early.trans (List.prefix_append ..), there⟩
    · exact ⟨_, List.prefix_refl _, by rw [last]; exact recorded⟩

end Runs

structure SingleUse (s : Config Ext Policy) (moves : List (Move (Request Policy) (Choice Ext))) :
    Prop where
  oneRequest : ∀ p csr csr' now now',
    .verified p csr now ∈ (run (step s) start moves).world.log →
    .verified p csr' now' ∈ (run (step s) start moves).world.log → csr = csr'
  unexpired : ∀ p csr now, .verified p csr now ∈ (run (step s) start moves).world.log →
    ∃ created expiresAt,
      .granted (grantKey s p) created expiresAt ∈ (run (step s) start moves).world.log ∧
      expiresAt ≤ created + hour ∧ now < expiresAt
  stored : ∀ (key : String) record g,
    (run (step s) start moves).world.records[key]? = some record → record.value = .grant g →
    ∃ created, .granted key created g.expiresAt ∈ (run (step s) start moves).world.log ∧
      ∀ created' expiresAt',
        .granted key created' expiresAt' ∈ (run (step s) start moves).world.log →
        created' = created ∧ expiresAt' = g.expiresAt
  reserved : ∀ (m : Move (Request Policy) (Choice Ext)) (key : String) record record' g,
    (run (step s) start moves).world.records[key]? = some record → record.value = .grant g →
    (step s (run (step s) start moves) m).world.records[key]? = some record' →
    record' = record ∨ ∃ p csr now g', key = grantKey s p ∧
      (step s (run (step s) start moves) m).world.log =
        .verified p csr now :: (run (step s) start moves).world.log ∧
      record'.value = .grant g' ∧ g'.csrHash = grantHash s csr ∧
      (g.csrHash = "" ∨ g.csrHash = grantHash s csr)
  recorded : ∀ p csr cert, .certificate p csr cert ∈ returned (run (step s) start moves) →
    cert.publicKey = csr.publicKey ∧
    (∃ now, .verified p csr.raw now ∈ (run (step s) start moves).world.log) ∧
    ∃ visited, visited <+: moves ∧
      (run (step s) start visited).world.records[certificateKey s p csr]? =
        some ⟨.certificate cert.raw, cert.notAfter⟩

def World.deadlines (w : World) (key : String) : List Time :=
  w.log.filterMap fun event => match event with
    | .granted other _ expiresAt => if other = key then some expiresAt else none
    | _ => none

def OutlivesGrant (s : Config Ext Policy) (w : World) (p : String) : Prop :=
  ∀ deadline ∈ w.deadlines (grantKey s p), ∀ expiry ∈ w.expiries p, deadline < expiry

instance (s : Config Ext Policy) (w : World) (p : String) : Decidable (OutlivesGrant s w p) :=
  inferInstanceAs (Decidable (∀ deadline ∈ w.deadlines (grantKey s p), _))

theorem tagged_injective :
    Function.Injective fun bytes => "x" ++ Base64.encodeToString bytes := by
  intro first second same
  exact Base64.encodeToString_injective (by simpa [String.ext_iff] using same)

theorem tagged_nonempty (bytes : Bytes) : "x" ++ Base64.encodeToString bytes ≠ "" := by
  simp [String.ext_iff]

theorem tagged_plain (bytes : Bytes) : '/' ∉ ("x" ++ Base64.encodeToString bytes).toList := by
  intro member
  rw [String.toList_append, List.mem_append] at member
  obtain first | rest := member
  · revert first
    decide
  · exact absurd (Base64.encodeToString_mem rest) (by decide +kernel)

def sampleHash : Hash where
  hash := fun bytes => "x" ++ Base64.encodeToString bytes
  injective := tagged_injective
  nonempty := tagged_nonempty
  plain := tagged_plain

def sample : Config X509 Unit where
  sha256 := sampleHash
  compact := .ok
  policy := ()
  validateCSR := fun _ _ => .ok ()
  authorize := fun _ _ _ => .ok ()
  sign := fun cert _ _ => .ok cert
  parseCertificate := fun raw => .ok { raw, publicKey := [9], notAfter := 20 }
  parsed_raw := fun _ _ parsed => by cases parsed; rfl
  register := fun _ _ => .ok ()

def sampleCsr : Csr := ⟨[4], [9]⟩

def firstCert : X509 := { raw := [1], publicKey := [9], notAfter := 20 }

def secondCert : X509 := { raw := [2], publicKey := [9], notAfter := 45 }

def grantAndCalls : List (Move (Request Unit) (Choice X509)) :=
  [.start (.grant ⟨[], [], 10, ""⟩), .advance 0 { secret := [1], ext := firstCert },
    .start (.issue "AQ" sampleCsr ()), .start (.issue "AQ" sampleCsr ()), .start (.prune 10)]

def prompt : List (Move (Request Unit) (Choice X509)) :=
  grantAndCalls ++ List.replicate 5 (.advance 1 { now := 1, ext := firstCert }) ++
  List.replicate 5 (.advance 2 { now := 2, ext := secondCert })

def stalled : List (Move (Request Unit) (Choice X509)) :=
  grantAndCalls ++ List.replicate 3 (.advance 1 { now := 1, ext := secondCert }) ++
  List.replicate 5 (.advance 2 { now := 2, ext := firstCert }) ++
  [.advance 3 { now := 25, ext := firstCert, order := [certificateKey sample "AQ" sampleCsr] }] ++
  List.replicate 2 (.advance 1 { now := 25, ext := secondCert })

end AppleDM.Scep
