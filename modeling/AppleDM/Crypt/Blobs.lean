import AppleDM.Crypt.Keyring
import AppleDM.Shared.GoText
import AppleDM.Shared.Run

set_option autoImplicit false

namespace AppleDM.Crypt

open Checked Mdm Run Shared

section Model

variable {Key : Type} (aead : Aead Key)

/-- The row keys of a variadic call: nil, or the slice that was passed. -/
abbrev RowKeys := Option (List Bytes)

def blobAAD (purpose : Bytes) (keys : RowKeys) : Bytes := aad purpose (GoText.marshal keys)

def sealBlob (k : Option (Keyring Key)) (entropy : Option (Fin nonceLen → UInt8))
    (purpose b : Bytes) (keys : RowKeys) : Except Failure Bytes :=
  if b.length = 0 ∨ k.isNone then .ok b
  else Keyring.enclose aead k entropy b (blobAAD purpose keys)

def openBlob (k : Option (Keyring Key)) (purpose b : Bytes) (keys : RowKeys) :
    Except Failure Bytes :=
  if b.length = 0 then .ok b
  else if isSealed b = false then
    match k with
    | some ring => if ring.strict then .error .unsealed else .ok b
    | none => .ok b
  else
    match k with
    | none => .error .noKeyring
    | some ring => do
      let (plain, _) ← Keyring.disclose aead (some ring) b (blobAAD purpose keys)
      .ok plain

def Reads (writer reader : Option (Keyring Key)) : Prop :=
  match reader with
  | none => writer = none
  | some ring => ring.strict = false ∧
    ∀ k, writer = some k → ring.keys.lookup k.active = some k.activeKey

end Model

theorem aad_injective {purpose purpose' row row' : Bytes} (text : 0 ∉ row) (text' : 0 ∉ row')
    (same : aad purpose row = aad purpose' row') : purpose = purpose' ∧ row = row' := by
  induction purpose generalizing purpose' with
  | nil =>
    cases purpose' with
    | nil => exact ⟨rfl, (List.cons.inj same).2⟩
    | cons first purpose' =>
      refine absurd ?_ text
      rw [(List.cons.inj same).2]
      simp
  | cons first purpose hypothesis =>
    cases purpose' with
    | nil =>
      refine absurd ?_ text'
      rw [← (List.cons.inj same).2]
      simp
    | cons other purpose' =>
      obtain ⟨rfl, rest⟩ := List.cons.inj same
      obtain ⟨rfl, rows⟩ := hypothesis rest
      exact ⟨rfl, rows⟩

theorem blobAAD_eq_iff (purpose purpose' : Bytes) (keys keys' : RowKeys) :
    blobAAD purpose keys = blobAAD purpose' keys' ↔
      purpose = purpose' ∧ GoText.runes keys = GoText.runes keys' := by
  constructor
  · intro same
    obtain ⟨rfl, rows⟩ := aad_injective (GoText.zero_not_mem_marshal keys)
      (GoText.zero_not_mem_marshal keys') same
    exact ⟨rfl, (GoText.marshal_eq_iff keys keys').mp rows⟩
  · rintro ⟨rfl, rows⟩
    rw [blobAAD, blobAAD, (GoText.marshal_eq_iff keys keys').mpr rows]

section Values

variable {Key : Type} {aead : Aead Key} {purpose purpose' b : Bytes} {keys keys' : RowKeys}

def stored (aead : Aead Key) (k : Keyring Key) (nonce : Fin nonceLen → UInt8)
    (purpose b : Bytes) (keys : RowKeys) : Bytes :=
  header k.active ++
    (List.ofFn nonce ++ aead.enclose k.activeKey (List.ofFn nonce) b (blobAAD purpose keys))

theorem split_stored (tag : aead.tagLen = tagLen) (k : Keyring Key) (nonce : Fin nonceLen → UInt8) :
    split (stored aead k nonce purpose b keys) =
      .ok (k.active, List.ofFn nonce ++
        aead.enclose k.activeKey (List.ofFn nonce) b (blobAAD purpose keys)) := by
  refine split_header k.active_named _ ?_
  have long := aead.tagged k.activeKey (List.ofFn nonce) b (blobAAD purpose keys)
  rw [List.length_append, List.length_ofFn]
  omega

theorem openBlob_stored (tag : aead.tagLen = tagLen) (k ring : Keyring Key)
    (nonce : Fin nonceLen → UInt8) :
    openBlob aead (some ring) purpose' (stored aead k nonce purpose b keys) keys' =
      match ring.keys.lookup k.active with
      | none => .error (.unknownKey k.active)
      | some key =>
        match aead.disclose key (List.ofFn nonce)
            (aead.enclose k.activeKey (List.ofFn nonce) b (blobAAD purpose keys))
            (blobAAD purpose' keys') with
        | none => .error (.tampered k.active)
        | some plain => .ok plain := by
  have sealed : isSealed (stored aead k nonce purpose b keys) = true := isSealed_header _ _
  have present : (stored aead k nonce purpose b keys).length ≠ 0 := by
    simp [stored, header, magic]
  have short : (List.ofFn nonce).length = nonceLen := List.length_ofFn
  simp only [openBlob, present, sealed, Keyring.disclose, split_stored tag, ↓reduceIte,
    Bool.true_eq_false, ok_bind, List.take_left' short, List.drop_left' short]
  cases List.lookup k.active ring.keys with
  | none => rfl
  | some key => dsimp only; split <;> simp_all

theorem openBlob_stored_ok (tag : aead.tagLen = tagLen) (k : Keyring Key)
    (nonce : Fin nonceLen → UInt8) (reader : Option (Keyring Key)) (plain : Bytes) :
    openBlob aead reader purpose' (stored aead k nonce purpose b keys) keys' = .ok plain ↔
      plain = b ∧ (∃ ring, reader = some ring ∧ ring.keys.lookup k.active = some k.activeKey) ∧
        purpose = purpose' ∧ GoText.runes keys = GoText.runes keys' := by
  cases reader with
  | none =>
    have sealed : isSealed (stored aead k nonce purpose b keys) = true := isSealed_header _ _
    have present : (stored aead k nonce purpose b keys).length ≠ 0 := by
      simp [stored, header, magic]
    simp [openBlob, present, sealed]
  | some ring =>
    rw [openBlob_stored tag, ← blobAAD_eq_iff]
    constructor
    · intro opened
      split at opened
      · cases opened
      · next key held =>
        split at opened
        · cases opened
        · next found disclosed =>
          obtain rfl : found = plain := Except.ok.inj opened
          obtain ⟨rfl, place⟩ := aead.disclose_elsewhere disclosed
          rw [← place, aead.disclose_enclose] at disclosed
          exact ⟨(Option.some.inj disclosed).symm, ⟨ring, rfl, held⟩, place⟩
    · rintro ⟨rfl, ⟨other, same, held⟩, place⟩
      obtain rfl : ring = other := Option.some.inj same
      simp only [held, ← place, aead.disclose_enclose]

theorem openBlob_plain (reader : Option (Keyring Key))
    (lenient : ∀ ring, reader = some ring → ring.strict = false) :
    openBlob aead reader purpose b keys = .ok b ↔ isSealed b = false := by
  constructor
  · intro opened
    by_contra sealed
    have present : b.length ≠ 0 := by
      intro empty
      obtain rfl := List.length_eq_zero_iff.mp empty
      exact sealed rfl
    cases reader with
    | none => simp [openBlob, present, sealed] at opened
    | some ring =>
      -- What opens is shorter than what holds it.
      simp only [openBlob, present, sealed, if_false, Keyring.disclose] at opened
      obtain ⟨⟨plain, name⟩, disclosed, same⟩ := (bind_ok ..).mp opened
      obtain ⟨⟨found, body⟩, cut, revealed⟩ := (bind_ok ..).mp disclosed
      obtain rfl : plain = b := Except.ok.inj same
      have shorter := split_length cut
      split at revealed
      · cases revealed
      · split at revealed
        · cases revealed
        · next text shown =>
          obtain ⟨rfl, -⟩ := Prod.mk.inj (Except.ok.inj revealed)
          have bound : text.length + aead.tagLen ≤ (body.drop nonceLen).length := by
            rw [← (aead.opens ..).mp shown]
            exact aead.tagged ..
          rw [List.length_drop] at bound
          omega
  · intro plain
    cases reader with
    | none => simp [openBlob, plain]
    | some ring => simp [openBlob, plain, lenient ring rfl]

end Values

section Storage

variable {Key : Type}

theorem openBlob_sealBlob (aead : Aead Key) (tag : aead.tagLen = tagLen)
    (writer reader : Option (Keyring Key)) (reads : Reads writer reader)
    (nonce : Fin nonceLen → UInt8) (purpose b : Bytes) (keys : RowKeys) :
    ∃ value, sealBlob aead writer (some nonce) purpose b keys = .ok value ∧
      (openBlob aead reader purpose value keys = .ok b ↔
        (writer = none → isSealed b = false)) ∧
      ∀ purpose' keys', writer ≠ none → b ≠ [] → (purpose', keys') ≠ (purpose, keys) →
        ((∀ (other : Option (Keyring Key)) (plain : Bytes),
            openBlob aead other purpose' value keys' ≠ .ok plain) ↔
          ¬ (purpose' = purpose ∧ GoText.runes keys' = GoText.runes keys)) := by
  cases writer with
  | none =>
    refine ⟨b, by simp [sealBlob], ?_, fun _ _ written => absurd rfl written⟩
    rw [openBlob_plain reader ?_]
    · simp
    · rintro ring rfl
      exact reads.1
  | some k =>
    by_cases present : b = []
    · subst present
      refine ⟨[], by simp [sealBlob], ?_, fun _ _ _ absent => absurd rfl absent⟩
      simp [openBlob]
    refine ⟨stored aead k nonce purpose b keys, ?_, ?_, ?_⟩
    · simp [sealBlob, present, Keyring.enclose, stored]
    · rw [openBlob_stored_ok tag]
      cases reader with
      | none => cases reads
      | some ring => simp [reads.2 k rfl]
    · intro purpose' keys' _ _ _
      constructor
      · rintro closed ⟨rfl, rows⟩
        refine closed (some k) b ((openBlob_stored_ok tag k nonce _ b).mpr ?_)
        exact ⟨rfl, ⟨k, rfl, k.lookup_active⟩, rfl, rows.symm⟩
      · intro elsewhere other plain opened
        obtain ⟨-, -, place, rows⟩ := (openBlob_stored_ok tag k nonce other plain).mp opened
        exact elsewhere ⟨place.symm, rows.symm⟩

def blobRing : Keyring UInt8 where
  active := [0x6B]
  strict := false
  keys := [([0x6B], 7)]
  named := by simp [Named, maxNameLen]
  held := ⟨7, rfl⟩

theorem openBlob_sealBlob_row :
    Reads (some blobRing) (some blobRing) ∧
      ∃ value, sealBlob (plainAead tagLen) (some blobRing) (some fun _ => 1) [0x70] [1, 2]
          (some [[0x61]]) = .ok value ∧
        openBlob (plainAead tagLen) (some blobRing) [0x70] value (some [[0x61]]) = .ok [1, 2] ∧
        ∀ (other : Option (Keyring UInt8)) (plain : Bytes),
          openBlob (plainAead tagLen) other [0x70] value (some [[0x62]]) ≠ .ok plain := by
  have reads : Reads (some blobRing) (some blobRing) :=
    ⟨rfl, fun k same => Option.some.inj same ▸ k.lookup_active⟩
  obtain ⟨value, written, back, elsewhere⟩ := openBlob_sealBlob (plainAead tagLen) rfl
    (some blobRing) (some blobRing) reads (fun _ => 1) [0x70] [1, 2] (some [[0x61]])
  refine ⟨reads, value, written, back.mpr (by simp), ?_⟩
  exact (elsewhere [0x70] (some [[0x62]]) (by simp) (by simp) (by decide)).mpr (by decide)

theorem openBlob_elsewhere :
    (∃ value, sealBlob (plainAead tagLen) (some blobRing) (some fun _ => 1) [0x70] [1, 2]
        (some [[0xFF]]) = .ok value ∧
      openBlob (plainAead tagLen) (some blobRing) [0x70] value (some [[0xFE]]) = .ok [1, 2] ∧
      openBlob (plainAead tagLen) (some blobRing) [0x70] value (some [[0xEF, 0xBF, 0xBD]]) =
        .ok [1, 2]) ∧
    sealBlob (plainAead tagLen) none none [0x70] magic (some []) = .ok magic ∧
    openBlob (plainAead tagLen) none [0x70] magic (some []) = .error .noKeyring := by
  refine ⟨⟨_, rfl, by decide +kernel, by decide +kernel⟩, rfl, rfl⟩

end Storage

-- Key rotation, while others write to the same columns.
section Rotation

variable {Key : Type} (aead : Aead Key) (k : Keyring Key)

structure Cell where
  purpose : Bytes
  keys : List Bytes
  deriving DecidableEq

abbrev Db := Cell → Bytes

inductive Trouble where
  | crypt (failure : Failure)
  | database

/-- What each statement meets: what others wrote before it, the nonce drawn for it, and whether it
fails (`some true`: although it took effect). -/
structure World where
  others : Nat → Db → Db
  nonce : Nat → Option (Fin nonceLen → UInt8)
  fault : Nat → Option Bool

/-- A run under way; `page` is what the last query read. -/
structure Rotation where
  db : Db
  page : Db
  clock : Nat := 0
  total : Nat := 0
  failure : Option Trouble := none

inductive Statement where
  | query
  | rewrap (cell : Cell)

def opened (db : Db) (cell : Cell) : Except Failure Bytes :=
  openBlob aead (some k) cell.purpose (db cell) (some cell.keys)

def rewrap (w : World) (s : Rotation) (statement : Statement) : Rotation :=
  if s.failure.isSome then s
  else
    let db := w.others s.clock s.db
    let fault := w.fault s.clock
    let next := { s with db, clock := s.clock + 1, failure := fault.map fun _ => .database }
    match statement with
    | .query => { next with page := db }
    | .rewrap cell =>
      let old := s.page cell
      if old.length = 0 ∨ keyName old = some k.active then s
      else
        match opened aead k s.page cell >>= fun plain =>
            sealBlob aead (some k) (w.nonce s.clock) cell.purpose plain (some cell.keys) with
        | .error failure => { s with failure := some (.crypt failure) }
        | .ok new =>
          if db cell ≠ old ∨ fault = some false then next
          else
            { next with
              db := Function.update db cell new
              total := s.total + if fault = none then 1 else 0 }

def statements (rows : List Cell) : List Statement :=
  .query :: (rows.take 500).map .rewrap ++
    if (rows.take 500).length < 500 then [] else statements (rows.drop 500)
termination_by rows.length
decreasing_by grind

def rewrapBlobs (k : Option (Keyring Key)) (w : World) (cols : List (List Cell)) (db : Db) :
    Rotation :=
  match k with
  | none => { db, page := db, failure := some (.crypt .noKeyring) }
  | some k => run (rewrap aead k w) { db, page := db } (cols.flatMap statements)

theorem mem_statements {cell : Cell} {rows : List Cell} (member : cell ∈ rows) :
    .rewrap cell ∈ statements rows := by
  fun_induction statements with
  | case1 rows ih =>
    rw [← List.take_append_drop 500 rows, List.mem_append] at member
    obtain early | late := member
    · exact List.mem_append_left _ (.tail _ (List.mem_map_of_mem early))
    · have full : ¬ (rows.take 500).length < 500 := by grind [List.length_pos_of_mem late]
      rw [if_neg full]
      exact List.mem_append_right _ (ih full late)

def Current (b : Bytes) : Prop := b.length = 0 ∨ keyName b = some k.active

variable {aead k} {cell : Cell} (tag : aead.tagLen = tagLen)

include tag

theorem opened_sealBlob {nonce : Option (Fin nonceLen → UInt8)} {plain new : Bytes}
    (sealed : sealBlob aead (some k) nonce cell.purpose plain (some cell.keys) = .ok new) :
    openBlob aead (some k) cell.purpose new (some cell.keys) = .ok plain ∧ Current k new := by
  by_cases absent : plain = []
  · obtain rfl : plain = new := by simpa [sealBlob, absent] using sealed
    exact ⟨by simp [openBlob, absent], .inl (by simp [absent])⟩
  · cases nonce with
    | none => simp [sealBlob, absent, Keyring.enclose] at sealed
    | some nonce =>
      obtain rfl : stored aead k nonce cell.purpose plain (some cell.keys) = new := by
        simpa [sealBlob, absent, Keyring.enclose, stored] using sealed
      exact ⟨(openBlob_stored_ok tag ..).mpr ⟨rfl, ⟨k, rfl, k.lookup_active⟩, rfl, rfl⟩,
        .inr (keyName_header k.active_named _)⟩

theorem rewrap_cell (w : World) (cell : Cell) (s : Rotation) (statement : Statement) :
    let s' := rewrap aead k w s statement
    let db := w.others s.clock s.db
    (s'.db cell = s.db cell ∨ s'.db cell = db cell ∨
        opened aead k s'.db cell = opened aead k db cell ∧ Current k (s'.db cell)) ∧
      (s'.page cell = s.page cell ∨ s'.page cell = s'.db cell) ∧
      (s.failure.isSome → s'.failure.isSome) ∧
      (statement = .rewrap cell → s'.failure.isSome ∨ Current k (s.page cell) ∨
        Current k (s'.db cell) ∨ db cell ≠ s.page cell) := by
  intro s' db
  dsimp only [s', rewrap]
  split
  · next failed => exact ⟨.inl rfl, .inl rfl, id, fun _ => .inl failed⟩
  · cases statement with
    | query => exact ⟨.inr (.inl rfl), .inr rfl, by simp_all, by simp⟩
    | rewrap target =>
      dsimp only
      split
      · grind [Current]
      · split
        · exact ⟨.inl rfl, .inl rfl, fun _ => rfl, fun _ => .inl rfl⟩
        · next new resealed =>
          obtain ⟨plain, old, sealed⟩ := (bind_ok ..).mp resealed
          obtain ⟨same, current⟩ := opened_sealBlob tag sealed
          split <;> grind [Function.update_apply, opened]

theorem rewrapBlobs_rotates (w : World) (cols : List (List Cell)) (db : Db) (cell : Cell) :
    let done := rewrapBlobs aead (some k) w cols db
    (∀ P : Except Failure Bytes → Prop,
      (∀ n db, P (opened aead k db cell) → P (opened aead k (w.others n db) cell)) →
      P (opened aead k db cell) → P (opened aead k done.db cell)) ∧
    ((∀ n db, w.others n db cell = db cell) → done.failure = none →
      (∃ rows ∈ cols, cell ∈ rows) → Current k (done.db cell)) := by
  have step := rewrap_cell (k := k) tag w cell
  constructor
  · intro P others holds
    exact run_invariant (fun s : Rotation => P (opened aead k s.db cell)) (by grind [opened])
      holds _
  · rintro quiet ran ⟨rows, column, member⟩
    obtain ⟨before, after, same⟩ := List.append_of_mem
      (List.mem_flatMap.mpr ⟨rows, column, mem_statements member⟩)
    simp only [quiet] at step
    -- Until its turn comes, the value is the one that was read, or it is current already.
    have read := @run_invariant _ _ (rewrap aead k w) { db, page := db }
      (fun s => s.page cell = s.db cell ∨ Current k (s.db cell)) (by grind) (.inl rfl) before
    simp only [rewrapBlobs, same, run_append, run_cons] at ran ⊢
    generalize run _ _ before = s at read ran ⊢
    have settled := @run_invariant _ _ (rewrap aead k w) (rewrap aead k w s (.rewrap cell))
      (fun s => s.failure.isSome ∨ Current k (s.db cell)) (by grind) (by grind) after
    exact settled.resolve_left (by simp [ran])

end Rotation

def rotatedRing : Keyring UInt8 where
  active := [0x6E]
  strict := false
  keys := [([0x6E], 8), ([0x6B], 7)]
  named := by simp [Named, maxNameLen]
  held := ⟨8, rfl⟩

def sampleCell : Cell := ⟨[0x70], [[0x61]]⟩

def otherWriter : World :=
  ⟨fun n db => Function.update db ⟨[0x70], [[0x62]]⟩ [UInt8.ofNat n], fun _ => some fun _ => 2,
    fun _ => none⟩

theorem rewrapBlobs_rotates_row :
    let db : Db := fun _ =>
      stored (plainAead tagLen) blobRing (fun _ => 1) [0x70] [1, 2] (some [[0x61]])
    let done := rewrapBlobs (plainAead tagLen) (some rotatedRing) otherWriter [[sampleCell]] db
    keyName (db sampleCell) = some [0x6B] ∧ Current rotatedRing (done.db sampleCell) ∧
      opened (plainAead tagLen) rotatedRing done.db sampleCell = .ok [1, 2] := by
  intro db done
  have rotates := @rewrapBlobs_rotates UInt8 (plainAead tagLen) rotatedRing rfl otherWriter
    [[sampleCell]] db sampleCell
  have quiet (n : Nat) (db : Db) : otherWriter.others n db sampleCell = db sampleCell := by
    simp [otherWriter, sampleCell]
  refine ⟨by decide +kernel, rotates.2 quiet ?_ (by simp), rotates.1 (· = .ok [1, 2]) ?_ ?_⟩
  · unfold rewrapBlobs
    rw [List.flatMap_cons, statements]
    decide +kernel
  · intro n db held
    rwa [opened, quiet]
  · decide +kernel

end AppleDM.Crypt
