import AppleDM.Shared.Wire
import AppleDM.Service.Core
import AppleDM.Ddm.Store

set_option autoImplicit false

namespace AppleDM.Ddm

open Mdm Checked Wire
open Service (encodeHex hexDigit)

structure RefBytes where
  kind : Bytes
  identifier : Bytes
  serverToken : Bytes
  deriving DecidableEq

namespace RefBytes

def Short (r : RefBytes) : Prop :=
  r.kind.length < 2 ^ 32 ∧ r.identifier.length < 2 ^ 32 ∧ r.serverToken.length < 2 ^ 32

def compareRefs (a b : RefBytes) : Ordering :=
  ((compare a.kind b.kind).then (compare a.identifier b.identifier)).then
    (compare a.serverToken b.serverToken)

def sortRefs (refs : List RefBytes) : List RefBytes :=
  refs.insertionSort fun a b => compareRefs a b ≠ .gt

def framed (field : Bytes) : Bytes := bigEndian 4 field.length ++ field

def write (r : RefBytes) : Bytes := framed r.kind ++ (framed r.identifier ++ framed r.serverToken)

instance : Std.TransCmp compareRefs :=
  inferInstanceAs (Std.TransCmp (compareLex
    (compareLex (compareOn RefBytes.kind) (compareOn RefBytes.identifier))
    (compareOn RefBytes.serverToken)))

instance : Std.LawfulEqCmp compareRefs where
  eq_of_compare {a b} same := by
    simp only [compareRefs, Ordering.then_eq_eq, Std.compare_eq_iff_eq] at same
    obtain ⟨⟨kind, identifier⟩, token⟩ := same
    cases a
    cases b
    simp_all

theorem framed_inj {a b rest rest' : Bytes} (short : a.length < 2 ^ 32) (short' : b.length < 2 ^ 32)
    (same : framed a ++ rest = framed b ++ rest') : a = b ∧ rest = rest' := by
  simp only [framed, List.append_assoc] at same
  obtain ⟨lengths, contents⟩ := List.append_inj same (by simp)
  have sizes : a.length = b.length := by
    have read : number (bigEndian 4 a.length) = number (bigEndian 4 b.length) := by rw [lengths]
    rwa [number_bigEndian short, number_bigEndian short'] at read
  exact List.append_inj contents sizes

theorem write_delimited : Delimited write Short := by
  intro a b short short' rest rest' same
  simp only [write, List.append_assoc] at same
  obtain ⟨kind, same⟩ := framed_inj short.1 short'.1 same
  obtain ⟨identifier, same⟩ := framed_inj short.2.1 short'.2.1 same
  obtain ⟨token, same⟩ := framed_inj short.2.2 short'.2.2 same
  cases a
  cases b
  simp_all

theorem write_nonempty (r : RefBytes) : r.write ≠ [] := by
  have first : (bigEndian 4 r.kind.length).length = 4 := length_bigEndian _ _
  intro empty
  simp only [write, framed, List.append_eq_nil_iff] at empty
  simp [empty.1.1] at first

end RefBytes

variable (sha256 : Bytes → Bytes)

def declarationsToken (refs : List RefBytes) : String :=
  encodeHex (sha256 ((RefBytes.sortRefs refs).flatMap RefBytes.write))

theorem encodeHex_injective : Function.Injective encodeHex := by
  have digits : ∀ n < 16, ∀ m < 16, hexDigit n = hexDigit m → n = m := by decide +kernel
  have delimited : Delimited (fun b : UInt8 => [hexDigit (b.toNat / 16), hexDigit (b.toNat % 16)])
      fun _ => True := by
    intro a b _ _ rest rest' same
    simp only [List.cons_append, List.nil_append, List.cons.injEq] at same
    have small := a.toNat_lt
    have small' := b.toNat_lt
    have high := digits _ (by omega) _ (by omega) same.1
    have low := digits _ (by omega) _ (by omega) same.2.1
    exact ⟨UInt8.toNat_inj.1 (by omega), same.2.2⟩
  intro a b same
  refine delimited.flatMap (by simp) (by simp) (by simp) ?_
  simpa [encodeHex, String.ext_iff] using same

variable {refs refs' : List RefBytes}

theorem declarationsToken_perm
    (same : refs.Perm refs') : declarationsToken sha256 refs = declarationsToken sha256 refs' := by
  have sorted : RefBytes.sortRefs refs = RefBytes.sortRefs refs' := Rows.insertionSort_perm same
  rw [declarationsToken, sorted, declarationsToken]

theorem declarationsToken_inj {sha256 : Bytes → Bytes} (injective : Function.Injective sha256) (short : ∀ r ∈ refs, r.Short) (short' : ∀ r ∈ refs', r.Short)
    (same : declarationsToken sha256 refs = declarationsToken sha256 refs') : refs.Perm refs' := by
  have perm (refs : List RefBytes) : (RefBytes.sortRefs refs).Perm refs := List.perm_insertionSort _ refs
  have sorted : RefBytes.sortRefs refs = RefBytes.sortRefs refs' :=
    RefBytes.write_delimited.flatMap RefBytes.write_nonempty
      (fun r member => short r ((perm refs).mem_iff.1 member))
      (fun r member => short' r ((perm refs').mem_iff.1 member))
      (injective (encodeHex_injective same))
  exact (perm refs).symm.trans (sorted ▸ perm refs')

def utf8 (text : String) : Bytes := text.toList.flatMap String.utf8EncodeChar

def DeclarationRef.bytes (r : DeclarationRef) : RefBytes :=
  ⟨utf8 r.kind.text, utf8 r.identifier, utf8 r.serverToken⟩

/-- One call: the reading of the clock and the items that membership, expansion and the target of
the enrollment give for it, or their error. -/
structure Refresh where
  now : Time
  manifest : State → Except Error (List SnapshotItem)

def tokenChangedAt (st : State) (id : EnrollmentID) (token : String) (now : Time) :
    Except Error Time :=
  match st.snapshot id with
  | .ok prev => .ok (if prev.declarationsToken = token then prev.tokenChangedAt else now)
  | .error error => if error.sentinel = .notFound then .ok now else .error error

def refreshSnapshot (st : State) (id : EnrollmentID) (r : Refresh) :
    Except Error (State × Snapshot) := do
  match id.validate with
  | .error reason => .error (.invalid reason)
  | .ok _ =>
    let items ← r.manifest st
    let token := declarationsToken sha256 (items.map (·.toDeclarationRef.bytes))
    let changedAt ← tokenChangedAt st id token r.now
    let snap : Snapshot := ⟨id, token, items, changedAt, r.now⟩
    let st ← st.putSnapshot (some snap)
    pure (st, snap)

/-- What happens around the calls for one enrollment: anything that leaves its snapshot and its
identity alone. -/
structure Elsewhere (id : EnrollmentID) where
  change : State → State
  snapshot : ∀ st, (change st).snapshots[id.id]? = st.snapshots[id.id]?
  identity : ∀ st, (change st).ids[id.id]? = st.ids[id.id]?

def refreshes (sha256 : Bytes → Bytes) (id : EnrollmentID) :
    State → List (Refresh ⊕ Elsewhere id) → List (Time × Snapshot)
  | _, [] => []
  | st, .inr other :: rest => refreshes sha256 id (other.change st) rest
  | st, .inl r :: rest =>
    match refreshSnapshot sha256 st id r with
    | .ok (st, snap) => (r.now, snap) :: refreshes sha256 id st rest
    | .error _ => refreshes sha256 id st rest

def Follows (earlier later : Time × Snapshot) : Prop :=
  later.2.tokenChangedAt =
    if later.2.declarationsToken = earlier.2.declarationsToken then earlier.2.tokenChangedAt
    else later.1

theorem refreshSnapshot_ok {sha256 : Bytes → Bytes} {st st' : State} {id : EnrollmentID}
    {r : Refresh} {snap : Snapshot}
    (accepted : refreshSnapshot sha256 st id r = .ok (st', snap)) :
    st'.snapshots[id.id]? = some snap ∧ st'.ids[id.id]? = some id ∧
      ∀ atTime prev, st.snapshots[id.id]? = some prev → st.ids[id.id]? = some id →
        Follows (atTime, prev) (r.now, snap) := by
  unfold refreshSnapshot at accepted
  split at accepted
  · simp at accepted
  next valid =>
  simp only [bind_ok, pure_ok, Prod.mk.injEq, State.putSnapshot] at accepted
  obtain ⟨items, -, changedAt, kept, _, ⟨_, -, _, -, rfl⟩, rfl, rfl⟩ := accepted
  refine ⟨by simp, by simp, fun atTime prev stored known => ?_⟩
  have found : st.snapshot id = .ok prev := by
    simp [State.snapshot, State.validID, valid, known, stored, reject]
  simp only [tokenChangedAt, found, Except.ok.injEq] at kept
  simp only [Follows, ← kept, eq_comm]

theorem refreshes_chain (id : EnrollmentID) (calls : List (Refresh ⊕ Elsewhere id)) (st : State) :
    (refreshes sha256 id st calls).IsChain Follows ∧
      ∀ atTime prev, st.snapshots[id.id]? = some prev → st.ids[id.id]? = some id →
        ((atTime, prev) :: refreshes sha256 id st calls).IsChain Follows := by
  induction calls generalizing st with
  | nil => exact ⟨.nil, fun _ _ _ _ => .singleton _⟩
  | cons call rest ih =>
    cases call with
    | inr other =>
      obtain ⟨chain, later⟩ := ih (other.change st)
      rw [other.snapshot, other.identity] at later
      exact ⟨chain, later⟩
    | inl r =>
      rw [refreshes]
      split
      · next next snap accepted =>
        obtain ⟨stored, known, follows⟩ := refreshSnapshot_ok accepted
        have chain := (ih next).2 r.now snap stored known
        exact ⟨chain, fun atTime prev before same => .cons_cons (follows atTime prev before same) chain⟩
      · exact ih st

theorem declarationsToken_identifies (sha256 : Bytes → Bytes)
    (injective : Function.Injective sha256) :
    (∀ refs refs' : List RefBytes, refs.Perm refs' →
      declarationsToken sha256 refs = declarationsToken sha256 refs') ∧
    (∀ refs refs' : List RefBytes, (∀ r ∈ refs ++ refs', r.Short) →
      (declarationsToken sha256 refs = declarationsToken sha256 refs' ↔ refs.Perm refs')) ∧
    ∀ (id : EnrollmentID) (st : State) (calls : List (Refresh ⊕ Elsewhere id)),
      (refreshes sha256 id st calls).IsChain Follows := by
  refine ⟨fun refs refs' same => declarationsToken_perm sha256 same, fun refs refs' short => ?_,
    fun id st calls => (refreshes_chain sha256 id calls st).1⟩
  refine ⟨declarationsToken_inj injective (fun r member => short r (by simp [member]))
    fun r member => short r (by simp [member]), declarationsToken_perm sha256⟩

def sampleRefs : List RefBytes := [⟨[1], [2], [3]⟩, ⟨[1], [2, 3], []⟩]

def sampleRefresh (now : Time) (token : String) : Refresh ⊕ Elsewhere ⟨.device, "A", ""⟩ :=
  .inl ⟨now, fun _ => .ok [{ kind := .asset, identifier := "x", serverToken := token }]⟩

theorem declarationsToken_identifies_samples :
    let found := refreshes id ⟨.device, "A", ""⟩ {}
      [sampleRefresh 5 "t", sampleRefresh 6 "t", sampleRefresh 7 "u"]
    declarationsToken id sampleRefs = declarationsToken id sampleRefs.reverse ∧
      declarationsToken id (sampleRefs.take 1) ≠ declarationsToken id (sampleRefs.drop 1) ∧
      found.map (fun entry => entry.2.tokenChangedAt) = [5, 5, 7] ∧ found.IsChain Follows := by
  intro found
  obtain ⟨perm, same_iff, chain⟩ := declarationsToken_identifies id Function.injective_id
  refine ⟨perm _ _ (List.reverse_perm sampleRefs).symm, fun same => ?_, by decide +kernel,
    chain _ _ _⟩
  have equal := (same_iff (sampleRefs.take 1) (sampleRefs.drop 1)
    (by simp [sampleRefs, RefBytes.Short])).1 same
  exact absurd equal (by decide)

theorem refreshes_one_instant :
    let call (token : String) : Refresh ⊕ Elsewhere ⟨.device, "A", ""⟩ :=
      .inl ⟨5, fun _ => .ok [{ kind := .asset, identifier := "x", serverToken := token }]⟩
    let found := refreshes id ⟨.device, "A", ""⟩ {} [call "t", call "u"]
    found.map (fun entry => entry.2.tokenChangedAt) = [5, 5] ∧
      (found.map fun entry => entry.2.declarationsToken).Nodup := by
  let token (named : String) := declarationsToken id [DeclarationRef.bytes ⟨.asset, "x", named⟩]
  have differ : token "t" ≠ token "u" := by decide +kernel
  intro call found
  have times : found.map (fun entry => entry.2.tokenChangedAt) = [5, 5] := by decide +kernel
  have tokens : found.map (fun entry => entry.2.declarationsToken) = [token "t", token "u"] := rfl
  exact ⟨times, by rw [tokens]; simpa using differ⟩

end AppleDM.Ddm
