import AppleDM.Cbor.Codec

set_option autoImplicit false

namespace AppleDM.Cbor

open Mdm Checked Wire

namespace Decoder

def Header (hd : Bytes) (major : Major) (arg : Nat) : Prop :=
  ∀ off rest, Decoder.head ⟨off, hd ++ rest⟩ = .ok (major, arg, ⟨off + hd.length, rest⟩)

variable {arg : Nat} {after : Decoder}

theorem readArg_local {off n : Nat} {bs : Bytes} (read : readArg ⟨off, bs⟩ n = .ok (arg, after)) :
    ∃ used, Cursor.Passes ⟨off, bs⟩ used after ∧
      ∀ off rest, readArg ⟨off, used ++ rest⟩ n = .ok (arg, ⟨off + used.length, rest⟩) := by
  unfold readArg at read
  split at read
  · cases read
  next enough =>
  simp only [Except.ok.injEq, Prod.mk.injEq] at read
  obtain ⟨rfl, rfl⟩ := read
  have long : (bs.take n).length = n := by simp at enough ⊢; omega
  refine ⟨bs.take n, ⟨by simp, by simp [long]⟩, fun off rest => ?_⟩
  simp [readArg, long]

theorem argument_cases (ai : Nat) :
    (∀ d : Decoder, d.argument ai = .ok (ai, d)) ∨
    (∃ width, ∀ d : Decoder, d.argument ai = d.readArg width) ∨
    ∀ d : Decoder, ∃ error, d.argument ai = .error error := by
  unfold argument
  by_cases tiny : ai < 24
  · exact .inl fun d => if_pos tiny
  by_cases wide : ai = 24 ∨ ai = 25 ∨ ai = 26 ∨ ai = 27
  · refine .inr (.inl ?_)
    rcases wide with rfl | rfl | rfl | rfl
    exacts [⟨1, fun d => rfl⟩, ⟨2, fun d => rfl⟩, ⟨4, fun d => rfl⟩, ⟨8, fun d => rfl⟩]
  · refine .inr (.inr fun d => ?_)
    simp only [not_or] at wide
    simp only [tiny, wide, if_false]
    split <;> exact ⟨_, rfl⟩

theorem argument_local {off ai : Nat} {bs : Bytes}
    (read : argument ⟨off, bs⟩ ai = .ok (arg, after)) :
    ∃ used, Cursor.Passes ⟨off, bs⟩ used after ∧
      ∀ off rest, argument ⟨off, used ++ rest⟩ ai = .ok (arg, ⟨off + used.length, rest⟩) := by
  rcases argument_cases ai with same | ⟨width, same⟩ | refused
  · simp only [same, Except.ok.injEq, Prod.mk.injEq] at read ⊢
    obtain ⟨rfl, rfl⟩ := read
    exact ⟨[], Cursor.passes_nil.2 rfl, by simp⟩
  · simp only [same] at read ⊢
    exact readArg_local read
  · obtain ⟨error, refused⟩ := refused ⟨off, bs⟩
    rw [refused] at read
    cases read

variable {d after : Decoder} {major : Major} {form : Bytes → Prop}

theorem head_iff :
    d.head = .ok (major, arg, after) ↔ ∃ hd, Header hd major arg ∧ d.Passes hd after := by
  constructor
  · intro read
    unfold head at read
    split at read
    · cases read
    next b rest starts =>
    obtain ⟨⟨found, next⟩, argued, read⟩ := (bind_ok _ _ _).1 read
    dsimp only at read
    split at read
    · cases read
    next allowed =>
    simp only [pure_ok, Prod.mk.injEq] at read
    obtain ⟨rfl, rfl, rfl⟩ := read
    obtain ⟨used, ⟨left, off⟩, everywhere⟩ := argument_local argued
    dsimp only at left off
    refine ⟨b :: used, fun off rest => ?_, by rw [starts, left, List.cons_append], ?_⟩
    · have inside := everywhere (off + 1) rest
      simp only [head, List.cons_append, inside, ok_bind, allowed]
      simp only [pure, Except.pure, List.length_cons]
      congr 4
      omega
    · simp only [off, List.length_cons]
      omega
  · rintro ⟨hd, header, passes⟩
    obtain ⟨before, behind⟩ := passes.eq
    rw [before, behind]
    exact header _ _

theorem Header.nonempty {hd : Bytes} (header : Header hd major arg) : 0 < hd.length := by
  cases hd with
  | nil => simpa [head] using header 0 []
  | cons b rest => simp

theorem first_byte (major : Major) : ∀ ai < 32,
    Major.ofCode ((major.code <<< 5 ||| UInt8.ofNat ai) >>> 5) = major ∧
      ((major.code <<< 5 ||| UInt8.ofNat ai) &&& 0x1f).toNat = ai := by
  cases major <;> decide

def Allowed (major : Major) (arg : Nat) : Prop :=
  arg < 2 ^ 64 ∧ major ≠ .tag ∧
    (major = .simple → arg = simpleFalse ∨ arg = simpleTrue ∨ arg = simpleNull)

theorem refused_none {ai : Nat} (allowed : Allowed major arg)
    (tiny : major = .simple → ai < 24) : refused major ai arg = none := by
  obtain ⟨-, untagged, simple⟩ := allowed
  unfold refused
  by_cases isSimple : major = .simple
  · have below := tiny isSimple
    rcases simple isSimple with rfl | rfl | rfl <;>
      simp [isSimple, simpleFalse, simpleTrue, simpleNull, below]
  · simp [untagged, isSimple]

theorem header_head (allowed : Allowed major arg) : Header (Encoder.head major arg) major arg := by
  intro off rest
  have wide : ∀ ai width (bytes : Bytes), bytes.length = width → number bytes = arg → ai < 32 →
      24 ≤ arg → (∀ d : Decoder, d.argument ai = d.readArg width) →
      Decoder.head ⟨off, (major.code <<< 5 ||| UInt8.ofNat ai) :: bytes ++ rest⟩ =
        .ok (major, arg, ⟨off + (bytes.length + 1), rest⟩) := by
    intro ai width bytes long value below large reads
    obtain ⟨code, info⟩ := first_byte major ai below
    have read : readArg ⟨off + 1, bytes ++ rest⟩ width = .ok (arg, ⟨off + 1 + width, rest⟩) := by
      simp [readArg, ← long, value]
    have scalar : major ≠ .simple := by
      rintro rfl
      rcases allowed.2.2 rfl with rfl | rfl | rfl <;>
        simp [simpleFalse, simpleTrue, simpleNull] at large
    have inside : refused major ai arg = none := refused_none allowed (absurd · scalar)
    simp only [head, List.cons_append, code, info, reads, read, ok_bind, inside]
    simp only [pure, Except.pure, long]
    congr 4
    omega
  unfold Encoder.head
  split
  · next tiny =>
    obtain ⟨code, info⟩ := first_byte major arg (by omega)
    simp [head, code, info, argument, tiny, refused_none allowed fun _ => tiny, pure, Except.pure]
  split
  · next large byte =>
    have value : number [UInt8.ofNat arg] = arg := by
      have small : arg % 256 = arg := Nat.mod_eq_of_lt byte
      simp [number, small]
    exact wide 24 1 [UInt8.ofNat arg] rfl value (by decide) (by omega) fun d => rfl
  split
  · next large _ word =>
    exact wide 25 2 _ (length_bigEndian 2 arg) (number_bigEndian word) (by decide) (by omega)
      fun d => rfl
  split
  · next large _ _ word =>
    exact wide 26 4 _ (length_bigEndian 4 arg) (number_bigEndian word) (by decide) (by omega)
      fun d => rfl
  · exact wide 27 8 _ (length_bigEndian 8 arg) (number_bigEndian allowed.1) (by decide) (by omega)
      fun d => rfl

def Stringy (major : Major) (item : Bytes) : Prop :=
  ∃ hd payload, Header hd major payload.length ∧ item = hd ++ payload

def Contents (form : Bytes → Prop) (major : Major) (arg : Nat) (body : Bytes) : Prop :=
  match major with
  | .bytes | .text => body.length = arg
  | .array => ∃ items : List Bytes, items.length = arg ∧ (∀ piece ∈ items, form piece) ∧
      body = items.flatten
  | .map => ∃ entries : List Bytes, entries.length = arg ∧
      (∀ piece ∈ entries, ∃ key value, Stringy .text key ∧ form value ∧ piece = key ++ value) ∧
      body = entries.flatten
  | _ => body = []

def Item : Nat → Bytes → Prop
  | 0, _ => False
  | levels + 1, item => ∃ hd major arg body, Header hd major arg ∧ item = hd ++ body ∧
      Contents (Item levels) major arg body

variable {levels : Nat} {item : Bytes}

theorem item_nonempty (formed : Item levels item) : 0 < item.length := by
  cases levels with
  | zero => exact formed.elim
  | succ levels =>
    obtain ⟨hd, major, arg, body, header, rfl, -⟩ := formed
    have := header.nonempty
    simp
    omega

variable {perItem : Nat}

theorem fits_iff {n found : Nat} :
    d.fits n perItem = .ok found ↔ found = n ∧ n ≤ d.rest.length / perItem := by
  unfold fits
  split <;> simp [eq_comm] <;> omega

variable {b : Bytes}

theorem bytes_reads {n : Nat} : d.bytes n = .ok (b, after) ↔ b.length = n ∧ d.Passes b after := by
  simp only [bytes, bind_ok, fits_iff, Nat.div_one, pure_ok, Prod.mk.injEq]
  constructor
  · rintro ⟨_, ⟨rfl, enough⟩, rfl, rfl⟩
    exact ⟨by simp [enough], by simp, by simp [enough]⟩
  · rintro ⟨rfl, passes⟩
    obtain ⟨before, behind⟩ := passes.eq
    rw [before]
    exact ⟨_, ⟨rfl, by simp⟩, by simp, by rw [behind]; simp⟩

theorem key_reads :
    d.key = .ok (b, after) ↔ ∃ hd, Header hd .text b.length ∧ d.Passes (hd ++ b) after := by
  unfold key
  simp only [bind_ok]
  constructor
  · rintro ⟨⟨major, arg, middle⟩, read, rest⟩
    obtain ⟨hd, header, passes⟩ := head_iff.1 read
    dsimp only at rest
    split at rest
    · cases rest
    next text =>
    rw [not_not] at text
    subst text
    obtain ⟨rfl, passes'⟩ := bytes_reads.1 rest
    exact ⟨hd, header, Cursor.passes_append.2 ⟨middle, passes, passes'⟩⟩
  · rintro ⟨hd, header, passes⟩
    obtain ⟨middle, passes, passes'⟩ := Cursor.passes_append.1 passes
    exact ⟨_, head_iff.2 ⟨hd, header, passes⟩, by simpa using bytes_reads.2 ⟨rfl, passes'⟩⟩

theorem entry_reads {skip : Decoder → Except Error Decoder} (each : Cursor.Reads skip form) :
    Cursor.Reads (fun d : Decoder => d.key >>= fun (_, d) => skip d)
      fun piece => ∃ key value, Stringy .text key ∧ form value ∧ piece = key ++ value := by
  intro d after
  simp only [bind_ok]
  constructor
  · rintro ⟨⟨b, middle⟩, read, skipped⟩
    obtain ⟨hd, header, passes⟩ := key_reads.1 read
    obtain ⟨value, formed, passes'⟩ := (each _ _).1 skipped
    exact ⟨_, ⟨_, value, ⟨hd, b, header, rfl⟩, formed, rfl⟩,
      Cursor.passes_append.2 ⟨middle, passes, passes'⟩⟩
  · rintro ⟨_, ⟨_, value, ⟨hd, b, header, rfl⟩, formed, rfl⟩, passes⟩
    obtain ⟨middle, passes, passes'⟩ := Cursor.passes_append.1 passes
    exact ⟨(b, middle), key_reads.2 ⟨hd, header, passes⟩, (each _ _).2 ⟨value, formed, passes'⟩⟩

theorem loop_reads {read : Decoder → Except Error Decoder}
    (each : Cursor.Reads read form) (positive : 0 < perItem)
    (long : ∀ piece, form piece → perItem ≤ piece.length) (arg : Nat) :
    Cursor.Reads (fun d : Decoder => d.fits arg perItem >>= fun n => times n read d)
      fun body => ∃ pieces : List Bytes, pieces.length = arg ∧ (∀ piece ∈ pieces, form piece) ∧
        body = pieces.flatten := by
  intro d after
  simp only [bind_ok, fits_iff]
  constructor
  · rintro ⟨_, ⟨rfl, -⟩, looped⟩
    exact (each.times _ _ _).1 looped
  · rintro ⟨body, formed, passes⟩
    refine ⟨arg, ⟨rfl, ?_⟩, (each.times _ _ _).2 ⟨body, formed, passes⟩⟩
    obtain ⟨pieces, rfl, all, rfl⟩ := formed
    have enough := length_le_flatten fun piece member => long piece (all piece member)
    rw [Nat.le_div_iff_mul_le positive, passes.1, List.length_append]
    omega

theorem contents_reads {skip : Decoder → Except Error Decoder}
    (each : Cursor.Reads skip form) (nonempty : ∀ piece, form piece → 0 < piece.length)
    (major : Major) (arg : Nat) :
    Cursor.Reads (contents skip major arg) (Contents form major arg) := by
  have strings : Cursor.Reads (fun d : Decoder => Prod.snd <$> d.bytes arg)
      fun body => body.length = arg := by
    intro d after
    simp [bytes_reads]
  have scalars : Cursor.Reads (fun d : Decoder => (pure d : Except Error Decoder))
      fun body => body = [] := by
    intro d after
    simp only [pure_ok, exists_eq_left, Cursor.passes_nil]
    exact eq_comm
  have entries : ∀ piece : Bytes,
      (∃ key value, Stringy .text key ∧ form value ∧ piece = key ++ value) → 2 ≤ piece.length := by
    rintro _ ⟨_, value, ⟨hd, payload, header, rfl⟩, formed, rfl⟩
    have first := header.nonempty
    have second := nonempty value formed
    simp only [List.length_append]
    omega
  cases major with
  | bytes | text => exact strings
  | array => exact loop_reads each Nat.one_pos nonempty arg
  | map => exact loop_reads (entry_reads each) Nat.two_pos entries arg
  | uint | negInt | tag | simple => exact scalars

theorem skip_reads (levels : Nat) : Cursor.Reads (skip levels) (Item levels) := by
  induction levels with
  | zero =>
    intro d after
    simp [skip, Item]
  | succ levels ih =>
    intro d after
    rw [skip]
    simp only [bind_ok]
    constructor
    · rintro ⟨⟨major, arg, middle⟩, read, rest⟩
      obtain ⟨hd, header, passes⟩ := head_iff.1 read
      obtain ⟨body, formed, passes'⟩ := (contents_reads ih (fun _ => item_nonempty) _ _ _ _).1 rest
      exact ⟨_, ⟨hd, major, arg, body, header, rfl, formed⟩,
        Cursor.passes_append.2 ⟨middle, passes, passes'⟩⟩
    · rintro ⟨_, ⟨hd, major, arg, body, header, rfl, formed⟩, passes⟩
      obtain ⟨middle, passes, passes'⟩ := Cursor.passes_append.1 passes
      exact ⟨_, head_iff.2 ⟨hd, header, passes⟩,
        (contents_reads ih (fun _ => item_nonempty) _ _ _ _).2 ⟨body, formed, passes'⟩⟩

theorem Contents.mono {form form' : Bytes → Prop} (implies : ∀ piece, form piece → form' piece) {body : Bytes} (formed : Contents form major arg body) :
    Contents form' major arg body := by
  cases major with
  | array =>
    obtain ⟨items, count, all, same⟩ := formed
    exact ⟨items, count, fun piece member => implies piece (all piece member), same⟩
  | map =>
    obtain ⟨entries, count, all, same⟩ := formed
    refine ⟨entries, count, fun piece member => ?_, same⟩
    obtain ⟨key, value, text, formed, joined⟩ := all piece member
    exact ⟨key, value, text, implies value formed, joined⟩
  | _ => exact formed

variable {levels' : Nat}

theorem Item.mono (fewer : levels ≤ levels') (formed : Item levels item) : Item levels' item := by
  induction levels generalizing levels' item with
  | zero => exact formed.elim
  | succ levels ih =>
    obtain ⟨more, rfl⟩ : ∃ more, levels' = more + 1 := ⟨levels' - 1, by omega⟩
    obtain ⟨hd, major, arg, body, header, rfl, formed⟩ := formed
    exact ⟨hd, major, arg, body, header, rfl, formed.mono fun piece => ih (by omega)⟩

end Decoder

open Decoder

theorem wellformed_iff {data : Bytes} :
    wellformed data = .ok () ↔ data.length ≤ maxBytes ∧ Item (levelsAt 0) data := by
  simp only [wellformed, bind_ok, reject_ok, not_not, not_lt, skip_reads _ _ _]
  constructor
  · rintro ⟨_, small, d, ⟨used, formed, starts, off⟩, done⟩
    have left : d.rest.length = 0 := by
      have long := congrArg List.length starts
      simp at long off
      omega
    obtain rfl : data = used := by simpa [List.length_eq_zero_iff.1 left] using starts
    exact ⟨small, formed⟩
  · rintro ⟨small, formed⟩
    exact ⟨(), small, ⟨data.length, []⟩, ⟨data, formed, by simp, by simp⟩, rfl⟩

end AppleDM.Cbor
