import PyrallelConsumer.Dto
import PyrallelConsumer.Lib.SortedSet
import PyrallelConsumer.Lib.Text
import Mathlib.Algebra.Order.Ring.Int
import Mathlib.Order.Interval.Finset.Defs

/-!
# PyrallelConsumer.MetadataEncoder

The commit-metadata codec of `control_plane/metadata_encoder.py`: a set of offsets as decimal runs
(`R1-3,5`) or as a bitmap over a base offset (`B1:17`), whichever is shorter and fits, with `O` for
"neither fits".

* `rleDecodeOffsets_rleEncodeOffsets` — the run-length form reads back as the set it was written from.
* `bitsetDecodeOffsets_bitsetText` — so does the bitmap form.
* `encodeMetadata_eq` — the four-way choice, as a case split on which forms fit.
* `encodeMetadata_correct` — the codec's contract: size, round trip, overflow marker, minimality.
-/

namespace PyrallelConsumer

structure MetadataEncoder where
  maxMetadataSize : Int := 4000
deriving DecidableEq, Repr

namespace MetadataEncoder

open Text

/-! ## Encoding -/

def runText (start stop : Int) : Str :=
  if start = stop then ofInt start else ofInt start ++ '-' :: ofInt stop

/-- The `for` loop of `_rle_encode_offsets` with the last run, as the list `encoded_parts`. -/
def encodedParts (start stop : Int) : List Int → List Str
  | [] => [runText start stop]
  | o :: os =>
    if o = stop + 1 then encodedParts start o os else runText start stop :: encodedParts o o os

def rleEncodeOffsets (offsets : SortedSet Int) : Str :=
  match offsets.elems with
  | [] => []
  | o :: os => [','].intercalate (encodedParts o o os)

def relativeOffsets (offsets : SortedSet Int) (baseOffset : Int) : List Nat :=
  (offsets.elems.filter fun o => baseOffset ≤ o).map fun o => (o - baseOffset).toNat

def setBit (bitBytes : List Byte) (relOffset : Nat) : List Byte :=
  bitBytes.modify (relOffset / 8) (· ||| 1#8 <<< (relOffset % 8))

def byteLength (maxRelativeOffset : Nat) : Nat := (maxRelativeOffset + 1 + 7) / 8

def bitBytes (relOffsets : List Nat) (maxRelativeOffset : Nat) : List Byte :=
  relOffsets.foldl setBit (List.replicate (byteLength maxRelativeOffset) 0#8)

/-- `f"{base_offset}:{bit_hex}"`, whatever its length. -/
def bitsetText (offsets : SortedSet Int) (baseOffset : Int) : Str :=
  match (relativeOffsets offsets baseOffset).getLast? with
  | none => ofInt baseOffset ++ [':']
  | some maxRel =>
    ofInt baseOffset ++ ':' :: hex (bitBytes (relativeOffsets offsets baseOffset) maxRel)

/-- `_bitset_encode_offsets`: the empty text when the bytes alone exceed the limit. -/
def bitsetEncodeOffsets (e : MetadataEncoder) (offsets : SortedSet Int) (baseOffset : Int) : Str :=
  match (relativeOffsets offsets baseOffset).getLast? with
  | none => bitsetText offsets baseOffset
  | some maxRel =>
    if (byteLength maxRel : Int) > e.maxMetadataSize then [] else bitsetText offsets baseOffset

def tooLong (e : MetadataEncoder) (s : Str) : Prop := (s.length : Int) > e.maxMetadataSize

instance (e : MetadataEncoder) (s : Str) : Decidable (e.tooLong s) :=
  inferInstanceAs (Decidable (_ > _))

def encodeMetadata (e : MetadataEncoder) (offsets : SortedSet Int) (baseOffset : Int) : Str :=
  let rlePayload : Str := 'R' :: rleEncodeOffsets offsets
  let bitsetEncoded := e.bitsetEncodeOffsets offsets baseOffset
  let bitsetPayload : Option Str := if bitsetEncoded ≠ [] then some ('B' :: bitsetEncoded) else none
  if e.tooLong rlePayload ∧ ∀ b ∈ bitsetPayload, e.tooLong b then ['O']
  else if e.tooLong rlePayload then bitsetPayload.getD ['O']
  else
    match bitsetPayload with
    | none => rlePayload
    | some b =>
      if e.tooLong b then rlePayload
      else if rlePayload.length ≤ b.length then rlePayload
      else b

/-! ## Decoding -/

/-- `range(start, end + 1)`. -/
def rangeList (start stop : Int) : List Int :=
  (List.range (stop + 1 - start).toNat).map fun i : Nat => start + i

/-- One part of a run-length payload; `none` is `ValueError`. -/
def decodePart (part : Str) : Option (List Int) :=
  if '-' ∈ part then
    match (part.splitOn '-').map parseInt with
    | [some start, some stop] => some (rangeList start stop)
    | _ => none
  else (parseInt part).map fun o => [o]

def decodeParts : SortedSet Int → List Str → Option (SortedSet Int)
  | offsets, [] => some offsets
  | offsets, part :: parts =>
    (decodePart part).bind fun l => decodeParts (l.foldl SortedSet.add offsets) parts

def rleDecodeOffsets (encodedStr : Str) : Option (SortedSet Int) :=
  if encodedStr = [] then some .empty else decodeParts .empty (encodedStr.splitOn ',')

/-- The nested loops of `_bitset_decode_offsets`, from byte `byteIndex` on. -/
def bitOffsets (baseOffset : Int) : Nat → List Byte → List Int
  | _, [] => []
  | byteIndex, byte :: bytes =>
    ((List.range 8).filter fun bitIndex => byte &&& 1#8 <<< bitIndex ≠ 0#8).map
        (fun bitIndex : Nat => baseOffset + byteIndex * 8 + bitIndex) ++
      bitOffsets baseOffset (byteIndex + 1) bytes

/-- `_bitset_decode_offsets`; it catches its own `ValueError`. -/
def bitsetDecodeOffsets (encodedStr : Str) : SortedSet Int :=
  if ':' ∉ encodedStr then .empty
  else
    let (baseOffsetStr, bitHex) := Text.partition ':' encodedStr
    match parseInt baseOffsetStr, fromHex bitHex with
    | some baseOffset, some bytes => SortedSet.ofList (bitOffsets baseOffset 0 bytes)
    | _, _ => .empty

/-- `decode_metadata`: a failed parse and an unknown form both give the empty set. -/
def decodeMetadata : Str → SortedSet Int
  | 'R' :: payload => (rleDecodeOffsets payload).getD .empty
  | 'B' :: payload => bitsetDecodeOffsets payload
  | _ => .empty

/-! ## The run-length form -/

theorem ofInt_toNat {n : Int} (h : 0 ≤ n) : ofInt n = ofInt (n.toNat : Nat) := by
  rw [Int.toNat_of_nonneg h]

theorem parseInt_ofInt_of_nonneg {n : Int} (h : 0 ≤ n) : parseInt (ofInt n) = some n := by
  rw [ofInt_toNat h, parseInt_ofInt, Int.toNat_of_nonneg h]

theorem not_mem_ofInt_of_nonneg {c : Char} (hc : c.isDigit = false) {n : Int} (h : 0 ≤ n) :
    c ∉ ofInt n := by
  rw [ofInt_toNat h]; exact not_mem_ofInt hc _

theorem mem_rangeList {a b x : Int} : x ∈ rangeList a b ↔ a ≤ x ∧ x ≤ b := by
  simp only [rangeList, List.mem_map, List.mem_range]
  constructor
  · rintro ⟨i, hi, rfl⟩; omega
  · intro h; exact ⟨(x - a).toNat, by omega, by omega⟩

theorem comma_not_mem_runText {a b : Int} (ha : 0 ≤ a) (hb : 0 ≤ b) : ',' ∉ runText a b := by
  have h1 := not_mem_ofInt_of_nonneg (c := ',') rfl ha
  have h2 := not_mem_ofInt_of_nonneg (c := ',') rfl hb
  unfold runText
  split
  · exact h1
  · simp [h1, h2]

theorem decodePart_runText {a b : Int} (ha : 0 ≤ a) (hab : a ≤ b) :
    decodePart (runText a b) = some (rangeList a b) := by
  have hma := not_mem_ofInt_of_nonneg (c := '-') rfl ha
  have hmb := not_mem_ofInt_of_nonneg (c := '-') rfl (le_trans ha hab)
  by_cases h : a = b
  · subst h
    rw [runText, if_pos rfl, decodePart, if_neg hma, parseInt_ofInt_of_nonneg ha]
    simp [rangeList]
  · rw [runText, if_neg h, decodePart, if_pos (by simp), List.splitOn_append_cons_self_of_not_mem hma,
      List.splitOn_eq_singleton hmb]
    simp only [List.map_cons, List.map_nil, parseInt_ofInt_of_nonneg ha,
      parseInt_ofInt_of_nonneg (le_trans ha hab)]

theorem mem_foldl_add {x : Int} (l : List Int) :
    ∀ s : SortedSet Int, x ∈ l.foldl SortedSet.add s ↔ x ∈ s ∨ x ∈ l := by
  induction l with
  | nil => intro s; simp
  | cons a l ih =>
    intro s
    rw [List.foldl_cons, ih, SortedSet.mem_add, List.mem_cons]
    tauto

/-- Reading the parts back adds the pending run and every later offset. -/
theorem decodeParts_encodedParts (os : List Int) :
    ∀ (a b : Int) (s : SortedSet Int), 0 ≤ a → a ≤ b → (∀ o ∈ os, b < o) → os.Pairwise (· < ·) →
      ∃ t, decodeParts s (encodedParts a b os) = some t ∧
        ∀ x, x ∈ t ↔ x ∈ s ∨ (a ≤ x ∧ x ≤ b) ∨ x ∈ os := by
  induction os with
  | nil =>
    intro a b s ha hab _ _
    refine ⟨(rangeList a b).foldl SortedSet.add s, ?_, fun x => ?_⟩
    · simp only [encodedParts, decodeParts, decodePart_runText ha hab, Option.bind_some]
    · rw [mem_foldl_add, mem_rangeList]; simp
  | cons o os ih =>
    intro a b s ha hab hlt hsorted
    obtain ⟨ho, hsorted⟩ := List.pairwise_cons.mp hsorted
    have hbo := hlt o (by simp)
    simp only [encodedParts]
    split
    · -- the run grows by one
      rename_i hrun
      obtain ⟨t, ht, hmem⟩ := ih a o s ha (by omega) ho hsorted
      refine ⟨t, ht, fun x => ?_⟩
      rw [hmem, List.mem_cons]
      constructor
      · rintro (h | h | h)
        · exact .inl h
        · rcases (by omega : x = o ∨ x ≤ b) with h' | h'
          · exact .inr (.inr (.inl h'))
          · exact .inr (.inl ⟨h.1, h'⟩)
        · exact .inr (.inr (.inr h))
      · rintro (h | h | h | h)
        · exact .inl h
        · exact .inr (.inl ⟨h.1, by omega⟩)
        · exact .inr (.inl ⟨by omega, by omega⟩)
        · exact .inr (.inr h)
    · -- the run is written out and a new one starts at `o`
      obtain ⟨t, ht, hmem⟩ :=
        ih o o ((rangeList a b).foldl SortedSet.add s) (by omega) (le_refl o) ho hsorted
      refine ⟨t, ?_, fun x => ?_⟩
      · simp only [decodeParts, decodePart_runText ha hab, Option.bind_some]
        exact ht
      · rw [hmem, mem_foldl_add, mem_rangeList, List.mem_cons]
        have : (o ≤ x ∧ x ≤ o) ↔ x = o := by omega
        rw [this]
        tauto

theorem comma_not_mem_encodedParts (os : List Int) :
    ∀ (a b : Int), 0 ≤ a → a ≤ b → (∀ o ∈ os, 0 ≤ o) → ∀ p ∈ encodedParts a b os, ',' ∉ p := by
  induction os with
  | nil =>
    intro a b ha hab _ p hp
    simp only [encodedParts, List.mem_singleton] at hp
    subst hp
    exact comma_not_mem_runText ha (by omega)
  | cons o os ih =>
    intro a b ha hab hpos p hp
    have ho := hpos o (by simp)
    have hpos' : ∀ x ∈ os, 0 ≤ x := fun x hx => hpos x (List.mem_cons_of_mem _ hx)
    simp only [encodedParts] at hp
    split at hp
    · exact ih a o ha (by omega) hpos' p hp
    · rcases List.mem_cons.mp hp with rfl | hp
      · exact comma_not_mem_runText ha (by omega)
      · exact ih o o ho (le_refl o) hpos' p hp

theorem encodedParts_ne_nil (os : List Int) : ∀ a b, encodedParts a b os ≠ [] := by
  induction os with
  | nil => intro a b; simp [encodedParts]
  | cons o os ih =>
    intro a b
    simp only [encodedParts]
    split
    · exact ih a o
    · simp

theorem rleDecodeOffsets_rleEncodeOffsets {s : SortedSet Int} (hs : ∀ o ∈ s, 0 ≤ o) :
    rleDecodeOffsets (rleEncodeOffsets s) = some s := by
  obtain ⟨l, hl⟩ := s
  cases l with
  | nil => rfl
  | cons o os =>
    have hpos : ∀ x ∈ o :: os, 0 ≤ x := hs
    obtain ⟨ho, hsorted⟩ := List.pairwise_cons.mp hl
    have ho0 := hpos o (by simp)
    obtain ⟨t, ht, hmem⟩ :=
      decodeParts_encodedParts os o o .empty ho0 (le_refl o) ho hsorted
    have hsplit : ([','].intercalate (encodedParts o o os)).splitOn ',' = encodedParts o o os :=
      List.splitOn_intercalate _
        (comma_not_mem_encodedParts os o o ho0 (le_refl o)
          fun x hx => hpos x (List.mem_cons_of_mem _ hx))
        (encodedParts_ne_nil os o o)
    have heq : t = ⟨o :: os, hl⟩ := SortedSet.ext_mem fun x => by
      rw [hmem, SortedSet.mem_def (s := ⟨o :: os, hl⟩), List.mem_cons]
      have : (o ≤ x ∧ x ≤ o) ↔ x = o := by omega
      simp [this]
    have hne : [','].intercalate (encodedParts o o os) ≠ [] := by
      -- an empty payload would split into one empty part, which does not parse
      intro hnil
      rw [hnil, List.splitOn_nil] at hsplit
      rw [← hsplit] at ht
      cases ht
    have henc : rleEncodeOffsets ⟨o :: os, hl⟩ = [','].intercalate (encodedParts o o os) := rfl
    rw [henc, rleDecodeOffsets, if_neg hne, hsplit, ht, heq]

/-! ## The bitmap form -/

/-- Bit `k` of a byte string, least significant bit first. -/
def bitAt (bytes : List Byte) (k : Nat) : Bool := ((bytes[k / 8]?).getD 0#8).getLsbD (k % 8)

theorem length_setBit (bytes : List Byte) (r : Nat) : (setBit bytes r).length = bytes.length :=
  List.length_modify _ _ _

theorem bitAt_setBit {bytes : List Byte} {r : Nat} (h : r / 8 < bytes.length) (k : Nat) :
    bitAt (setBit bytes r) k = (bitAt bytes k || decide (k = r)) := by
  have hk : k % 8 < 8 := Nat.mod_lt _ (by omega)
  have hr : r % 8 < 8 := Nat.mod_lt _ (by omega)
  unfold bitAt setBit
  rw [List.getElem?_modify, ← BitVec.twoPow_eq]
  by_cases hkr : r / 8 = k / 8
  · rw [hkr] at h
    simp only [hkr, ↓reduceIte, List.getElem?_eq_getElem h, Option.map_eq_map, Option.map_some,
      Option.getD_some, BitVec.getLsbD_or, BitVec.getLsbD_twoPow, hr, decide_true, Bool.true_and]
    congr 2
    refine propext ?_
    omega
  · have hne : k ≠ r := by rintro rfl; exact hkr rfl
    simp [hkr, hne]

theorem bitAt_foldl_setBit (rel : List Nat) (k : Nat) :
    ∀ bytes : List Byte, (∀ r ∈ rel, r / 8 < bytes.length) →
      (bitAt (rel.foldl setBit bytes) k = true ↔ bitAt bytes k = true ∨ k ∈ rel) := by
  induction rel with
  | nil => intro bytes _; simp
  | cons r rel ih =>
    intro bytes h
    have hr := h r (by simp)
    have hrel : ∀ x ∈ rel, x / 8 < (setBit bytes r).length := by
      intro x hx
      rw [length_setBit]
      exact h x (List.mem_cons_of_mem _ hx)
    rw [List.foldl_cons, ih _ hrel, bitAt_setBit hr, Bool.or_eq_true, decide_eq_true_eq,
      List.mem_cons, or_assoc]

theorem bitAt_replicate_zero (n k : Nat) : bitAt (List.replicate n 0#8) k = false := by
  unfold bitAt
  rw [List.getElem?_replicate]
  split <;> simp

theorem and_bit_ne_zero (b : Byte) (j : Nat) :
    b &&& 1#8 <<< j ≠ 0#8 ↔ b.getLsbD j = true ∧ j < 8 := by
  rw [← BitVec.twoPow_eq, BitVec.and_twoPow]
  constructor
  · intro h
    split at h
    · rename_i hb; exact ⟨hb, BitVec.lt_of_getLsbD hb⟩
    · exact absurd rfl h
  · rintro ⟨hb, hj⟩ hz
    rw [if_pos hb] at hz
    have hbit : (BitVec.twoPow 8 j).getLsbD j = true := by simp [hj]
    rw [hz] at hbit
    simp at hbit

theorem mem_bitOffsets {base x : Int} (bytes : List Byte) :
    ∀ i : Nat, x ∈ bitOffsets base i bytes ↔ ∃ k : Nat, bitAt bytes k = true ∧ x = base + i * 8 + k := by
  induction bytes with
  | nil => intro i; simp [bitOffsets, bitAt]
  | cons b bytes ih =>
    intro i
    simp only [bitOffsets, List.mem_append, List.mem_map, List.mem_filter, List.mem_range,
      decide_eq_true_eq, and_bit_ne_zero, ih]
    constructor
    · rintro (⟨j, ⟨hj, hb, -⟩, rfl⟩ | ⟨k, hk, rfl⟩)
      · refine ⟨j, ?_, rfl⟩
        simp only [bitAt, Nat.div_eq_of_lt hj, Nat.mod_eq_of_lt hj, List.getElem?_cons_zero,
          Option.getD_some, hb]
      · refine ⟨k + 8, ?_, by omega⟩
        simpa only [bitAt, Nat.add_div_right k (by omega : 0 < 8), Nat.add_mod_right,
          Nat.succ_eq_add_one, List.getElem?_cons_succ] using hk
    · rintro ⟨k, hk, rfl⟩
      by_cases h8 : k < 8
      · refine .inl ⟨k, ⟨h8, ?_, h8⟩, rfl⟩
        simpa only [bitAt, Nat.div_eq_of_lt h8, Nat.mod_eq_of_lt h8, List.getElem?_cons_zero,
          Option.getD_some] using hk
      · obtain ⟨j, rfl⟩ : ∃ j, k = j + 8 := ⟨k - 8, by omega⟩
        refine .inr ⟨j, ?_, by omega⟩
        simpa only [bitAt, Nat.add_div_right j (by omega : 0 < 8), Nat.add_mod_right,
          Nat.succ_eq_add_one, List.getElem?_cons_succ] using hk

theorem mem_relativeOffsets {s : SortedSet Int} {base : Int} (hs : ∀ o ∈ s, base ≤ o) {k : Nat} :
    k ∈ relativeOffsets s base ↔ base + k ∈ s := by
  simp only [relativeOffsets, List.mem_map, List.mem_filter, decide_eq_true_eq]
  constructor
  · rintro ⟨o, ⟨ho, hb⟩, rfl⟩
    rwa [Int.toNat_of_nonneg (by omega), add_sub_cancel]
  · intro h
    exact ⟨base + k, ⟨h, hs _ h⟩, by omega⟩

/-- The last relative offset of an increasing enumeration is the largest. -/
theorem le_of_getLast?_relativeOffsets {s : SortedSet Int} {base : Int} {m k : Nat}
    (hm : (relativeOffsets s base).getLast? = some m) (hk : k ∈ relativeOffsets s base) : k ≤ m := by
  have hsorted : (relativeOffsets s base).Pairwise (· ≤ ·) := by
    unfold relativeOffsets
    rw [List.pairwise_map]
    refine (s.sorted.sublist List.filter_sublist).imp ?_
    intro a b hab
    omega
  obtain ⟨l, hl⟩ := List.getLast?_eq_some_iff.mp hm
  rw [hl] at hk hsorted
  rcases List.mem_append.mp hk with hk | hk
  · exact (List.pairwise_append.mp hsorted).2.2 k hk m (by simp)
  · simp only [List.mem_singleton] at hk; omega

theorem bitsetDecodeOffsets_bitsetText {s : SortedSet Int} {base : Int} (hbase : 0 ≤ base)
    (hs : ∀ o ∈ s, base ≤ o) : bitsetDecodeOffsets (bitsetText s base) = s := by
  have hcolon := not_mem_ofInt_of_nonneg (c := ':') rfl hbase
  -- both branches write the base and the digits of some byte string
  obtain ⟨bytes, htext, hbytes⟩ : ∃ bytes, bitsetText s base = ofInt base ++ ':' :: hex bytes ∧
      ∀ k, bitAt bytes k = true ↔ k ∈ relativeOffsets s base := by
    unfold bitsetText
    split
    · rename_i hnone
      refine ⟨[], rfl, fun k => ?_⟩
      rw [List.getLast?_eq_none_iff.mp hnone]
      simp [bitAt]
    · rename_i m hm
      refine ⟨_, rfl, fun k => ?_⟩
      rw [bitBytes, bitAt_foldl_setBit, bitAt_replicate_zero]
      · simp
      · intro r hr
        have := le_of_getLast?_relativeOffsets hm hr
        rw [List.length_replicate, byteLength]
        omega
  rw [htext, bitsetDecodeOffsets, if_neg (by simp), partition_append_cons hcolon]
  simp only [parseInt_ofInt_of_nonneg hbase, fromHex_hex]
  refine SortedSet.ext_mem fun x => ?_
  rw [SortedSet.mem_ofList, mem_bitOffsets]
  constructor
  · rintro ⟨k, hk, rfl⟩
    simpa using (mem_relativeOffsets hs).mp ((hbytes k).mp hk)
  · intro hx
    have hk : (x - base).toNat ∈ relativeOffsets s base := by
      rw [mem_relativeOffsets hs, Int.toNat_of_nonneg (by have := hs x hx; omega), add_sub_cancel]
      exact hx
    exact ⟨_, (hbytes _).mpr hk, by have := hs x hx; omega⟩

/-! ## The choice between the forms -/

/-- The run-length form of a set, whatever its length. -/
def rleForm (offsets : SortedSet Int) : Str := 'R' :: rleEncodeOffsets offsets

/-- The bitmap form of a set, whatever its length. -/
def bitsetForm (offsets : SortedSet Int) (baseOffset : Int) : Str := 'B' :: bitsetText offsets baseOffset

theorem length_setBit_foldl (rel : List Nat) :
    ∀ bytes : List Byte, (rel.foldl setBit bytes).length = bytes.length := by
  induction rel with
  | nil => intro bytes; rfl
  | cons r rel ih => intro bytes; rw [List.foldl_cons, ih, length_setBit]

/-- The encoder withholds the bitmap only when it could not have fitted. -/
theorem bitsetEncodeOffsets_cases (e : MetadataEncoder) (s : SortedSet Int) (base : Int) :
    (e.bitsetEncodeOffsets s base = bitsetText s base ∧ bitsetText s base ≠ []) ∨
      (e.bitsetEncodeOffsets s base = [] ∧ e.tooLong (bitsetForm s base)) := by
  unfold bitsetEncodeOffsets
  split
  · rename_i hnone
    refine .inl ⟨rfl, ?_⟩
    simp [bitsetText, hnone]
  · rename_i m hm
    split
    · rename_i hlong
      refine .inr ⟨rfl, ?_⟩
      simp only [tooLong, bitsetForm, bitsetText, hm, List.length_cons, List.length_append,
        length_hex, bitBytes, length_setBit_foldl, List.length_replicate]
      omega
    · refine .inl ⟨rfl, ?_⟩
      simp [bitsetText, hm]

theorem encodeMetadata_eq (e : MetadataEncoder) (s : SortedSet Int) (base : Int) :
    e.encodeMetadata s base =
      if e.tooLong (rleForm s) ∧ e.tooLong (bitsetForm s base) then ['O']
      else if e.tooLong (rleForm s) then bitsetForm s base
      else if e.tooLong (bitsetForm s base) then rleForm s
      else if (rleForm s).length ≤ (bitsetForm s base).length then rleForm s
      else bitsetForm s base := by
  have hrle : 'R' :: rleEncodeOffsets s = rleForm s := rfl
  have hbit : 'B' :: bitsetText s base = bitsetForm s base := rfl
  unfold encodeMetadata
  rcases bitsetEncodeOffsets_cases e s base with ⟨h, hne⟩ | ⟨h, hlong⟩
  · simp only [h, hne, hrle, hbit, ne_eq, not_false_eq_true, ↓reduceIte, Option.mem_def,
      Option.some.injEq, forall_eq', Option.getD_some]
  · simp only [h, hrle, hlong, ne_eq, not_true_eq_false, ↓reduceIte, Option.mem_def, reduceCtorEq,
      false_implies, implies_true, and_true, Option.getD_none]
    split <;> rfl

theorem decodeMetadata_rleForm {s : SortedSet Int} (hs : ∀ o ∈ s, 0 ≤ o) :
    decodeMetadata (rleForm s) = s := by
  rw [rleForm, decodeMetadata, rleDecodeOffsets_rleEncodeOffsets hs]; rfl

theorem decodeMetadata_bitsetForm {s : SortedSet Int} {base : Int} (hbase : 0 ≤ base)
    (hs : ∀ o ∈ s, base ≤ o) : decodeMetadata (bitsetForm s base) = s := by
  rw [bitsetForm, decodeMetadata, bitsetDecodeOffsets_bitsetText hbase hs]

theorem encodeMetadata_eq_overflow_iff (e : MetadataEncoder) (s : SortedSet Int) (base : Int) :
    e.encodeMetadata s base = ['O'] ↔
      ∀ form ∈ [rleForm s, bitsetForm s base], e.tooLong form := by
  have hr : rleForm s ≠ ['O'] := by simp [rleForm]
  have hb : bitsetForm s base ≠ ['O'] := by simp [bitsetForm]
  rw [encodeMetadata_eq]
  simp only [List.forall_mem_cons, List.not_mem_nil, false_implies, implies_true, and_true]
  split
  · rename_i h; simp [h]
  · rename_i h
    refine ⟨fun heq => ?_, fun h' => absurd h' h⟩
    split at heq
    · exact absurd heq hb
    · split at heq
      · exact absurd heq hr
      · split at heq
        · exact absurd heq hr
        · exact absurd heq hb

/-- Unless nothing fits, the result is one of the forms that fit and none that fits is shorter. -/
theorem encodeMetadata_shortest (e : MetadataEncoder) {s : SortedSet Int} {base : Int}
    (h : e.encodeMetadata s base ≠ ['O']) :
    e.encodeMetadata s base ∈ [rleForm s, bitsetForm s base] ∧
      ¬ e.tooLong (e.encodeMetadata s base) ∧
      ∀ form ∈ [rleForm s, bitsetForm s base], ¬ e.tooLong form →
        (e.encodeMetadata s base).length ≤ form.length := by
  rw [encodeMetadata_eq] at h ⊢
  simp only [List.mem_cons, List.not_mem_nil, or_false, forall_eq_or_imp, forall_eq]
  split
  · rename_i h'; rw [if_pos h'] at h; exact absurd rfl h
  · rename_i hboth
    split
    · rename_i hr
      have hb : ¬ e.tooLong (bitsetForm s base) := fun hb => hboth ⟨hr, hb⟩
      exact ⟨.inr rfl, hb, fun h => absurd hr h, fun _ => le_refl _⟩
    · rename_i hr
      split
      · rename_i hb
        exact ⟨.inl rfl, hr, fun _ => le_refl _, fun h => absurd hb h⟩
      · rename_i hb
        split
        · rename_i hle
          exact ⟨.inl rfl, hr, fun _ => le_refl _, fun _ => hle⟩
        · exact ⟨.inr rfl, hb, fun _ => by omega, fun _ => le_refl _⟩

/-- What the encoder wrote reads back as the set it was given. -/
theorem decodeMetadata_encodeMetadata (e : MetadataEncoder) {s : SortedSet Int} {base : Int}
    (hbase : 0 ≤ base) (hs : ∀ o ∈ s, base ≤ o) (h : e.encodeMetadata s base ≠ ['O']) :
    decodeMetadata (e.encodeMetadata s base) = s := by
  have hmem := (encodeMetadata_shortest e h).1
  simp only [List.mem_cons, List.not_mem_nil, or_false] at hmem
  rcases hmem with hm | hm
  · rw [hm]; exact decodeMetadata_rleForm fun o ho => le_trans hbase (hs o ho)
  · rw [hm]; exact decodeMetadata_bitsetForm hbase hs

/-- **The codec contract.** For offsets at or above a non-negative base, the metadata fits the
limit; it reads back as the set it was written from unless it is the overflow marker, which reads
back as nothing; the marker is written exactly when neither form fits; and otherwise the metadata
is a shortest of the forms that fit. -/
theorem encodeMetadata_correct (e : MetadataEncoder) (s : SortedSet Int) (base : Int)
    (hmax : 1 ≤ e.maxMetadataSize) (hbase : 0 ≤ base) (hs : ∀ o ∈ s, base ≤ o) :
    ((e.encodeMetadata s base).length : Int) ≤ e.maxMetadataSize ∧
    (e.encodeMetadata s base ≠ ['O'] → decodeMetadata (e.encodeMetadata s base) = s) ∧
    (e.encodeMetadata s base = ['O'] → decodeMetadata (e.encodeMetadata s base) = .empty) ∧
    (e.encodeMetadata s base = ['O'] ↔
      ∀ form ∈ [rleForm s, bitsetForm s base], (form.length : Int) > e.maxMetadataSize) ∧
    (e.encodeMetadata s base ≠ ['O'] →
      e.encodeMetadata s base ∈ [rleForm s, bitsetForm s base] ∧
      ∀ form ∈ [rleForm s, bitsetForm s base], (form.length : Int) ≤ e.maxMetadataSize →
        (e.encodeMetadata s base).length ≤ form.length) := by
  refine ⟨?_, decodeMetadata_encodeMetadata e hbase hs, fun h => ?_, encodeMetadata_eq_overflow_iff e s base, fun h => ?_⟩
  · by_cases h : e.encodeMetadata s base = ['O']
    · rw [h]; exact hmax
    · exact not_lt.mp (encodeMetadata_shortest e h).2.1
  · rw [h]; rfl
  · obtain ⟨hmem, -, hmin⟩ := encodeMetadata_shortest e h
    exact ⟨hmem, fun form hf hfit => hmin form hf (not_lt.mpr hfit)⟩

theorem encodeMetadata_correct_bitmap :
    (∀ o ∈ SortedSet.ofList [1, 3, 5, 7], (1 : Int) ≤ o) ∧
    encodeMetadata ⟨6⟩ (.ofList [1, 3, 5, 7]) 1 = "B1:55".toList ∧
    decodeMetadata (encodeMetadata ⟨6⟩ (.ofList [1, 3, 5, 7]) 1) = .ofList [1, 3, 5, 7] := by
  refine ⟨by decide, by decide, ?_⟩
  exact (encodeMetadata_correct ⟨6⟩ _ 1 (by decide) (by decide) (by decide)).2.1 (by decide)

end MetadataEncoder

end PyrallelConsumer
