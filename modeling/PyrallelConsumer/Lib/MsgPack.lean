import Mathlib.Algebra.Ring.Int.Defs
import Mathlib.Algebra.Ring.Nat
import PyrallelConsumer.Lib.PyStr

/-!
# PyrallelConsumer.Lib.MsgPack

How many bytes MessagePack takes for a value, with `use_bin_type=True`; there is none where `packb`
raises: integers beyond 64 bits, strings that are not Unicode, containers with too many entries.

* `isSome_arraySize_iff`, `isSome_mapSize_iff` — what makes a container packable.
-/

namespace PyrallelConsumer

namespace MsgPack

/-- The packed size in bytes; `none` when the value cannot be packed. -/
abbrev PackedSize := Option Nat

/-- The format byte with a length of the least sufficient width, of those that the format has. -/
def header (fixed : Nat) (hasByteWidth : Bool) (length : Nat) : PackedSize :=
  if length < fixed then some 1
  else if hasByteWidth ∧ length < 2 ^ 8 then some 2
  else if length < 2 ^ 16 then some 3
  else if length < 2 ^ 32 then some 5
  else none

def nilSize : PackedSize := some 1

/-- A `float` is packed as a double. -/
def floatSize : PackedSize := some 9

def intSize (i : Int) : PackedSize :=
  if -2 ^ 5 ≤ i ∧ i < 2 ^ 7 then some 1
  else if -2 ^ 7 ≤ i ∧ i < 2 ^ 8 then some 2
  else if -2 ^ 15 ≤ i ∧ i < 2 ^ 16 then some 3
  else if -2 ^ 31 ≤ i ∧ i < 2 ^ 32 then some 5
  else if -2 ^ 63 ≤ i ∧ i < 2 ^ 64 then some 9
  else none

/-- A string of `length` bytes. -/
def strSizeOf (length : Nat) : PackedSize := (header 32 true length).map (· + length)

def strSize : PyStr → PackedSize
  | .text s => strSizeOf s.utf8ByteSize
  | .broken _ _ _ => none

def total : List PackedSize → PackedSize
  | [] => some 0
  | s :: l => s.bind fun n => (total l).map (n + ·)

def arraySize (l : List PackedSize) : PackedSize :=
  (header 16 false l.length).bind fun h => (total l).map (h + ·)

/-- A `dict` with string keys. -/
def mapSize (fields : List (String × PackedSize)) : PackedSize :=
  (header 16 false fields.length).bind fun h =>
    (total (fields.flatMap fun f => [strSize (.text f.1), f.2])).map (h + ·)

theorem isSome_total_iff (l : List PackedSize) : (total l).isSome ↔ ∀ s ∈ l, s.isSome := by
  induction l with
  | nil => simp [total]
  | cons s l ih => cases s <;> simp [total, ih]

theorem isSome_header_iff {fixed : Nat} (hfixed : fixed ≤ 2 ^ 32) (hasByteWidth : Bool) (length : Nat) :
    (header fixed hasByteWidth length).isSome ↔ length < 2 ^ 32 := by
  unfold header
  split
  · simp only [Option.isSome_some, true_iff]
    omega
  · split
    · rename_i h
      simp only [Option.isSome_some, true_iff]
      omega
    · split
      · simp only [Option.isSome_some, true_iff]
        omega
      · split <;> simp_all

theorem isSome_arraySize_iff (l : List PackedSize) :
    (arraySize l).isSome ↔ l.length < 2 ^ 32 ∧ ∀ s ∈ l, s.isSome := by
  rw [← isSome_header_iff (by omega : 16 ≤ 2 ^ 32) false, ← isSome_total_iff]
  unfold arraySize
  cases header 16 false l.length <;> cases total l <;> simp

theorem isSome_mapSize_iff (fields : List (String × PackedSize)) :
    (mapSize fields).isSome ↔
      fields.length < 2 ^ 32 ∧ ∀ f ∈ fields, (strSize (.text f.1)).isSome ∧ f.2.isSome := by
  have hentries : (∀ s ∈ fields.flatMap fun f => [strSize (.text f.1), f.2], s.isSome = true) ↔
      ∀ f ∈ fields, (strSize (.text f.1)).isSome = true ∧ f.2.isSome = true := by
    simp only [List.forall_mem_flatMap, List.forall_mem_cons, List.not_mem_nil, false_implies, implies_true, and_true]
  rw [← isSome_header_iff (by omega : 16 ≤ 2 ^ 32) false, ← hentries, ← isSome_total_iff]
  unfold mapSize
  cases header 16 false fields.length <;> cases total (fields.flatMap fun f => [strSize (.text f.1), f.2]) <;> simp

end MsgPack

end PyrallelConsumer
