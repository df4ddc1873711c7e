import Mathlib.Data.List.Basic

/-!
# PyrallelConsumer.Lib.Text

Python's text conversions, on the code points of a `str`.

* `ofInt` / `parseInt` — `str(n)` and `int(s)`; `parseInt_ofInt` is the round trip on the naturals.
* `hex` / `fromHex` — `bytes.hex()` and `bytes.fromhex(s)`; `fromHex_hex` is the round trip.
* `partition` — `s.split(sep, 1)` where the separator occurs.

`int(s)` accepts surrounding blanks, a sign, single underscores between digits and every decimal
digit of Unicode; `bytes.fromhex` skips ASCII blanks before each pair of digits.
-/

namespace PyrallelConsumer

namespace Text

abbrev Byte := BitVec 8

/-! ## Integers -/

/-- `str(n)`. -/
def ofInt : Int → List Char
  | .ofNat n => Nat.toDigits 10 n
  | .negSucc n => '-' :: Nat.toDigits 10 (n + 1)

/-- The code points of the Unicode digits zero; the digits of each script are consecutive. -/
def decimalZeros : List Nat :=
  [0x30, 0x660, 0x6f0, 0x7c0, 0x966, 0x9e6, 0xa66, 0xae6, 0xb66, 0xbe6, 0xc66, 0xce6, 0xd66, 0xde6,
   0xe50, 0xed0, 0xf20, 0x1040, 0x1090, 0x17e0, 0x1810, 0x1946, 0x19d0, 0x1a80, 0x1a90, 0x1b50,
   0x1bb0, 0x1c40, 0x1c50, 0xa620, 0xa8d0, 0xa900, 0xa9d0, 0xa9f0, 0xaa50, 0xabf0, 0xff10, 0x104a0,
   0x10d30, 0x11066, 0x110f0, 0x11136, 0x111d0, 0x112f0, 0x11450, 0x114d0, 0x11650, 0x116c0,
   0x11730, 0x118e0, 0x11950, 0x11c50, 0x11d50, 0x11da0, 0x16a60, 0x16ac0, 0x16b50, 0x1d7ce,
   0x1d7d8, 0x1d7e2, 0x1d7ec, 0x1d7f6, 0x1e140, 0x1e2f0, 0x1e950, 0x1fbf0]

def decimalValue (c : Char) : Option Nat :=
  (decimalZeros.find? fun z => z ≤ c.toNat && c.toNat < z + 10).map (c.toNat - ·)

def isAsciiSpace (c : Char) : Bool := (9 ≤ c.toNat && c.toNat ≤ 13) || c.toNat == 32

/-- The blanks that `int(s)` strips. -/
def isSpace (c : Char) : Bool :=
  isAsciiSpace c || c.toNat ∈ [0x85, 0xa0, 0x1680, 0x2028, 0x2029, 0x202f, 0x205f, 0x3000] ||
    (0x2000 ≤ c.toNat && c.toNat ≤ 0x200a)

def strip (s : List Char) : List Char :=
  ((s.dropWhile isSpace).reverse.dropWhile isSpace).reverse

/-- The digits after the first one; an underscore stands between two digits only. -/
def parseDigits : Nat → List Char → Option Nat
  | acc, [] => some acc
  | acc, '_' :: c :: s => (decimalValue c).bind fun d => parseDigits (10 * acc + d) s
  | acc, c :: s => (decimalValue c).bind fun d => parseDigits (10 * acc + d) s

def parseNat : List Char → Option Nat
  | [] => none
  | c :: s => (decimalValue c).bind fun d => parseDigits d s

/-- `int(s)`; `none` is `ValueError`. -/
def parseInt (s : List Char) : Option Int :=
  match strip s with
  | '-' :: r => (parseNat r).map fun n => -(n : Int)
  | '+' :: r => (parseNat r).map fun n => (n : Int)
  | r => (parseNat r).map fun n => (n : Int)

theorem toNat_of_isDigit {c : Char} (h : c.isDigit = true) : 48 ≤ c.toNat ∧ c.toNat ≤ 57 := by
  simp only [Char.isDigit, Bool.and_eq_true, decide_eq_true_eq, ge_iff_le, UInt32.le_iff_toNat_le] at h
  exact h

theorem decimalValue_of_isDigit {c : Char} (h : c.isDigit = true) :
    decimalValue c = some (c.toNat - 48) := by
  obtain ⟨h1, h2⟩ := toNat_of_isDigit h
  unfold decimalValue decimalZeros
  rw [List.find?_cons_of_pos]
  · rfl
  · simp only [Bool.and_eq_true, decide_eq_true_eq]; omega

theorem isSpace_of_isDigit {c : Char} (h : c.isDigit = true) : isSpace c = false := by
  obtain ⟨h1, h2⟩ := toNat_of_isDigit h
  simp only [isSpace, isAsciiSpace, List.mem_cons, List.not_mem_nil, or_false, Bool.or_eq_false_iff,
    Bool.and_eq_false_iff, decide_eq_false_iff_not, beq_eq_false_iff_ne]
  refine ⟨⟨⟨?_, ?_⟩, ?_⟩, ?_⟩ <;> omega

theorem strip_of_isDigit {s : List Char} (h : ∀ c ∈ s, c.isDigit = true) : strip s = s := by
  have key : ∀ t : List Char, (∀ c ∈ t, c.isDigit = true) → t.dropWhile isSpace = t := by
    intro t ht
    cases t with
    | nil => rfl
    | cons c t => rw [List.dropWhile_cons, isSpace_of_isDigit (ht c (by simp))]; rfl
  unfold strip
  rw [key s h, key s.reverse fun c hc => h c (List.mem_reverse.mp hc), List.reverse_reverse]

theorem ne_of_isDigit {c d : Char} (h : c.isDigit = true) (hd : d.isDigit = false) : c ≠ d := by
  rintro rfl; rw [h] at hd; cases hd

theorem parseDigits_cons {c : Char} (h : c.isDigit = true) (acc : Nat) (s : List Char) :
    parseDigits acc (c :: s) = parseDigits (10 * acc + (c.toNat - 48)) s := by
  rw [parseDigits.eq_3]
  · rw [decimalValue_of_isDigit h]; rfl
  · intro _ _ hc; exact absurd hc (ne_of_isDigit h rfl)

theorem parseDigits_of_isDigit (s : List Char) :
    ∀ acc, (∀ c ∈ s, c.isDigit = true) → parseDigits acc s = some (Nat.ofDigitChars 10 s acc) := by
  induction s with
  | nil => intro acc _; rfl
  | cons c s ih =>
    intro acc h
    rw [parseDigits_cons (h c (by simp)), ih _ fun d hd => h d (List.mem_cons_of_mem _ hd),
      Nat.ofDigitChars_cons]
    rfl

theorem isDigit_of_mem_ofInt {n : Nat} {c : Char} (h : c ∈ ofInt n) : c.isDigit = true :=
  Nat.isDigit_of_mem_toDigits (by omega) (by omega) h

theorem ofInt_ne_nil (n : Nat) : ofInt n ≠ [] := Nat.toDigits_ne_nil

theorem not_mem_ofInt {c : Char} (hc : c.isDigit = false) (n : Nat) : c ∉ ofInt n := fun h =>
  ne_of_isDigit (isDigit_of_mem_ofInt h) hc rfl

theorem parseNat_ofInt (n : Nat) : parseNat (ofInt n) = some n := by
  have hd : ∀ c ∈ ofInt n, c.isDigit = true := fun _ => isDigit_of_mem_ofInt
  have hv : Nat.ofDigitChars 10 (ofInt n) 0 = n := Nat.ofDigitChars_ten_toDigits
  cases hs : ofInt n with
  | nil => exact absurd hs (ofInt_ne_nil n)
  | cons c s =>
    rw [hs] at hd hv
    have hc := hd c (by simp)
    rw [← hv, parseNat, decimalValue_of_isDigit hc, Option.bind_some,
      parseDigits_of_isDigit s _ fun d h => hd d (List.mem_cons_of_mem _ h), Nat.ofDigitChars_cons]
    simp

theorem parseInt_ofInt (n : Nat) : parseInt (ofInt n) = some (n : Int) := by
  have hd : ∀ c ∈ ofInt n, c.isDigit = true := fun _ => isDigit_of_mem_ofInt
  unfold parseInt
  rw [strip_of_isDigit hd]
  split
  · rename_i r h; exact absurd (h ▸ List.mem_cons_self) (not_mem_ofInt (c := '-') rfl n)
  · rename_i r h; exact absurd (h ▸ List.mem_cons_self) (not_mem_ofInt (c := '+') rfl n)
  · rw [parseNat_ofInt]; rfl

/-! ## Bytes -/

def hexByte (b : Byte) : List Char := [Nat.digitChar (b.toNat / 16), Nat.digitChar (b.toNat % 16)]

/-- `bytes.hex()`. -/
def hex (bs : List Byte) : List Char := bs.flatMap hexByte

def hexValue (c : Char) : Option Nat :=
  if 48 ≤ c.toNat ∧ c.toNat ≤ 57 then some (c.toNat - 48)
  else if 97 ≤ c.toNat ∧ c.toNat ≤ 102 then some (c.toNat - 87)
  else if 65 ≤ c.toNat ∧ c.toNat ≤ 70 then some (c.toNat - 55)
  else none

/-- `bytes.fromhex(s)`; `none` is `ValueError`. -/
def fromHex : List Char → Option (List Byte)
  | [] => some []
  | [c] => if isAsciiSpace c then some [] else none
  | c :: d :: s =>
    if isAsciiSpace c then fromHex (d :: s)
    else
      (hexValue c).bind fun x => (hexValue d).bind fun y =>
        (fromHex s).map (BitVec.ofNat 8 (16 * x + y) :: ·)

theorem hexValue_digitChar {n : Nat} (h : n < 16) : hexValue (Nat.digitChar n) = some n := by
  rcases n with _ | _ | _ | _ | _ | _ | _ | _ | _ | _ | _ | _ | _ | _ | _ | _ | n
  all_goals first | rfl | omega

theorem isAsciiSpace_digitChar (n : Nat) : isAsciiSpace (Nat.digitChar n) = false := by
  rcases n with _ | _ | _ | _ | _ | _ | _ | _ | _ | _ | _ | _ | _ | _ | _ | _ | n
  all_goals rfl

theorem length_hex (bs : List Byte) : (hex bs).length = 2 * bs.length := by
  induction bs with
  | nil => rfl
  | cons b bs ih =>
    simp only [hex] at ih
    simp only [hex, List.flatMap_cons, List.length_append, List.length_cons, ih]
    simp only [hexByte, List.length_cons, List.length_nil]
    omega

theorem fromHex_hex (bs : List Byte) : fromHex (hex bs) = some bs := by
  induction bs with
  | nil => rfl
  | cons b bs ih =>
    have hb : b.toNat < 256 := b.isLt
    have h1 : b.toNat / 16 < 16 := by omega
    have h2 : b.toNat % 16 < 16 := by omega
    simp only [hex] at ih
    simp only [hex, List.flatMap_cons, hexByte, List.cons_append, List.nil_append, fromHex,
      isAsciiSpace_digitChar, hexValue_digitChar h1, hexValue_digitChar h2, ih, Option.bind_some,
      Option.map_some, Bool.false_eq_true, ↓reduceIte]
    rw [Nat.div_add_mod, BitVec.ofNat_toNat, BitVec.setWidth_eq]

/-! ## Splitting -/

/-- `s.split(sep, 1)` as the two parts, where `sep` occurs in `s`. -/
def partition (sep : Char) (s : List Char) : List Char × List Char :=
  (s.takeWhile (· ≠ sep), (s.dropWhile (· ≠ sep)).tail)

theorem partition_append_cons {sep : Char} {s t : List Char} (h : sep ∉ s) :
    partition sep (s ++ sep :: t) = (s, t) := by
  have hs : ∀ c ∈ s, decide (c ≠ sep) = true := by
    intro c hc
    simp only [decide_eq_true_eq]
    rintro rfl
    exact h hc
  unfold partition
  rw [List.takeWhile_append_of_pos hs, List.dropWhile_append_of_pos hs]
  simp

end Text

end PyrallelConsumer
