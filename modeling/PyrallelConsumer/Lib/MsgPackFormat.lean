import PyrallelConsumer.Lib.Dict
import PyrallelConsumer.Lib.MsgPack

/-!
# PyrallelConsumer.Lib.MsgPackFormat

MessagePack values as bytes, with `use_bin_type=True`. A value is a token, which is the format byte with the
number or the length behind it, and the contents that the token announces. Extension types and single precision
are not written, and not read either.

* `readToken_writeToken` — tokens come back.
* `parse_pack` — values come back, whatever follows them.
* `unpack_pack` — a stream of one value.
-/

namespace PyrallelConsumer

namespace MsgPack

abbrev Bytes := List UInt8

/-- What can be packed. A `float` is its 64 bits, a `dict` the list of its entries. -/
inductive Value where
  | nil
  | bool (b : Bool)
  | int (i : Int)
  | float (bits : BitVec 64)
  | str (s : PyStr)
  | bin (b : Bytes)
  | array (l : List Value)
  | map (fields : List (PyStr × Value))

mutual

/-- The keys of each `dict` in it are distinct. -/
def Value.WellFormed : Value → Prop
  | .array l => WellFormedList l
  | .map fields => (fields.map Prod.fst).Nodup ∧ WellFormedFields fields
  | _ => True

def WellFormedList : List Value → Prop
  | [] => True
  | v :: l => v.WellFormed ∧ WellFormedList l

def WellFormedFields : List (PyStr × Value) → Prop
  | [] => True
  | (_, v) :: fields => v.WellFormed ∧ WellFormedFields fields

end

theorem wellFormedList_iff (l : List Value) : WellFormedList l ↔ ∀ v ∈ l, v.WellFormed := by
  induction l with
  | nil => simp [WellFormedList]
  | cons v l ih => simp [WellFormedList, ih]

theorem wellFormedFields_iff (fields : List (PyStr × Value)) :
    WellFormedFields fields ↔ ∀ f ∈ fields, f.2.WellFormed := by
  induction fields with
  | nil => simp [WellFormedFields]
  | cons f fields ih =>
    obtain ⟨k, v⟩ := f
    simp [WellFormedFields, ih]

@[simp] theorem Value.wellFormed_array (l : List Value) : (array l).WellFormed ↔ ∀ v ∈ l, v.WellFormed :=
  wellFormedList_iff l

@[simp] theorem Value.wellFormed_map (fields : List (PyStr × Value)) :
    (map fields).WellFormed ↔ (fields.map Prod.fst).Nodup ∧ ∀ f ∈ fields, f.2.WellFormed :=
  and_congr_right' (wellFormedFields_iff fields)

@[simp] theorem Value.wellFormed_nil : nil.WellFormed := trivial

@[simp] theorem Value.wellFormed_bool (b : Bool) : (bool b).WellFormed := trivial

@[simp] theorem Value.wellFormed_int (i : Int) : (int i).WellFormed := trivial

@[simp] theorem Value.wellFormed_bin (b : Bytes) : (bin b).WellFormed := trivial

@[simp] theorem Value.wellFormed_str (s : PyStr) : (str s).WellFormed := trivial

@[simp] theorem Value.wellFormed_float (bits : BitVec 64) : (float bits).WellFormed := trivial

/-! ## Numbers -/

/-- The low bytes of a number, the most significant one first. -/
def fixed : Nat → Nat → Bytes
  | 0, _ => []
  | width + 1, n => UInt8.ofNat (n / 256 ^ width) :: fixed width n

def unsigned : Bytes → Nat
  | [] => 0
  | b :: l => b.toNat * 256 ^ l.length + unsigned l

/-- Two's complement. -/
def signed (width n : Nat) : Int :=
  if n < 2 ^ (8 * width - 1) then n else (n : Int) - 2 ^ (8 * width)

/-- Read a number of so many bytes. -/
def readWord {α : Type} (width : Nat) (f : Nat → α) (bytes : Bytes) : Option (α × Bytes) :=
  if width ≤ bytes.length then some (f (unsigned (bytes.take width)), bytes.drop width) else none

@[simp] theorem length_fixed (width n : Nat) : (fixed width n).length = width := by
  induction width with
  | zero => rfl
  | succ width ih => simp [fixed, ih]

theorem unsigned_fixed (width n : Nat) : unsigned (fixed width n) = n % 256 ^ width := by
  induction width with
  | zero => simp [fixed, unsigned, Nat.mod_one]
  | succ width ih =>
    have hmod : n % 256 ^ (width + 1) = n % 256 ^ width + 256 ^ width * (n / 256 ^ width % 256) := by
      rw [Nat.pow_succ]
      exact Nat.mod_mul
    rw [hmod]
    simp only [fixed, unsigned, ih, length_fixed, UInt8.toNat_ofNat']
    rw [Nat.mul_comm, Nat.add_comm]

theorem readWord_fixed {α : Type} {width n : Nat} (h : n < 256 ^ width) (f : Nat → α) (rest : Bytes) :
    readWord width f (fixed width n ++ rest) = some (f n, rest) := by
  have htake : (fixed width n ++ rest).take width = fixed width n := by simp
  have hdrop : (fixed width n ++ rest).drop width = rest := by simp
  unfold readWord
  rw [htake, hdrop, unsigned_fixed, Nat.mod_eq_of_lt h, if_pos (by simp)]

/-! ## Tokens -/

inductive Token where
  | nil
  | bool (b : Bool)
  | int (i : Int)
  | float (bits : BitVec 64)
  | str (length : Nat)
  | bin (length : Nat)
  | array (length : Nat)
  | map (length : Nat)
deriving DecidableEq, Repr

/-- A family of formats that differ in the width of the length. -/
structure LengthFormat where
  /-- The format byte of length zero, where short lengths are part of it. -/
  fixTag : Nat
  fixCount : Nat
  hasByteWidth : Bool
  /-- The format byte in front of a length of two bytes; its neighbours stand for one and four. -/
  tag16 : Nat

def strFormat : LengthFormat := ⟨0xa0, 32, true, 0xda⟩
def binFormat : LengthFormat := ⟨0, 0, true, 0xc5⟩
def arrayFormat : LengthFormat := ⟨0x90, 16, false, 0xdc⟩
def mapFormat : LengthFormat := ⟨0x80, 16, false, 0xde⟩

def LengthFormat.write (f : LengthFormat) (length : Nat) : Option Bytes :=
  if length < f.fixCount then some [UInt8.ofNat (f.fixTag + length)]
  else if f.hasByteWidth = true ∧ length < 2 ^ 8 then some (UInt8.ofNat (f.tag16 - 1) :: fixed 1 length)
  else if length < 2 ^ 16 then some (UInt8.ofNat f.tag16 :: fixed 2 length)
  else if length < 2 ^ 32 then some (UInt8.ofNat (f.tag16 + 1) :: fixed 4 length)
  else none

/-- The shortest format that holds the number, the unsigned ones for what is not negative. -/
def writeInt (i : Int) : Option Bytes :=
  if 0 ≤ i then
    if i < 2 ^ 7 then some (fixed 1 i.toNat)
    else if i < 2 ^ 8 then some (0xcc :: fixed 1 i.toNat)
    else if i < 2 ^ 16 then some (0xcd :: fixed 2 i.toNat)
    else if i < 2 ^ 32 then some (0xce :: fixed 4 i.toNat)
    else if i < 2 ^ 64 then some (0xcf :: fixed 8 i.toNat)
    else none
  else if -2 ^ 5 ≤ i then some (fixed 1 (i + 2 ^ 8).toNat)
  else if -2 ^ 7 ≤ i then some (0xd0 :: fixed 1 (i + 2 ^ 8).toNat)
  else if -2 ^ 15 ≤ i then some (0xd1 :: fixed 2 (i + 2 ^ 16).toNat)
  else if -2 ^ 31 ≤ i then some (0xd2 :: fixed 4 (i + 2 ^ 32).toNat)
  else if -2 ^ 63 ≤ i then some (0xd3 :: fixed 8 (i + 2 ^ 64).toNat)
  else none

def writeToken : Token → Option Bytes
  | .nil => some [0xc0]
  | .bool false => some [0xc2]
  | .bool true => some [0xc3]
  | .int i => writeInt i
  | .float bits => some (0xcb :: fixed 8 bits.toNat)
  | .str length => strFormat.write length
  | .bin length => binFormat.write length
  | .array length => arrayFormat.write length
  | .map length => mapFormat.write length

/-- What follows a format byte from `0xc0` to `0xdf`. -/
def readWide : Nat → Bytes → Option (Token × Bytes)
  | 0xc0, rest => some (.nil, rest)
  | 0xc2, rest => some (.bool false, rest)
  | 0xc3, rest => some (.bool true, rest)
  | 0xc4, rest => readWord 1 .bin rest
  | 0xc5, rest => readWord 2 .bin rest
  | 0xc6, rest => readWord 4 .bin rest
  | 0xcb, rest => readWord 8 (fun n => .float (BitVec.ofNat 64 n)) rest
  | 0xcc, rest => readWord 1 (fun n => .int n) rest
  | 0xcd, rest => readWord 2 (fun n => .int n) rest
  | 0xce, rest => readWord 4 (fun n => .int n) rest
  | 0xcf, rest => readWord 8 (fun n => .int n) rest
  | 0xd0, rest => readWord 1 (fun n => .int (signed 1 n)) rest
  | 0xd1, rest => readWord 2 (fun n => .int (signed 2 n)) rest
  | 0xd2, rest => readWord 4 (fun n => .int (signed 4 n)) rest
  | 0xd3, rest => readWord 8 (fun n => .int (signed 8 n)) rest
  | 0xd9, rest => readWord 1 .str rest
  | 0xda, rest => readWord 2 .str rest
  | 0xdb, rest => readWord 4 .str rest
  | 0xdc, rest => readWord 2 .array rest
  | 0xdd, rest => readWord 4 .array rest
  | 0xde, rest => readWord 2 .map rest
  | 0xdf, rest => readWord 4 .map rest
  | _, _ => none

def readToken : Bytes → Option (Token × Bytes)
  | [] => none
  | b :: rest =>
    let tag := b.toNat
    if tag < 0x80 then some (.int tag, rest)
    else if tag < 0x90 then some (.map (tag - 0x80), rest)
    else if tag < 0xa0 then some (.array (tag - 0x90), rest)
    else if tag < 0xc0 then some (.str (tag - 0xa0), rest)
    else if tag < 0xe0 then readWide tag rest
    else some (.int (tag - 0x100), rest)

section Read

variable (rest : Bytes) {n : Nat}

theorem toNat_tag (h : n < 256) : (UInt8.ofNat n).toNat = n := by
  rw [UInt8.toNat_ofNat']
  omega

theorem readToken_fixInt (h : n < 0x80) : readToken (UInt8.ofNat n :: rest) = some (.int n, rest) := by
  simp only [readToken, toNat_tag (show n < 256 by omega), if_pos h]

theorem readToken_negativeInt (h : 0xe0 ≤ n) (h' : n < 0x100) :
    readToken (UInt8.ofNat n :: rest) = some (.int (n - 0x100), rest) := by
  simp only [readToken, toNat_tag h']
  rw [if_neg (by omega), if_neg (by omega), if_neg (by omega), if_neg (by omega), if_neg (by omega)]

theorem readToken_fixMap (h : n < 16) : readToken (UInt8.ofNat (0x80 + n) :: rest) = some (.map n, rest) := by
  simp only [readToken, toNat_tag (show 0x80 + n < 256 by omega)]
  rw [if_neg (by omega), if_pos (by omega), Nat.add_sub_cancel_left]

theorem readToken_fixArray (h : n < 16) : readToken (UInt8.ofNat (0x90 + n) :: rest) = some (.array n, rest) := by
  simp only [readToken, toNat_tag (show 0x90 + n < 256 by omega)]
  rw [if_neg (by omega), if_neg (by omega), if_pos (by omega), Nat.add_sub_cancel_left]

theorem readToken_fixStr (h : n < 32) : readToken (UInt8.ofNat (0xa0 + n) :: rest) = some (.str n, rest) := by
  simp only [readToken, toNat_tag (show 0xa0 + n < 256 by omega)]
  rw [if_neg (by omega), if_neg (by omega), if_neg (by omega), if_pos (by omega), Nat.add_sub_cancel_left]

theorem readToken_wide (h : 0xc0 ≤ n) (h' : n < 0xe0) : readToken (UInt8.ofNat n :: rest) = readWide n rest := by
  simp only [readToken, toNat_tag (show n < 256 by omega)]
  rw [if_neg (by omega), if_neg (by omega), if_neg (by omega), if_neg (by omega), if_pos h']

end Read

/-- A length of the family comes back as the token that its formats stand for. -/
theorem readToken_length {f : LengthFormat} {token : Nat → Token} {length : Nat} {bytes : Bytes}
    (hwrite : f.write length = some bytes) (rest : Bytes)
    (hfix : length < f.fixCount → readToken (UInt8.ofNat (f.fixTag + length) :: rest) = some (token length, rest))
    (htags : 0xc1 ≤ f.tag16 ∧ f.tag16 < 0xdf)
    (hbyte : f.hasByteWidth = true → readWide (f.tag16 - 1) = readWord 1 token)
    (htwo : readWide f.tag16 = readWord 2 token) (hfour : readWide (f.tag16 + 1) = readWord 4 token) :
    readToken (bytes ++ rest) = some (token length, rest) := by
  unfold LengthFormat.write at hwrite
  split at hwrite
  · rename_i hshort
    cases hwrite
    exact hfix hshort
  · split at hwrite
    · rename_i h
      cases hwrite
      rw [List.cons_append, readToken_wide _ (by omega) (by omega), hbyte h.1, readWord_fixed (by omega)]
    · split at hwrite
      · cases hwrite
        rw [List.cons_append, readToken_wide _ (by omega) (by omega), htwo, readWord_fixed (by omega)]
      · split at hwrite
        · cases hwrite
          rw [List.cons_append, readToken_wide _ (by omega) (by omega), hfour, readWord_fixed (by omega)]
        · cases hwrite

theorem signed_complement {width : Nat} (hwidth : 0 < width) {i : Int} (h : -2 ^ (8 * width - 1) ≤ i) (h' : i < 0) :
    signed width (i + 2 ^ (8 * width)).toNat = i := by
  have hdouble : (2 : Int) ^ (8 * width) = 2 * 2 ^ (8 * width - 1) := by
    rw [← pow_succ', show 8 * width - 1 + 1 = 8 * width by omega]
  have hhalf : ((2 ^ (8 * width - 1) : Nat) : Int) = 2 ^ (8 * width - 1) := by push_cast; rfl
  unfold signed
  rw [if_neg (by omega), Int.toNat_of_nonneg (by omega)]
  omega

/-- A number that is not negative, in an unsigned format. -/
theorem readToken_unsigned (tag width : Nat) {i : Int} (rest : Bytes) (htag : 0xc0 ≤ tag ∧ tag < 0xe0)
    (hread : readWide tag = readWord width fun n => .int n) (h : 0 ≤ i) (hlt : i.toNat < 256 ^ width) :
    readToken (UInt8.ofNat tag :: fixed width i.toNat ++ rest) = some (.int i, rest) := by
  rw [List.cons_append, readToken_wide _ htag.1 htag.2, hread, readWord_fixed hlt, Int.toNat_of_nonneg h]

/-- A negative number, in a signed format. -/
theorem readToken_signed (tag width : Nat) {i : Int} (rest : Bytes) (htag : 0xc0 ≤ tag ∧ tag < 0xe0)
    (hread : readWide tag = readWord width fun n => .int (signed width n)) (hwidth : 0 < width)
    (h : -2 ^ (8 * width - 1) ≤ i) (h' : i < 0) (hlt : (i + 2 ^ (8 * width)).toNat < 256 ^ width) :
    readToken (UInt8.ofNat tag :: fixed width (i + 2 ^ (8 * width)).toNat ++ rest) = some (.int i, rest) := by
  rw [List.cons_append, readToken_wide _ htag.1 htag.2, hread, readWord_fixed hlt, signed_complement hwidth h h']

theorem readToken_writeInt {i : Int} {bytes : Bytes} (h : writeInt i = some bytes) (rest : Bytes) :
    readToken (bytes ++ rest) = some (.int i, rest) := by
  unfold writeInt at h
  split at h
  · rename_i hnonneg
    split at h
    · cases h
      have hread := readToken_fixInt rest (n := i.toNat) (by omega)
      rw [Int.toNat_of_nonneg hnonneg] at hread
      simpa [fixed] using hread
    · split at h
      · cases h
        exact readToken_unsigned 0xcc 1 rest (by omega) rfl hnonneg (by omega)
      · split at h
        · cases h
          exact readToken_unsigned 0xcd 2 rest (by omega) rfl hnonneg (by omega)
        · split at h
          · cases h
            exact readToken_unsigned 0xce 4 rest (by omega) rfl hnonneg (by omega)
          · split at h
            · cases h
              exact readToken_unsigned 0xcf 8 rest (by omega) rfl hnonneg (by omega)
            · cases h
  · split at h
    · cases h
      have hread := readToken_negativeInt rest (n := (i + 2 ^ 8).toNat) (by omega) (by omega)
      have hback : ((i + 2 ^ 8).toNat : Int) - 0x100 = i := by omega
      rw [hback] at hread
      simpa [fixed] using hread
    · split at h
      · cases h
        exact readToken_signed 0xd0 1 rest (by omega) rfl (by omega) (by omega) (by omega) (by omega)
      · split at h
        · cases h
          exact readToken_signed 0xd1 2 rest (by omega) rfl (by omega) (by omega) (by omega) (by omega)
        · split at h
          · cases h
            exact readToken_signed 0xd2 4 rest (by omega) rfl (by omega) (by omega) (by omega) (by omega)
          · split at h
            · cases h
              exact readToken_signed 0xd3 8 rest (by omega) rfl (by omega) (by omega) (by omega) (by omega)
            · cases h

/-- **Tokens come back**, with what follows them. -/
theorem readToken_writeToken {t : Token} {bytes : Bytes} (h : writeToken t = some bytes) (rest : Bytes) :
    readToken (bytes ++ rest) = some (t, rest) := by
  cases t with
  | nil => cases h; rfl
  | bool b => cases b <;> cases h <;> rfl
  | int i => exact readToken_writeInt h rest
  | float bits =>
    cases h
    have hlt := bits.isLt
    rw [List.cons_append, show (0xcb : UInt8) = UInt8.ofNat 0xcb from rfl, readToken_wide _ (by omega) (by omega)]
    simp only [readWide]
    rw [readWord_fixed (by omega), BitVec.ofNat_toNat, BitVec.setWidth_eq]
  | str length =>
    exact readToken_length h rest (readToken_fixStr rest) (by decide) (fun _ => rfl) rfl rfl
  | bin length =>
    exact readToken_length h rest (fun hfix => absurd hfix (Nat.not_lt_zero _)) (by decide) (fun _ => rfl) rfl rfl
  | array length =>
    exact readToken_length h rest (readToken_fixArray rest) (by decide) (fun hwidth => by cases hwidth) rfl rfl
  | map length =>
    exact readToken_length h rest (readToken_fixMap rest) (by decide) (fun hwidth => by cases hwidth) rfl rfl

/-! ## Values -/

def encodeUtf8 (s : String) : Bytes := s.toUTF8.data.toList

def decodeUtf8 (bytes : Bytes) : Option String := String.fromUTF8? ⟨bytes.toArray⟩

theorem decodeUtf8_encodeUtf8 (s : String) : decodeUtf8 (encodeUtf8 s) = some s := by
  unfold decodeUtf8 encodeUtf8
  rw [Array.toArray_toList]
  unfold String.fromUTF8?
  have h : s.toUTF8.IsValidUTF8 := s.isValidUTF8
  exact dif_pos h

/-- A text that is not Unicode raises. -/
def packStr : PyStr → Option Bytes
  | .text s => (writeToken (.str (encodeUtf8 s).length)).map (· ++ encodeUtf8 s)
  | .broken _ _ _ => none

mutual

/-- `packb`; `none` where it raises. -/
def Value.pack : Value → Option Bytes
  | .nil => writeToken .nil
  | .bool b => writeToken (.bool b)
  | .int i => writeToken (.int i)
  | .float bits => writeToken (.float bits)
  | .str s => packStr s
  | .bin b => (writeToken (.bin b.length)).map (· ++ b)
  | .array l => do
    let head ← writeToken (.array l.length)
    let contents ← packList l
    some (head ++ contents)
  | .map fields => do
    let head ← writeToken (.map fields.length)
    let contents ← packFields fields
    some (head ++ contents)

def packList : List Value → Option Bytes
  | [] => some []
  | v :: l => do
    let first ← v.pack
    let others ← packList l
    some (first ++ others)

def packFields : List (PyStr × Value) → Option Bytes
  | [] => some []
  | (k, v) :: fields => do
    let key ← packStr k
    let value ← v.pack
    let others ← packFields fields
    some (key ++ value ++ others)

end

/-- `{"compact": True, "schema": 0}`. -/
example : (Value.map [("compact", .bool true), ("schema", .int 0)]).pack =
    some [0x82, 0xa7, 0x63, 0x6f, 0x6d, 0x70, 0x61, 0x63, 0x74, 0xc3, 0xa6, 0x73, 0x63, 0x68, 0x65, 0x6d, 0x61, 0] := by
  decide

def takeBytes (length : Nat) (bytes : Bytes) : Option (Bytes × Bytes) :=
  if length ≤ bytes.length then some (bytes.take length, bytes.drop length) else none

/-- Read so many things, one behind the other. -/
def readMany {α : Type} (read : Bytes → Option (α × Bytes)) : Nat → Bytes → Option (List α × Bytes)
  | 0, bytes => some ([], bytes)
  | n + 1, bytes => do
    let (a, rest) ← read bytes
    let (l, rest) ← readMany read n rest
    some (a :: l, rest)

/-- A key, which has to be a text, and its value. -/
def readField (read : Bytes → Option (Value × Bytes)) (bytes : Bytes) : Option ((PyStr × Value) × Bytes) :=
  match read bytes with
  | some (.str k, rest) => do
    let (v, rest) ← read rest
    some ((k, v), rest)
  | _ => none

/-- The `dict` that entries build up; the last one of a key counts. -/
def dictOf (fields : List (PyStr × Value)) : List (PyStr × Value) :=
  fields.foldl (fun d f => setEntry f.1 f.2 d) []

/-- The value at the head of the bytes, with the levels of nesting that are left. -/
def parse : Nat → Bytes → Option (Value × Bytes)
  | 0, _ => none
  | depth + 1, bytes =>
    match readToken bytes with
    | none => none
    | some (.nil, rest) => some (.nil, rest)
    | some (.bool b, rest) => some (.bool b, rest)
    | some (.int i, rest) => some (.int i, rest)
    | some (.float bits, rest) => some (.float bits, rest)
    | some (.str length, rest) => do
      let (raw, rest) ← takeBytes length rest
      let s ← decodeUtf8 raw
      some (.str (.text s), rest)
    | some (.bin length, rest) => do
      let (raw, rest) ← takeBytes length rest
      some (.bin raw, rest)
    | some (.array length, rest) => do
      let (l, rest) ← readMany (parse depth) length rest
      some (.array l, rest)
    | some (.map length, rest) => do
      let (fields, rest) ← readMany (readField (parse depth)) length rest
      some (.map (dictOf fields), rest)

/-- All values of a stream. -/
def parseAll : Nat → Bytes → Option (List Value)
  | 0, bytes => if bytes = [] then some [] else none
  | n + 1, bytes =>
    if bytes = [] then some []
    else do
      let (v, rest) ← parse (n + 1) bytes
      let l ← parseAll n rest
      some (v :: l)

/-- `list(Unpacker(raw=False, max_buffer_size=maxBytes))` after it was fed the bytes. -/
def unpack (maxBytes : Nat) (bytes : Bytes) : Option (List Value) :=
  if bytes.length ≤ maxBytes then parseAll bytes.length bytes else none

/-! ## Round trip -/

theorem takeBytes_append (l rest : Bytes) : takeBytes l.length (l ++ rest) = some (l, rest) := by
  simp [takeBytes]

theorem length_writeToken_pos {t : Token} {bytes : Bytes} (h : writeToken t = some bytes) : 0 < bytes.length := by
  refine List.length_pos_iff.mpr fun hnil => ?_
  have hread := readToken_writeToken h []
  rw [hnil] at hread
  cases hread

theorem dictOf_of_nodup {fields : List (PyStr × Value)} (h : (fields.map Prod.fst).Nodup) : dictOf fields = fields := by
  have hall : ∀ (fields done : List (PyStr × Value)), ((done ++ fields).map Prod.fst).Nodup →
      fields.foldl (fun d f => setEntry f.1 f.2 d) done = done ++ fields := by
    intro fields
    induction fields with
    | nil => intro done _; simp
    | cons f fields ih =>
      intro done hdone
      have hnew : f.1 ∉ done.map Prod.fst := by
        rw [List.map_append, List.map_cons] at hdone
        exact fun hmem => (List.nodup_append.mp hdone).2.2 _ hmem _ List.mem_cons_self rfl
      rw [List.foldl_cons, setEntry_of_not_mem hnew, ih _ (by simpa using hdone)]
      simp
  exact hall fields [] h

theorem parse_packStr {k : PyStr} {bytes : Bytes} (h : packStr k = some bytes) {depth : Nat} (hdepth : 0 < depth)
    (rest : Bytes) : parse depth (bytes ++ rest) = some (.str k, rest) := by
  cases k with
  | broken before n after => cases h
  | text s =>
    obtain ⟨head, hhead, rfl⟩ := Option.map_eq_some_iff.mp h
    obtain ⟨depth, rfl⟩ := Nat.exists_eq_add_of_lt hdepth
    rw [Nat.zero_add, List.append_assoc, parse, readToken_writeToken hhead]
    simp [takeBytes_append, decodeUtf8_encodeUtf8]

/-- The bytes of a token with contents, and what is left for the contents. -/
theorem parse_head {t : Token} {head : Bytes} (h : writeToken t = some head) {contents : Bytes} {depth : Nat}
    (hdepth : (head ++ contents).length ≤ depth) (rest : Bytes) :
    ∃ inner, depth = inner + 1 ∧ contents.length ≤ inner ∧
      readToken (head ++ contents ++ rest) = some (t, contents ++ rest) := by
  have hpos := length_writeToken_pos h
  rw [List.length_append] at hdepth
  refine ⟨depth - 1, by omega, by omega, ?_⟩
  rw [List.append_assoc]
  exact readToken_writeToken h _

theorem parse_token {t : Token} {bytes : Bytes} (h : writeToken t = some bytes) {depth : Nat}
    (hdepth : bytes.length ≤ depth) (rest : Bytes) :
    ∃ inner, depth = inner + 1 ∧ readToken (bytes ++ rest) = some (t, rest) := by
  have hpos := length_writeToken_pos h
  exact ⟨depth - 1, by omega, readToken_writeToken h rest⟩

mutual

/-- **Values come back**, with what follows them, as long as the nesting does not exceed the bytes. -/
theorem parse_pack : ∀ (v : Value) {bytes : Bytes}, v.pack = some bytes → v.WellFormed →
    ∀ depth : Nat, bytes.length ≤ depth → ∀ rest, parse depth (bytes ++ rest) = some (v, rest)
  | .nil, bytes, h, _, depth, hdepth, rest => by
    obtain ⟨inner, rfl, hread⟩ := parse_token (t := .nil) h hdepth rest
    rw [parse, hread]
  | .bool b, bytes, h, _, depth, hdepth, rest => by
    obtain ⟨inner, rfl, hread⟩ := parse_token (t := .bool b) h hdepth rest
    rw [parse, hread]
  | .int i, bytes, h, _, depth, hdepth, rest => by
    obtain ⟨inner, rfl, hread⟩ := parse_token (t := .int i) h hdepth rest
    rw [parse, hread]
  | .float bits, bytes, h, _, depth, hdepth, rest => by
    obtain ⟨inner, rfl, hread⟩ := parse_token (t := .float bits) h hdepth rest
    rw [parse, hread]
  | .str k, bytes, h, _, depth, hdepth, rest => by
    have hpos : 0 < bytes.length := by
      cases k with
      | broken before n after => cases h
      | text s =>
        obtain ⟨head, hhead, rfl⟩ := Option.map_eq_some_iff.mp h
        have := length_writeToken_pos hhead
        simp only [List.length_append]
        omega
    exact parse_packStr h (by omega) rest
  | .bin b, bytes, h, _, depth, hdepth, rest => by
    obtain ⟨head, hhead, rfl⟩ := Option.map_eq_some_iff.mp h
    obtain ⟨inner, rfl, -, hread⟩ := parse_head hhead hdepth rest
    rw [parse, hread]
    simp [takeBytes_append]
  | .array l, bytes, h, hwf, depth, hdepth, rest => by
    obtain ⟨head, hhead, h⟩ := Option.bind_eq_some_iff.mp h
    obtain ⟨contents, hcontents, h⟩ := Option.bind_eq_some_iff.mp h
    cases h
    obtain ⟨inner, rfl, hinner, hread⟩ := parse_head hhead hdepth rest
    rw [parse, hread]
    simp [readMany_packList l hcontents hwf inner hinner rest]
  | .map fields, bytes, h, hwf, depth, hdepth, rest => by
    obtain ⟨head, hhead, h⟩ := Option.bind_eq_some_iff.mp h
    obtain ⟨contents, hcontents, h⟩ := Option.bind_eq_some_iff.mp h
    cases h
    obtain ⟨inner, rfl, hinner, hread⟩ := parse_head hhead hdepth rest
    rw [parse, hread]
    simp [readMany_packFields fields hcontents hwf.2 inner hinner rest, dictOf_of_nodup hwf.1]

theorem readMany_packList : ∀ (l : List Value) {bytes : Bytes}, packList l = some bytes → WellFormedList l →
    ∀ depth : Nat, bytes.length ≤ depth → ∀ rest, readMany (parse depth) l.length (bytes ++ rest) = some (l, rest)
  | [], bytes, h, _, depth, _, rest => by
    cases h
    rfl
  | v :: l, bytes, h, hwf, depth, hdepth, rest => by
    obtain ⟨first, hfirst, h⟩ := Option.bind_eq_some_iff.mp h
    obtain ⟨others, hothers, h⟩ := Option.bind_eq_some_iff.mp h
    cases h
    rw [List.length_append] at hdepth
    have hv := parse_pack v hfirst hwf.1 depth (by omega) (others ++ rest)
    have hl := readMany_packList l hothers hwf.2 depth (by omega) rest
    rw [List.append_assoc, List.length_cons, readMany, hv]
    simp [hl]

theorem readMany_packFields : ∀ (fields : List (PyStr × Value)) {bytes : Bytes}, packFields fields = some bytes →
    WellFormedFields fields → ∀ depth : Nat, bytes.length ≤ depth →
      ∀ rest, readMany (readField (parse depth)) fields.length (bytes ++ rest) = some (fields, rest)
  | [], bytes, h, _, depth, _, rest => by
    cases h
    rfl
  | (k, v) :: fields, bytes, h, hwf, depth, hdepth, rest => by
    obtain ⟨key, hkey, h⟩ := Option.bind_eq_some_iff.mp h
    obtain ⟨value, hvalue, h⟩ := Option.bind_eq_some_iff.mp h
    obtain ⟨others, hothers, h⟩ := Option.bind_eq_some_iff.mp h
    cases h
    rw [List.length_append, List.length_append] at hdepth
    have hk := parse_pack (.str k) hkey trivial depth (by omega) (value ++ others ++ rest)
    have hv := parse_pack v hvalue hwf.1 depth (by omega) (others ++ rest)
    have hl := readMany_packFields fields hothers hwf.2 depth (by omega) rest
    rw [List.append_assoc, List.append_assoc, List.length_cons, readMany, readField, ← List.append_assoc value, hk]
    simp [hv, hl]

end

theorem pack_ne_nil {v : Value} {bytes : Bytes} (h : v.pack = some bytes) (hwf : v.WellFormed) : bytes ≠ [] := by
  rintro rfl
  have hparse := parse_pack v h hwf 0 (by simp) []
  cases hparse

/-- **A stream of one value**, when it is not above the limit of the unpacker. -/
theorem unpack_pack {v : Value} {bytes : Bytes} (h : v.pack = some bytes) (hwf : v.WellFormed) {maxBytes : Nat}
    (hmax : bytes.length ≤ maxBytes) : unpack maxBytes bytes = some [v] := by
  have hne := pack_ne_nil h hwf
  have hparse := parse_pack v h hwf _ (le_refl _) []
  rw [List.append_nil] at hparse
  unfold unpack
  rw [if_pos hmax]
  cases hlength : bytes.length with
  | zero => exact absurd (List.length_eq_zero_iff.mp hlength) hne
  | succ n =>
    rw [hlength] at hparse
    have hend : parseAll n [] = some [] := by cases n <;> rfl
    simp [parseAll, hne, hparse, hend]

end MsgPack

end PyrallelConsumer
