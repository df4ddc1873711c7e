import Mathlib.Algebra.GroupWithZero.Nat
import Mathlib.Data.List.Nodup
import Mathlib.Data.List.Basic

/-!
# PyrallelConsumer.Lib.Dict

Insertion-ordered dictionaries with distinct keys. Assigning to a key that is present keeps its
position, assigning to a new key appends it, and iteration follows the order of insertion.
Distinctness of the keys is a field, so that a lookup determines the entry.

* `lookup_setEntry` / `lookup_eraseEntry` — what an assignment and a removal change.
* `get?_set`, `get?_erase`, `get?_filter` — the same on dictionaries.
* `set_set`, `set_comm` — assignments one after the other.
* `sum_set`, `sum_erase` — how a sum over the entries changes with one key.
* `mem_entries_iff` — an entry is present exactly when its key looks up to its value.
-/

namespace PyrallelConsumer

section Entries

variable {κ ν : Type} [DecidableEq κ]

def lookup : List (κ × ν) → κ → Option ν
  | [], _ => none
  | (a, v) :: l, k => if a = k then some v else lookup l k

def setEntry (k : κ) (v : ν) : List (κ × ν) → List (κ × ν)
  | [] => [(k, v)]
  | (a, w) :: l => if a = k then (a, v) :: l else (a, w) :: setEntry k v l

def eraseEntry (k : κ) (l : List (κ × ν)) : List (κ × ν) := l.filter (fun e => e.1 ≠ k)

theorem lookup_setEntry (l : List (κ × ν)) (k k' : κ) (v : ν) :
    lookup (setEntry k v l) k' = if k = k' then some v else lookup l k' := by
  induction l with
  | nil => simp [setEntry, lookup]
  | cons e l ih =>
    obtain ⟨a, w⟩ := e
    simp only [setEntry]
    by_cases ha : a = k
    · subst ha
      simp only [if_true, lookup]
      split <;> rfl
    · rw [if_neg ha]
      simp only [lookup, ih]
      by_cases hk : a = k'
      · subst hk; simp [Ne.symm ha]
      · simp [hk]

theorem lookup_eraseEntry (l : List (κ × ν)) (k k' : κ) :
    lookup (eraseEntry k l) k' = if k = k' then none else lookup l k' := by
  induction l with
  | nil => simp [eraseEntry, lookup]
  | cons e l ih =>
    obtain ⟨a, w⟩ := e
    simp only [eraseEntry] at ih ⊢
    by_cases ha : a = k
    · subst ha
      rw [List.filter_cons_of_neg (by simp), ih]
      by_cases hk : a = k' <;> simp [lookup, hk]
    · simp only [ne_eq, ha, not_false_eq_true, decide_true, List.filter_cons_of_pos, lookup, ih]
      by_cases hk : a = k'
      · subst hk; simp [Ne.symm ha]
      · simp [hk]

theorem lookup_eq_none_iff (l : List (κ × ν)) (k : κ) :
    lookup l k = none ↔ k ∉ l.map Prod.fst := by
  induction l with
  | nil => simp [lookup]
  | cons e l ih =>
    obtain ⟨a, w⟩ := e
    by_cases ha : a = k
    · simp [lookup, ha]
    · simp only [lookup, ha, if_false, ih, List.map_cons, List.mem_cons]
      exact ⟨fun h h' => h'.elim (fun h'' => ha h''.symm) h, fun h h' => h (.inr h')⟩

theorem mem_of_lookup {l : List (κ × ν)} {k : κ} {v : ν} (h : lookup l k = some v) :
    (k, v) ∈ l := by
  induction l with
  | nil => simp [lookup] at h
  | cons e l ih =>
    obtain ⟨a, w⟩ := e
    simp only [lookup] at h
    split at h
    · rename_i ha; cases h; subst ha; simp
    · exact List.mem_cons_of_mem _ (ih h)

theorem lookup_of_mem {l : List (κ × ν)} (hn : (l.map Prod.fst).Nodup) {k : κ} {v : ν}
    (h : (k, v) ∈ l) : lookup l k = some v := by
  induction l with
  | nil => simp at h
  | cons e l ih =>
    obtain ⟨a, w⟩ := e
    rw [List.map_cons, List.nodup_cons] at hn
    rcases List.mem_cons.mp h with h | h
    · cases h; simp [lookup]
    · have ha : a ≠ k := by
        rintro rfl
        exact hn.1 (List.mem_map.mpr ⟨_, h, rfl⟩)
      simp [lookup, ha, ih hn.2 h]

theorem map_fst_setEntry (l : List (κ × ν)) (k : κ) (v : ν) :
    (setEntry k v l).map Prod.fst =
      if k ∈ l.map Prod.fst then l.map Prod.fst else l.map Prod.fst ++ [k] := by
  induction l with
  | nil => simp [setEntry]
  | cons e l ih =>
    obtain ⟨a, w⟩ := e
    by_cases ha : a = k
    · simp [setEntry, ha]
    · simp only [setEntry, ha, if_false, List.map_cons, ih, List.mem_cons]
      by_cases hk : k ∈ l.map Prod.fst
      · simp [hk]
      · simp [hk, Ne.symm ha]

theorem setEntry_of_lookup {l : List (κ × ν)} {k : κ} {v : ν} (h : lookup l k = some v) :
    setEntry k v l = l := by
  induction l with
  | nil => cases h
  | cons e l ih =>
    obtain ⟨a, w⟩ := e
    by_cases ha : a = k
    · have hw : w = v := by simpa [lookup, ha] using h
      simp [setEntry, ha, hw]
    · have hl : lookup l k = some v := by simpa [lookup, ha] using h
      simp [setEntry, ha, ih hl]

theorem setEntry_of_not_mem {l : List (κ × ν)} {k : κ} (h : k ∉ l.map Prod.fst) (v : ν) :
    setEntry k v l = l ++ [(k, v)] := by
  induction l with
  | nil => rfl
  | cons e l ih =>
    obtain ⟨a, w⟩ := e
    simp only [List.map_cons, List.mem_cons, not_or] at h
    simp [setEntry, Ne.symm h.1, ih h.2]

theorem setEntry_setEntry (k : κ) (v w : ν) (l : List (κ × ν)) :
    setEntry k w (setEntry k v l) = setEntry k w l := by
  induction l with
  | nil => simp [setEntry]
  | cons e l ih =>
    obtain ⟨a, u⟩ := e
    by_cases ha : a = k <;> simp [setEntry, ha, ih]

/-- Assignments to two keys commute once one of them is there. -/
theorem setEntry_comm {k j : κ} (hne : j ≠ k) (v w : ν) {l : List (κ × ν)} (h : lookup l k ≠ none) :
    setEntry j w (setEntry k v l) = setEntry k v (setEntry j w l) := by
  induction l with
  | nil => exact absurd rfl h
  | cons e l ih =>
    obtain ⟨a, u⟩ := e
    by_cases hk : a = k
    · subst hk
      simp [setEntry, Ne.symm hne]
    · by_cases hj : a = j
      · subst hj
        simp [setEntry, hk]
      · have hl : lookup l k ≠ none := by simpa [lookup, hk] using h
        simp [setEntry, hk, hj, ih hl]

theorem setEntry_map {ν' : Type} (f : ν → ν') (k : κ) (v : ν) (l : List (κ × ν)) :
    setEntry k (f v) (l.map fun e => (e.1, f e.2)) = (setEntry k v l).map fun e => (e.1, f e.2) := by
  induction l with
  | nil => rfl
  | cons e l ih =>
    obtain ⟨a, w⟩ := e
    by_cases ha : a = k <;> simp [setEntry, ha, ih]

theorem lookup_map {ν' : Type} (f : ν → ν') (k : κ) (l : List (κ × ν)) :
    lookup (l.map fun e => (e.1, f e.2)) k = (lookup l k).map f := by
  induction l with
  | nil => rfl
  | cons e l ih =>
    obtain ⟨a, w⟩ := e
    by_cases ha : a = k <;> simp [lookup, ha, ih]

end Entries

/-- A dictionary: its entries in the order of insertion, under distinct keys. -/
structure Dict (κ ν : Type) where
  entries : List (κ × ν)
  nodup : (entries.map Prod.fst).Nodup
deriving DecidableEq, Repr

namespace Dict

variable {κ ν : Type} [DecidableEq κ]

def empty : Dict κ ν := ⟨[], by simp⟩

instance : Inhabited (Dict κ ν) := ⟨empty⟩

def get? (d : Dict κ ν) (k : κ) : Option ν := lookup d.entries k

def contains (d : Dict κ ν) (k : κ) : Bool := (d.get? k).isSome

def set (d : Dict κ ν) (k : κ) (v : ν) : Dict κ ν where
  entries := setEntry k v d.entries
  nodup := by
    rw [map_fst_setEntry]
    split
    · exact d.nodup
    · rename_i hk
      exact List.Nodup.append d.nodup (List.nodup_singleton k)
        (by simpa [List.disjoint_singleton] using hk)

def filter (d : Dict κ ν) (p : κ → ν → Bool) : Dict κ ν where
  entries := d.entries.filter (fun e => p e.1 e.2)
  nodup := d.nodup.sublist (List.filter_sublist.map Prod.fst)

def erase (d : Dict κ ν) (k : κ) : Dict κ ν where
  entries := eraseEntry k d.entries
  nodup := d.nodup.sublist (List.filter_sublist.map Prod.fst)

def keys (d : Dict κ ν) : List κ := d.entries.map Prod.fst

def values (d : Dict κ ν) : List ν := d.entries.map Prod.snd

def size (d : Dict κ ν) : Nat := d.entries.length

/-- Assign the entries of a list one after the other, as `dict.update` does. -/
def update (d : Dict κ ν) (l : List (κ × ν)) : Dict κ ν :=
  l.foldl (fun d e => d.set e.1 e.2) d

@[simp] theorem get?_empty (k : κ) : (empty : Dict κ ν).get? k = none := rfl

theorem get?_set (d : Dict κ ν) (k k' : κ) (v : ν) :
    (d.set k v).get? k' = if k = k' then some v else d.get? k' := lookup_setEntry _ _ _ _

@[simp] theorem get?_set_self (d : Dict κ ν) (k : κ) (v : ν) : (d.set k v).get? k = some v := by
  simp [get?_set]

theorem get?_erase (d : Dict κ ν) (k k' : κ) :
    (d.erase k).get? k' = if k = k' then none else d.get? k' := lookup_eraseEntry _ _ _

theorem mem_entries_iff (d : Dict κ ν) {k : κ} {v : ν} :
    (k, v) ∈ d.entries ↔ d.get? k = some v :=
  ⟨lookup_of_mem d.nodup, mem_of_lookup⟩

theorem mem_keys_iff (d : Dict κ ν) {k : κ} : k ∈ d.keys ↔ (d.get? k).isSome := by
  rw [keys, ← not_iff_not, ← lookup_eq_none_iff, get?]
  cases lookup d.entries k <;> simp

theorem get?_filter (d : Dict κ ν) (p : κ → ν → Bool) (k : κ) :
    (d.filter p).get? k = (d.get? k).filter (p k) := by
  cases h : d.get? k with
  | none =>
    rw [get?, lookup_eq_none_iff] at h
    rw [get?, (lookup_eq_none_iff _ _).mpr]
    · rfl
    · intro h'
      exact h ((List.filter_sublist.map Prod.fst).subset h')
  | some v =>
    have hm := (mem_entries_iff d).mpr h
    cases hp : p k v with
    | true =>
      rw [Option.filter_some, if_pos hp, ← mem_entries_iff]
      exact List.mem_filter.mpr ⟨hm, hp⟩
    | false =>
      rw [Option.filter_some, if_neg (by simp [hp]), get?, lookup_eq_none_iff]
      intro h'
      obtain ⟨⟨a, w⟩, hw, rfl⟩ := List.mem_map.mp h'
      obtain ⟨hw, hpw⟩ := List.mem_filter.mp hw
      rw [(mem_entries_iff d).mp hw] at h
      cases h
      simp [hp] at hpw

theorem mem_values_iff (d : Dict κ ν) {v : ν} : v ∈ d.values ↔ ∃ k, d.get? k = some v := by
  rw [values, List.mem_map]
  constructor
  · rintro ⟨⟨k, w⟩, hm, rfl⟩; exact ⟨k, (mem_entries_iff d).mp hm⟩
  · rintro ⟨k, hk⟩; exact ⟨(k, v), (mem_entries_iff d).mpr hk, rfl⟩

theorem get?_eraseAll (ks : List κ) :
    ∀ (d : Dict κ ν) (k : κ), (ks.foldl erase d).get? k = if k ∈ ks then none else d.get? k := by
  induction ks with
  | nil => intro d k; simp
  | cons a ks ih =>
    intro d k
    rw [List.foldl_cons, ih, get?_erase]
    by_cases hk : k = a
    · simp [hk]
    · simp [hk, Ne.symm hk]

/-- After an update every key has its last value of the list, or its old one. -/
theorem get?_update (l : List (κ × ν)) :
    ∀ (d : Dict κ ν) (k : κ),
      (∃ v, (k, v) ∈ l ∧ (d.update l).get? k = some v) ∨
        (k ∉ l.map Prod.fst ∧ (d.update l).get? k = d.get? k) := by
  induction l with
  | nil => intro d k; exact .inr ⟨by simp, rfl⟩
  | cons e l ih =>
    intro d k
    rcases ih (d.set e.1 e.2) k with ⟨v, hm, hv⟩ | ⟨hn, hv⟩
    · exact .inl ⟨v, List.mem_cons_of_mem _ hm, hv⟩
    · have hv : (d.update (e :: l)).get? k = if e.1 = k then some e.2 else d.get? k :=
        hv.trans (get?_set d e.1 k e.2)
      by_cases hk : e.1 = k
      · rw [if_pos hk] at hv
        exact .inl ⟨e.2, by rw [← hk]; exact List.mem_cons_self, hv⟩
      · rw [if_neg hk] at hv
        exact .inr ⟨by simpa [Ne.symm hk] using hn, hv⟩

/-- Storing what is there changes nothing. -/
theorem set_of_get? {d : Dict κ ν} {k : κ} {v : ν} (h : d.get? k = some v) : d.set k v = d := by
  obtain ⟨entries, hnodup⟩ := d
  simp only [set, Dict.mk.injEq]
  exact setEntry_of_lookup h

theorem set_set (d : Dict κ ν) (k : κ) (v w : ν) : (d.set k v).set k w = d.set k w := by
  simp only [set, Dict.mk.injEq]
  exact setEntry_setEntry k v w d.entries

theorem set_comm {d : Dict κ ν} {k j : κ} (hne : j ≠ k) (v w : ν) (h : (d.get? k).isSome) :
    (d.set k v).set j w = (d.set j w).set k v := by
  simp only [set, Dict.mk.injEq]
  exact setEntry_comm hne v w (Option.isSome_iff_ne_none.mp h)

/-- The dictionary with a function applied to its values. -/
def mapValues {ν' : Type} (d : Dict κ ν) (f : ν → ν') : Dict κ ν' where
  entries := d.entries.map fun e => (e.1, f e.2)
  nodup := by
    rw [List.map_map]
    exact d.nodup

theorem get?_mapValues {ν' : Type} (d : Dict κ ν) (f : ν → ν') (k : κ) :
    (d.mapValues f).get? k = (d.get? k).map f := lookup_map f k d.entries

theorem mapValues_set {ν' : Type} (d : Dict κ ν) (f : ν → ν') (k : κ) (v : ν) :
    (d.set k v).mapValues f = (d.mapValues f).set k (f v) := by
  simp only [mapValues, set, Dict.mk.injEq]
  exact (setEntry_map f k v d.entries).symm

/-! ## Sums over the entries -/

def sum (d : Dict κ ν) (f : ν → Nat) : Nat := (d.entries.map fun e => f e.2).sum

theorem sum_setEntry (f : ν → Nat) (k : κ) (v : ν) (l : List (κ × ν)) :
    ((setEntry k v l).map fun e => f e.2).sum + (lookup l k).elim 0 f =
      (l.map fun e => f e.2).sum + f v := by
  induction l with
  | nil => simp [setEntry, lookup]
  | cons e l ih =>
    obtain ⟨a, w⟩ := e
    by_cases ha : a = k
    · subst ha
      simp [setEntry, lookup]
      omega
    · simp only [setEntry, lookup, if_neg ha, List.map_cons, List.sum_cons]
      omega

theorem sum_set (d : Dict κ ν) (f : ν → Nat) (k : κ) (v : ν) :
    (d.set k v).sum f + (d.get? k).elim 0 f = d.sum f + f v := sum_setEntry f k v d.entries

theorem sum_eraseEntry (f : ν → Nat) (k : κ) (l : List (κ × ν)) (hn : (l.map Prod.fst).Nodup) :
    ((eraseEntry k l).map fun e => f e.2).sum + (lookup l k).elim 0 f =
      (l.map fun e => f e.2).sum := by
  induction l with
  | nil => rfl
  | cons e l ih =>
    obtain ⟨a, w⟩ := e
    obtain ⟨hna, hn⟩ := List.nodup_cons.mp hn
    have ih := ih hn
    simp only [eraseEntry] at ih ⊢
    by_cases ha : a = k
    · subst ha
      rw [(lookup_eq_none_iff l a).mpr hna, Option.elim_none] at ih
      rw [List.filter_cons_of_neg (by simp)]
      simp only [lookup, if_true, Option.elim_some, List.map_cons, List.sum_cons]
      omega
    · rw [List.filter_cons_of_pos (by simpa using ha)]
      simp only [lookup, if_neg ha, List.map_cons, List.sum_cons]
      omega

theorem sum_erase (d : Dict κ ν) (f : ν → Nat) (k : κ) :
    (d.erase k).sum f + (d.get? k).elim 0 f = d.sum f := sum_eraseEntry f k d.entries d.nodup

end Dict

end PyrallelConsumer
