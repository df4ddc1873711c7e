import Mathlib.Order.Lattice
import Mathlib.Data.List.Basic

/-!
# PyrallelConsumer.Lib.SortedSet

Finite sets of a linear order, represented by their increasing enumeration. The order is a field,
so two sets with the same members are equal (`SortedSet.ext_mem`), and iterating over a set is
iterating over `elems`.

* `add` / `filter` — insertion and restriction, with their membership laws.
* `add_of_mem`, `size_add_of_not_mem` — an insertion changes the size exactly when it is new.
* `ofList` — the set of the members of a list.
-/

namespace PyrallelConsumer

/-- A finite set, by its increasing enumeration. -/
structure SortedSet (α : Type) [LinearOrder α] where
  elems : List α
  sorted : elems.Pairwise (· < ·)
deriving Repr

namespace SortedSet

variable {α : Type} [LinearOrder α]

instance : DecidableEq (SortedSet α) := fun s t =>
  decidable_of_iff (s.elems = t.elems)
    ⟨fun h => by cases s; cases t; cases h; rfl, fun h => h ▸ rfl⟩

instance : Membership α (SortedSet α) := ⟨fun s a => a ∈ s.elems⟩

instance (a : α) (s : SortedSet α) : Decidable (a ∈ s) :=
  inferInstanceAs (Decidable (a ∈ s.elems))

def empty : SortedSet α := ⟨[], List.Pairwise.nil⟩

instance : Inhabited (SortedSet α) := ⟨empty⟩

def size (s : SortedSet α) : Nat := s.elems.length

def insertSorted (a : α) : List α → List α
  | [] => [a]
  | b :: l => if a < b then a :: b :: l else if b < a then b :: insertSorted a l else b :: l

theorem mem_insertSorted {a x : α} {l : List α} : x ∈ insertSorted a l ↔ x = a ∨ x ∈ l := by
  induction l with
  | nil => simp [insertSorted]
  | cons b l ih =>
    simp only [insertSorted]
    split
    · simp
    · split
      · simp only [List.mem_cons, ih]
        constructor
        · rintro (h | h | h) <;> simp [h]
        · rintro (h | h | h) <;> simp [h]
      · have hab : a = b := le_antisymm (not_lt.mp ‹_›) (not_lt.mp ‹_›)
        subst hab
        simp

theorem pairwise_insertSorted {a : α} {l : List α} (h : l.Pairwise (· < ·)) :
    (insertSorted a l).Pairwise (· < ·) := by
  induction l with
  | nil => simp [insertSorted]
  | cons b l ih =>
    obtain ⟨hb, hl⟩ := List.pairwise_cons.mp h
    simp only [insertSorted]
    split
    · rename_i hab
      refine List.pairwise_cons.mpr ⟨?_, h⟩
      intro x hx
      rcases List.mem_cons.mp hx with rfl | hx
      · exact hab
      · exact lt_trans hab (hb x hx)
    · split
      · rename_i hba
        refine List.pairwise_cons.mpr ⟨?_, ih hl⟩
        intro x hx
        rcases mem_insertSorted.mp hx with rfl | hx
        · exact hba
        · exact hb x hx
      · exact h

/-- Insert an element. -/
def add (s : SortedSet α) (a : α) : SortedSet α :=
  ⟨insertSorted a s.elems, pairwise_insertSorted s.sorted⟩

/-- The elements that satisfy a predicate. -/
def filter (s : SortedSet α) (p : α → Bool) : SortedSet α :=
  ⟨s.elems.filter p, s.sorted.sublist List.filter_sublist⟩

/-- The first `n` elements. -/
def take (s : SortedSet α) (n : Nat) : SortedSet α :=
  ⟨s.elems.take n, s.sorted.sublist (List.take_sublist n s.elems)⟩

def ofList (l : List α) : SortedSet α := l.foldr (fun a s => s.add a) empty

theorem mem_def {a : α} {s : SortedSet α} : a ∈ s ↔ a ∈ s.elems := Iff.rfl

@[simp] theorem not_mem_empty (a : α) : a ∉ (empty : SortedSet α) := by simp [mem_def, empty]

@[simp] theorem mem_add {a x : α} {s : SortedSet α} : x ∈ s.add a ↔ x = a ∨ x ∈ s :=
  mem_insertSorted

@[simp] theorem mem_filter {x : α} {s : SortedSet α} {p : α → Bool} :
    x ∈ s.filter p ↔ x ∈ s ∧ p x = true := List.mem_filter

theorem mem_take {x : α} {s : SortedSet α} {n : Nat} (h : x ∈ s.take n) : x ∈ s :=
  List.mem_of_mem_take h

@[simp] theorem mem_ofList {x : α} {l : List α} : x ∈ ofList l ↔ x ∈ l := by
  induction l with
  | nil => simp [ofList]
  | cons a l ih =>
    simp only [ofList, List.foldr_cons, mem_add, List.mem_cons]
    exact or_congr Iff.rfl ih

/-- A strictly increasing list is determined by its members. -/
theorem eq_of_pairwise_of_mem_iff {l m : List α} (hl : l.Pairwise (· < ·))
    (hm : m.Pairwise (· < ·)) (h : ∀ x, x ∈ l ↔ x ∈ m) : l = m := by
  induction l generalizing m with
  | nil =>
    cases m with
    | nil => rfl
    | cons b m => exact absurd ((h b).mpr (by simp)) (by simp)
  | cons a l ih =>
    cases m with
    | nil => exact absurd ((h a).mp (by simp)) (by simp)
    | cons b m =>
      obtain ⟨ha, hl'⟩ := List.pairwise_cons.mp hl
      obtain ⟨hb, hm'⟩ := List.pairwise_cons.mp hm
      have hab : a = b := by
        rcases List.mem_cons.mp ((h a).mp (by simp)) with hab | hab
        · exact hab
        · rcases List.mem_cons.mp ((h b).mpr (by simp)) with hba | hba
          · exact hba.symm
          · exact absurd (lt_trans (ha b hba) (hb a hab)) (lt_irrefl a)
      subst hab
      congr 1
      refine ih hl' hm' fun x => ⟨fun hx => ?_, fun hx => ?_⟩
      · rcases List.mem_cons.mp ((h x).mp (List.mem_cons_of_mem _ hx)) with rfl | hx'
        · exact absurd (ha x hx) (lt_irrefl x)
        · exact hx'
      · rcases List.mem_cons.mp ((h x).mpr (List.mem_cons_of_mem _ hx)) with rfl | hx'
        · exact absurd (hb x hx) (lt_irrefl x)
        · exact hx'

theorem ext_mem {s t : SortedSet α} (h : ∀ x, x ∈ s ↔ x ∈ t) : s = t := by
  obtain ⟨l, hl⟩ := s
  obtain ⟨m, hm⟩ := t
  have : l = m := eq_of_pairwise_of_mem_iff hl hm h
  subst this
  rfl

theorem take_of_size_le {s : SortedSet α} {n : Nat} (h : s.size ≤ n) : s.take n = s :=
  ext_mem fun x => by
    have : (s.take n).elems = s.elems := List.take_of_length_le h
    rw [mem_def, this, ← mem_def]

theorem add_of_mem {s : SortedSet α} {a : α} (h : a ∈ s) : s.add a = s :=
  ext_mem fun x => by
    rw [mem_add]
    exact ⟨fun hx => hx.elim (fun e => e ▸ h) id, .inr⟩

theorem length_insertSorted {a : α} {l : List α} (h : a ∉ l) :
    (insertSorted a l).length = l.length + 1 := by
  induction l with
  | nil => rfl
  | cons b l ih =>
    obtain ⟨hab, hl⟩ := not_or.mp (fun h' => h (List.mem_cons.mpr h'))
    simp only [insertSorted]
    split
    · rfl
    · split
      · simp [ih hl]
      · exact absurd (le_antisymm (not_lt.mp ‹_›) (not_lt.mp ‹_›)) hab

theorem size_add_of_not_mem {s : SortedSet α} {a : α} (h : a ∉ s) :
    (s.add a).size = s.size + 1 := length_insertSorted h

/-- Inserting changes the size exactly when the element is new. -/
theorem size_add_ne_iff {s : SortedSet α} {a : α} : (s.add a).size ≠ s.size ↔ a ∉ s := by
  by_cases h : a ∈ s
  · simp [add_of_mem h, h]
  · simp [size_add_of_not_mem h, h]

end SortedSet

end PyrallelConsumer
