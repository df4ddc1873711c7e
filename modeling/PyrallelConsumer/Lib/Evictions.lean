import Mathlib.Algebra.GroupWithZero.Nat
import Mathlib.Algebra.BigOperators.Group.List.Basic
import Mathlib.Data.List.Basic

/-!
# PyrallelConsumer.Lib.Evictions

A queue of weighed entries under a budget, whose weight is kept beside it as a number and clamped at
zero. Making room for a new entry removes the oldest entries until it fits. A budget of zero is no budget.

* `evictOldest_spec` — what is removed, why, and what the number is afterwards.
-/

namespace PyrallelConsumer

variable {α : Type}

/-- The weight of a list of entries. -/
def totalWeight (weight : α → Nat) (l : List α) : Nat := (l.map weight).sum

@[simp] theorem totalWeight_nil (weight : α → Nat) : totalWeight weight [] = 0 := rfl

@[simp] theorem totalWeight_cons (weight : α → Nat) (a : α) (l : List α) :
    totalWeight weight (a :: l) = weight a + totalWeight weight l := rfl

@[simp] theorem totalWeight_append (weight : α → Nat) (l l' : List α) :
    totalWeight weight (l ++ l') = totalWeight weight l + totalWeight weight l' := by
  simp [totalWeight]

/-- Remove the oldest entries until `need` fits into what is left of the budget. -/
def evictOldest (weight : α → Nat) (budget need : Nat) : List α → Int → List α × Int
  | [], size => ([], size)
  | a :: l, size =>
    if 0 < budget ∧ size + need > budget then evictOldest weight budget need l (max 0 (size - weight a))
    else (a :: l, size)

/-- An eviction is needed as long as the entries that are still there leave no room. -/
def NoRoom (weight : α → Nat) (budget need : Nat) (l : List α) : Prop :=
  0 < budget ∧ budget < totalWeight weight l + need

/-- **Evictions.** The oldest `k` entries go, each of them for want of room, and the number stays the weight. -/
theorem evictOldest_spec (weight : α → Nat) (budget need : Nat) (l : List α) :
    ∃ k, evictOldest weight budget need l (totalWeight weight l) = (l.drop k, (totalWeight weight (l.drop k) : Int)) ∧
      (∀ j < k, NoRoom weight budget need (l.drop j)) ∧
      (0 < budget → need ≤ budget → totalWeight weight (l.drop k) + need ≤ budget) := by
  induction l with
  | nil => exact ⟨0, rfl, fun j hj => by omega, fun _ h => by simpa using h⟩
  | cons a l ih =>
    simp only [evictOldest]
    split
    · rename_i hfull
      obtain ⟨k, heq, hneeded, hfits⟩ := ih
      have hsize : max 0 ((totalWeight weight (a :: l) : Int) - weight a) = totalWeight weight l := by
        simp
      refine ⟨k + 1, by rw [hsize, heq]; rfl, fun j hj => ?_, by simpa using hfits⟩
      cases j with
      | zero =>
        refine ⟨hfull.1, ?_⟩
        have hlt := hfull.2
        rw [List.drop_zero]
        omega
      | succ j => simpa using hneeded j (by omega)
    · rename_i hroom
      refine ⟨0, rfl, fun j hj => by omega, fun hbudget _ => ?_⟩
      have : ¬((totalWeight weight (a :: l) : Int) + need > budget) := fun h => hroom ⟨hbudget, h⟩
      simp only [List.drop_zero]
      omega

end PyrallelConsumer
