import Mathlib.Algebra.Order.Ring.Int
import Mathlib.Data.List.Basic

/-!
# PyrallelConsumer.Lib.Runs

Maximal runs of integers with a property, as pairs of their ends.

* `isRun_interval`, `isRun_split` — the runs of an interval, and of what is left around a point.
-/

namespace PyrallelConsumer

/-- `p` holds from `a` to `b` and on neither side. -/
structure IsRun (p : Int → Prop) (a b : Int) : Prop where
  le : a ≤ b
  holds : ∀ x, a ≤ x → x ≤ b → p x
  before : ¬p (a - 1)
  after : ¬p (b + 1)

variable {p q : Int → Prop} {a b : Int}

theorem isRun_congr (h : ∀ x, p x ↔ q x) : IsRun p a b ↔ IsRun q a b := by
  have heq : p = q := funext fun x => propext (h x)
  rw [heq]

theorem isRun_interval {c d : Int} : IsRun (fun x => c ≤ x ∧ x ≤ d) a b ↔ c ≤ d ∧ a = c ∧ b = d := by
  constructor
  · intro h
    have hle := h.le
    have ha := h.holds a (le_refl a) hle
    have hb := h.holds b hle (le_refl b)
    have hbefore := h.before
    have hafter := h.after
    omega
  · rintro ⟨hle, rfl, rfl⟩
    exact ⟨hle, fun x h₁ h₂ => ⟨h₁, h₂⟩, by omega, by omega⟩

theorem not_isRun_of_forall_not (h : ∀ x, ¬p x) : ¬IsRun p a b := fun hr => h a (hr.holds a (le_refl a) hr.le)

/-- A run lies on one side of a point without the property. -/
theorem isRun_split {o : Int} (ho : ¬p o) :
    IsRun p a b ↔ IsRun (fun x => p x ∧ x < o) a b ∨ IsRun (fun x => p x ∧ o < x) a b := by
  constructor
  · intro h
    have hle := h.le
    by_cases hb : b < o
    · left
      refine ⟨hle, fun x h₁ h₂ => ⟨h.holds x h₁ h₂, by omega⟩, fun hp => h.before hp.1, fun hp => h.after hp.1⟩
    · have ha : o < a := by
        by_contra hlt
        exact ho (h.holds o (by omega) (by omega))
      right
      refine ⟨hle, fun x h₁ h₂ => ⟨h.holds x h₁ h₂, by omega⟩, fun hp => h.before hp.1, fun hp => h.after hp.1⟩
  · rintro (h | h)
    · have hb := (h.holds b h.le (le_refl b)).2
      refine ⟨h.le, fun x h₁ h₂ => (h.holds x h₁ h₂).1, fun hp => ?_, fun hp => ?_⟩
      · exact h.before ⟨hp, by have := h.le; omega⟩
      · by_cases heq : b + 1 = o
        · exact ho (heq ▸ hp)
        · exact h.after ⟨hp, by omega⟩
    · have ha := (h.holds a (le_refl a) h.le).2
      refine ⟨h.le, fun x h₁ h₂ => (h.holds x h₁ h₂).1, fun hp => ?_, fun hp => ?_⟩
      · by_cases heq : a - 1 = o
        · exact ho (heq ▸ hp)
        · exact h.before ⟨hp, by omega⟩
      · exact h.after ⟨hp, by have := h.le; omega⟩

end PyrallelConsumer
