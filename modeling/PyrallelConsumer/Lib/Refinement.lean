import PyrallelConsumer.Lib.Machine

/-!
# PyrallelConsumer.Lib.Refinement

One machine built on another: a part of its state is a state of the other machine, and each of its steps
takes that part through finitely many steps there.

* `Steps` — finitely many steps that are enabled and meet a condition.
* `reachable_of_refines` — then the part only ever is in states that the other machine reaches, so that
  its invariants hold of it.
-/

namespace PyrallelConsumer

namespace Machine

variable {σ α τ β : Type} {M : Machine σ α} {N : Machine τ β}

/-- A run in two parts. -/
theorem allowed_append {q : τ → β → Prop} {l l' : List β} : ∀ {t : τ}, N.Allowed q t (l ++ l') →
    N.Allowed q t l ∧ N.Allowed q (N.run t l) l' := by
  induction l with
  | nil => exact fun h => ⟨trivial, h⟩
  | cons b l ih => exact fun h => ⟨⟨h.1, h.2.1, (ih h.2.2).1⟩, (ih h.2.2).2⟩

inductive Steps (N : Machine τ β) (q : τ → β → Prop) : τ → τ → Prop where
  | refl {t : τ} : Steps N q t t
  | cons {t t' : τ} {b : β} : N.enabled t b → q t b → Steps N q (N.next t b) t' → Steps N q t t'

namespace Steps

variable {q : τ → β → Prop} {t t' t'' : τ}

theorem single {b : β} (he : N.enabled t b) (hq : q t b) : Steps N q t (N.next t b) := .cons he hq .refl

theorem trans (h : Steps N q t t') (h' : Steps N q t' t'') : Steps N q t t'' := by
  induction h with
  | refl => exact h'
  | cons he hq _ ih => exact .cons he hq (ih h')

theorem reachable (h : Steps N q t t') (ht : N.ReachableBy q t) : N.ReachableBy q t' := by
  induction h with
  | refl => exact ht
  | cons he hq _ ih => exact ih (.next ht he hq)

/-- An explicit run. -/
theorem of_allowed (l : List β) : ∀ {t : τ}, N.Allowed q t l → Steps N q t (N.run t l) := by
  induction l with
  | nil => intro t _; exact .refl
  | cons b l ih => intro t h; exact .cons h.1 h.2.1 (ih h.2.2)

/-- What is kept by every step along the way. -/
theorem invariant {I : τ → Prop} (h : Steps N q t t') (h0 : I t)
    (hs : ∀ t b, I t → N.enabled t b → q t b → I (N.next t b)) : I t' := by
  induction h with
  | refl => exact h0
  | cons he hq _ ih => exact ih (hs _ _ h0 he hq)

end Steps

/-- **Refinement.** Every step of `M` that meets `p` is a sequence of steps of `N` on the part `f`. -/
theorem reachable_of_refines {p : σ → α → Prop} {q : τ → β → Prop} (f : σ → τ)
    (h0 : ∀ s, M.init s → N.init (f s))
    (hs : ∀ s a, M.ReachableBy p s → M.enabled s a → p s a → Steps N q (f s) (f (M.next s a)))
    {s : σ} (h : M.ReachableBy p s) : N.ReachableBy q (f s) := by
  induction h with
  | start hi => exact .start (h0 _ hi)
  | next hr he hp ih => exact (hs _ _ hr he hp).reachable ih

end Machine

end PyrallelConsumer
