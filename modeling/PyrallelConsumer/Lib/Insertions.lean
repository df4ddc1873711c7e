import Mathlib.Data.List.Basic

/-!
# PyrallelConsumer.Lib.Insertions

Sequences of inputs with extra inputs put in between. An extra input is judged in the state that it
comes to, so it may be put in only where it means nothing.

* `foldl_interspersed` — inputs that change nothing where they are put in change nothing at all.
-/

namespace PyrallelConsumer

variable {σ α : Type}

/-- The second list is the first one with extra inputs, each of them `extra` in the state that it meets. -/
inductive Interspersed (next : σ → α → σ) (extra : σ → α → Prop) : σ → List α → List α → Prop where
  | nil (s : σ) : Interspersed next extra s [] []
  | keep {s : σ} {a : α} {l l' : List α} (h : Interspersed next extra (next s a) l l') :
      Interspersed next extra s (a :: l) (a :: l')
  | insert {s : σ} {a : α} {l l' : List α} (ha : extra s a) (h : Interspersed next extra (next s a) l l') :
      Interspersed next extra s l (a :: l')

variable {next : σ → α → σ} {extra : σ → α → Prop}

theorem interspersed_refl (l : List α) : ∀ s, Interspersed next extra s l l := by
  induction l with
  | nil => intro s; exact .nil s
  | cons a l ih => intro s; exact .keep (ih (next s a))

theorem foldl_interspersed (hidle : ∀ s a, extra s a → next s a = s) {s : σ} {l l' : List α}
    (h : Interspersed next extra s l l') : l'.foldl next s = l.foldl next s := by
  induction h with
  | nil s => rfl
  | keep _ ih => exact ih
  | insert ha _ ih =>
    rw [List.foldl_cons, ih, hidle _ _ ha]

end PyrallelConsumer
