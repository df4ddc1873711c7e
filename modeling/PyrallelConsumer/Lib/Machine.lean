import Mathlib.Logic.Basic

/-!
# PyrallelConsumer.Lib.Machine

Labelled transition systems whose every source of nondeterminism is in the label: a label is
enabled or not in a state, and an enabled label determines the next state.

* `ReachableBy c` — reached by a run whose steps are all enabled and all meet the condition `c`.
* `reachableBy_run` — an explicit run reaches its last state.
* `invariant` — what holds initially and is kept by every such step holds in every such state.
-/

namespace PyrallelConsumer

/-- A transition system over states `σ` and labels `α`. -/
structure Machine (σ α : Type) where
  init : σ → Prop
  enabled : σ → α → Prop
  next : σ → α → σ

namespace Machine

variable {σ α : Type} (M : Machine σ α)

/-- The states reached by runs whose steps all meet `c`. -/
inductive ReachableBy (c : σ → α → Prop) : σ → Prop where
  | start {s : σ} : M.init s → ReachableBy c s
  | next {s : σ} {a : α} : ReachableBy c s → M.enabled s a → c s a → ReachableBy c (M.next s a)

/-- The states reached by any run. -/
def Reachable : σ → Prop := M.ReachableBy (fun _ _ => True)

/-- What holds initially and is kept by every step that meets `c` holds along every run whose
steps all meet `c`. -/
theorem invariant {c : σ → α → Prop} {I : σ → Prop} (h0 : ∀ s, M.init s → I s)
    (hs : ∀ s a, I s → M.enabled s a → c s a → I (M.next s a)) {s : σ}
    (h : M.ReachableBy c s) : I s := by
  induction h with
  | start hi => exact h0 _ hi
  | next _ he hc ih => exact hs _ _ ih he hc

theorem ReachableBy.mono {M : Machine σ α} {c c' : σ → α → Prop} (hc : ∀ s a, c s a → c' s a) {s : σ}
    (h : M.ReachableBy c s) : M.ReachableBy c' s := by
  induction h with
  | start hi => exact .start hi
  | next _ he hp ih => exact .next ih he (hc _ _ hp)

/-! ## Explicit runs -/

/-- The state after a list of labels. -/
def run (s : σ) (l : List α) : σ := l.foldl M.next s

theorem run_concat (s : σ) (l : List α) (a : α) : M.run s (l ++ [a]) = M.next (M.run s l) a := by
  simp [run]

/-- Every label of the list is enabled when its turn comes, and its step meets `c`. -/
def Allowed (c : σ → α → Prop) : σ → List α → Prop
  | _, [] => True
  | s, a :: l => M.enabled s a ∧ c s a ∧ Allowed c (M.next s a) l

theorem reachableBy_run {c : σ → α → Prop} (l : List α) :
    ∀ {s : σ}, M.ReachableBy c s → M.Allowed c s l → M.ReachableBy c (M.run s l) := by
  induction l with
  | nil => intro s h _; exact h
  | cons a l ih => intro s h hl; exact ih (.next h hl.1 hl.2.1) hl.2.2

end Machine

end PyrallelConsumer
