import PyrallelConsumer.Lib.Machine
import Mathlib.Logic.Function.Basic

/-!
# PyrallelConsumer.Lib.Family

Several machines side by side, one of which takes a step at a time. What a machine may do can depend on
all of them, so that they can talk to each other.

* `member_reachable` — what a machine does in a family it can do alone.
* `reachable_member_run` — a run of one machine is a run of the family.
* `family_invariant` — the invariant rule for a property of all the states together, with what is known
  of every machine alone.
-/

namespace PyrallelConsumer

namespace Machine

variable {ι σ α : Type} [DecidableEq ι]

/-- The machines `M i` side by side; a step is taken only when `allowed`. -/
def family (M : ι → Machine σ α) (allowed : (ι → σ) → ι → α → Prop) : Machine (ι → σ) (ι × α) where
  init s := ∀ i, (M i).init (s i)
  enabled s a := (M a.1).enabled (s a.1) a.2 ∧ allowed s a.1 a.2
  next s a := Function.update s a.1 ((M a.1).next (s a.1) a.2)

variable {M : ι → Machine σ α} {allowed : (ι → σ) → ι → α → Prop} {s : ι → σ}

/-- What holds of every machine alone holds after one of them has moved to a state of which it holds. -/
theorem forall_update {P : ι → σ → Prop} (hs : ∀ i, P i (s i)) {i : ι} {x : σ} (hx : P i x) :
    ∀ j, P j (Function.update s i x j) := by
  intro j
  by_cases hji : j = i
  · subst hji
    rw [Function.update_self]
    exact hx
  · rw [Function.update_of_ne hji]
    exact hs j

theorem member_reachable (h : (family M allowed).Reachable s) : ∀ i, (M i).Reachable (s i) := by
  refine invariant (family M allowed) (I := fun s => ∀ i, (M i).Reachable (s i)) ?_ ?_ h
  · intro s hs i
    exact .start (hs i)
  · rintro s ⟨i, a⟩ hs ⟨henabled, -⟩ -
    exact forall_update hs (.next (hs i) henabled trivial)

/-- What one machine does alone, as long as it may in every state of the others. -/
theorem reachable_member_run {i : ι} (l : List α) (hallowed : ∀ s, ∀ a ∈ l, allowed s i a) :
    ∀ {s : ι → σ}, (family M allowed).Reachable s → (M i).Allowed (fun _ _ => True) (s i) l →
      (family M allowed).Reachable (Function.update s i ((M i).run (s i) l)) := by
  induction l with
  | nil =>
    intro s h _
    rw [show (M i).run (s i) [] = s i from rfl, Function.update_eq_self]
    exact h
  | cons a l ih =>
    intro s h ⟨henabled, _, hl⟩
    have hstep : (family M allowed).Reachable (Function.update s i ((M i).next (s i) a)) :=
      ReachableBy.next (M := family M allowed) (a := (i, a)) h ⟨henabled, hallowed s a List.mem_cons_self⟩ trivial
    have hrun := ih (fun s b hb => hallowed s b (List.mem_cons_of_mem _ hb)) hstep
      (by rw [Function.update_self]; exact hl)
    rw [Function.update_self, Function.update_idem] at hrun
    exact hrun

/-- A property of all the states holds along every run when it holds initially and every step of a machine
keeps it. -/
theorem family_invariant {I : (ι → σ) → Prop} (h0 : ∀ s, (∀ i, (M i).init (s i)) → I s)
    (hs : ∀ s i a, I s → (∀ j, (M j).Reachable (s j)) → (M i).enabled (s i) a → allowed s i a →
      I (Function.update s i ((M i).next (s i) a)))
    (h : (family M allowed).Reachable s) : I s := by
  have hboth : I s ∧ ∀ i, (M i).Reachable (s i) := by
    refine invariant (family M allowed) (I := fun s => I s ∧ ∀ i, (M i).Reachable (s i)) ?_ ?_ h
    · intro s hinit
      exact ⟨h0 s hinit, fun i => .start (hinit i)⟩
    · rintro s ⟨i, a⟩ ⟨hI, hall⟩ ⟨henabled, hallowed⟩ -
      exact ⟨hs s i a hI hall henabled hallowed, forall_update hall (.next (hall i) henabled trivial)⟩
  exact hboth.1

end Machine

end PyrallelConsumer
