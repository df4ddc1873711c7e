import PyrallelConsumer.EngineFailures

/-!
# PyrallelConsumer.TerminalFailures

The attempt numbers of the failures that the process engine returns. The dead-letter gate of the poller
lets a failure through unpublished while its attempt is below `max_retries`, so every producer of a
failure has to report at least that many: the worker's retry loop, the recovery of a timed out item, the
recovery of an item that was requeued too often, a failed restart and a failed requeue.

* `runAttempts_failure`, `runAttempts_timedOut` — the retry loop.
* `terminalFailures`, `licensed_terminalFailures` — the other producers.
-/

set_option linter.unusedSectionVars false

namespace PyrallelConsumer

variable {κ π : Type}

/-- The failure has used up the attempts. -/
def CompletionEvent.Terminal (maxRetries : Int) (e : CompletionEvent) : Prop :=
  e.status = .failure → maxRetries ≤ e.attempt

/-- No attempt before the last one is made and ends with a timeout. -/
def Punctual (maxRetries : Int) (outcome : Nat → AttemptOutcome) : Prop :=
  ∀ k : Nat, (k + 1 : Int) < maxRetries → (∀ i < k, (outcome (i + 1)).isException = true) →
    ∀ error, outcome (k + 1) ≠ .timeout error

/-! ## The retry loop -/

section Attempts

variable {maxRetries : Int} {outcome : Nat → AttemptOutcome}

theorem runAttempts_failure (hend : (runAttempts maxRetries outcome).1 = .finished)
    (hstatus : (runAttempts maxRetries outcome).2.status = .failure) :
    maxRetries ≤ (runAttempts maxRetries outcome).2.attempt := by
  unfold runAttempts at hend hstatus ⊢
  obtain ⟨k, -, hstop, -, hattempt⟩ := processRetry_spec outcome maxRetries.toNat ⟨.failure, none, 0, 0⟩
  cases hstop with
  | exhausted hk => rw [hattempt]; simp only; omega
  | success _ _ _ hs => rw [hs] at hstatus; cases hstatus
  | timeout _ _ _ he => rw [he] at hend; cases hend
  | escape _ _ he => rw [he] at hend; cases hend

theorem runAttempts_timedOut (hp : Punctual maxRetries outcome)
    (hend : (runAttempts maxRetries outcome).1 = .timedOut) :
    maxRetries ≤ (runAttempts maxRetries outcome).2.attempt := by
  unfold runAttempts at hend ⊢
  obtain ⟨k, hbefore, hstop, -, hattempt⟩ := processRetry_spec outcome maxRetries.toNat ⟨.failure, none, 0, 0⟩
  simp only [Nat.zero_add] at hbefore hattempt
  cases hstop with
  | exhausted _ he => rw [he] at hend; cases hend
  | success _ _ he => rw [he] at hend; cases hend
  | timeout hk error hout =>
    simp only [Nat.zero_add] at hout
    rw [hattempt]
    by_cases hlast : (k + 1 : Int) < maxRetries
    · exact absurd hout (hp k hlast hbefore error)
    · omega
  | escape _ _ he => rw [he] at hend; cases hend

end Attempts

/-! ## The engine -/

/-- Failures and timeouts have used up the attempts. -/
def terminalFailures (κ π : Type) (maxRetries : Int) : FailureSpec κ π where
  failure e := maxRetries ≤ e.attempt
  timeout _ attempt := maxRetries ≤ attempt
  recovered _ _ _ h := h

/-- **Every producer** reports enough attempts, unless an early attempt times out. -/
theorem licensed_terminalFailures {c : ProcessConfig κ π} {s : ProcessEngine κ π} {a : EngineAction κ π}
    (hp : ∀ pid outcome, a = .finishItem pid outcome → Punctual c.maxRetries outcome) :
    s.Licensed (terminalFailures κ π c.maxRetries) c a := by
  cases a with
  | finishItem pid outcome =>
    intro p _ task x _ _
    exact ⟨fun hend hstatus => runAttempts_failure hend hstatus,
      fun hend => runAttempts_timedOut (hp pid outcome rfl) hend⟩
  | collect j => exact fun _ _ _ _ _ _ hmax => hmax
  | restart j outcome => exact fun _ _ _ _ _ _ _ _ => Int.le_refl _
  | publish j sent => exact fun _ _ _ _ _ _ => Int.le_refl _
  | requeueTail j sent => exact fun _ _ _ _ _ _ => Int.le_refl _
  | _ => trivial

end PyrallelConsumer
