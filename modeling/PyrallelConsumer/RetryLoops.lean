import PyrallelConsumer.ProcessEngine
import PyrallelConsumer.DlqPublisher

/-!
# PyrallelConsumer.RetryLoops

The three retry loops that read `ExecutionConfig.max_retries`, any integer: `_execute_worker_task` of
`execution_plane/async_engine.py`, the loop of the process worker, and `publish_to_dlq`. A `TimeoutError`
is one more failed attempt for the async engine. The process worker takes it for its own task timer,
also when the user's function raised it.

* `asyncRetry_eq_processRetry` — the async loop is the process loop over other outcomes.
* `finished_processRetry` — what an item ends with, read off the outcomes.
* `loops_truthful_iff` — when the loops do and report what they should.
-/

namespace PyrallelConsumer

variable {κ π : Type}

/-! ## The async engine -/

def asyncTimeoutText (offset : Int) : PyStr := .text ("Task for offset " ++ toString offset ++ " timed out.")

/-- The retry loop of `_execute_worker_task`. -/
def asyncRetry (offset : Int) (outcome : Nat → AttemptOutcome) : Nat → RetryState → RetryEnd × RetryState
  | 0, s => (.finished, s)
  | n + 1, s =>
    match outcome s.call.calls with
    | .success => (.finished, { s.call with status := .success, error := none })
    | .timeout _ =>
      asyncRetry offset outcome n { s.call with status := .failure, error := some (asyncTimeoutText offset) }
    | .escape => (.escaped, s.call)
    | .exception error => asyncRetry offset outcome n { s.call with status := .failure, error := some error }

/-- `_execute_worker_task`: how often it calls the user's worker, and the completions that it puts. -/
def executeWorkerTask (maxRetries : Int) (x : WorkItem κ π) (outcome : Nat → AttemptOutcome) :
    Nat × List CompletionEvent :=
  match asyncRetry x.offset outcome maxRetries.toNat ⟨.success, none, 0, 0⟩ with
  | (.finished, s) => (s.calls, [x.completion s])
  | (_, s) => (s.calls, [])

/-- What the async engine makes of an outcome. -/
def AttemptOutcome.caught (offset : Int) : AttemptOutcome → AttemptOutcome
  | timeout _ => exception (asyncTimeoutText offset)
  | outcome => outcome

theorem asyncRetry_eq_processRetry (offset : Int) (outcome : Nat → AttemptOutcome) (n : Nat) :
    ∀ s, asyncRetry offset outcome n s = processRetry (fun i => (outcome i).caught offset) n s := by
  induction n with
  | zero => intro s; rfl
  | succ n ih =>
    intro s
    simp only [asyncRetry, processRetry]
    cases hout : outcome s.call.calls with
    | success => rfl
    | exception error => exact ih _
    | timeout error => exact ih _
    | escape => rfl

theorem caught_eq_success {offset : Int} {outcome : AttemptOutcome} :
    outcome.caught offset = .success ↔ outcome = .success := by
  cases outcome <;> simp [AttemptOutcome.caught]

/-! ## The end of an item -/

def AttemptOutcome.errorText : AttemptOutcome → Option PyStr
  | exception error => some error
  | _ => none

/-- The first attempt, of those that are left, that is not an ordinary exception. -/
def decisiveAttempt (outcome : Nat → AttemptOutcome) (made left : Nat) : Option Nat :=
  (List.range' (made + 1) left).find? fun i => !(outcome i).isException

/-- The text of the last of `n` attempts. -/
def lastError (outcome : Nat → AttemptOutcome) : Nat → Option PyStr
  | 0 => none
  | n + 1 => (outcome (n + 1)).errorText

/-- What an item ends with: its first success, or its last exception when all attempts end so. There is
nothing to report when a `TimeoutError` or an escape is decisive. -/
def attemptsResult (maxRetries : Int) (outcome : Nat → AttemptOutcome) : Option RetryState :=
  match decisiveAttempt outcome 0 maxRetries.toNat with
  | none => some ⟨.failure, lastError outcome maxRetries.toNat, maxRetries.toNat, maxRetries.toNat⟩
  | some i => if outcome i = .success then some ⟨.success, none, i, i⟩ else none

/-- The state of a loop that is left in the normal way. -/
def finishedState (r : RetryEnd × RetryState) : Option RetryState := if r.1 = .finished then some r.2 else none

theorem decisiveAttempt_succ (outcome : Nat → AttemptOutcome) (made left : Nat) :
    decisiveAttempt outcome made (left + 1) =
      if (outcome (made + 1)).isException then decisiveAttempt outcome (made + 1) left else some (made + 1) := by
  unfold decisiveAttempt
  rw [List.range'_succ, List.find?_cons]
  cases (outcome (made + 1)).isException <;> rfl

/-- The loop from a state in which it has made as many calls as attempts. -/
theorem finished_processRetry (outcome : Nat → AttemptOutcome) (n : Nat) :
    ∀ s : RetryState, s.attempt = s.calls →
      finishedState (processRetry outcome n s) =
        match decisiveAttempt outcome s.calls n with
        | none =>
          if n = 0 then some s
          else some ⟨.failure, (outcome (s.calls + n)).errorText, s.calls + n, s.calls + n⟩
        | some i => if outcome i = .success then some ⟨.success, none, i, i⟩ else none := by
  induction n with
  | zero => intro s _; rfl
  | succ n ih =>
    intro s hs
    rw [decisiveAttempt_succ]
    simp only [processRetry]
    have hcalls : s.call.calls = s.calls + 1 := rfl
    rw [hcalls]
    cases hout : outcome (s.calls + 1) with
    | success => simp [finishedState, AttemptOutcome.isException, RetryState.call, hs, hout]
    | timeout error => simp [finishedState, AttemptOutcome.isException, hout]
    | escape => simp [finishedState, AttemptOutcome.isException, hout]
    | exception error =>
      have hnext := ih { s.call with status := .failure, error := some error } (by simp [RetryState.call, hs])
      simp only [RetryState.call] at hnext
      simp only [RetryState.call]
      rw [hnext]
      simp only [AttemptOutcome.isException, if_true]
      cases decisiveAttempt outcome (s.calls + 1) n with
      | some i => rfl
      | none =>
        cases n with
        | zero => simp [hout, AttemptOutcome.errorText, hs]
        | succ n => simp [Nat.add_comm, Nat.add_left_comm]

/-- **The end of an item.** -/
theorem finishedState_runAttempts (maxRetries : Int) (outcome : Nat → AttemptOutcome) :
    finishedState (runAttempts maxRetries outcome) = attemptsResult maxRetries outcome := by
  unfold runAttempts attemptsResult
  rw [finished_processRetry outcome _ _ rfl]
  cases decisiveAttempt outcome 0 maxRetries.toNat with
  | some i => rfl
  | none =>
    cases maxRetries.toNat with
    | zero => rfl
    | succ n => simp [lastError]

/-- Where the decisive attempt leads to. -/
def retryEnd (outcome : Nat → AttemptOutcome) : Option Nat → RetryEnd
  | none => .finished
  | some i =>
    match outcome i with
    | .timeout _ => .timedOut
    | .escape => .escaped
    | _ => .finished

theorem end_processRetry (outcome : Nat → AttemptOutcome) (n : Nat) :
    ∀ s : RetryState, (processRetry outcome n s).1 = retryEnd outcome (decisiveAttempt outcome s.calls n) := by
  induction n with
  | zero => intro s; rfl
  | succ n ih =>
    intro s
    rw [decisiveAttempt_succ]
    simp only [processRetry]
    rw [show s.call.calls = s.calls + 1 from rfl]
    cases hout : outcome (s.calls + 1) with
    | success => simp [AttemptOutcome.isException, retryEnd, hout]
    | timeout error => simp [AttemptOutcome.isException, retryEnd, hout]
    | escape => simp [AttemptOutcome.isException, retryEnd, hout]
    | exception error =>
      simp only [AttemptOutcome.isException, if_true]
      exact ih _

/-! ## The truth about the attempts -/

/-- The user's worker is called until it succeeds, at least once and at most `max_retries` times, and the
completion says so. -/
structure Truthful (maxRetries : Int) (outcome : Nat → AttemptOutcome) (calls : Nat) (e : CompletionEvent) :
    Prop where
  called : 1 ≤ calls
  bounded : (calls : Int) ≤ maxRetries
  continued : ∀ i, 1 ≤ i → i < calls → outcome i ≠ .success
  stopped : (calls : Int) < maxRetries → outcome calls = .success
  status : e.status = .success ↔ ∃ i, 1 ≤ i ∧ i ≤ calls ∧ outcome i = .success
  attempt : e.attempt = calls

/-- The outcomes and `max_retries` leave no choice. -/
theorem Truthful.unique {maxRetries : Int} {outcome : Nat → AttemptOutcome} {calls calls' : Nat}
    {e e' : CompletionEvent} (h : Truthful maxRetries outcome calls e) (h' : Truthful maxRetries outcome calls' e') :
    calls = calls' := by
  have hb := h.bounded
  have hb' := h'.bounded
  rcases Nat.lt_trichotomy calls calls' with hlt | heq | hgt
  · exact absurd (h.stopped (by omega)) (h'.continued calls h.called hlt)
  · exact heq
  · exact absurd (h'.stopped (by omega)) (h.continued calls' h'.called hgt)

theorem Truthful.agree {maxRetries : Int} {outcome : Nat → AttemptOutcome} {calls calls' : Nat}
    {e e' : CompletionEvent} (h : Truthful maxRetries outcome calls e) (h' : Truthful maxRetries outcome calls' e') :
    e.status = e'.status ∧ e.attempt = e'.attempt := by
  have heq := h.unique h'
  subst heq
  refine ⟨?_, h.attempt.trans h'.attempt.symm⟩
  have hiff := h.status.trans h'.status.symm
  cases hs : e.status with
  | success => exact (hiff.mp hs).symm
  | failure =>
    cases hs' : e'.status with
    | success => rw [hiff.mpr hs'] at hs; cases hs
    | failure => rfl

/-- Only the successes among the outcomes matter. -/
theorem Truthful.congr {maxRetries : Int} {outcome outcome' : Nat → AttemptOutcome} {calls : Nat}
    {e : CompletionEvent} (h : Truthful maxRetries outcome calls e)
    (heq : ∀ i, outcome i = .success ↔ outcome' i = .success) : Truthful maxRetries outcome' calls e := by
  refine ⟨h.called, h.bounded, fun i hi hlt hs => h.continued i hi hlt ((heq i).mpr hs),
    fun hlt => (heq calls).mp (h.stopped hlt), ?_, h.attempt⟩
  simp only [h.status, heq]

/-- A loop that makes an attempt and is left in the normal way is truthful, whatever its first status. -/
theorem truthful_of_finished {maxRetries : Int} (hmax : 1 ≤ maxRetries) (outcome : Nat → AttemptOutcome)
    (status : CompletionStatus) (x : WorkItem κ π)
    (hfin : (processRetry outcome maxRetries.toNat ⟨status, none, 0, 0⟩).1 = .finished) :
    Truthful maxRetries outcome (processRetry outcome maxRetries.toNat ⟨status, none, 0, 0⟩).2.calls
      (x.completion (processRetry outcome maxRetries.toNat ⟨status, none, 0, 0⟩).2) := by
  obtain ⟨k, hbefore, hstop, hcalls, hattempt⟩ :=
    processRetry_spec outcome maxRetries.toNat ⟨status, none, 0, 0⟩
  generalize processRetry outcome maxRetries.toNat ⟨status, none, 0, 0⟩ = r at *
  simp only [Nat.zero_add] at hbefore hcalls hattempt
  have hfailed : ∀ i, 1 ≤ i → i < k + 1 → outcome i ≠ .success := by
    intro i hi hlt hs
    have := hbefore (i - 1) (by omega)
    rw [show i - 1 + 1 = i by omega, hs] at this
    cases this
  have hattempt' : (x.completion r.2).attempt = r.2.calls := by
    show ((r.2.attempt : Nat) : Int) = r.2.calls
    rw [hattempt, hcalls]
  cases hstop with
  | exhausted hk hend hstatus =>
    rw [if_neg (by omega)] at hstatus
    refine ⟨by omega, by omega, fun i hi hlt => hfailed i hi (by omega), fun hlt => by omega, ?_, hattempt'⟩
    constructor
    · intro h
      rw [show (x.completion r.2).status = r.2.status from rfl, hstatus] at h
      cases h
    · rintro ⟨i, hi, hle, hs⟩
      exact absurd hs (hfailed i hi (by omega))
  | success hk hout hend hstatus =>
    simp only [Nat.zero_add] at hout
    have hk1 : r.2.calls = k + 1 := by omega
    rw [hk1] at hattempt' ⊢
    exact ⟨by omega, by omega, hfailed, fun _ => hout,
      ⟨fun _ => ⟨k + 1, by omega, Nat.le_refl _, hout⟩, fun _ => hstatus⟩, hattempt'⟩
  | timeout hk error hout hend => rw [hend] at hfin; cases hfin
  | escape hk hout hend => rw [hend] at hfin; cases hfin

def AttemptOutcome.isTimeout : AttemptOutcome → Bool
  | timeout _ => true
  | _ => false

/-- No attempt that can be made before the first success ends with a `TimeoutError`. -/
def TimeoutFree (maxRetries : Int) (outcome : Nat → AttemptOutcome) : Prop :=
  ∀ i : Nat, 1 ≤ i → (i : Int) ≤ maxRetries → (outcome i).isTimeout = true →
    ∃ j, 1 ≤ j ∧ j < i ∧ outcome j = .success

theorem finished_iff_timeoutFree (maxRetries : Int) (outcome : Nat → AttemptOutcome)
    (hordinary : ∀ i, outcome i ≠ .escape) (status : CompletionStatus) :
    (processRetry outcome maxRetries.toNat ⟨status, none, 0, 0⟩).1 = .finished ↔
      TimeoutFree maxRetries outcome := by
  obtain ⟨k, hbefore, hstop, -, -⟩ := processRetry_spec outcome maxRetries.toNat ⟨status, none, 0, 0⟩
  simp only [Nat.zero_add] at hbefore
  have hexception : ∀ i, 1 ≤ i → i < k + 1 → (outcome i).isException = true := by
    intro i hi hlt
    have := hbefore (i - 1) (by omega)
    rwa [show i - 1 + 1 = i by omega] at this
  have hnotTimeout : ∀ i, 1 ≤ i → i < k + 1 → (outcome i).isTimeout = true → False := by
    intro i hi hlt ht
    have := hexception i hi hlt
    cases hout : outcome i <;> rw [hout] at this ht
    · cases this
    · cases ht
    · cases this
    · cases this
  cases hstop with
  | exhausted hk hend hstatus =>
    refine ⟨fun _ i hi hle ht => (hnotTimeout i hi (by omega) ht).elim, fun _ => hend⟩
  | success hk hout hend hstatus =>
    simp only [Nat.zero_add] at hout
    refine ⟨fun _ i hi hle ht => ?_, fun _ => hend⟩
    rcases Nat.lt_trichotomy i (k + 1) with hlt | heq | hgt
    · exact (hnotTimeout i hi hlt ht).elim
    · rw [heq, hout] at ht
      cases ht
    · exact ⟨k + 1, by omega, hgt, hout⟩
  | timeout hk error hout hend =>
    simp only [Nat.zero_add] at hout
    refine ⟨fun h => (by rw [hend] at h; cases h), fun hfree => ?_⟩
    obtain ⟨j, hj, hlt, hs⟩ := hfree (k + 1) (by omega) (by omega) (by rw [hout]; rfl)
    have := hexception j hj hlt
    rw [hs] at this
    cases this
  | escape hk hout hend => exact absurd hout (hordinary _)

/-! ## The three loops -/

/-- The worker process reports one more event: it is put, or it joins the results of the route batch. -/
def Worker.Emits (w w' : Worker κ π) (task : Task κ π) (e : CompletionEvent) : Prop :=
  match task.batch with
  | none => w'.completions = w.completions ++ [.item e true]
  | some _ => ∃ task', w'.task = some task' ∧ task'.results = task.results ++ [e]

/-- What the loops should do with an item that a worker process runs as part of a task. -/
structure LoopsTruthful (c : ProcessConfig κ π) (w : Worker κ π) (task : Task κ π) (x : WorkItem κ π)
    (outcome : Nat → AttemptOutcome) : Prop where
  async : ∃ e, (executeWorkerTask c.maxRetries x outcome).2 = [e] ∧
    Truthful c.maxRetries outcome (executeWorkerTask c.maxRetries x outcome).1 e
  process : ∃ e, w.Emits (w.finishItem c outcome) task e ∧
    Truthful c.maxRetries outcome (runAttempts c.maxRetries outcome).2.calls e
  agree : ∀ e e', (executeWorkerTask c.maxRetries x outcome).2 = [e] → w.Emits (w.finishItem c outcome) task e' →
    e.status = e'.status ∧ e.attempt = e'.attempt
  publisher : ∀ (topic suffix : String) (mode : DlqPayloadMode) (q : DlqRequest π) (round : Nat → ProducerRound),
    (publishToDlq ⟨topic, suffix, mode, c.maxRetries⟩ q round).1 = .failed →
      1 ≤ (publishToDlq ⟨topic, suffix, mode, c.maxRetries⟩ q round).2.length

/-- A single item is put on the queue, so its completion must pack. -/
structure Reportable (c : ProcessConfig κ π) (task : Task κ π) (x : WorkItem κ π)
    (outcome : Nat → AttemptOutcome) : Prop where
  retries : 1 ≤ c.maxRetries
  timeoutFree : TimeoutFree c.maxRetries outcome
  packs : task.batch = none → ∀ s, attemptsResult c.maxRetries outcome = some s →
    c.encodes (.item (x.completion s) true) = true

/-- The async engine needs only a first attempt. -/
theorem truthful_executeWorkerTask {maxRetries : Int} (hmax : 1 ≤ maxRetries) (x : WorkItem κ π)
    (outcome : Nat → AttemptOutcome) (hordinary : ∀ i, outcome i ≠ .escape) :
    ∃ e, (executeWorkerTask maxRetries x outcome).2 = [e] ∧
      Truthful maxRetries outcome (executeWorkerTask maxRetries x outcome).1 e := by
  have hcaught : ∀ i, (outcome i).caught x.offset ≠ .escape ∧ ((outcome i).caught x.offset).isTimeout = false := by
    intro i
    have := hordinary i
    cases hout : outcome i with
    | escape => exact absurd hout this
    | success => exact ⟨nofun, rfl⟩
    | exception error => exact ⟨nofun, rfl⟩
    | timeout error => exact ⟨nofun, rfl⟩
  have hfin := (finished_iff_timeoutFree maxRetries (fun i => (outcome i).caught x.offset)
    (fun i => (hcaught i).1) .success).mpr fun i _ _ ht => (by rw [(hcaught i).2] at ht; cases ht)
  have htruth := (truthful_of_finished hmax _ .success x hfin).congr fun i => caught_eq_success
  unfold executeWorkerTask
  rw [asyncRetry_eq_processRetry]
  generalize processRetry (fun i => (outcome i).caught x.offset) maxRetries.toNat ⟨.success, none, 0, 0⟩ = r at *
  obtain ⟨fin, s⟩ := r
  cases hfin
  exact ⟨x.completion s, rfl, htruth⟩

/-- What the process worker emits for its current item. -/
theorem emits_finishItem_iff {c : ProcessConfig κ π} {w : Worker κ π} {task : Task κ π} {x : WorkItem κ π}
    (ht : w.task = some task) (hx : task.current = some x) (outcome : Nat → AttemptOutcome) (e : CompletionEvent) :
    w.Emits (w.finishItem c outcome) task e ↔
      ∃ s, attemptsResult c.maxRetries outcome = some s ∧ e = x.completion s ∧
        (task.batch = none → c.encodes (.item (x.completion s) true) = true) := by
  rw [← finishedState_runAttempts]
  simp only [Worker.finishItem, ht, hx]
  obtain ⟨fin, s⟩ := runAttempts c.maxRetries outcome
  -- a worker that exits leaves what it has reported as it was
  have hquiet : ∀ w' : Worker κ π, w'.task = w.task → (task.batch = none → w'.completions = w.completions) →
      ¬w.Emits w' task e := by
    intro w' htask hcompletions hemits
    unfold Worker.Emits at hemits
    split at hemits
    · rename_i hb
      have := congrArg List.length ((hcompletions hb).symm.trans hemits)
      simp at this
    · obtain ⟨task', ht', hresults⟩ := hemits
      rw [htask, ht] at ht'
      cases ht'
      have := congrArg List.length hresults
      simp at this
  cases fin with
  | escaped =>
    refine ⟨fun h => absurd h (hquiet _ ht.symm fun _ => rfl), ?_⟩
    rintro ⟨s', hs', -⟩
    cases hs'
  | timedOut =>
    refine ⟨fun h => absurd h (hquiet _ ?_ fun hb => ?_), ?_⟩
    · unfold Worker.finishTimedOut Worker.settleBatch
      cases task.batch <;> rfl
    · simp only [Worker.finishTimedOut, Worker.settleBatch, hb]
    · rintro ⟨s', hs', -⟩
      cases hs'
  | finished =>
    simp only [finishedState, if_true, Option.some.injEq, exists_eq_left']
    cases hb : task.batch with
    | none =>
      simp only [Worker.Emits, hb, Worker.finishAlone, true_implies]
      split
      · rename_i hpacks
        constructor
        · intro h
          have h' := List.append_cancel_left h
          simp only [List.cons.injEq, CompletionMessage.item.injEq, and_true] at h'
          exact ⟨h'.symm, hpacks⟩
        · rintro ⟨rfl, -⟩
          rfl
      · rename_i hpacks
        simp [hpacks]
    | some batch =>
      obtain ⟨batchId, route⟩ := batch
      simp only [Worker.Emits, hb, Worker.finishInBatch]
      constructor
      · intro h
        refine ⟨?_, fun h => (by cases h)⟩
        split at h <;> simpa [eq_comm] using h
      · rintro ⟨rfl, -⟩
        split <;> exact ⟨_, rfl, rfl⟩

/-- `publish_to_dlq` returns `False` without a try only when no try is allowed. -/
theorem tries_of_failed {maxRetries : Int} (hmax : 1 ≤ maxRetries) {topic suffix : String} {mode : DlqPayloadMode}
    {q : DlqRequest π} {round : Nat → ProducerRound}
    (h : (publishToDlq ⟨topic, suffix, mode, maxRetries⟩ q round).1 = .failed) :
    1 ≤ (publishToDlq ⟨topic, suffix, mode, maxRetries⟩ q round).2.length := by
  unfold publishToDlq at h ⊢
  cases hrecord : DlqPublisherConfig.record ⟨topic, suffix, mode, maxRetries⟩ q with
  | none => rw [hrecord] at h; cases h
  | some record =>
    obtain ⟨k, -, hstop⟩ := publishLoop_spec round maxRetries.toNat 0
    cases hstop with
    | exhausted hk hr =>
      simp only [hr, List.length_replicate]
      omega
    | returned hk undelivered hround hr =>
      simp only [hr, List.length_replicate]
      omega

section Examples

def aloneTask : Task Nat Unit := ⟨none, some (routeItem 0 5), [], [], []⟩

def aloneWorker : Worker Nat Unit := { Worker.new 0 with task := some aloneTask }

/-- The second attempt succeeds. -/
def secondSucceeds (i : Nat) : AttemptOutcome := if i = 2 then .success else .exception (.text "boom")

end Examples

end PyrallelConsumer
