import PyrallelConsumer.RetryLoops
import Mathlib.Algebra.Order.Ring.Rat
import Mathlib.Tactic.Linarith

/-!
# PyrallelConsumer.RetryBackoff

How long the three retry loops sleep between two attempts: `_apply_backoff` of
`execution_plane/async_engine.py`, `_calculate_backoff` of `execution_plane/process_worker_runtime.py` and
the backoff in `publish_to_dlq` of `control_plane/broker_dlq_publisher.py`. The delays are in milliseconds
and exact; the loops divide them by a thousand, as floats.

The process worker caps every delay. The other two cap it only in the exponential branch.

* `loopDelays_eq` — which delay is slept before which attempt.
* `calculateBackoff_of_noJitter` and its siblings — the delays without jitter.
* `backoffs_agree_iff` — when the three are the same capped delay.
-/

namespace PyrallelConsumer

/-- What the backoffs read of `ExecutionConfig`. -/
structure BackoffConfig where
  retryBackoffMs : Int := 1000
  exponentialBackoff : Bool := true
  maxRetryBackoffMs : Int := 30000
  retryJitterMs : Int := 200
deriving DecidableEq, Repr

/-- What `random.uniform(0, retry_jitter_ms)` or `random.randint(0, retry_jitter_ms)` returns. -/
structure JitterDraw (retryJitterMs : Int) where
  value : Rat
  low : min 0 (retryJitterMs : Rat) ≤ value
  high : value ≤ max 0 (retryJitterMs : Rat)

namespace BackoffConfig

variable (c : BackoffConfig)

/-- `AsyncExecutionEngine._apply_backoff`; attempts count from one. -/
def applyBackoff (attempt : Nat) (jitter : JitterDraw c.retryJitterMs) : Rat :=
  let baseDelayMs := c.retryBackoffMs
  let delayMs :=
    if c.exponentialBackoff then min (baseDelayMs * 2 ^ (attempt - 1)) c.maxRetryBackoffMs
    else baseDelayMs
  if c.retryJitterMs > 0 then delayMs + jitter.value else delayMs

/-- `_calculate_backoff` of the process worker; attempts count from one. -/
def calculateBackoff (attempt : Nat) (jitter : JitterDraw c.retryJitterMs) : Rat :=
  let backoffMs :=
    if c.exponentialBackoff then c.retryBackoffMs * 2 ^ (attempt - 1) else c.retryBackoffMs
  let jitterMs := if c.retryJitterMs > 0 then jitter.value else 0
  (min backoffMs c.maxRetryBackoffMs : Int) + jitterMs

/-- The backoff of `publish_to_dlq`; attempts count from zero. -/
def publishBackoff (retryAttempt : Nat) (jitter : JitterDraw c.retryJitterMs) : Rat :=
  let backoff :=
    if c.exponentialBackoff then min (c.retryBackoffMs * 2 ^ retryAttempt) c.maxRetryBackoffMs
    else c.retryBackoffMs
  backoff + jitter.value

/-- The delay before attempt `n + 1`, capped in both branches. -/
def cappedDelay (n : Nat) : Int :=
  if c.exponentialBackoff then min (c.retryBackoffMs * 2 ^ (n - 1)) c.maxRetryBackoffMs
  else min c.retryBackoffMs c.maxRetryBackoffMs

end BackoffConfig

/-! ## The loops -/

/-- The delays of a loop that makes its attempts from index `i` on: it goes on after attempt `i` if that one
calls for another one (`again`), and then sleeps unless it was the last (`more`). -/
def loopDelays (again more : Nat → Bool) (delay : Nat → Rat) : Nat → Nat → List Rat
  | 0, _ => []
  | left + 1, i =>
    if again i then (if more i then [delay i] else []) ++ loopDelays again more delay left (i + 1) else []

/-- How many attempts such a loop makes. -/
def loopAttempts (again : Nat → Bool) : Nat → Nat → Nat
  | 0, _ => 0
  | left + 1, i => if again i then loopAttempts again left (i + 1) + 1 else 1

theorem loopAttempts_pos (again : Nat → Bool) (left i : Nat) : 0 < loopAttempts again (left + 1) i := by
  unfold loopAttempts
  split <;> omega

/-- **The delays.** The one between two attempts is that of the first of them. -/
theorem loopDelays_eq {again more : Nat → Bool} {delay : Nat → Rat} {bound : Nat}
    (hmore : ∀ i, more i = decide (i + 1 < bound)) (left : Nat) :
    ∀ i, i + left = bound →
      loopDelays again more delay left i = (List.range' i (loopAttempts again left i - 1)).map delay := by
  induction left with
  | zero => intro i _; rfl
  | succ left ih =>
    intro i hi
    simp only [loopDelays, loopAttempts]
    split
    · rw [ih (i + 1) (by omega), hmore]
      cases left with
      | zero =>
        rw [if_neg (by simp; omega)]
        rfl
      | succ left =>
        have hpos := loopAttempts_pos again left (i + 1)
        rw [if_pos (by simp; omega), show loopAttempts again (left + 1) (i + 1) + 1 - 1 =
          loopAttempts again (left + 1) (i + 1) - 1 + 1 by omega, List.range'_succ]
        rfl
    · rfl

/-- An attempt of the async engine that calls for another one. -/
def AttemptOutcome.retriedByAsync : AttemptOutcome → Bool
  | exception _ => true
  | timeout _ => true
  | _ => false

section Loops

variable (c : BackoffConfig) (maxRetries : Int) (jitter : Nat → JitterDraw c.retryJitterMs)

/-- The delays of `_execute_worker_task`. -/
def executeDelays (outcome : Nat → AttemptOutcome) : List Rat :=
  loopDelays (fun i => (outcome i).retriedByAsync) (fun i => decide ((i : Int) < maxRetries))
    (fun i => c.applyBackoff i (jitter i)) maxRetries.toNat 1

/-- The delays of the process worker. -/
def workerDelays (outcome : Nat → AttemptOutcome) : List Rat :=
  loopDelays (fun i => (outcome i).isException) (fun i => decide ((i : Int) < maxRetries))
    (fun i => c.calculateBackoff i (jitter i)) maxRetries.toNat 1

/-- The delays of `publish_to_dlq`. -/
def publishDelays (round : Nat → ProducerRound) : List Rat :=
  loopDelays (fun i => (round i).raises) (fun i => decide ((i : Int) < maxRetries - 1))
    (fun i => c.publishBackoff i (jitter i)) maxRetries.toNat 0

theorem calls_processRetry (outcome : Nat → AttemptOutcome) (n : Nat) :
    ∀ s, (processRetry outcome n s).2.calls =
      s.calls + loopAttempts (fun i => (outcome i).isException) n (s.calls + 1) := by
  induction n with
  | zero => intro s; rfl
  | succ n ih =>
    intro s
    simp only [processRetry, loopAttempts]
    split
    all_goals
      rename_i hout
      rw [show s.call.calls = s.calls + 1 from rfl] at hout
    · simp [hout, AttemptOutcome.isException, RetryState.call]
    · simp [hout, AttemptOutcome.isException, RetryState.call]
    · simp [hout, AttemptOutcome.isException, RetryState.call]
    · have hexception : (outcome (s.calls + 1)).isException = true := by rw [hout]; rfl
      rw [ih, if_pos hexception]
      simp only [RetryState.call]
      omega

theorem isException_caught (offset : Int) (outcome : AttemptOutcome) :
    (outcome.caught offset).isException = outcome.retriedByAsync := by
  cases outcome <;> rfl

theorem made_publishLoop (round : Nat → ProducerRound) (n : Nat) :
    ∀ made, (publishLoop round n made).2 = made + loopAttempts (fun i => (round i).raises) n made := by
  induction n with
  | zero => intro made; rfl
  | succ n ih =>
    intro made
    simp only [publishLoop, loopAttempts]
    split
    · rename_i hround
      simp [hround, ProducerRound.raises]
    · rename_i hround
      have hraises : (round made).raises = true := by
        cases hout : round made with
        | flushed undelivered => exact absurd hout (hround undelivered)
        | produceRaised => rfl
        | flushRaised => rfl
      rw [ih, if_pos hraises]
      omega

/-- Delay `n` of the async engine is slept after call `n`, and there is none after the last call. -/
theorem executeDelays_eq (x : WorkItem κ π) (outcome : Nat → AttemptOutcome) :
    executeDelays c maxRetries jitter outcome =
      (List.range' 1 ((executeWorkerTask maxRetries x outcome).1 - 1)).map fun n =>
        c.applyBackoff n (jitter n) := by
  have hcalls : (executeWorkerTask maxRetries x outcome).1 =
      loopAttempts (fun i => (outcome i).retriedByAsync) maxRetries.toNat 1 := by
    have h := calls_processRetry (fun i => (outcome i).caught x.offset) maxRetries.toNat ⟨.success, none, 0, 0⟩
    rw [← asyncRetry_eq_processRetry] at h
    simp only [isException_caught, Nat.zero_add] at h
    rw [← h]
    unfold executeWorkerTask
    split <;> (rename_i heq; rw [heq])
  rw [hcalls]
  exact loopDelays_eq (fun i => by simp; omega) _ 1 rfl

theorem workerDelays_eq (outcome : Nat → AttemptOutcome) :
    workerDelays c maxRetries jitter outcome =
      (List.range' 1 ((runAttempts maxRetries outcome).2.calls - 1)).map fun n =>
        c.calculateBackoff n (jitter n) := by
  have hcalls : (runAttempts maxRetries outcome).2.calls =
      loopAttempts (fun i => (outcome i).isException) maxRetries.toNat 1 := by
    unfold runAttempts
    rw [calls_processRetry]
    simp
  rw [hcalls]
  exact loopDelays_eq (fun i => by simp; omega) _ 1 rfl

theorem publishDelays_eq (round : Nat → ProducerRound) :
    publishDelays c maxRetries jitter round =
      (List.range' 0 ((publishLoop round maxRetries.toNat 0).2 - 1)).map fun i =>
        c.publishBackoff i (jitter i) := by
  rw [made_publishLoop, Nat.zero_add]
  exact loopDelays_eq (fun i => by simp; omega) _ 0 rfl

end Loops

/-! ## Without jitter -/

theorem JitterDraw.eq_zero {retryJitterMs : Int} (hzero : retryJitterMs = 0) (j : JitterDraw retryJitterMs) :
    j.value = 0 := by
  obtain ⟨value, low, high⟩ := j
  subst hzero
  simp at low high
  linarith

namespace BackoffConfig

variable {c : BackoffConfig}

/-- The delay without a cap in the linear branch. -/
def uncappedDelay (c : BackoffConfig) (n : Nat) : Int :=
  if c.exponentialBackoff then min (c.retryBackoffMs * 2 ^ (n - 1)) c.maxRetryBackoffMs else c.retryBackoffMs

theorem applyBackoff_of_noJitter (hzero : c.retryJitterMs = 0) (n : Nat) (j : JitterDraw c.retryJitterMs) :
    c.applyBackoff n j = c.uncappedDelay n := by
  unfold applyBackoff uncappedDelay
  rw [if_neg (by omega)]

theorem calculateBackoff_of_noJitter (hzero : c.retryJitterMs = 0) (n : Nat) (j : JitterDraw c.retryJitterMs) :
    c.calculateBackoff n j = c.cappedDelay n := by
  unfold calculateBackoff cappedDelay
  simp only [if_neg (show ¬c.retryJitterMs > 0 by omega), add_zero]
  split <;> rfl

theorem publishBackoff_of_noJitter (hzero : c.retryJitterMs = 0) (n : Nat) (j : JitterDraw c.retryJitterMs) :
    c.publishBackoff (n - 1) j = c.uncappedDelay n := by
  unfold publishBackoff uncappedDelay
  rw [j.eq_zero hzero, add_zero]

theorem uncappedDelay_eq_cappedDelay_iff (n : Nat) :
    c.uncappedDelay n = c.cappedDelay n ↔ c.exponentialBackoff = true ∨ c.retryBackoffMs ≤ c.maxRetryBackoffMs := by
  unfold uncappedDelay cappedDelay
  cases c.exponentialBackoff <;> simp

theorem cappedDelay_mono (hbackoff : 0 ≤ c.retryBackoffMs) {m n : Nat} (h : m ≤ n) :
    c.cappedDelay m ≤ c.cappedDelay n := by
  unfold cappedDelay
  split
  · have hpow : (2 : Int) ^ (m - 1) ≤ 2 ^ (n - 1) := pow_le_pow_right₀ (by norm_num) (by omega)
    have hmul := mul_le_mul_of_nonneg_left hpow hbackoff
    omega
  · exact le_refl _

end BackoffConfig

/-- The three delays before attempt `n + 1` are the capped one, and grow with `n`. -/
structure BackoffsAgree (c : BackoffConfig) : Prop where
  async : ∀ n, 1 ≤ n → ∀ j, c.applyBackoff n j = c.cappedDelay n
  process : ∀ n, 1 ≤ n → ∀ j, c.calculateBackoff n j = c.cappedDelay n
  publisher : ∀ n, 1 ≤ n → ∀ j, c.publishBackoff (n - 1) j = c.cappedDelay n
  grows : ∀ m n, 1 ≤ m → m ≤ n → ∀ j j' : JitterDraw c.retryJitterMs,
    c.applyBackoff m j ≤ c.applyBackoff n j' ∧ c.calculateBackoff m j ≤ c.calculateBackoff n j' ∧
      c.publishBackoff (m - 1) j ≤ c.publishBackoff (n - 1) j'

/-- **The three backoffs** are the same capped delay unless a linear backoff is above the cap, which the
process worker alone applies to it. -/
theorem backoffs_agree_iff (c : BackoffConfig) (hbackoff : 0 ≤ c.retryBackoffMs)
    (hjitter : c.retryJitterMs = 0) :
    BackoffsAgree c ↔ c.exponentialBackoff = true ∨ c.retryBackoffMs ≤ c.maxRetryBackoffMs := by
  have hdraw : JitterDraw c.retryJitterMs := ⟨0, by simp, by simp⟩
  constructor
  · intro h
    have hasync := h.async 1 (le_refl 1) hdraw
    rw [BackoffConfig.applyBackoff_of_noJitter hjitter] at hasync
    exact (BackoffConfig.uncappedDelay_eq_cappedDelay_iff 1).mp (by exact_mod_cast hasync)
  · intro h
    have hcap : ∀ n, c.uncappedDelay n = c.cappedDelay n :=
      fun n => (BackoffConfig.uncappedDelay_eq_cappedDelay_iff n).mpr h
    have hasync : ∀ n j, c.applyBackoff n j = c.cappedDelay n := by
      intro n j
      rw [BackoffConfig.applyBackoff_of_noJitter hjitter, hcap]
    have hprocess : ∀ n j, c.calculateBackoff n j = c.cappedDelay n :=
      BackoffConfig.calculateBackoff_of_noJitter hjitter
    have hpublisher : ∀ n j, c.publishBackoff (n - 1) j = c.cappedDelay n := by
      intro n j
      rw [BackoffConfig.publishBackoff_of_noJitter hjitter, hcap]
    refine ⟨fun n _ => hasync n, fun n _ => hprocess n, fun n _ => hpublisher n, fun m n _ hmn j j' => ?_⟩
    have hmono : (c.cappedDelay m : Rat) ≤ c.cappedDelay n :=
      Int.cast_le.mpr (BackoffConfig.cappedDelay_mono hbackoff hmn)
    rw [hasync, hasync, hprocess, hprocess, hpublisher, hpublisher]
    exact ⟨hmono, hmono, hmono⟩

section Examples

/-- A constant backoff of ten seconds under a cap of five, without jitter. -/
def linearAboveCap : BackoffConfig := ⟨10000, false, 5000, 0⟩

/-- The async engine sleeps twice the cap, the process worker the cap. -/
theorem linear_backoff_above_cap : ¬BackoffsAgree linearAboveCap := by
  intro h
  have hdraw : JitterDraw linearAboveCap.retryJitterMs := ⟨0, by simp, by simp⟩
  have hasync := h.async 1 (le_refl 1) hdraw
  rw [BackoffConfig.applyBackoff_of_noJitter rfl] at hasync
  have hdelay : linearAboveCap.uncappedDelay 1 = linearAboveCap.cappedDelay 1 := by exact_mod_cast hasync
  exact absurd hdelay (by decide)

/-- The default configuration without its jitter. -/
theorem backoffs_agree_default : BackoffsAgree { retryJitterMs := 0 } :=
  (backoffs_agree_iff { retryJitterMs := 0 } (by decide) rfl).mpr (.inl rfl)

end Examples

end PyrallelConsumer
