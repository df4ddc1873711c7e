import PyrallelConsumer.Dto
import PyrallelConsumer.Lib.Dict

/-!
# PyrallelConsumer.PoisonMessage

The poison-message circuit of `control_plane/poison_message.py`: it counts terminal failures by
partition and poison key, opens for a cooldown at a threshold, and forces the failure of matching
queued items while it is open. The clock reading is an argument.

* `buildForcedFailureEvent_id` / `forcedFailureAttempt_le` — a forced failure names its item and
  carries the configured attempt.
-/

namespace PyrallelConsumer

structure CircuitState where
  failureCount : Nat := 0
  openUntil : Option Time := none
deriving DecidableEq, Repr

structure PoisonMessageCircuitBreaker (κ : Type) where
  enabled : Bool
  failureThreshold : Int
  cooldown : Time
  forcedFailureAttempt : Int
  states : Dict (TopicPartition × κ) CircuitState
deriving DecidableEq, Repr

namespace PoisonMessageCircuitBreaker

variable {κ π : Type} [DecidableEq κ]

/-- `__init__`; the error is the `ValueError` text. -/
def new (enabled : Bool) (failureThreshold cooldownMs forcedFailureAttempt : Int) :
    Except String (PoisonMessageCircuitBreaker κ) :=
  if failureThreshold < 1 then .error "failure_threshold must be >= 1"
  else if cooldownMs < 0 then .error "cooldown_ms must be >= 0"
  else
    .ok
      { enabled := enabled
        failureThreshold := failureThreshold
        cooldown := cooldownMs
        forcedFailureAttempt := max 1 forcedFailureAttempt
        states := .empty }

def circuitKey (item : WorkItem κ π) : TopicPartition × κ := (item.tp, item.poisonKey.getD item.key)

def recordCompletion (c : PoisonMessageCircuitBreaker κ) (now : Time) (event : CompletionEvent)
    (item : WorkItem κ π) : PoisonMessageCircuitBreaker κ :=
  if !c.enabled then c
  else
    match event.status with
    | .success => { c with states := c.states.erase (circuitKey item) }
    | .failure =>
      if event.attempt < c.forcedFailureAttempt then c
      else
        let state := (c.states.get? (circuitKey item)).getD {}
        let count := state.failureCount + 1
        let openUntil := if (count : Int) ≥ c.failureThreshold then some (now + c.cooldown)
          else state.openUntil
        { c with states := c.states.set (circuitKey item) ⟨count, openUntil⟩ }

/-- `should_force_fail`; an expired circuit is dropped. -/
def shouldForceFail (c : PoisonMessageCircuitBreaker κ) (now : Time) (item : WorkItem κ π) :
    Bool × PoisonMessageCircuitBreaker κ :=
  if !c.enabled then (false, c)
  else
    match (c.states.get? (circuitKey item)).bind (·.openUntil) with
    | none => (false, c)
    | some t =>
      if now < t then (true, c) else (false, { c with states := c.states.erase (circuitKey item) })

/-- An item that may run may run at the next reading too, whatever the clock says: an expired circuit is
dropped. -/
theorem shouldForceFail_again {c : PoisonMessageCircuitBreaker κ} {now : Time} {item : WorkItem κ π}
    (h : (c.shouldForceFail now item).1 = false) (now' : Time) :
    ((c.shouldForceFail now item).2.shouldForceFail now' item).1 = false := by
  cases hd : c.enabled with
  | false => simp [shouldForceFail, hd]
  | true =>
    cases ho : (c.states.get? (circuitKey item)).bind (·.openUntil) with
    | none =>
      have heq : c.shouldForceFail now item = (false, c) := by simp [shouldForceFail, hd, ho]
      rw [heq]
      simp [shouldForceFail, hd, ho]
    | some t =>
      by_cases hlt : now < t
      · have heq : c.shouldForceFail now item = (true, c) := by simp [shouldForceFail, hd, ho, hlt]
        rw [heq] at h
        cases h
      · have heq : c.shouldForceFail now item =
            (false, { c with states := c.states.erase (circuitKey item) }) := by
          simp [shouldForceFail, hd, ho, hlt]
        rw [heq]
        simp [shouldForceFail, hd, Dict.get?_erase]

def buildForcedFailureEvent (c : PoisonMessageCircuitBreaker κ) (item : WorkItem κ π) :
    CompletionEvent :=
  let failureCount := ((c.states.get? (circuitKey item)).map (·.failureCount)).getD 0
  { id := item.id
    tp := item.tp
    offset := item.offset
    epoch := item.epoch
    status := .failure
    error := some (.text ("Poison message circuit open for " ++ item.tp.text ++ "@" ++ toString item.offset ++
      " key after " ++ toString failureCount ++ " failure(s)"))
    attempt := c.forcedFailureAttempt }

def clearPartition (c : PoisonMessageCircuitBreaker κ) (tp : TopicPartition) :
    PoisonMessageCircuitBreaker κ :=
  { c with states := c.states.filter fun k _ => k.1 ≠ tp }

@[simp] theorem buildForcedFailureEvent_id (c : PoisonMessageCircuitBreaker κ) (item : WorkItem κ π) :
    (c.buildForcedFailureEvent item).id = item.id := rfl

@[simp] theorem buildForcedFailureEvent_tp (c : PoisonMessageCircuitBreaker κ) (item : WorkItem κ π) :
    (c.buildForcedFailureEvent item).tp = item.tp := rfl

omit [DecidableEq κ] in
theorem forcedFailureAttempt_le {enabled : Bool} {threshold cooldown attempt : Int}
    {c : PoisonMessageCircuitBreaker κ} (h : new enabled threshold cooldown attempt = .ok c) :
    attempt ≤ c.forcedFailureAttempt := by
  unfold new at h
  split at h
  · cases h
  · split at h
    · cases h
    · cases h
      exact Int.le_max_right _ _

end PoisonMessageCircuitBreaker

end PyrallelConsumer
