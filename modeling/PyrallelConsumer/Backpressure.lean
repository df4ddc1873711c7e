import PyrallelConsumer.Dto
import PyrallelConsumer.Lib.Machine
import Mathlib.Algebra.Order.Ring.Rat

/-!
# PyrallelConsumer.Backpressure

`check_backpressure` of `control_plane/broker_backpressure_support.py` and of
`control_plane/broker_runtime_support.py`, with the adaptive limits of `adaptive_backpressure.py` and
`adaptive_concurrency.py`, over a client whose assignment changes between the ticks. The consumer is
initialized. Clock readings and latencies are rational.

The pause is decided on one flag. A tick that finds it set and does not resume calls nothing, so the
partitions that joined in the meantime go on being fetched.

* `BackpressureInv` — what is paused, in terms of the history.
* `covers_checkBackpressure_iff` — one tick.
* `backpressure_covers_iff` — a whole run of ticks, assignments and revokes.
-/

namespace PyrallelConsumer

/-! ## Adaptive limits -/

structure AdaptiveBackpressureConfig where
  enabled : Bool := false
  minInFlight : Int := 1
  scaleUpStep : Int := 16
  scaleDownStep : Int := 16
  cooldownMs : Int := 1000
  lagScaleUpThreshold : Int := 0
  lowLatencyThresholdMs : Rat := 25
  highLatencyThresholdMs : Rat := 100

structure AdaptiveBackpressureController where
  config : AdaptiveBackpressureConfig
  configuredMaxInFlight : Int
  minInFlight : Int
  effectiveMaxInFlight : Int
  lastAdjustedAt : Option Rat

namespace AdaptiveBackpressureController

def new (configuredMaxInFlight : Int) (config : AdaptiveBackpressureConfig) : AdaptiveBackpressureController :=
  { config := config
    configuredMaxInFlight := max 1 configuredMaxInFlight
    minInFlight := min (max 1 configuredMaxInFlight) (max 1 config.minInFlight)
    effectiveMaxInFlight := max 1 configuredMaxInFlight
    lastAdjustedAt := none }

/-- The end of both branches of `evaluate`. -/
def adjustTo (s : AdaptiveBackpressureController) (nextLimit : Int) (now : Rat) : AdaptiveBackpressureController :=
  if nextLimit ≠ s.effectiveMaxInFlight then
    { s with effectiveMaxInFlight := nextLimit, lastAdjustedAt := some now }
  else s

/-- The new limit is the effective one afterwards. -/
def evaluate (s : AdaptiveBackpressureController) (totalTrueLag totalQueued : Int)
    (avgCompletionLatencySeconds : Option Rat) (isPaused : Bool) (now : Rat) : AdaptiveBackpressureController :=
  let cooldownSeconds : Rat := max 0 (s.config.cooldownMs / 1000)
  let latencyMs := avgCompletionLatencySeconds.map (· * 1000)
  if s.config.enabled = false then s
  else if s.lastAdjustedAt.any (fun t => decide (now - t < cooldownSeconds)) then s
  else if isPaused || latencyMs.any (fun l => decide (l ≥ s.config.highLatencyThresholdMs)) then
    s.adjustTo (max s.minInFlight (s.effectiveMaxInFlight - s.config.scaleDownStep)) now
  else if decide (totalTrueLag ≥ s.config.lagScaleUpThreshold) && !isPaused && decide (totalQueued = 0) &&
      latencyMs.any (fun l => decide (l ≤ s.config.lowLatencyThresholdMs)) then
    s.adjustTo (min s.configuredMaxInFlight (s.effectiveMaxInFlight + s.config.scaleUpStep)) now
  else s

end AdaptiveBackpressureController

structure AdaptiveConcurrencyConfig where
  enabled : Bool := false
  minInFlight : Int := 0
  scaleUpStep : Int := 32
  scaleDownStep : Int := 64
  cooldownMs : Int := 1000

structure AdaptiveConcurrencySample where
  currentLimit : Int
  totalInFlight : Int
  totalQueued : Int
  totalTrueLag : Int
  isPaused : Bool
  queueMaxMessages : Int

structure AdaptiveConcurrencyController where
  config : AdaptiveConcurrencyConfig
  configuredMaxInFlight : Int
  lastAdjustedAt : Option Rat

namespace AdaptiveConcurrencyController

def new (config : AdaptiveConcurrencyConfig) (configuredMaxInFlight : Int) : AdaptiveConcurrencyController :=
  ⟨config, max 1 configuredMaxInFlight, none⟩

def minInFlight (s : AdaptiveConcurrencyController) : Int :=
  if s.config.minInFlight ≤ 0 then max 1 (s.configuredMaxInFlight / 4)
  else min s.configuredMaxInFlight (max 1 s.config.minInFlight)

def evaluate (s : AdaptiveConcurrencyController) (sample : AdaptiveConcurrencySample) (now : Rat) :
    Option Int × AdaptiveConcurrencyController :=
  let cooldownSeconds : Rat := max 0 (s.config.cooldownMs / 1000)
  let totalLoad := sample.totalInFlight + sample.totalQueued
  let queueFull := decide (sample.queueMaxMessages > 0) && decide (sample.totalQueued ≥ sample.queueMaxMessages)
  if s.config.enabled = false then (none, s)
  else if s.lastAdjustedAt.any (fun t => decide (now - t < cooldownSeconds)) then (none, s)
  else
    let newLimit :=
      if sample.isPaused || queueFull || decide (totalLoad > sample.currentLimit) then
        some (max s.minInFlight (sample.currentLimit - s.config.scaleDownStep))
      else if sample.totalTrueLag ≥ sample.currentLimit ∧ sample.totalQueued = 0 then
        some (min s.configuredMaxInFlight (sample.currentLimit + s.config.scaleUpStep))
      else none
    if newLimit = none ∨ newLimit = some sample.currentLimit then (none, s)
    else (newLimit, { s with lastAdjustedAt := some now })

end AdaptiveConcurrencyController

/-! ## Pause and resume -/

structure BackpressureConfig where
  configuredMaxInFlight : Int
  queueMaxMessages : Int
  queueResumeThreshold : Int
  /-- `int(value * 0.7)`, a product of floats. -/
  seventyPercent : Int → Int
  adaptiveBackpressure : AdaptiveBackpressureConfig := {}
  adaptiveConcurrency : AdaptiveConcurrencyConfig := {}

/-- What happened to the assignment and to the flag, newest first in a history. -/
inductive FlowEntry where
  | paused
  | resumed
  | assigned (tps : List TopicPartition)
  | revoked (tps : List TopicPartition)
deriving DecidableEq, Repr

structure Backpressure where
  isPaused : Bool
  maxInFlightMessages : Int
  minInFlightMessagesToResume : Int
  adaptiveBackpressureController : AdaptiveBackpressureController
  adaptiveConcurrencyController : AdaptiveConcurrencyController
  /-- `consumer.assignment()`. -/
  assignment : List TopicPartition
  /-- The partitions that the client does not fetch. -/
  paused : List TopicPartition
  history : List FlowEntry

/-- What a tick reads besides the state of the component. -/
structure TickInput where
  totalInFlight : Int
  totalQueued : Int
  totalTrueLag : Int := 0
  averageCompletionLatencySeconds : Option Rat := none
  /-- The clock at the two evaluations. -/
  now : Rat × Rat := (0, 0)

namespace TickInput

def currentLoad (i : TickInput) : Int := i.totalInFlight + i.totalQueued

def queueFull (c : BackpressureConfig) (i : TickInput) : Bool :=
  decide (c.queueMaxMessages > 0) && decide (i.totalQueued ≥ c.queueMaxMessages)

end TickInput

namespace Backpressure

section

variable (c : BackpressureConfig)

def setRuntimeMaxInFlight (s : Backpressure) (value : Int) : Backpressure :=
  let newValue := max 1 (min (max 1 c.configuredMaxInFlight) value)
  { s with
    maxInFlightMessages := newValue
    minInFlightMessagesToResume := max 1 (c.seventyPercent newValue) }

def new : Backpressure :=
  setRuntimeMaxInFlight c
    { isPaused := false
      maxInFlightMessages := c.configuredMaxInFlight
      minInFlightMessagesToResume := max 1 (c.seventyPercent c.configuredMaxInFlight)
      adaptiveBackpressureController := .new c.configuredMaxInFlight c.adaptiveBackpressure
      adaptiveConcurrencyController := .new c.adaptiveConcurrency c.configuredMaxInFlight
      assignment := []
      paused := []
      history := [] }
    c.configuredMaxInFlight

def maybeAdjustAdaptiveBackpressure (s : Backpressure) (i : TickInput) : Backpressure :=
  if s.adaptiveBackpressureController.config.enabled = false then s
  else
    let controller := s.adaptiveBackpressureController.evaluate i.totalTrueLag i.totalQueued
      i.averageCompletionLatencySeconds s.isPaused i.now.1
    let s := { s with adaptiveBackpressureController := controller }
    if controller.effectiveMaxInFlight = s.maxInFlightMessages then s
    else setRuntimeMaxInFlight c s controller.effectiveMaxInFlight

def maybeAdjustAdaptiveConcurrency (s : Backpressure) (i : TickInput) : Backpressure :=
  let (newLimit, controller) := s.adaptiveConcurrencyController.evaluate
    { currentLimit := s.maxInFlightMessages
      totalInFlight := i.totalInFlight
      totalQueued := i.totalQueued
      totalTrueLag := i.totalTrueLag
      isPaused := s.isPaused
      queueMaxMessages := c.queueMaxMessages } i.now.2
  let s := { s with adaptiveConcurrencyController := controller }
  match newLimit with
  | none => s
  | some newLimit => setRuntimeMaxInFlight c s newLimit

/-- The limits that a tick works with. -/
def adjusted (s : Backpressure) (i : TickInput) : Backpressure :=
  maybeAdjustAdaptiveConcurrency c (maybeAdjustAdaptiveBackpressure c s i) i

/-- The load is above the limit, or the queue is full. -/
def overloaded (s : Backpressure) (i : TickInput) : Bool :=
  decide (i.currentLoad > s.maxInFlightMessages) || i.queueFull c

/-- The load is low enough to resume. -/
def relieved (s : Backpressure) (i : TickInput) : Bool :=
  decide (i.currentLoad < s.minInFlightMessagesToResume) &&
    (decide (c.queueResumeThreshold = 0) || decide (i.totalQueued ≤ c.queueResumeThreshold))

/-- `BrokerRuntimeSupport.check_backpressure`, with its effect on the client. -/
def checkRuntimeBackpressure (s : Backpressure) (i : TickInput) : Backpressure :=
  if s.assignment = [] then s
  else if s.isPaused = false ∧ s.overloaded c i then
    { s with isPaused := true, paused := s.paused ++ s.assignment, history := .paused :: s.history }
  else if s.isPaused = true ∧ s.relieved c i then
    { s with
      isPaused := false
      paused := s.paused.filter fun tp => tp ∉ s.assignment
      history := .resumed :: s.history }
  else s

/-- `BrokerBackpressureSupport.check_backpressure`. -/
def checkBackpressure (s : Backpressure) (i : TickInput) : Backpressure :=
  let s := s.adjusted c i
  if s.adaptiveBackpressureController.config.enabled = false ∧ s.adaptiveConcurrencyController.config.enabled = false ∧
      s.isPaused = false ∧ i.queueFull c = false ∧ i.currentLoad ≤ s.maxInFlightMessages then s
  else s.checkRuntimeBackpressure c i

end

/-- Partitions that are new to the client start unpaused. -/
def assign (s : Backpressure) (tps : List TopicPartition) : Backpressure :=
  let joining := tps.filter fun tp => tp ∉ s.assignment
  { s with
    assignment := s.assignment ++ joining
    paused := s.paused.filter fun tp => tp ∉ joining
    history := .assigned joining :: s.history }

def revoke (s : Backpressure) (tps : List TopicPartition) : Backpressure :=
  { s with
    assignment := s.assignment.filter fun tp => tp ∉ tps
    history := .revoked tps :: s.history }

end Backpressure

inductive BackpressureAction where
  | tick (i : TickInput)
  | assign (tps : List TopicPartition)
  | revoke (tps : List TopicPartition)

def backpressureMachine (c : BackpressureConfig) : Machine Backpressure BackpressureAction where
  init s := s = .new c
  enabled _ _ := True
  next s a :=
    match a with
    | .tick i => s.checkBackpressure c i
    | .assign tps => s.assign tps
    | .revoke tps => s.revoke tps

/-! ## Coverage -/

namespace Backpressure

variable {c : BackpressureConfig} {s : Backpressure}

/-- The flag speaks for every partition that is assigned. -/
structure CoversAssignment (s : Backpressure) : Prop where
  paused : s.isPaused = true → ∀ tp ∈ s.assignment, tp ∈ s.paused
  resumed : s.isPaused = false → ∀ tp ∈ s.assignment, tp ∉ s.paused

/-- The partition was assigned after the last pause. -/
def JoinedSincePause (tp : TopicPartition) : List FlowEntry → Prop
  | [] => False
  | .paused :: _ => False
  | .resumed :: h => JoinedSincePause tp h
  | .assigned tps :: h => tp ∈ tps ∨ JoinedSincePause tp h
  | .revoked _ :: h => JoinedSincePause tp h

structure BackpressureInv (s : Backpressure) : Prop where
  paused : s.isPaused = true → ∀ tp ∈ s.assignment, (tp ∈ s.paused ↔ ¬JoinedSincePause tp s.history)
  resumed : s.isPaused = false → ∀ tp ∈ s.assignment, tp ∉ s.paused

/-- A tick that finds the flag set and does not resume meets no partition that joined since the pause. -/
def NoneJoined (c : BackpressureConfig) (s : Backpressure) (i : TickInput) : Prop :=
  s.isPaused = true → (s.adjusted c i).relieved c i = false → ∀ tp ∈ s.assignment, ¬JoinedSincePause tp s.history

/-- Everything but the limits and the controllers. -/
structure SameFlow (s s' : Backpressure) : Prop where
  isPaused : s'.isPaused = s.isPaused
  assignment : s'.assignment = s.assignment
  paused : s'.paused = s.paused
  history : s'.history = s.history

theorem sameFlow_adjusted (s : Backpressure) (i : TickInput) : SameFlow s (s.adjusted c i) := by
  have hfirst : SameFlow s (maybeAdjustAdaptiveBackpressure c s i) := by
    unfold maybeAdjustAdaptiveBackpressure
    dsimp only
    split
    · exact ⟨rfl, rfl, rfl, rfl⟩
    · split <;> exact ⟨rfl, rfl, rfl, rfl⟩
  have hsecond : ∀ s, SameFlow s (maybeAdjustAdaptiveConcurrency c s i) := by
    intro s
    unfold maybeAdjustAdaptiveConcurrency
    dsimp only
    split <;> exact ⟨rfl, rfl, rfl, rfl⟩
  have h := hsecond (maybeAdjustAdaptiveBackpressure c s i)
  exact ⟨h.isPaused.trans hfirst.isPaused, h.assignment.trans hfirst.assignment, h.paused.trans hfirst.paused,
    h.history.trans hfirst.history⟩

theorem BackpressureInv.of_sameFlow (h : s.BackpressureInv) {s' : Backpressure} (hsame : SameFlow s s') :
    s'.BackpressureInv := by
  constructor
  · rw [hsame.isPaused, hsame.assignment, hsame.paused, hsame.history]
    exact h.paused
  · rw [hsame.isPaused, hsame.assignment, hsame.paused]
    exact h.resumed

/-- What a tick can do to the flag and to the client. -/
inductive TickStep (c : BackpressureConfig) (i : TickInput) (s : Backpressure) : Backpressure → Prop where
  | idle (h : s.assignment = [] ∨ s.isPaused = false ∨ s.relieved c i = false) : TickStep c i s s
  | pauses (h : s.isPaused = false) : TickStep c i s
      { s with isPaused := true, paused := s.paused ++ s.assignment, history := .paused :: s.history }
  | resumes (h : s.isPaused = true) (hrelieved : s.relieved c i = true) : TickStep c i s
      { s with
        isPaused := false
        paused := s.paused.filter fun tp => tp ∉ s.assignment
        history := .resumed :: s.history }

theorem checkBackpressure_step (s : Backpressure) (i : TickInput) :
    TickStep c i (s.adjusted c i) (s.checkBackpressure c i) := by
  unfold checkBackpressure
  dsimp only
  split
  · rename_i h
    exact .idle (.inr (.inl h.2.2.1))
  · unfold checkRuntimeBackpressure
    split
    · rename_i h
      exact .idle (.inl h)
    · split
      · rename_i h
        exact .pauses h.1
      · split
        · rename_i h
          exact .resumes h.1 h.2
        · rename_i h
          rcases Bool.eq_false_or_eq_true (s.adjusted c i).isPaused with hp | hp
          · exact .idle (.inr (.inr (eq_false_of_ne_true fun hr => h ⟨hp, hr⟩)))
          · exact .idle (.inr (.inl hp))

/-! ## One step -/

theorem inv_new (c : BackpressureConfig) : (new c).BackpressureInv :=
  ⟨fun h => (by cases h), fun _ tp htp => by cases htp⟩

theorem inv_tick (h : s.BackpressureInv) (i : TickInput) : (s.checkBackpressure c i).BackpressureInv := by
  have h := h.of_sameFlow (sameFlow_adjusted (c := c) s i)
  have hstep := @checkBackpressure_step c s i
  generalize s.adjusted c i = s₁ at h hstep
  generalize s.checkBackpressure c i = s₂ at hstep ⊢
  cases hstep with
  | idle _ => exact h
  | pauses hp =>
    refine ⟨fun _ tp htp => ?_, fun hfalse => by cases hfalse⟩
    exact ⟨fun _ hjoined => hjoined, fun _ => List.mem_append_right _ htp⟩
  | resumes hp _ =>
    refine ⟨fun hfalse => (by cases hfalse), fun _ tp htp hmem => ?_⟩
    have hnot := (List.mem_filter.mp hmem).2
    simp only [decide_eq_true_eq] at hnot
    exact hnot htp

theorem inv_assign (h : s.BackpressureInv) (tps : List TopicPartition) : (s.assign tps).BackpressureInv := by
  have hpaused : ∀ tp, tp ∈ (s.assign tps).paused ↔
      tp ∈ s.paused ∧ tp ∉ tps.filter fun tp => tp ∉ s.assignment := by
    intro tp
    unfold assign
    simp only [List.mem_filter, decide_eq_true_eq]
  have hold : ∀ {tp}, tp ∈ s.assignment → tp ∉ tps.filter fun tp => tp ∉ s.assignment := by
    intro tp htp hmem
    have hnot := (List.mem_filter.mp hmem).2
    simp only [decide_eq_true_eq] at hnot
    exact hnot htp
  constructor
  · intro hp tp htp
    rw [hpaused]
    show _ ↔ ¬(tp ∈ (tps.filter fun tp => tp ∉ s.assignment) ∨ JoinedSincePause tp s.history)
    rcases List.mem_append.mp htp with htp | htp
    · rw [h.paused hp tp htp]
      exact ⟨fun ⟨hjoined, hnew⟩ hor => hor.elim hnew hjoined, fun hor => ⟨fun hj => hor (.inr hj), hold htp⟩⟩
    · exact ⟨fun ⟨_, hnew⟩ => absurd htp hnew, fun hor => absurd (.inl htp) hor⟩
  · intro hp tp htp hmem
    obtain ⟨hmem, hnew⟩ := (hpaused tp).mp hmem
    rcases List.mem_append.mp htp with htp | htp
    · exact h.resumed hp tp htp hmem
    · exact hnew htp

theorem inv_revoke (h : s.BackpressureInv) (tps : List TopicPartition) : (s.revoke tps).BackpressureInv :=
  ⟨fun hp tp htp => h.paused hp tp (List.mem_filter.mp htp).1,
    fun hp tp htp => h.resumed hp tp (List.mem_filter.mp htp).1⟩

theorem inv_next (h : s.BackpressureInv) (a : BackpressureAction) :
    ((backpressureMachine c).next s a).BackpressureInv := by
  cases a with
  | tick i => exact inv_tick h i
  | assign tps => exact inv_assign h tps
  | revoke tps => exact inv_revoke h tps

/-- **One tick** covers the assignment unless it keeps the flag for partitions that joined since. -/
theorem covers_checkBackpressure_iff (h : s.BackpressureInv) (i : TickInput) :
    (s.checkBackpressure c i).CoversAssignment ↔ s.NoneJoined c i := by
  have hsame := sameFlow_adjusted (c := c) s i
  have h := h.of_sameFlow hsame
  have hstep := @checkBackpressure_step c s i
  unfold NoneJoined
  rw [← hsame.isPaused, ← hsame.assignment, ← hsame.history]
  generalize s.adjusted c i = s₁ at h hstep ⊢
  generalize s.checkBackpressure c i = s₂ at hstep ⊢
  cases hstep with
  | idle hidle =>
    constructor
    · intro hcovers hp hrelieved tp htp
      exact (h.paused hp tp htp).mp (hcovers.paused hp tp htp)
    · intro hnone
      refine ⟨fun hp tp htp => (h.paused hp tp htp).mpr ?_, h.resumed⟩
      rcases hidle with hempty | hfalse | hrelieved
      · rw [hempty] at htp
        cases htp
      · rw [hfalse] at hp
        cases hp
      · exact hnone hp hrelieved tp htp
  | pauses hp =>
    refine ⟨fun _ hpaused => ?_, fun _ => ⟨fun _ tp htp => List.mem_append_right _ htp, fun hf => by cases hf⟩⟩
    rw [hp] at hpaused
    cases hpaused
  | resumes hp hrelieved =>
    refine ⟨fun _ _ hnot => ?_, fun _ => ⟨fun hf => (by cases hf), fun _ tp htp hmem => ?_⟩⟩
    · rw [hrelieved] at hnot
      cases hnot
    · have hout := (List.mem_filter.mp hmem).2
      simp only [decide_eq_true_eq] at hout
      exact hout htp

theorem inv_run (l : List BackpressureAction) (h : s.BackpressureInv) :
    ((backpressureMachine c).run s l).BackpressureInv := by
  induction l generalizing s with
  | nil => exact h
  | cons a l ih => exact ih (inv_next h a)

end Backpressure

/-- **Backpressure covers the assignment** after every tick of a run exactly when no tick of it keeps the
flag while partitions are assigned that joined since the pause. -/
theorem backpressure_covers_iff (c : BackpressureConfig) (l : List BackpressureAction) :
    (∀ pre i post, l = pre ++ .tick i :: post →
      ((backpressureMachine c).run (.new c) (pre ++ [.tick i])).CoversAssignment) ↔
    ∀ pre i post, l = pre ++ .tick i :: post → ((backpressureMachine c).run (.new c) pre).NoneJoined c i := by
  have hone : ∀ pre i, ((backpressureMachine c).run (.new c) (pre ++ [.tick i])).CoversAssignment ↔
      ((backpressureMachine c).run (.new c) pre).NoneJoined c i := by
    intro pre i
    rw [Machine.run_concat]
    exact Backpressure.covers_checkBackpressure_iff (Backpressure.inv_run pre (Backpressure.inv_new c)) i
  exact ⟨fun h pre i post hl => (hone pre i).mp (h pre i post hl),
    fun h pre i post hl => (hone pre i).mpr (h pre i post hl)⟩

section Examples

/-- At most one message in flight, no limit on the queue. -/
def oneInFlight : BackpressureConfig :=
  { configuredMaxInFlight := 1, queueMaxMessages := 0, queueResumeThreshold := 0, seventyPercent := fun v => v * 7 / 10 }

/-- A second partition joins while the consumer is paused. -/
def joinsWhilePaused : List BackpressureAction :=
  [.assign [⟨"t", 0⟩], .tick { totalInFlight := 2, totalQueued := 0 }, .assign [⟨"t", 1⟩],
    .tick { totalInFlight := 2, totalQueued := 0 }]

theorem joined_partition_not_paused :
    let s := (backpressureMachine oneInFlight).run (.new oneInFlight) joinsWhilePaused
    s.isPaused = true ∧ s.assignment = [⟨"t", 0⟩, ⟨"t", 1⟩] ∧ s.paused = [⟨"t", 0⟩] ∧ ¬s.CoversAssignment := by
  intro s
  have hassignment : s.assignment = [⟨"t", 0⟩, ⟨"t", 1⟩] := by decide
  have hpaused : s.paused = [⟨"t", 0⟩] := by decide
  refine ⟨by decide, hassignment, hpaused, fun h => ?_⟩
  have hmem := h.paused (by decide) ⟨"t", 1⟩ (by rw [hassignment]; simp)
  rw [hpaused] at hmem
  simp at hmem

end Examples

end PyrallelConsumer
