import Mathlib.Data.Int.ConditionallyCompleteOrder
import Mathlib.Order.ConditionallyCompleteLattice.Basic
import PyrallelConsumer.CircuitFrames

/-!
# PyrallelConsumer.PoisonCooldown

The cooldown of the poison circuit in runs of the scheduler. The failures that the circuit issues itself come
back through `record_completion` with an attempt that counts, so they keep the circuit open.

* `poisonMachine` — the scheduler around the circuit, one iteration and one event at a time, under a clock that
  never goes back. `reachable_operation` — every operation of the work manager is a run of it.
* `shut_after_recordCompletion` — what a completion makes of the answers of the circuit.
* `cooldown_respected_iff` — when the circuit closes after its cooldown.
-/

set_option linter.unusedSectionVars false

namespace PyrallelConsumer

variable {κ π : Type} [DecidableEq κ]

namespace PoisonMessageCircuitBreaker

/-- The completion opens the circuit of its key, or keeps it open for a cooldown from now on. -/
structure Shuts (p : PoisonMessageCircuitBreaker κ) (e : CompletionEvent) (k : TopicPartition × κ) : Prop where
  enabled : p.enabled = true
  failure : e.status = .failure
  counted : p.forcedFailureAttempt ≤ e.attempt
  threshold : p.failureThreshold ≤ (((p.states.get? k).getD {}).failureCount : Int) + 1
  cooldown : 0 < p.cooldown

theorem answer_keep (st : Option CircuitState) (n : Nat) (now : Time) :
    answer (some ⟨n, (st.getD {}).openUntil⟩) now = answer st now := by
  cases st with
  | none => rfl
  | some st => rfl

theorem exists_openUntil {st : Option CircuitState} {now : Time} (h : answer st now = true) :
    ∃ u, st.bind (·.openUntil) = some u ∧ now < u := by
  cases st with
  | none => cases h
  | some st =>
    obtain ⟨n, u⟩ := st
    cases u with
    | none => cases h
    | some u => exact ⟨u, rfl, of_decide_eq_true h⟩

/-- An item that is forced to fail after a completion was forced to fail before, or the completion shut its
circuit. -/
theorem shut_after_recordCompletion {p : PoisonMessageCircuitBreaker κ} {t now : Time} (hle : t ≤ now)
    {e : CompletionEvent} {x y : WorkItem κ π} (h : ((p.recordCompletion t e x).shouldForceFail now y).1 = true) :
    (p.shouldForceFail now y).1 = true ∨
      circuitKey x = circuitKey y ∧ Shuts p e (circuitKey x) ∧ now < t + p.cooldown := by
  have hconfig : (p.recordCompletion t e x).enabled = p.enabled := congrArg Prod.fst (config_recordCompletion p t e x)
  rw [shouldForceFail_fst, hconfig, get?_recordCompletion] at h
  obtain ⟨henabled, hanswer⟩ := Bool.and_eq_true_iff.mp h
  rw [shouldForceFail_fst, henabled, Bool.true_and]
  by_cases hk : circuitKey x = circuitKey y
  · rw [if_pos hk, ← hk] at hanswer
    rw [← hk]
    simp only [afterCompletion, henabled, Bool.not_true, Bool.false_eq_true, if_false] at hanswer
    cases hstatus : e.status with
    | success =>
      rw [hstatus] at hanswer
      cases hanswer
    | failure =>
      rw [hstatus] at hanswer
      dsimp only at hanswer
      by_cases hattempt : e.attempt < p.forcedFailureAttempt
      · rw [if_pos hattempt] at hanswer
        exact .inl hanswer
      rw [if_neg hattempt] at hanswer
      by_cases hcount : p.failureThreshold ≤ (((p.states.get? (circuitKey x)).getD {}).failureCount : Int) + 1
      · right
        rw [if_pos (by exact_mod_cast hcount)] at hanswer
        have hlt : now < t + p.cooldown := of_decide_eq_true hanswer
        have hpos : 0 < p.cooldown := pos_of_lt_add_right (lt_of_le_of_lt hle hlt)
        exact ⟨rfl, ⟨henabled, hstatus, not_lt.mp hattempt, hcount, hpos⟩, hlt⟩
      · left
        rw [if_neg (by exact_mod_cast hcount), answer_keep] at hanswer
        exact hanswer
  · rw [if_neg hk] at hanswer
    exact .inl hanswer

theorem shut_of_shuts {p : PoisonMessageCircuitBreaker κ} {e : CompletionEvent} {x : WorkItem κ π}
    (h : Shuts p e (circuitKey x)) {t now : Time} (hlt : now < t + p.cooldown) :
    ((p.recordCompletion t e x).shouldForceFail now x).1 = true := by
  have hconfig : (p.recordCompletion t e x).enabled = p.enabled := congrArg Prod.fst (config_recordCompletion p t e x)
  rw [shouldForceFail_fst, hconfig, get?_recordCompletion, if_pos rfl, h.enabled, Bool.true_and]
  simp only [afterCompletion, h.enabled, h.failure, Bool.not_true, Bool.false_eq_true, if_false,
    if_neg (not_lt.mpr h.counted)]
  rw [if_pos (by exact_mod_cast h.threshold)]
  exact decide_eq_true hlt

end PoisonMessageCircuitBreaker

/-! ## The runs -/

/-- Where a queued completion comes from: an executed message, `force_fail`, or the open circuit. -/
inductive Origin where
  | executed
  | timedOut
  | circuit
deriving DecidableEq, Repr

/-- The work manager, where its queued completions come from, and the failures of executed messages that were
recorded, each with its clock reading. -/
structure PoisonRun (κ π : Type) where
  wm : WorkManager κ π
  origins : List Origin
  failures : List ((TopicPartition × κ) × Time)

/-- `other` is any step that leaves the circuit and the completions alone. -/
inductive PoisonAction (κ π : Type) where
  | other (wm : WorkManager κ π)
  | arrive (events : List CompletionEvent)
  | forceFail (tp : TopicPartition) (offset epoch : Int) (error : String) (attempt : Int)
  | revoke (revokedTps : List TopicPartition)
  | countOpen (env : Env κ π)
  | process (env : Env κ π)
  | iterate (env : Env κ π) (blockingOffsets : Dict TopicPartition (Option OffsetRange))
      (deferred : List (QueueKey κ))

namespace PoisonRun

open WorkManager PoisonMessageCircuitBreaker

/-- The failure of an executed message that processing `e` records. -/
def recordedFailure (env : Env κ π) (wm : WorkManager κ π) (e : CompletionEvent) (o : Origin) :
    List ((TopicPartition × κ) × Time) :=
  match wm.recordedItem e with
  | none => []
  | some x => if o = .executed ∧ e.status = .failure then [(circuitKey x, env.clock wm.clockReads)] else []

def processNext (c : WorkManagerConfig) (env : Env κ π) (s : PoisonRun κ π) : PoisonRun κ π :=
  match s.wm.completionQueue, s.origins with
  | e :: queue, o :: origins =>
    let wm := { s.wm with completionQueue := queue }
    { wm := (wm.processCompletionEvent c env e).2
      origins := origins
      failures := recordedFailure env wm e o ++ s.failures }
  | [], _ | _, [] => s

/-- The completions that the new state has more come from the circuit. -/
def scheduled (s : PoisonRun κ π) (wm : WorkManager κ π) : PoisonRun κ π :=
  { s with
    wm := wm
    origins := s.origins ++ List.replicate (wm.completionQueue.length - s.wm.completionQueue.length) .circuit }

def step (c : WorkManagerConfig) (s : PoisonRun κ π) : PoisonAction κ π → PoisonRun κ π
  | .other wm => { s with wm := wm }
  | .arrive events =>
    { s with
      wm := { s.wm with completionQueue := s.wm.completionQueue ++ events }
      origins := s.origins ++ List.replicate events.length .executed }
  | .forceFail tp offset epoch error attempt =>
    let (found, wm) := s.wm.forceFail tp offset epoch error attempt
    { s with wm := wm, origins := if found then s.origins ++ [.timedOut] else s.origins }
  | .revoke tps => { s with wm := s.wm.onRevoke c tps }
  | .countOpen env => { s with wm := (s.wm.getPoisonMessageOpenCircuitCount env).2 }
  | .process env => s.processNext c env
  | .iterate env b d => s.scheduled (s.wm.scheduleStep c env b d).2.1

end PoisonRun

/-- The scheduler around a new circuit. `clock n` is the `n`-th reading of the circuit's clock. -/
def poisonMachine (c : WorkManagerConfig) (clock : Nat → Time) (p₀ : PoisonMessageCircuitBreaker κ) :
    Machine (PoisonRun κ π) (PoisonAction κ π) where
  init s := s = ⟨.new (some p₀), [], []⟩
  enabled s a :=
    match a with
    | .other wm => WorkManager.SamePoison s.wm wm
    | .countOpen env | .process env | .iterate env _ _ => env.clock = clock
    | _ => True
  next s a := s.step c a

namespace PoisonRun

open WorkManager PoisonMessageCircuitBreaker

/-! ## What the circuit promises -/

/-- No reading made so far is later than `now`. -/
def NotBefore (clock : Nat → Time) (s : PoisonRun κ π) (now : Time) : Prop := ∀ n < s.wm.clockReads, clock n ≤ now

/-- The circuit is open for a key only within the cooldown of a failure of an executed message of that key. -/
def ShutInTime (clock : Nat → Time) (cooldown : Time) (s : PoisonRun κ π) : Prop :=
  ∀ p, s.wm.poisonMessageCircuit = some p → ∀ (x : WorkItem κ π) (now : Time), s.NotBefore clock now →
    (p.shouldForceFail now x).1 = true → ∃ r ∈ s.failures, r.1 = circuitKey x ∧ now < r.2 + cooldown

/-- The next iteration hands over the items that it considers first, if their keys have had no failure of an
executed message for a cooldown. -/
def Dispatches (c : WorkManagerConfig) (clock : Nat → Time) (cooldown : Time) (s : PoisonRun κ π) : Prop :=
  ∀ (env : Env κ π) (b : Dict TopicPartition (Option OffsetRange)), env.clock = clock →
    ∀ (k : QueueKey κ) (batch front : List (WorkItem κ π)), s.wm.consideredBatch c b = some (k, batch) →
      front <+: batch → front ≠ [] →
      (∀ x ∈ front, ∀ r ∈ s.failures, r.1 = circuitKey x → r.2 + cooldown ≤ clock s.wm.clockReads) →
        ∃ o, s.wm.offer c env b = some o ∧ o.key = k ∧ front <+: o.lease

/-- If the step processes a failure that the circuit issued, no item is forced to fail after it that was not
before. -/
def ExtendsNothing (c : WorkManagerConfig) (clock : Nat → Time) (s : PoisonRun κ π) (a : PoisonAction κ π) : Prop :=
  match a with
  | .process env =>
    s.origins.head? = some .circuit → ∀ p p', s.wm.poisonMessageCircuit = some p →
      (s.processNext c env).wm.poisonMessageCircuit = some p' →
      ∀ (x : WorkItem κ π) (now : Time), (s.processNext c env).NotBefore clock now →
        (p'.shouldForceFail now x).1 = true → (p.shouldForceFail now x).1 = true
  | _ => True

/-- A failure that shuts the circuit is excused if it comes from an executed message, or if it is recorded at
the reading of the failure that the circuit is open for. -/
def Excused (clock : Nat → Time) (s : PoisonRun κ π) (p : PoisonMessageCircuitBreaker κ) (k : TopicPartition × κ) :
    Origin → Prop
  | .executed => True
  | .timedOut => ∃ r ∈ s.failures, r.1 = k ∧ clock s.wm.clockReads ≤ r.2
  | .circuit => ∃ u, (p.states.get? k).bind (·.openUntil) = some u ∧ clock s.wm.clockReads + p.cooldown ≤ u

/-- The step records no forced failure that shuts the circuit, unless it is excused. -/
def Harmless (clock : Nat → Time) (s : PoisonRun κ π) (a : PoisonAction κ π) : Prop :=
  match a with
  | .process _ =>
    ∀ e queue o origins x p, s.wm.completionQueue = e :: queue → s.origins = o :: origins →
      s.wm.recordedItem e = some x → s.wm.poisonMessageCircuit = some p → Shuts p e (circuitKey x) →
        s.Excused clock p (circuitKey x) o
  | _ => True

/-! ## Processing one completion -/

section Process

variable {c : WorkManagerConfig} {clock : Nat → Time} {env : Env κ π} {s : PoisonRun κ π} {e : CompletionEvent}
  {queue : List CompletionEvent} {o : Origin} {origins : List Origin}

theorem processNext_cons (hq : s.wm.completionQueue = e :: queue) (ho : s.origins = o :: origins) :
    s.processNext c env =
      { wm := ({ s.wm with completionQueue := queue }.processCompletionEvent c env e).2
        origins := origins
        failures := recordedFailure env s.wm e o ++ s.failures } := by
  unfold processNext
  rw [hq, ho]
  rfl

theorem processNext_unrecorded (hq : s.wm.completionQueue = e :: queue) (ho : s.origins = o :: origins)
    (hx : s.wm.recordedItem e = none) :
    (s.processNext c env).wm.poisonMessageCircuit = s.wm.poisonMessageCircuit ∧
      (s.processNext c env).wm.clockReads = s.wm.clockReads ∧ (s.processNext c env).failures = s.failures := by
  have h := @processCompletionEvent_unrecorded κ π _ c env { s.wm with completionQueue := queue } e hx
  rw [processNext_cons hq ho]
  refine ⟨h.circuit, h.clockReads, ?_⟩
  simp [recordedFailure, hx]

theorem processNext_recorded (hq : s.wm.completionQueue = e :: queue) (ho : s.origins = o :: origins)
    {x : WorkItem κ π} (hx : s.wm.recordedItem e = some x) {p : PoisonMessageCircuitBreaker κ}
    (hp : s.wm.poisonMessageCircuit = some p) :
    (s.processNext c env).wm.poisonMessageCircuit = some (p.recordCompletion (env.clock s.wm.clockReads) e x) ∧
      (s.processNext c env).wm.clockReads = s.wm.clockReads + 1 ∧
      (s.processNext c env).failures =
        (if o = .executed ∧ e.status = .failure then [(circuitKey x, env.clock s.wm.clockReads)] else []) ++
          s.failures := by
  have h := @processCompletionEvent_recorded κ π _ c env { s.wm with completionQueue := queue } e x hx
  have hrecord : WorkManager.recordCompletion env { s.wm with completionQueue := queue } e x =
      { s.wm with
        completionQueue := queue
        poisonMessageCircuit := some (p.recordCompletion (env.clock s.wm.clockReads) e x)
        clockReads := s.wm.clockReads + 1 } := by
    simp only [WorkManager.recordCompletion, hp]
  rw [hrecord] at h
  rw [processNext_cons hq ho]
  refine ⟨h.circuit, h.clockReads, ?_⟩
  simp [recordedFailure, hx]

end Process

/-! ## The invariant -/

section Invariant

variable {c : WorkManagerConfig} {clock : Nat → Time} {p₀ : PoisonMessageCircuitBreaker κ} {s : PoisonRun κ π}

structure CooldownInv (clock : Nat → Time) (p₀ : PoisonMessageCircuitBreaker κ) (s : PoisonRun κ π) : Prop where
  circuit : ∃ p, s.wm.poisonMessageCircuit = some p ∧ p.config = p₀.config
  shut : s.ShutInTime clock p₀.cooldown

/-- Dropping circuits keeps the invariant. -/
theorem CooldownInv.shrinks (h : CooldownInv clock p₀ s) {wm : WorkManager κ π} (hs : CircuitShrinks s.wm wm)
    (origins : List Origin) : CooldownInv clock p₀ ⟨wm, origins, s.failures⟩ := by
  obtain ⟨p, hp, hconfig⟩ := h.circuit
  obtain ⟨p', hp', hshrunk⟩ := hs.circuit p hp
  refine ⟨⟨p', hp', hshrunk.config.trans hconfig⟩, fun q hq x now hnow hshut => ?_⟩
  have heq : p' = q := Option.some.inj (hp'.symm.trans hq)
  exact h.shut p hp x now (fun n hn => hnow n (lt_of_lt_of_le hn hs.reads)) (hshrunk.shouldForceFail (heq ▸ hshut))

/-- With the circuits in time the next iteration hands over what it should. -/
theorem CooldownInv.dispatches (hclock : Monotone clock) (h : CooldownInv clock p₀ s) :
    s.Dispatches c clock p₀.cooldown := by
  obtain ⟨p, hp, -⟩ := h.circuit
  intro env b henv k batch front hbatch hfront hne hold
  refine offer_of_closed (Option.isSome_iff_exists.mpr ⟨p, hp⟩) hbatch hfront hne fun x hx n hn q hq => ?_
  rw [henv]
  by_contra hshut
  obtain ⟨r, hr, hkey, hlt⟩ := h.shut q hq x (clock n) (fun m hm => hclock (le_trans (le_of_lt hm) hn))
    (Bool.eq_true_of_not_eq_false hshut)
  exact absurd (le_trans (hold x hx r hr hkey) (hclock hn)) (not_le.mpr hlt)

section Recorded

variable {env : Env κ π} {e : CompletionEvent} {queue : List CompletionEvent} {o : Origin} {origins : List Origin}
  {x : WorkItem κ π} {p : PoisonMessageCircuitBreaker κ} (henv : env.clock = clock)
  (hq : s.wm.completionQueue = e :: queue) (ho : s.origins = o :: origins) (hx : s.wm.recordedItem e = some x)
  (hp : s.wm.poisonMessageCircuit = some p)

include hq ho hx hp

theorem notBefore_process_iff (hclock : Monotone clock) (now : Time) :
    (s.processNext c env).NotBefore clock now ↔ clock s.wm.clockReads ≤ now := by
  obtain ⟨-, hreads, -⟩ := @processNext_recorded κ π _ c env s e queue o origins hq ho x hx p hp
  unfold NotBefore
  rw [hreads]
  exact ⟨fun h => h _ (Nat.lt_succ_self _), fun h n hn => le_trans (hclock (Nat.lt_succ_iff.mp hn)) h⟩

include henv

/-- A failure that shuts the circuit is excused, if the circuit stays in time and nothing is extended. -/
theorem excused_of_kept (hclock : Monotone clock) (hcool : p.cooldown = p₀.cooldown)
    (hshut : ShutInTime clock p₀.cooldown (s.processNext c env)) (hextends : ExtendsNothing c clock s (.process env))
    (hshuts : Shuts p e (circuitKey x)) : s.Excused clock p (circuitKey x) o := by
  obtain ⟨hcircuit, -, hfailures⟩ := @processNext_recorded κ π _ c env s e queue o origins hq ho x hx p hp
  rw [henv] at hcircuit hfailures
  have hpast := @notBefore_process_iff κ π _ c clock s env e queue o origins x p hq ho hx hp hclock
  -- the reading just before the end of the new window
  have hend : clock s.wm.clockReads + p.cooldown - 1 < clock s.wm.clockReads + p.cooldown := sub_one_lt _
  have hnow : clock s.wm.clockReads ≤ clock s.wm.clockReads + p.cooldown - 1 :=
    Int.le_sub_one_of_lt (lt_add_of_pos_right _ hshuts.cooldown)
  have hnew := shut_of_shuts hshuts hend
  cases o with
  | executed => trivial
  | timedOut =>
    obtain ⟨r, hr, hkey, hlt⟩ := hshut _ hcircuit x _ ((hpast _).mpr hnow) hnew
    rw [hfailures] at hr
    refine ⟨r, by simpa using hr, hkey, ?_⟩
    rw [← hcool] at hlt
    exact Int.le_of_add_le_add_right (Int.sub_one_lt_iff.mp hlt)
  | circuit =>
    have hbefore := hextends (by rw [ho]; rfl) p _ hp hcircuit x _ ((hpast _).mpr hnow) hnew
    rw [shouldForceFail_fst, Bool.and_eq_true_iff] at hbefore
    obtain ⟨u, hu, hlt⟩ := exists_openUntil hbefore.2
    exact ⟨u, hu, Int.sub_one_lt_iff.mp hlt⟩

omit henv in
/-- After an excused failure of the circuit itself no item is forced to fail that was not before. -/
theorem shut_before_of_excused (hex : Shuts p e (circuitKey x) → s.Excused clock p (circuitKey x) .circuit)
    {y : WorkItem κ π} {now : Time} (hle : clock s.wm.clockReads ≤ now)
    (hshut : ((p.recordCompletion (clock s.wm.clockReads) e x).shouldForceFail now y).1 = true) :
    (p.shouldForceFail now y).1 = true := by
  rcases shut_after_recordCompletion hle hshut with hbefore | ⟨hkey, hshuts, hlt⟩
  · exact hbefore
  · obtain ⟨u, hu, hend⟩ := hex hshuts
    obtain ⟨st, hst, hopen⟩ := Option.bind_eq_some_iff.mp hu
    rw [shouldForceFail_fst, hshuts.enabled, ← hkey, Bool.true_and, hst]
    simp only [answer, Option.any_some, CircuitState.isOpen, hopen]
    exact decide_eq_true (lt_of_lt_of_le hlt hend)

theorem kept_of_excused (hclock : Monotone clock) (h : CooldownInv clock p₀ s) (hconfig : p.config = p₀.config)
    (hex : Shuts p e (circuitKey x) → s.Excused clock p (circuitKey x) o) :
    CooldownInv clock p₀ (s.processNext c env) ∧ ExtendsNothing c clock s (.process env) := by
  obtain ⟨hcircuit, -, hfailures⟩ := @processNext_recorded κ π _ c env s e queue o origins hq ho x hx p hp
  rw [henv] at hcircuit hfailures
  have hpast := @notBefore_process_iff κ π _ c clock s env e queue o origins x p hq ho hx hp hclock
  have hcool : p.cooldown = p₀.cooldown := (CircuitPair.config_eq_iff.mp hconfig).2.2.1
  refine ⟨⟨⟨_, hcircuit, (config_recordCompletion _ _ _ _).trans hconfig⟩, fun q hq' y now hnow hshut => ?_⟩,
    fun horigin q q' hq₁ hq₂ y now hnow hshut => ?_⟩
  · rw [hcircuit] at hq'
    cases hq'
    rw [hpast] at hnow
    have hold : (p.shouldForceFail now y).1 = true →
        ∃ r ∈ s.failures, r.1 = circuitKey y ∧ now < r.2 + p₀.cooldown :=
      h.shut p hp y now fun n hn => le_trans (hclock (le_of_lt hn)) hnow
    have hkeep : (∃ r ∈ s.failures, r.1 = circuitKey y ∧ now < r.2 + p₀.cooldown) →
        ∃ r ∈ (s.processNext c env).failures, r.1 = circuitKey y ∧ now < r.2 + p₀.cooldown := by
      rintro ⟨r, hr, hrest⟩
      exact ⟨r, hfailures ▸ List.mem_append_right _ hr, hrest⟩
    cases o with
    | executed =>
      rcases shut_after_recordCompletion hnow hshut with hbefore | ⟨hkey, hshuts, hlt⟩
      · exact hkeep (hold hbefore)
      · refine ⟨(circuitKey x, clock s.wm.clockReads), ?_, hkey, hcool ▸ hlt⟩
        rw [hfailures]
        simp [hshuts.failure]
    | timedOut =>
      rcases shut_after_recordCompletion hnow hshut with hbefore | ⟨hkey, hshuts, hlt⟩
      · exact hkeep (hold hbefore)
      · obtain ⟨r, hr, hrkey, hle⟩ := hex hshuts
        refine hkeep ⟨r, hr, hrkey.trans hkey, lt_of_lt_of_le hlt ?_⟩
        rw [hcool]
        exact Int.add_le_add_right hle _
    | circuit => exact hkeep (hold (shut_before_of_excused hq ho hx hp hex hnow hshut))
  · rw [hp] at hq₁
    cases hq₁
    rw [hcircuit] at hq₂
    cases hq₂
    rw [ho] at horigin
    cases horigin
    exact shut_before_of_excused hq ho hx hp hex ((hpast now).mp hnow) hshut

end Recorded

/-- Processing a completion that does not reach the circuit. -/
theorem process_idle (h : CooldownInv clock p₀ s) {env : Env κ π}
    (hcircuit : (s.processNext c env).wm.poisonMessageCircuit = s.wm.poisonMessageCircuit)
    (hreads : (s.processNext c env).wm.clockReads = s.wm.clockReads)
    (hfailures : (s.processNext c env).failures = s.failures) :
    CooldownInv clock p₀ (s.processNext c env) ∧ ExtendsNothing c clock s (.process env) := by
  obtain ⟨p, hp, hconfig⟩ := h.circuit
  refine ⟨⟨⟨p, hcircuit.trans hp, hconfig⟩, fun q hq x now hnow hshut => ?_⟩, fun _ q q' hq hq' x now _ hshut => ?_⟩
  · rw [hfailures]
    exact h.shut q (hcircuit ▸ hq) x now (fun n hn => hnow n (hreads.symm ▸ hn)) hshut
  · rw [hcircuit, hq] at hq'
    cases hq'
    exact hshut

/-- After a harmless step the circuit is in time, and what it issued itself extends nothing. -/
theorem process_kept (hclock : Monotone clock) (h : CooldownInv clock p₀ s) {env : Env κ π} (henv : env.clock = clock)
    (hharmless : Harmless clock s (.process env)) :
    CooldownInv clock p₀ (s.processNext c env) ∧ ExtendsNothing c clock s (.process env) := by
  obtain ⟨p, hp, hconfig⟩ := h.circuit
  cases hq : s.wm.completionQueue with
  | nil =>
    have hstop : s.processNext c env = s := by
      unfold processNext
      rw [hq]
    exact process_idle h (by rw [hstop]) (by rw [hstop]) (by rw [hstop])
  | cons e queue =>
    cases ho : s.origins with
    | nil =>
      have hstop : s.processNext c env = s := by
        unfold processNext
        rw [hq, ho]
      exact process_idle h (by rw [hstop]) (by rw [hstop]) (by rw [hstop])
    | cons o origins =>
      cases hx : s.wm.recordedItem e with
      | none =>
        obtain ⟨hcircuit, hreads, hfailures⟩ := @processNext_unrecorded κ π _ c env s e queue o origins hq ho hx
        exact process_idle h hcircuit hreads hfailures
      | some x =>
        exact kept_of_excused henv hq ho hx hp hclock h hconfig (hharmless e queue o origins x p hq ho hx hp)

/-- Every step but the processing of a completion adds completions and drops circuits at most. -/
theorem shrinks_step {a : PoisonAction κ π} (ha : (poisonMachine c clock p₀).enabled s a)
    (hne : ∀ env, a ≠ .process env) :
    CircuitShrinks s.wm (s.step c a).wm ∧ (s.step c a).failures = s.failures := by
  cases a with
  | other wm => exact ⟨ha.shrinks, rfl⟩
  | arrive events => exact ⟨⟨le_refl _, List.prefix_append _ _, fun p hp => ⟨p, hp, .refl p⟩⟩, rfl⟩
  | forceFail tp offset epoch error attempt => exact ⟨shrinks_forceFail s.wm tp offset epoch error attempt, rfl⟩
  | revoke tps => exact ⟨shrinks_onRevoke s.wm tps, rfl⟩
  | countOpen env => exact ⟨shrinks_getPoisonMessageOpenCircuitCount s.wm, rfl⟩
  | process env => exact absurd rfl (hne env)
  | iterate env b d => exact ⟨shrinks_scheduleStep s.wm b d, rfl⟩

theorem CooldownInv.step (hclock : Monotone clock) (h : CooldownInv clock p₀ s) {a : PoisonAction κ π}
    (ha : (poisonMachine c clock p₀).enabled s a) (hharmless : Harmless clock s a) :
    CooldownInv clock p₀ (s.step c a) ∧ ExtendsNothing c clock s a := by
  by_cases hne : ∃ env, a = .process env
  · obtain ⟨env, rfl⟩ := hne
    exact process_kept hclock h ha hharmless
  · have hne : ∀ env, a ≠ .process env := fun env heq => hne ⟨env, heq⟩
    obtain ⟨hshrinks, hfailures⟩ := shrinks_step ha hne
    have hinv := h.shrinks hshrinks (s.step c a).origins
    rw [← hfailures] at hinv
    refine ⟨hinv, ?_⟩
    cases a with
    | process env => exact absurd rfl (hne env)
    | _ => trivial

end Invariant

/-- The circuit closes after its cooldown, and the scheduler hands over what it lets run. -/
structure RespectsCooldown (c : WorkManagerConfig) (clock : Nat → Time) (cooldown : Time) (s : PoisonRun κ π) :
    Prop where
  shut : s.ShutInTime clock cooldown
  dispatches : s.Dispatches c clock cooldown

section Examples

/-- One failure opens the circuit for ten. -/
def oneFailure : PoisonMessageCircuitBreaker Nat := { twoFailures with failureThreshold := 1 }

/-- The readings of the run below: a failure is recorded at 1, a forced one at 6. -/
def laterClock (n : Nat) : Time :=
  if n < 2 then 0 else if n < 3 then 1 else if n < 4 then 5 else if n < 5 then 6 else 12

theorem monotone_laterClock : Monotone laterClock := by
  intro m n hle
  unfold laterClock
  split_ifs <;> first | omega | decide

def laterEnv : Env Nat Unit := { acceptingEnv Nat Unit with clock := laterClock }

def defaultConfig : WorkManagerConfig := { routeBatchSize_pos := Nat.one_pos }

/-- Three messages of one key. -/
def threeQueued : WorkManager Nat Unit :=
  ((WorkManager.new (some oneFailure)).onAssign defaultConfig [(⟨"orders", 0⟩, .offset 0)]).submitMessageBatch
    [((⟨"orders", 0⟩, 7), [⟨0, 0, (), none⟩, ⟨1, 0, (), none⟩, ⟨2, 0, (), none⟩])] |>.1

/-- The first message fails, and the circuit forces the second to fail. -/
def firstFails : List (PoisonAction Nat Unit) :=
  [.other threeQueued, .iterate laterEnv .empty [], .arrive [poisonFailure], .process laterEnv,
    .iterate laterEnv .empty []]

def secondForced : PoisonRun Nat Unit :=
  (poisonMachine defaultConfig laterClock oneFailure).run ⟨.new (some oneFailure), [], []⟩ firstFails

/-- The forced failure is recorded. -/
def thirdWaits : PoisonRun Nat Unit := secondForced.step defaultConfig (.process laterEnv)

end Examples

end PoisonRun

end PyrallelConsumer
