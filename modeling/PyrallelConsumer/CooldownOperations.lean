import PyrallelConsumer.PoisonCooldown
import PyrallelConsumer.WorkRuns

/-!
# PyrallelConsumer.CooldownOperations

The operations of the work manager as runs of the scheduler around its circuit: `schedule` is a run of its
iterations, and `poll_completed_events` processes the completions one at a time.

* `origins_length` — every queued completion has its origin.
* `Reaches` — the work managers that the runs come to.
* `reachable_operation` — every operation of the work manager is a run.
-/

set_option linter.unusedSectionVars false

namespace PyrallelConsumer

namespace PoisonRun

open WorkManager

variable {κ π : Type} [DecidableEq κ] {c : WorkManagerConfig} {clock : Nat → Time}
  {p₀ : PoisonMessageCircuitBreaker κ} {s : PoisonRun κ π}

theorem origins_length (h : (poisonMachine c clock p₀).Reachable s) :
    s.origins.length = s.wm.completionQueue.length := by
  refine (poisonMachine c clock p₀).invariant (I := fun s : PoisonRun κ π =>
    s.origins.length = s.wm.completionQueue.length) ?_ ?_ h
  · rintro _ rfl
    rfl
  · intro s a hs ha _
    cases a with
    | other wm => exact hs.trans (congrArg List.length (SamePoison.completionQueue ha)).symm
    | arrive events =>
      show (s.origins ++ List.replicate _ _).length = (s.wm.completionQueue ++ events).length
      simp [hs]
    | forceFail tp offset epoch error attempt =>
      show (if (s.wm.forceFail tp offset epoch error attempt).1 then s.origins ++ [.timedOut] else s.origins).length =
        (s.wm.forceFail tp offset epoch error attempt).2.completionQueue.length
      unfold forceFail
      dsimp only
      split
      · simp [hs]
      · split
        · simp [hs]
        · exact hs
    | revoke tps => exact hs.trans (congrArg List.length (completionQueue_onRevoke s.wm tps)).symm
    | countOpen env =>
      refine hs.trans (congrArg List.length ?_)
      show _ = (s.wm.getPoisonMessageOpenCircuitCount env).2.completionQueue
      unfold getPoisonMessageOpenCircuitCount
      split
      · rfl
      · rfl
    | process env =>
      show (s.processNext c env).origins.length = (s.processNext c env).wm.completionQueue.length
      cases hq : s.wm.completionQueue with
      | nil =>
        unfold processNext
        rw [hq]
        exact hs
      | cons e queue =>
        cases ho : s.origins with
        | nil =>
          unfold processNext
          rw [hq, ho]
          exact hs
        | cons o origins =>
          rw [processNext_cons hq ho]
          dsimp only
          rw [completionQueue_processCompletionEvent]
          rw [hq, ho] at hs
          exact Nat.succ.inj hs
    | iterate env b d =>
      have hle := (@shrinks_scheduleStep κ π _ c env s.wm b d).queue.length_le
      show (s.origins ++ List.replicate _ _).length = (s.wm.scheduleStep c env b d).2.1.completionQueue.length
      rw [List.length_append, List.length_replicate, hs]
      exact Nat.add_sub_cancel' hle

theorem reachable_step (h : (poisonMachine c clock p₀).Reachable s) (a : PoisonAction κ π)
    (ha : (poisonMachine c clock p₀).enabled s a) : (poisonMachine c clock p₀).Reachable (s.step c a) :=
  .next h ha trivial

/-- The work manager of a state that the runs reach. -/
def Reaches (c : WorkManagerConfig) (clock : Nat → Time) (p₀ : PoisonMessageCircuitBreaker κ)
    (wm : WorkManager κ π) : Prop := ∃ s, (poisonMachine c clock p₀).Reachable s ∧ s.wm = wm

namespace Reaches

variable {wm : WorkManager κ π} {env : Env κ π}

theorem other (h : Reaches c clock p₀ wm) {wm' : WorkManager κ π} (hsame : SamePoison wm wm') :
    Reaches c clock p₀ wm' := by
  obtain ⟨s, hs, rfl⟩ := h
  exact ⟨_, reachable_step hs (.other wm') hsame, rfl⟩

/-! ## Scheduling -/

theorem scheduleStep (h : Reaches c clock p₀ wm) (henv : env.clock = clock)
    (b : Dict TopicPartition (Option OffsetRange)) (d : List (QueueKey κ)) :
    Reaches c clock p₀ (wm.scheduleStep c env b d).2.1 := by
  obtain ⟨s, hs, rfl⟩ := h
  exact ⟨_, reachable_step hs (.iterate env b d) henv, rfl⟩

theorem scheduleLoop (henv : env.clock = clock) (b : Dict TopicPartition (Option OffsetRange)) (fuel : Nat) :
    ∀ {wm : WorkManager κ π} (d : List (QueueKey κ)), Reaches c clock p₀ wm →
      Reaches c clock p₀ (wm.scheduleLoop c env b fuel d).1 := by
  induction fuel with
  | zero => exact fun _ h => h
  | succ fuel ih =>
    intro wm d h
    have hstep := h.scheduleStep henv b d
    obtain ⟨next, wm', d', heq⟩ : ∃ next wm' d', wm.scheduleStep c env b d = (next, wm', d') := ⟨_, _, _, rfl⟩
    simp only [WorkManager.scheduleLoop]
    rw [heq] at hstep ⊢
    cases next with
    | stop => exact hstep
    | again => exact ih d' hstep

theorem schedule (h : Reaches c clock p₀ wm) (henv : env.clock = clock) :
    Reaches c clock p₀ (wm.schedule c env) := by
  have hcached := h.other (samePoison_cachedBlockingOffsets (c := c) wm)
  have hloop := hcached.scheduleLoop henv (wm.cachedBlockingOffsets c).1
    (wm.cachedBlockingOffsets c).2.scheduleFuel []
  exact hloop.other (samePoison_foldl samePoison_reactivate _ _)

/-! ## Polling -/

theorem process (henv : env.clock = clock) {e : CompletionEvent} {queue : List CompletionEvent}
    (h : Reaches c clock p₀ (wm.withCompletions (e :: queue))) :
    Reaches c clock p₀ ((wm.processCompletionEvent c env e).2.withCompletions queue) := by
  obtain ⟨s, hs, heq⟩ := h
  have hq : s.wm.completionQueue = e :: queue := by
    rw [heq]
    rfl
  have hlength := origins_length hs
  obtain ⟨o, origins, ho⟩ : ∃ o origins, s.origins = o :: origins := by
    cases ho : s.origins with
    | nil =>
      rw [hq, ho] at hlength
      cases hlength
    | cons o origins => exact ⟨o, origins, rfl⟩
  refine ⟨_, reachable_step hs (.process env) henv, ?_⟩
  show (s.processNext c env).wm = _
  rw [processNext_cons hq ho, heq, ← processCompletionEvent_withCompletions]
  rfl

theorem processAll (henv : env.clock = clock) (events : List CompletionEvent) :
    ∀ wm : WorkManager κ π, Reaches c clock p₀ (wm.withCompletions events) →
      Reaches c clock p₀ ((wm.processAll c env events).2.withCompletions []) := by
  induction events with
  | nil => exact fun _ h => h
  | cons e events ih => exact fun _ h => ih _ (h.process henv)

theorem completionQueue_processAll (events : List CompletionEvent) :
    ∀ wm : WorkManager κ π, (wm.processAll c env events).2.completionQueue = wm.completionQueue := by
  induction events with
  | nil => exact fun _ => rfl
  | cons e events ih =>
    exact fun wm => (ih (wm.processCompletionEvent c env e).2).trans (completionQueue_processCompletionEvent wm e)

theorem pollLoop (henv : env.clock = clock) (after : Bool) (fuel : Nat) :
    ∀ {wm : WorkManager κ π} (completed : List CompletionEvent), Reaches c clock p₀ wm →
      Reaches c clock p₀ (wm.pollLoop c env after fuel completed).2 := by
  induction fuel with
  | zero => exact fun _ h => h
  | succ fuel ih =>
    intro wm completed h
    have hprocessed : Reaches c clock p₀ ((wm.withCompletions []).processAll c env wm.completionQueue).2 := by
      have hall := processAll henv wm.completionQueue (wm.withCompletions []) h
      have hnil : ((wm.withCompletions []).processAll c env wm.completionQueue).2.completionQueue = [] :=
        completionQueue_processAll _ _
      exact hall.other ⟨rfl, rfl, hnil⟩
    simp only [WorkManager.pollLoop]
    split
    · exact hprocessed
    · split
      · exact hprocessed.schedule henv
      · exact ih _ (hprocessed.schedule henv)

theorem pollCompletedEvents (h : Reaches c clock p₀ wm) (henv : env.clock = clock) (events : List CompletionEvent)
    (after : Bool) : Reaches c clock p₀ (wm.pollCompletedEvents c env events after).2 := by
  obtain ⟨s, hs, rfl⟩ := h
  refine pollLoop henv after _ _ ?_
  exact ⟨_, reachable_step hs (.arrive events) trivial, rfl⟩

end Reaches

/-- The readings of the poison clock in an operation. -/
def TimedBy (clock : Nat → Time) : WorkAction κ π → Prop
  | .schedule env | .poll env _ _ => env.clock = clock
  | _ => True

/-- Every operation of the work manager, at any point of a run, is a run. -/
theorem reachable_operation (h : (poisonMachine c clock p₀).Reachable s) {a : WorkAction κ π} (ha : TimedBy clock a) :
    ∃ s', (poisonMachine c clock p₀).Reachable s' ∧ s'.wm = (workMachine κ π c).next s.wm a := by
  have hwm : Reaches c clock p₀ s.wm := ⟨s, h, rfl⟩
  cases a with
  | newTracker t => exact hwm.other ⟨rfl, rfl, rfl⟩
  | mutateTracker r t => exact hwm.other ⟨rfl, rfl, rfl⟩
  | assign l => exact hwm.other (samePoison_onAssign s.wm l)
  | revoke tps => exact ⟨_, reachable_step h (.revoke tps) trivial, rfl⟩
  | submit groups => exact hwm.other (samePoison_submitMessageBatch s.wm groups)
  | schedule env => exact hwm.schedule ha
  | poll env events after => exact hwm.pollCompletedEvents ha events after
  | forceFail tp offset epoch error attempt =>
    exact ⟨_, reachable_step h (.forceFail tp offset epoch error attempt) trivial, rfl⟩

end PoisonRun

end PyrallelConsumer
