import PyrallelConsumer.WorkAssign
import PyrallelConsumer.Lib.Machine

/-!
# PyrallelConsumer.WorkRuns

Runs of the work manager. `workMachine` takes the operations as atomic steps in any order, with every
answer of the engine and every batch of completion events. `WorkStep` is the abstract system it
refines: items are enqueued, taken off the front of a queue, and finished.

* `next_induction` — every operation is a sequence of abstract steps, so what the abstract steps
  preserve holds along every run.
-/

set_option linter.unusedSectionVars false

namespace PyrallelConsumer

variable {κ π : Type} [DecidableEq κ]

/-! ## The abstract steps -/

/-- Only tracker epochs and pending events differ; the same partitions have trackers. -/
structure QuietStep (v v' : WorkView κ π) : Prop extends SameAccounts v v' where
  queueOf : v'.queueOf = v.queueOf
  assigned : v'.assigned = v.assigned
  totalSize : v'.totalSize = v.totalSize
  totalQueued : v'.totalQueued = v.totalQueued
  tracked : ∀ tp, (v'.epochOf tp).isSome = (v.epochOf tp).isSome
  log : v'.log = v.log
  nextUuid : v'.nextUuid = v.nextUuid

/-- One abstract step. Events are processed only when they are `ok`; `Reports.all` is the case of
arbitrary events. -/
inductive WorkStep (c : WorkManagerConfig) (ok : WorkView κ π → CompletionEvent → Prop)
    (v v' : WorkView κ π) : Prop where
  | quiet (h : QuietStep v v')
  | assign (tp : TopicPartition) (hfree : ¬ v.assigned tp) (h : AssignedPartition v tp v')
  | revoke (tps : List TopicPartition) (h : RevokedPartitions c v tps v')
  | enqueue (k : QueueKey κ) (items : List (WorkItem κ π)) (h : EnqueuedItems v k items v')
  | poison (k : QueueKey κ) (x : WorkItem κ π) (h : PoisonedHead v k x v')
  | hand (k : QueueKey κ) (lease : List (WorkItem κ π)) (h : HandedOver c v k lease v')
  | complete (e : CompletionEvent) (x : WorkItem κ π) (hok : ok v e) (h : CompletedItem c v e x v')
  | ignore (e : CompletionEvent) (hok : ok v e) (h : IgnoredEvent v e v')
      (hkept : ∀ x, v.ledger.get? e.id = some x → ¬ v.Releases e x)

/-- What the runs need to know about `ok` under an invariant `P`: it does not depend on the pending
events, an event stays `ok` while others are processed and queues are served, and the events that
the poison circuit makes are `ok`. -/
structure Reports (c : WorkManagerConfig) (P : WorkView κ π → Prop)
    (ok : WorkView κ π → CompletionEvent → Prop) : Prop where
  queue : ∀ {v e} q, ok v e → ok { v with completionQueue := q } e
  complete : ∀ {v v' e e' x}, P v → ok v e → ok v e' → CompletedItem c v e' x v' → ok v' e
  ignore : ∀ {v v' e e'}, P v → ok v e → ok v e' → IgnoredEvent v e' v' → ok v' e
  poison : ∀ {v v' e k x}, P v → ok v e → PoisonedHead v k x v' → ok v' e
  poisoned : ∀ {v v' e k x}, P v → PoisonedHead v k x v' → e.id = x.id → ok v' e
  hand : ∀ {v v' e k lease}, P v → ok v e → HandedOver c v k lease v' → ok v' e

theorem Reports.all (c : WorkManagerConfig) (P : WorkView κ π → Prop) :
    Reports c P fun _ _ => True :=
  ⟨fun _ _ => trivial, fun _ _ _ _ => trivial, fun _ _ _ _ => trivial, fun _ _ _ => trivial,
   fun _ _ _ => trivial, fun _ _ _ => trivial⟩

/-! ## The runs -/

inductive WorkAction (κ π : Type) where
  | newTracker (t : OffsetTracker)
  | mutateTracker (r : TrackerRef) (t : OffsetTracker)
  | assign (assignments : List (TopicPartition × TrackerOrOffset))
  | revoke (revokedTps : List TopicPartition)
  | submit (groupedMessages : List (QueueKey κ × List (QueuedMessage κ π)))
  | schedule (env : Env κ π)
  | poll (env : Env κ π) (engineEvents : List CompletionEvent) (scheduleAfterRelease : Bool)
  | forceFail (tp : TopicPartition) (offset epoch : Int) (error : String) (attempt : Int)

/-- The work manager and its callers. The poller creates shared trackers and changes them between
operations; a rebalance assigns unassigned partitions only. -/
def workMachine (κ π : Type) [DecidableEq κ] (c : WorkManagerConfig) :
    Machine (WorkManager κ π) (WorkAction κ π) where
  init s := ∃ circuit, s = .new circuit
  enabled s a :=
    match a with
    | .assign l => (l.map Prod.fst).Nodup ∧ ∀ e ∈ l, s.offsetTrackers.get? e.1 = none
    | .schedule env => env.AcceptsPrefix
    | .poll env _ _ => env.AcceptsPrefix
    | _ => True
  next s a :=
    match a with
    | .newTracker t => (s.allocTracker t).2
    | .mutateTracker r t => s.modifyTracker r fun _ => t
    | .assign l => s.onAssign c l
    | .revoke tps => s.onRevoke c tps
    | .submit groups => (s.submitMessageBatch groups).1
    | .schedule env => s.schedule c env
    | .poll env events after => (s.pollCompletedEvents c env events after).2
    | .forceFail tp offset epoch error attempt => (s.forceFail tp offset epoch error attempt).2

namespace WorkManager

section Induction

variable {c : WorkManagerConfig} {P : WorkView κ π → Prop}
  {ok : WorkView κ π → CompletionEvent → Prop}
  (hstep : ∀ v v', P v → WorkStep c ok v v' → P v')

include hstep

theorem setCompletionQueue_step {s : WorkManager κ π} (h : P s.view) (q : List CompletionEvent) :
    P ({ s with completionQueue := q } : WorkManager κ π).view :=
  hstep _ _ h (.quiet
    { timestamps := rfl, ledger := rfl, count := rfl, keys := rfl, keyCounts := rfl, partitions := rfl
      partitionCounts := rfl, queueOf := rfl, assigned := rfl, totalSize := rfl, totalQueued := rfl
      tracked := fun _ => rfl, log := rfl, nextUuid := rfl })

theorem schedule_steps {env : Env κ π} (henv : env.AcceptsPrefix) {s : WorkManager κ π}
    (h : P s.view) : P (s.schedule c env).view :=
  schedule_induction (fun v v' k x hv hp => hstep v v' hv (.poison k x hp))
    (fun v v' k lease hv hh => hstep v v' hv (.hand k lease hh)) henv h

variable (hok : Reports c P ok) (hfiled : ∀ v, P v → v.Filed)

include hok

/-- Scheduling keeps the pending events `ok`. -/
theorem schedule_reports {env : Env κ π} (henv : env.AcceptsPrefix) {s : WorkManager κ π}
    (h : P s.view) (hpending : ∀ e ∈ s.completionQueue, ok s.view e) :
    ∀ e ∈ (s.schedule c env).completionQueue, ok (s.schedule c env).view e := by
  refine (schedule_induction (c := c)
    (P := fun v => P v ∧ ∀ e ∈ v.completionQueue, ok v e) ?_ ?_ henv ⟨h, hpending⟩).2
  · intro v v' k x hv hp
    refine ⟨hstep v v' hv.1 (.poison k x hp), fun e he => ?_⟩
    obtain ⟨e', hid, -, hq⟩ := hp.completionQueue
    rw [hq] at he
    rcases List.mem_append.mp he with he | he
    · exact hok.poison hv.1 (hv.2 e he) hp
    · rw [List.mem_singleton.mp he]
      exact hok.poisoned hv.1 hp hid
  · intro v v' k lease hv hh
    refine ⟨hstep v v' hv.1 (.hand k lease hh), fun e he => ?_⟩
    rw [hh.completionQueue] at he
    exact hok.hand hv.1 (hv.2 e he) hh

include hfiled

/-- Processing events does not touch the pending ones. -/
theorem processAll_steps (env : Env κ π) (events : List CompletionEvent) :
    ∀ s : WorkManager κ π, P s.view → (∀ e ∈ events, ok s.view e) →
      P (s.processAll c env events).2.view ∧
        (s.processAll c env events).2.completionQueue = s.completionQueue := by
  induction events with
  | nil => intro s h _; exact ⟨h, rfl⟩
  | cons e events ih =>
    intro s h hev
    have he := hev e (by simp)
    rcases processCompletionEvent_cases c env s (hfiled _ h) e with ⟨x, -, hc⟩ | ⟨hi, hkept⟩
    · have h1 := ih _ (hstep _ _ h (.complete e x he hc)) fun e' he' =>
        hok.complete h (hev e' (List.mem_cons_of_mem _ he')) he hc
      exact ⟨h1.1, h1.2.trans hc.completionQueue⟩
    · have h1 := ih _ (hstep _ _ h (.ignore e he hi hkept)) fun e' he' =>
        hok.ignore h (hev e' (List.mem_cons_of_mem _ he')) he hi
      exact ⟨h1.1, h1.2.trans hi.completionQueue⟩

theorem pollLoop_steps {env : Env κ π} (henv : env.AcceptsPrefix) (after : Bool) (fuel : Nat) :
    ∀ (s : WorkManager κ π) (completed : List CompletionEvent), P s.view →
      (∀ e ∈ s.completionQueue, ok s.view e) → P (pollLoop c env after fuel s completed).2.view := by
  induction fuel with
  | zero => intro s completed h _; exact h
  | succ fuel ih =>
    intro s completed h hpending
    have h0 : P ({ s with completionQueue := [] } : WorkManager κ π).view :=
      setCompletionQueue_step hstep h []
    have hev : ∀ e ∈ s.completionQueue,
        ok ({ s with completionQueue := [] } : WorkManager κ π).view e :=
      fun e he => hok.queue [] (hpending e he)
    obtain ⟨h1, hnil⟩ := processAll_steps hstep hok hfiled env s.completionQueue _ h0 hev
    simp only [pollLoop]
    split
    · exact h1
    · have h2 := schedule_steps hstep henv h1
      have hev2 := schedule_reports hstep hok henv h1 (by rw [hnil]; simp)
      split
      · exact h2
      · exact ih _ _ h2 hev2

end Induction

theorem forceFail_view (s : WorkManager κ π) (tp : TopicPartition) (offset epoch : Int)
    (error : String) (attempt : Int) :
    ∃ q, (s.forceFail tp offset epoch error attempt).2.view = { s.view with completionQueue := q } := by
  unfold forceFail
  dsimp only
  split
  · exact ⟨_, rfl⟩
  · split
    · exact ⟨_, rfl⟩
    · exact ⟨_, rfl⟩

/-- Every operation but a poll is a sequence of abstract steps, whatever the events. -/
theorem next_induction_of_ne_poll {c : WorkManagerConfig} {P : WorkView κ π → Prop}
    {ok : WorkView κ π → CompletionEvent → Prop}
    (hstep : ∀ v v', P v → WorkStep c ok v v' → P v')
    (hfiled : ∀ v, P v → v.Filed) (htracked : ∀ v, P v → ∀ tp, (v.epochOf tp).isSome ↔ v.assigned tp)
    {s : WorkManager κ π} {a : WorkAction κ π} (h : P s.view) (he : (workMachine κ π c).enabled s a)
    (ha : ∀ env events after, a ≠ .poll env events after) : P ((workMachine κ π c).next s a).view := by
  have hepochs : ∀ t : WorkManager κ π, t.view = { s.view with epochOf := t.view.epochOf } →
      t.offsetTrackers = s.offsetTrackers → P t.view := by
    intro t ht htr
    refine hstep _ _ h (.quiet ?_)
    rw [ht]
    exact
      { timestamps := rfl, ledger := rfl, count := rfl, keys := rfl, keyCounts := rfl
        partitions := rfl, partitionCounts := rfl, queueOf := rfl, assigned := rfl, totalSize := rfl
        totalQueued := rfl, log := rfl, nextUuid := rfl
        tracked := fun tp => by simp only [view, epochOf, Option.isSome_map, htr] }
  cases a with
  | newTracker t => exact hepochs _ rfl rfl
  | mutateTracker r t => exact hepochs _ rfl rfl
  | assign l =>
    refine onAssign_induction c (fun v v' tp hv hfree ha => hstep v v' hv (.assign tp hfree ha)) l s
      he.1 (fun e hel => ?_) h
    have hnone : s.view.epochOf e.1 = none := by
      simp only [view, epochOf, he.2 e hel, Option.map_none]
    rw [← htracked _ h, hnone]
    simp
  | revoke tps => exact hstep _ _ h (.revoke tps (onRevoke_spec c s tps (hfiled _ h)))
  | submit groups =>
    exact submitMessageBatch_induction (fun v v' k items hv he => hstep v v' hv (.enqueue k items he))
      groups h
  | schedule env => exact schedule_steps hstep he h
  | poll env events after => exact absurd rfl (ha env events after)
  | forceFail tp offset epoch error attempt =>
    obtain ⟨q, hq⟩ := s.forceFail_view tp offset epoch error attempt
    show P (s.forceFail tp offset epoch error attempt).2.view
    rw [hq]
    exact setCompletionQueue_step hstep h q

/-- **Refinement.** Every operation of the work manager is a sequence of abstract steps, whose events
are `ok` when those of a poll are. -/
theorem next_induction {c : WorkManagerConfig} {P : WorkView κ π → Prop}
    {ok : WorkView κ π → CompletionEvent → Prop}
    (hstep : ∀ v v', P v → WorkStep c ok v v' → P v') (hok : Reports c P ok)
    (hfiled : ∀ v, P v → v.Filed) (htracked : ∀ v, P v → ∀ tp, (v.epochOf tp).isSome ↔ v.assigned tp)
    {s : WorkManager κ π} {a : WorkAction κ π} (h : P s.view) (he : (workMachine κ π c).enabled s a)
    (hpoll : ∀ env events after, a = .poll env events after →
      ∀ e ∈ s.completionQueue ++ events, ok s.view e) :
    P ((workMachine κ π c).next s a).view := by
  cases a with
  | poll env events after =>
    exact pollLoop_steps hstep hok hfiled he after _ _ _ (setCompletionQueue_step hstep h _)
      fun e hev => hok.queue _ (hpoll env events after rfl e hev)
  | _ => exact next_induction_of_ne_poll hstep hfiled htracked h he (by simp)

end WorkManager

end PyrallelConsumer
