import PyrallelConsumer.WorkTrackers

/-!
# PyrallelConsumer.WorkEvents

Which completion events wait in the work manager. Apart from what the engine and `force_fail` put there,
only the poison circuit makes events, and they carry the attempt that the circuit was configured with.

* `EventFrame` — an operation adds forced failures at most. One lemma for each operation.
* `pollCompletedEvents_events` — the events of a poll.
-/

set_option linter.unusedSectionVars false

namespace PyrallelConsumer

namespace WorkManager

variable {κ π : Type} [DecidableEq κ]

/-- The attempt of the failures that the poison circuit makes. -/
def forcedAttempt (s : WorkManager κ π) : Option Int := s.poisonMessageCircuit.map (·.forcedFailureAttempt)

structure EventFrame (s s' : WorkManager κ π) : Prop where
  forced : s'.forcedAttempt = s.forcedAttempt
  events : ∀ e ∈ s'.completionQueue, e ∈ s.completionQueue ∨ s.forcedAttempt = some e.attempt

namespace EventFrame

theorem refl (s : WorkManager κ π) : EventFrame s s := ⟨rfl, fun _ h => .inl h⟩

theorem trans {s t u : WorkManager κ π} (h : EventFrame s t) (h' : EventFrame t u) : EventFrame s u := by
  refine ⟨h'.forced.trans h.forced, fun e he => ?_⟩
  rcases h'.events e he with he | he
  · exact h.events e he
  · exact .inr (h.forced ▸ he)

/-- Neither the events nor the circuit change. -/
theorem same {s s' : WorkManager κ π} (hc : s'.poisonMessageCircuit = s.poisonMessageCircuit)
    (hq : s'.completionQueue = s.completionQueue) : EventFrame s s' :=
  ⟨by rw [forcedAttempt, hc]; rfl, fun _ he => .inl (hq ▸ he)⟩

end EventFrame

/-! ## Scheduling -/

section Schedule

variable {c : WorkManagerConfig} {env : Env κ π}

theorem eventFrame_blockingOffsetsFrom (l : List (TopicPartition × TrackerRef)) :
    ∀ (s : WorkManager κ π) (acc : Dict TopicPartition (Option OffsetRange)),
      EventFrame s (s.blockingOffsetsFrom acc l).2 := by
  induction l with
  | nil => intro s acc; exact .refl s
  | cons e l ih =>
    intro s acc
    obtain ⟨tp, r⟩ := e
    simp only [blockingOffsetsFrom]
    refine .trans ?_ (ih _ _)
    split
    · exact .refl s
    · exact .same rfl rfl

theorem eventFrame_cachedBlockingOffsets (s : WorkManager κ π) :
    EventFrame s (s.cachedBlockingOffsets c).2 := by
  unfold cachedBlockingOffsets
  split
  · exact .trans (eventFrame_blockingOffsetsFrom s.offsetTrackers.entries s .empty) (.same rfl rfl)
  · exact .same rfl rfl

theorem eventFrame_pickQueueKey (s : WorkManager κ π) (b : Dict TopicPartition (Option OffsetRange)) :
    EventFrame s (s.pickQueueKey c b).2 := by
  unfold pickQueueKey
  split <;> exact .same rfl rfl

theorem forcedFailureAttempt_shouldForceFail (b : PoisonMessageCircuitBreaker κ) (now : Time)
    (x : WorkItem κ π) : (b.shouldForceFail now x).2.forcedFailureAttempt = b.forcedFailureAttempt := by
  unfold PoisonMessageCircuitBreaker.shouldForceFail
  split
  · rfl
  · split
    · rfl
    · split <;> rfl

theorem eventFrame_shouldForceFail (s : WorkManager κ π) (x : WorkItem κ π) :
    EventFrame s (s.shouldForceFail env x).2 := by
  unfold shouldForceFail
  split
  · exact .refl s
  · rename_i circuit hcircuit
    refine ⟨?_, fun e he => .inl he⟩
    simp only [forcedAttempt, hcircuit, Option.map_some]
    rw [forcedFailureAttempt_shouldForceFail]

/-- The poison circuit fails a queued item. -/
theorem eventFrame_forceFailQueuedItem (s : WorkManager κ π) (x : WorkItem κ π) (k : QueueKey κ) :
    EventFrame s (s.forceFailQueuedItem env x k).2 := by
  have h := @eventFrame_shouldForceFail κ π _ env s x
  unfold forceFailQueuedItem
  dsimp only
  split
  · exact h
  · rename_i circuit hcircuit
    split
    · exact h
    · split
      · exact h.trans (.same rfl rfl)
      · refine h.trans ⟨rfl, fun e he => ?_⟩
        rcases List.mem_append.mp he with he | he
        · exact .inl he
        · rw [List.mem_singleton.mp he]
          refine .inr ?_
          rw [forcedAttempt, hcircuit]
          rfl

theorem eventFrame_truncateBatch (items : List (WorkItem κ π)) :
    ∀ s : WorkManager κ π, EventFrame s (s.truncateBatchBeforeForceFail env items).2 := by
  induction items with
  | nil => intro s; exact .refl s
  | cons x items ih =>
    intro s
    have h := @eventFrame_shouldForceFail κ π _ env s x
    simp only [truncateBatchBeforeForceFail]
    split
    · rename_i s1 heq; rw [heq] at h; exact h
    · rename_i s1 heq; rw [heq] at h; exact h.trans (ih s1)

theorem eventFrame_recordSubmittedItems (items : List (WorkItem κ π)) :
    ∀ s : WorkManager κ π, EventFrame s (recordSubmittedItems c s items) := by
  induction items with
  | nil => intro s; exact .refl s
  | cons x items ih =>
    intro s
    refine .trans ?_ (ih (recordSubmittedItem c s x))
    unfold recordSubmittedItem recordOrderingLock
    split <;> exact .same rfl rfl

theorem eventFrame_acceptItems (s : WorkManager κ π) (k : QueueKey κ) (n : Nat) :
    EventFrame s (s.acceptItems c k n).2 := by
  unfold acceptItems
  dsimp only
  refine EventFrame.trans (t := { s with queueTopology := (s.queueTopology.dequeueSubmittedItems k.1 k.2 n).2 }) ?_
    (eventFrame_recordSubmittedItems _ _)
  exact .same rfl rfl

theorem eventFrame_submitLease (s : WorkManager κ π) (d : List (QueueKey κ)) (k : QueueKey κ)
    (queue : List (WorkItem κ π)) (head : WorkItem κ π) (lease : List (WorkItem κ π)) (b : Bool) :
    EventFrame s (s.submitLease c env d k queue head lease b).2.1 := by
  have haccept : ∀ (t : WorkManager κ π) (n : Nat), EventFrame s t → EventFrame s (t.acceptItems c k n).2 :=
    fun t n ht => ht.trans (eventFrame_acceptItems t k n)
  unfold submitLease
  dsimp only
  split
  · have h := haccept (({ s with engineCalls := s.engineCalls + 1 } : WorkManager κ π).record
      (.handed lease)) lease.length (.same rfl rfl)
    split
    · exact h
    · split
      · exact h.trans (.same rfl rfl)
      · exact h
  · split
    · exact haccept _ _ (.same rfl rfl)
    · exact .same rfl rfl
  · exact .same rfl rfl

theorem eventFrame_serveQueue (s : WorkManager κ π) (d : List (QueueKey κ)) (k : QueueKey κ)
    (head : WorkItem κ π) (rest : List (WorkItem κ π)) :
    EventFrame s (s.serveQueue c env d k head rest).2.1 := by
  have hforce := @eventFrame_forceFailQueuedItem κ π _ env s head k
  unfold serveQueue
  dsimp only
  split
  · exact .refl s
  · split
    · rename_i s1 heq; rw [heq] at hforce; exact hforce
    · rename_i s1 heq
      rw [heq] at hforce
      have htrunc := @eventFrame_truncateBatch κ π _ env ((head :: rest).take (s.resolveRouteBatchLimit c)) s1
      split
      · rename_i s2 heq2; rw [heq2] at htrunc; exact hforce.trans htrunc
      · rename_i x lease s2 heq2
        rw [heq2] at htrunc
        exact (hforce.trans htrunc).trans (eventFrame_submitLease _ _ _ _ _ _ _)

theorem eventFrame_scheduleStep (b : Dict TopicPartition (Option OffsetRange)) (s : WorkManager κ π)
    (d : List (QueueKey κ)) : EventFrame s (s.scheduleStep c env b d).2.1 := by
  have hpick := eventFrame_pickQueueKey (c := c) s b
  unfold scheduleStep
  split
  · exact .refl s
  · split
    · exact .refl s
    · split
      · rename_i s1 heq; rw [heq] at hpick; exact hpick
      · rename_i k s1 heq
        rw [heq] at hpick
        split
        · exact hpick.trans (.same rfl rfl)
        · exact hpick.trans (.same rfl rfl)
        · exact hpick.trans (eventFrame_serveQueue _ _ _ _ _)

theorem eventFrame_scheduleLoop (b : Dict TopicPartition (Option OffsetRange)) (fuel : Nat) :
    ∀ (s : WorkManager κ π) (d : List (QueueKey κ)), EventFrame s (s.scheduleLoop c env b fuel d).1 := by
  induction fuel with
  | zero => intro s d; exact .refl s
  | succ fuel ih =>
    intro s d
    have h := @eventFrame_scheduleStep κ π _ c env b s d
    simp only [scheduleLoop]
    split
    · rename_i s1 d1 heq; rw [heq] at h; exact h
    · rename_i s1 d1 heq; rw [heq] at h; exact h.trans (ih s1 d1)

theorem eventFrame_reactivate (l : List (QueueKey κ)) :
    ∀ s : WorkManager κ π, EventFrame s (l.foldl reactivate s) := by
  induction l with
  | nil => intro s; exact .refl s
  | cons k l ih =>
    intro s
    refine .trans ?_ (ih _)
    unfold reactivate
    split <;> exact .same rfl rfl

theorem eventFrame_schedule (s : WorkManager κ π) : EventFrame s (s.schedule c env) := by
  have h1 := eventFrame_cachedBlockingOffsets (c := c) s
  have h2 := @eventFrame_scheduleLoop κ π _ c env (s.cachedBlockingOffsets c).1
    (s.cachedBlockingOffsets c).2.scheduleFuel (s.cachedBlockingOffsets c).2 []
  unfold schedule
  dsimp only
  exact (h1.trans h2).trans (eventFrame_reactivate _ _)

/-! ## Completion -/

theorem eventFrame_releaseInFlightItem (s : WorkManager κ π) (id : WorkId) (b : Bool) :
    EventFrame s (releaseInFlightItem c s id b).2 := by
  unfold releaseInFlightItem
  split
  · exact .same rfl rfl
  · dsimp only
    split
    · unfold releaseOrderingLock
      split
      · dsimp only
        split <;> exact .same rfl rfl
      · dsimp only
        split <;> exact .same rfl rfl
      · exact .same rfl rfl
    · exact .same rfl rfl

theorem forcedFailureAttempt_recordCompletion (b : PoisonMessageCircuitBreaker κ) (now : Time)
    (e : CompletionEvent) (x : WorkItem κ π) :
    (b.recordCompletion now e x).forcedFailureAttempt = b.forcedFailureAttempt := by
  unfold PoisonMessageCircuitBreaker.recordCompletion
  split
  · rfl
  · split
    · rfl
    · split <;> rfl

theorem eventFrame_recordCompletion (s : WorkManager κ π) (e : CompletionEvent) (x : WorkItem κ π) :
    EventFrame s (s.recordCompletion env e x) := by
  unfold recordCompletion
  split
  · exact .refl s
  · rename_i circuit hcircuit
    refine ⟨?_, fun e he => .inl he⟩
    simp only [forcedAttempt, hcircuit, Option.map_some]
    rw [forcedFailureAttempt_recordCompletion]

theorem eventFrame_processCompletionEvent (s : WorkManager κ π) (e : CompletionEvent) :
    EventFrame s (s.processCompletionEvent c env e).2 := by
  have h0 : EventFrame s (s.record (.processed e)) := .same rfl rfl
  have hpop : ∀ t : WorkManager κ π, EventFrame s t → EventFrame s (t.popDispatchTimestamp e.id) :=
    fun t ht => ht.trans (.same rfl rfl)
  unfold processCompletionEvent
  dsimp only
  split
  · exact .same rfl rfl
  · split
    · refine hpop _ ?_
      split
      · split
        · exact h0.trans (eventFrame_releaseInFlightItem _ _ _)
        · exact h0
      · exact h0
    · rename_i r _ _
      have h1 : EventFrame s (if e.tp ∈ (s.record (.processed e)).sharedOffsetTrackers then s.record (.processed e)
          else ((s.record (.processed e)).modifyTracker r (·.markComplete e.offset)).invalidateBlockingCache) := by
        split
        · exact h0
        · exact h0.trans (.same rfl rfl)
      split
      · exact hpop _ h1
      · refine hpop _ ?_
        exact (h1.trans (eventFrame_recordCompletion _ _ _)).trans (eventFrame_releaseInFlightItem _ _ _)

theorem eventFrame_processAll (events : List CompletionEvent) :
    ∀ s : WorkManager κ π, EventFrame s (s.processAll c env events).2 := by
  induction events with
  | nil => intro s; exact .refl s
  | cons e events ih =>
    intro s
    exact (eventFrame_processCompletionEvent s e).trans (ih _)

/-- **The events of a poll** were waiting, or the poison circuit made them; so are those that still wait. -/
theorem pollLoop_events (after : Bool) (fuel : Nat) :
    ∀ (s : WorkManager κ π) (completed : List CompletionEvent),
      (pollLoop c env after fuel s completed).2.forcedAttempt = s.forcedAttempt ∧
      ∀ e, e ∈ (pollLoop c env after fuel s completed).1 ∨
          e ∈ (pollLoop c env after fuel s completed).2.completionQueue →
        e ∈ completed ∨ e ∈ s.completionQueue ∨ s.forcedAttempt = some e.attempt := by
  induction fuel with
  | zero => intro s completed; exact ⟨rfl, fun e he => he.imp id .inl⟩
  | succ fuel ih =>
    intro s completed
    let s0 : WorkManager κ π := { s with completionQueue := [] }
    have h1 : EventFrame s0 (s0.processAll c env s.completionQueue).2 :=
      eventFrame_processAll s.completionQueue s0
    have hnil : ∀ (t : WorkManager κ π) e, EventFrame s0 t → e ∈ t.completionQueue →
        s.forcedAttempt = some e.attempt := fun t e ht he => (ht.events e he).resolve_left (by simp [s0])
    simp only [pollLoop]
    split
    · refine ⟨h1.forced, fun e he => ?_⟩
      rcases he with he | he
      · exact (List.mem_append.mp he).imp id .inl
      · exact .inr (.inr (hnil _ e h1 he))
    · have h2 := h1.trans (@eventFrame_schedule κ π _ c env _)
      split
      · refine ⟨h2.forced, fun e he => ?_⟩
        rcases he with he | he
        · exact (List.mem_append.mp he).imp id .inl
        · exact .inr (.inr (hnil _ e h2 he))
      · obtain ⟨hforced, hevents⟩ := ih ((s0.processAll c env s.completionQueue).2.schedule c env)
          (completed ++ s.completionQueue)
        refine ⟨hforced.trans h2.forced, fun e he => ?_⟩
        rcases hevents e he with he | he | he
        · exact (List.mem_append.mp he).imp id .inl
        · exact .inr (.inr (hnil _ e h2 he))
        · exact .inr (.inr (h2.forced ▸ he))

theorem pollCompletedEvents_events (s : WorkManager κ π) (engineEvents : List CompletionEvent) (after : Bool) :
    (s.pollCompletedEvents c env engineEvents after).2.forcedAttempt = s.forcedAttempt ∧
    ∀ e, e ∈ (s.pollCompletedEvents c env engineEvents after).1 ∨
        e ∈ (s.pollCompletedEvents c env engineEvents after).2.completionQueue →
      e ∈ s.completionQueue ∨ e ∈ engineEvents ∨ s.forcedAttempt = some e.attempt := by
  obtain ⟨hforced, hevents⟩ := @pollLoop_events κ π _ c env after s.scheduleFuel
    { s with completionQueue := s.completionQueue ++ engineEvents } []
  refine ⟨hforced, fun e he => ?_⟩
  rcases hevents e he with he | he | he
  · cases he
  · exact (List.mem_append.mp he).imp id .inl
  · exact .inr (.inr he)

end Schedule

/-! ## Submission and rebalance -/

theorem forceFail_events (s : WorkManager κ π) (tp : TopicPartition) (offset epoch : Int) (error : String)
    (attempt : Int) :
    (s.forceFail tp offset epoch error attempt).2.forcedAttempt = s.forcedAttempt ∧
    ∀ e ∈ (s.forceFail tp offset epoch error attempt).2.completionQueue,
      e ∈ s.completionQueue ∨ e.attempt = attempt := by
  have hput : ∀ {q : List CompletionEvent} {x e : CompletionEvent}, x.attempt = attempt → e ∈ q ++ [x] →
      e ∈ q ∨ e.attempt = attempt := by
    intro q x e hx he
    rcases List.mem_append.mp he with he | he
    · exact .inl he
    · exact .inr (List.mem_singleton.mp he ▸ hx)
  unfold forceFail
  dsimp only
  split
  · exact ⟨rfl, fun e he => hput rfl he⟩
  · split
    · exact ⟨rfl, fun e he => hput rfl he⟩
    · exact ⟨rfl, fun e he => .inl he⟩

theorem eventFrame_createItems (tp : TopicPartition) (key : κ) (ms : List (QueuedMessage κ π)) :
    ∀ s : WorkManager κ π, EventFrame s (createItems tp key s ms).2 := by
  induction ms with
  | nil => intro s; exact .refl s
  | cons m ms ih =>
    intro s
    have h : EventFrame s (submitOne tp key s m).2 := .same rfl rfl
    exact h.trans (ih _)

theorem eventFrame_submitGroups (groups : List (QueueKey κ × List (QueuedMessage κ π))) :
    ∀ (s : WorkManager κ π) (d : Dict TopicPartition Int), EventFrame s (s.submitGroups d groups).1 := by
  induction groups with
  | nil => intro s d; exact .refl s
  | cons g groups ih =>
    intro s d
    obtain ⟨k, ms⟩ := g
    simp only [submitGroups]
    split
    · have h : EventFrame s (s.submitGroup k ms) :=
        .trans (eventFrame_createItems k.1 k.2 ms s) (.same rfl rfl)
      exact h.trans (ih _ _)
    · exact .refl s

theorem eventFrame_updateLastFetched (l : List (TopicPartition × Int)) :
    ∀ s : WorkManager κ π, EventFrame s (l.foldl updateLastFetched s) := by
  induction l with
  | nil => intro s; exact .refl s
  | cons e l ih =>
    intro s
    refine .trans ?_ (ih _)
    unfold updateLastFetched
    split
    · exact .refl s
    · exact .same rfl rfl

theorem eventFrame_submitMessageBatch (s : WorkManager κ π)
    (groups : List (QueueKey κ × List (QueuedMessage κ π))) :
    EventFrame s (s.submitMessageBatch groups).1 := by
  have h := eventFrame_submitGroups groups s .empty
  unfold submitMessageBatch
  split
  · rename_i s1 e heq
    rw [heq] at h; exact h
  · rename_i s1 d heq
    rw [heq] at h
    split
    · exact h
    · exact (h.trans (eventFrame_updateLastFetched d.entries s1)).trans (.same rfl rfl)

theorem eventFrame_onAssign (c : WorkManagerConfig) (s : WorkManager κ π)
    (l : List (TopicPartition × TrackerOrOffset)) : EventFrame s (s.onAssign c l) := by
  have hone : ∀ (l : List (TopicPartition × TrackerOrOffset)) (s : WorkManager κ π),
      EventFrame s (l.foldl (assignOne c) s) := by
    intro l
    induction l with
    | nil => intro s; exact .refl s
    | cons a l ih =>
      intro s
      refine .trans ?_ (ih _)
      obtain ⟨tp, o⟩ := a
      cases o with
      | offset => exact .same rfl rfl
      | tracker => exact .same rfl rfl
  exact (hone l s).trans (.same rfl rfl)

theorem eventFrame_onRevoke (c : WorkManagerConfig) (s : WorkManager κ π) (tps : List TopicPartition) :
    EventFrame s (s.onRevoke c tps) := by
  have hone : ∀ (tps : List TopicPartition) (s : WorkManager κ π), EventFrame s (tps.foldl revokeOne s) := by
    intro tps
    induction tps with
    | nil => intro s; exact .refl s
    | cons tp tps ih =>
      intro s
      refine .trans (t := revokeOne s tp) ⟨?_, fun e he => .inl he⟩ (ih _)
      simp only [forcedAttempt, revokeOne, Option.map_map]
      rfl
  refine onRevoke_induction c (hone tps s) (fun t id ht => ?_) (fun t ht => ?_) (fun t ht => ?_)
  · exact ht.trans (eventFrame_releaseInFlightItem t id false)
  · exact ht.trans (.same rfl rfl)
  · exact ht.trans (.same rfl rfl)

end WorkManager

end PyrallelConsumer
