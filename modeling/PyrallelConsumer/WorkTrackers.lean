import PyrallelConsumer.WorkManager
import PyrallelConsumer.TrackerCore

/-!
# PyrallelConsumer.WorkTrackers

What the work manager does to the trackers. The poller owns the trackers it assigns: the manager only
raises their last fetched offset, and leaves committing and completing to the poller.

* `TrackerFrame` — the same trackers are installed and shared, and none has another last committed
  offset, completed set or epoch.
* `trackerFrame_schedule`, `trackerFrame_pollCompletedEvents` — scheduling and polling keep the frame
  when every tracker is shared.
-/

set_option linter.unusedSectionVars false

namespace PyrallelConsumer

namespace WorkManager

variable {κ π : Type} [DecidableEq κ]

def coreAt (s : WorkManager κ π) (r : TrackerRef) : Option OffsetTracker.Core :=
  (s.trackerAt r).map (·.core)

structure TrackerFrame (s s' : WorkManager κ π) : Prop where
  heap : s'.heap.map (·.core) = s.heap.map (·.core)
  offsetTrackers : s'.offsetTrackers = s.offsetTrackers
  sharedOffsetTrackers : s'.sharedOffsetTrackers = s.sharedOffsetTrackers

/-- Every installed tracker belongs to the poller. -/
def AllShared (s : WorkManager κ π) : Prop :=
  ∀ tp, (s.offsetTrackers.get? tp).isSome → tp ∈ s.sharedOffsetTrackers

namespace TrackerFrame

theorem refl (s : WorkManager κ π) : TrackerFrame s s := ⟨rfl, rfl, rfl⟩

theorem trans {s t u : WorkManager κ π} (h : TrackerFrame s t) (h' : TrackerFrame t u) :
    TrackerFrame s u :=
  ⟨h'.heap.trans h.heap, h'.offsetTrackers.trans h.offsetTrackers,
   h'.sharedOffsetTrackers.trans h.sharedOffsetTrackers⟩

theorem coreAt {s s' : WorkManager κ π} (h : TrackerFrame s s') (r : TrackerRef) :
    s'.coreAt r = s.coreAt r := by
  have := congrArg (·[r]?) h.heap
  simpa only [WorkManager.coreAt, trackerAt, List.getElem?_map] using this

theorem length {s s' : WorkManager κ π} (h : TrackerFrame s s') : s'.heap.length = s.heap.length := by
  simpa using congrArg List.length h.heap

theorem allShared {s s' : WorkManager κ π} (h : TrackerFrame s s') (hs : s.AllShared) :
    s'.AllShared := by
  unfold AllShared
  rw [h.offsetTrackers, h.sharedOffsetTrackers]
  exact hs

end TrackerFrame

theorem coreAt_eq_some {s : WorkManager κ π} {r : TrackerRef} {t : OffsetTracker}
    (h : s.trackerAt r = some t) : s.coreAt r = some t.core := by
  rw [coreAt, h]; rfl

theorem trackerFrame_modifyTracker (s : WorkManager κ π) (r : TrackerRef)
    {f : OffsetTracker → OffsetTracker} (hf : ∀ t, (f t).core = t.core) :
    TrackerFrame s (s.modifyTracker r f) := by
  refine ⟨?_, rfl, rfl⟩
  refine List.ext_getElem? fun i => ?_
  rw [List.getElem?_map, List.getElem?_map, modifyTracker, List.getElem?_modify]
  cases s.heap[i]? with
  | none => rfl
  | some t =>
    simp only [Option.map_eq_map, Option.map_some]
    split
    · rw [hf]
    · rfl

/-! ## Submission -/

theorem trackerFrame_createItems (tp : TopicPartition) (key : κ) (ms : List (QueuedMessage κ π)) :
    ∀ s : WorkManager κ π, TrackerFrame s (createItems tp key s ms).2 := by
  induction ms with
  | nil => intro s; exact .refl s
  | cons m ms ih =>
    intro s
    have h : TrackerFrame s (submitOne tp key s m).2 := ⟨rfl, rfl, rfl⟩
    exact h.trans (ih _)

theorem trackerFrame_submitGroup (s : WorkManager κ π) (k : QueueKey κ)
    (ms : List (QueuedMessage κ π)) : TrackerFrame s (s.submitGroup k ms) :=
  .trans (trackerFrame_createItems k.1 k.2 ms s) ⟨rfl, rfl, rfl⟩

theorem trackerFrame_submitGroups (groups : List (QueueKey κ × List (QueuedMessage κ π))) :
    ∀ (s : WorkManager κ π) (d : Dict TopicPartition Int),
      TrackerFrame s (s.submitGroups d groups).1 := by
  induction groups with
  | nil => intro s d; exact .refl s
  | cons g groups ih =>
    intro s d
    obtain ⟨k, ms⟩ := g
    simp only [submitGroups]
    split
    · exact .trans (trackerFrame_submitGroup s k ms) (ih _ _)
    · exact .refl s

theorem trackerFrame_updateLastFetched (l : List (TopicPartition × Int)) :
    ∀ s : WorkManager κ π, TrackerFrame s (l.foldl updateLastFetched s) := by
  induction l with
  | nil => intro s; exact .refl s
  | cons e l ih =>
    intro s
    refine .trans ?_ (ih _)
    unfold updateLastFetched
    split
    · exact .refl s
    · exact trackerFrame_modifyTracker s _ fun t => t.core_updateLastFetchedOffset e.2

theorem trackerFrame_submitMessageBatch (s : WorkManager κ π)
    (groups : List (QueueKey κ × List (QueuedMessage κ π))) :
    TrackerFrame s (s.submitMessageBatch groups).1 := by
  have h := trackerFrame_submitGroups groups s .empty
  unfold submitMessageBatch
  split
  · rename_i s1 e heq
    rw [heq] at h; exact h
  · rename_i s1 d heq
    rw [heq] at h
    split
    · exact h
    · exact (h.trans (trackerFrame_updateLastFetched d.entries s1)).trans ⟨rfl, rfl, rfl⟩

theorem trackerFrame_forceFail (s : WorkManager κ π) (tp : TopicPartition) (offset epoch : Int)
    (error : String) (attempt : Int) :
    TrackerFrame s (s.forceFail tp offset epoch error attempt).2 := by
  unfold forceFail
  dsimp only
  split
  · exact ⟨rfl, rfl, rfl⟩
  · split <;> exact ⟨rfl, rfl, rfl⟩

/-! ## Scheduling -/

section Schedule

variable {c : WorkManagerConfig} {env : Env κ π}

theorem trackerFrame_blockingOffsetsFrom (l : List (TopicPartition × TrackerRef)) :
    ∀ (s : WorkManager κ π) (acc : Dict TopicPartition (Option OffsetRange)),
      (∀ e ∈ l, e.1 ∈ s.sharedOffsetTrackers) → TrackerFrame s (s.blockingOffsetsFrom acc l).2 := by
  induction l with
  | nil => intro s acc _; exact .refl s
  | cons e l ih =>
    intro s acc h
    obtain ⟨tp, r⟩ := e
    simp only [blockingOffsetsFrom, if_pos (h (tp, r) (by simp))]
    exact ih s _ fun e he => h e (List.mem_cons_of_mem _ he)

theorem trackerFrame_cachedBlockingOffsets (s : WorkManager κ π) (h : s.AllShared) :
    TrackerFrame s (s.cachedBlockingOffsets c).2 := by
  unfold cachedBlockingOffsets
  split
  · refine .trans (trackerFrame_blockingOffsetsFrom s.offsetTrackers.entries s .empty ?_)
      ⟨rfl, rfl, rfl⟩
    intro e he
    refine h e.1 ?_
    rw [(Dict.mem_entries_iff s.offsetTrackers).mp (show (e.1, e.2) ∈ _ from he)]
    rfl
  · exact ⟨rfl, rfl, rfl⟩

theorem trackerFrame_pickQueueKey (s : WorkManager κ π)
    (b : Dict TopicPartition (Option OffsetRange)) : TrackerFrame s (s.pickQueueKey c b).2 := by
  unfold pickQueueKey
  split <;> exact ⟨rfl, rfl, rfl⟩

theorem trackerFrame_shouldForceFail (s : WorkManager κ π) (x : WorkItem κ π) :
    TrackerFrame s (s.shouldForceFail env x).2 := by
  unfold shouldForceFail
  split <;> exact ⟨rfl, rfl, rfl⟩

theorem trackerFrame_forceFailQueuedItem (s : WorkManager κ π) (x : WorkItem κ π) (k : QueueKey κ) :
    TrackerFrame s (s.forceFailQueuedItem env x k).2 := by
  have h := @trackerFrame_shouldForceFail κ π _ env s x
  unfold forceFailQueuedItem
  dsimp only
  split
  · exact h
  · split
    · exact h
    · split
      · exact h.trans ⟨rfl, rfl, rfl⟩
      · exact h.trans ⟨rfl, rfl, rfl⟩

theorem trackerFrame_truncateBatch (items : List (WorkItem κ π)) :
    ∀ s : WorkManager κ π, TrackerFrame s (s.truncateBatchBeforeForceFail env items).2 := by
  induction items with
  | nil => intro s; exact .refl s
  | cons x items ih =>
    intro s
    have h := @trackerFrame_shouldForceFail κ π _ env s x
    simp only [truncateBatchBeforeForceFail]
    split
    · rename_i s1 heq; rw [heq] at h; exact h
    · rename_i s1 heq; rw [heq] at h; exact h.trans (ih s1)

theorem trackerFrame_recordSubmittedItems (items : List (WorkItem κ π)) :
    ∀ s : WorkManager κ π, TrackerFrame s (recordSubmittedItems c s items) := by
  induction items with
  | nil => intro s; exact .refl s
  | cons x items ih =>
    intro s
    refine .trans ?_ (ih (recordSubmittedItem c s x))
    unfold recordSubmittedItem recordOrderingLock
    split <;> exact ⟨rfl, rfl, rfl⟩

theorem trackerFrame_acceptItems (s : WorkManager κ π) (k : QueueKey κ) (n : Nat) :
    TrackerFrame s (s.acceptItems c k n).2 := by
  unfold acceptItems
  dsimp only
  have h := trackerFrame_recordSubmittedItems (c := c)
    (s.queueTopology.dequeueSubmittedItems k.1 k.2 n).1
    { s with queueTopology := (s.queueTopology.dequeueSubmittedItems k.1 k.2 n).2 }
  exact ⟨h.heap, h.offsetTrackers, h.sharedOffsetTrackers⟩

theorem trackerFrame_submitLease (s : WorkManager κ π) (d : List (QueueKey κ)) (k : QueueKey κ)
    (queue : List (WorkItem κ π)) (head : WorkItem κ π) (lease : List (WorkItem κ π)) (b : Bool) :
    TrackerFrame s (s.submitLease c env d k queue head lease b).2.1 := by
  have haccept : ∀ (t : WorkManager κ π) (n : Nat), TrackerFrame s t →
      TrackerFrame s (t.acceptItems c k n).2 := fun t n ht => ht.trans (trackerFrame_acceptItems t k n)
  unfold submitLease
  dsimp only
  split
  · have h := haccept (({ s with engineCalls := s.engineCalls + 1 } : WorkManager κ π).record
      (.handed lease)) lease.length ⟨rfl, rfl, rfl⟩
    split
    · exact h
    · split
      · exact h.trans ⟨rfl, rfl, rfl⟩
      · exact h
  · split
    · exact haccept _ _ ⟨rfl, rfl, rfl⟩
    · exact ⟨rfl, rfl, rfl⟩
  · exact ⟨rfl, rfl, rfl⟩

theorem trackerFrame_serveQueue (s : WorkManager κ π) (d : List (QueueKey κ)) (k : QueueKey κ)
    (head : WorkItem κ π) (rest : List (WorkItem κ π)) :
    TrackerFrame s (s.serveQueue c env d k head rest).2.1 := by
  have hforce := @trackerFrame_forceFailQueuedItem κ π _ env s head k
  unfold serveQueue
  dsimp only
  split
  · exact .refl s
  · split
    · rename_i s1 heq; rw [heq] at hforce; exact hforce
    · rename_i s1 heq
      rw [heq] at hforce
      have htrunc := @trackerFrame_truncateBatch κ π _ env
        ((head :: rest).take (s.resolveRouteBatchLimit c)) s1
      split
      · rename_i s2 heq2; rw [heq2] at htrunc; exact hforce.trans htrunc
      · rename_i x lease s2 heq2
        rw [heq2] at htrunc
        exact (hforce.trans htrunc).trans (trackerFrame_submitLease _ _ _ _ _ _ _)

theorem trackerFrame_scheduleStep (b : Dict TopicPartition (Option OffsetRange))
    (s : WorkManager κ π) (d : List (QueueKey κ)) :
    TrackerFrame s (s.scheduleStep c env b d).2.1 := by
  have hpick := trackerFrame_pickQueueKey (c := c) s b
  unfold scheduleStep
  split
  · exact .refl s
  · split
    · exact .refl s
    · split
      · rename_i s1 heq; rw [heq] at hpick; exact hpick
      · rename_i k s1 heq
        rw [heq] at hpick
        split
        · exact hpick.trans ⟨rfl, rfl, rfl⟩
        · exact hpick.trans ⟨rfl, rfl, rfl⟩
        · exact hpick.trans (trackerFrame_serveQueue _ _ _ _ _)

theorem trackerFrame_scheduleLoop (b : Dict TopicPartition (Option OffsetRange)) (fuel : Nat) :
    ∀ (s : WorkManager κ π) (d : List (QueueKey κ)),
      TrackerFrame s (s.scheduleLoop c env b fuel d).1 := by
  induction fuel with
  | zero => intro s d; exact .refl s
  | succ fuel ih =>
    intro s d
    have h := @trackerFrame_scheduleStep κ π _ c env b s d
    simp only [scheduleLoop]
    split
    · rename_i s1 d1 heq; rw [heq] at h; exact h
    · rename_i s1 d1 heq; rw [heq] at h; exact h.trans (ih s1 d1)

theorem trackerFrame_reactivate (l : List (QueueKey κ)) :
    ∀ s : WorkManager κ π, TrackerFrame s (l.foldl reactivate s) := by
  induction l with
  | nil => intro s; exact .refl s
  | cons k l ih =>
    intro s
    refine .trans ?_ (ih _)
    unfold reactivate
    split <;> exact ⟨rfl, rfl, rfl⟩

theorem trackerFrame_schedule (s : WorkManager κ π) (h : s.AllShared) :
    TrackerFrame s (s.schedule c env) := by
  have h1 := trackerFrame_cachedBlockingOffsets (c := c) s h
  have h2 := @trackerFrame_scheduleLoop κ π _ c env (s.cachedBlockingOffsets c).1
    (s.cachedBlockingOffsets c).2.scheduleFuel (s.cachedBlockingOffsets c).2 []
  unfold schedule
  dsimp only
  exact (h1.trans h2).trans (trackerFrame_reactivate _ _)

/-! ## Completion -/

theorem trackerFrame_releaseInFlightItem (s : WorkManager κ π) (id : WorkId) (b : Bool) :
    TrackerFrame s (releaseInFlightItem c s id b).2 := by
  unfold releaseInFlightItem
  split
  · exact ⟨rfl, rfl, rfl⟩
  · dsimp only
    split
    · unfold releaseOrderingLock
      split
      · dsimp only
        split <;> exact ⟨rfl, rfl, rfl⟩
      · dsimp only
        split <;> exact ⟨rfl, rfl, rfl⟩
      · exact ⟨rfl, rfl, rfl⟩
    · exact ⟨rfl, rfl, rfl⟩

theorem trackerFrame_recordCompletion (s : WorkManager κ π) (e : CompletionEvent) (x : WorkItem κ π) :
    TrackerFrame s (s.recordCompletion env e x) := by
  unfold recordCompletion
  split <;> exact ⟨rfl, rfl, rfl⟩

/-- A shared tracker is not marked by the work manager. -/
theorem trackerFrame_processCompletionEvent (s : WorkManager κ π) (h : s.AllShared)
    (e : CompletionEvent) : TrackerFrame s (s.processCompletionEvent c env e).2 := by
  have h0 : TrackerFrame s (s.record (.processed e)) := ⟨rfl, rfl, rfl⟩
  have hpop : ∀ t : WorkManager κ π, TrackerFrame s t → TrackerFrame s (t.popDispatchTimestamp e.id) :=
    fun t ht => ⟨ht.heap, ht.offsetTrackers, ht.sharedOffsetTrackers⟩
  unfold processCompletionEvent
  dsimp only
  split
  · exact ⟨rfl, rfl, rfl⟩
  · rename_i r hr
    have hshared : e.tp ∈ (s.record (.processed e)).sharedOffsetTrackers := by
      refine h e.tp ?_
      rw [show s.offsetTrackers.get? e.tp = some r from hr]
      rfl
    split
    · refine hpop _ ?_
      split
      · split
        · exact h0.trans (trackerFrame_releaseInFlightItem _ _ _)
        · exact h0
      · exact h0
    · split
      · exact hpop _ h0
      · refine hpop _ ?_
        exact (h0.trans (trackerFrame_recordCompletion _ _ _)).trans
          (trackerFrame_releaseInFlightItem _ _ _)

theorem trackerFrame_processAll (events : List CompletionEvent) :
    ∀ s : WorkManager κ π, s.AllShared → TrackerFrame s (s.processAll c env events).2 := by
  induction events with
  | nil => intro s _; exact .refl s
  | cons e events ih =>
    intro s h
    have h1 := @trackerFrame_processCompletionEvent κ π _ c env s h e
    exact h1.trans (ih _ (h1.allShared h))

theorem trackerFrame_pollLoop (after : Bool) (fuel : Nat) :
    ∀ (s : WorkManager κ π) (completed : List CompletionEvent), s.AllShared →
      TrackerFrame s (pollLoop c env after fuel s completed).2 := by
  induction fuel with
  | zero => intro s completed _; exact .refl s
  | succ fuel ih =>
    intro s completed h
    have h0 : TrackerFrame s { s with completionQueue := [] } := ⟨rfl, rfl, rfl⟩
    have h1 := h0.trans (@trackerFrame_processAll κ π _ c env s.completionQueue _
      (h0.allShared h))
    simp only [pollLoop]
    split
    · exact h1
    · have h2 := h1.trans (@trackerFrame_schedule κ π _ c env _ (h1.allShared h))
      split
      · exact h2
      · exact h2.trans (ih _ _ (h2.allShared h))

theorem trackerFrame_pollCompletedEvents (s : WorkManager κ π) (h : s.AllShared)
    (events : List CompletionEvent) (after : Bool) :
    TrackerFrame s (s.pollCompletedEvents c env events after).2 := by
  have h0 : TrackerFrame s { s with completionQueue := s.completionQueue ++ events } :=
    ⟨rfl, rfl, rfl⟩
  exact h0.trans (trackerFrame_pollLoop after _ _ _ (h0.allShared h))

end Schedule

/-! ## Rebalance -/

/-- Revocation forgets trackers and changes none. -/
theorem onRevoke_trackers (c : WorkManagerConfig) (s : WorkManager κ π) (tps : List TopicPartition) :
    (s.onRevoke c tps).heap.map (·.core) = s.heap.map (·.core) ∧
    (s.onRevoke c tps).offsetTrackers = tps.foldl Dict.erase s.offsetTrackers ∧
    (s.onRevoke c tps).sharedOffsetTrackers = tps.foldl discardKey s.sharedOffsetTrackers := by
  have hone : ∀ (tps : List TopicPartition) (s : WorkManager κ π),
      (tps.foldl revokeOne s).heap = s.heap ∧
      (tps.foldl revokeOne s).offsetTrackers = tps.foldl Dict.erase s.offsetTrackers ∧
      (tps.foldl revokeOne s).sharedOffsetTrackers = tps.foldl discardKey s.sharedOffsetTrackers := by
    intro tps
    induction tps with
    | nil => intro s; exact ⟨rfl, rfl, rfl⟩
    | cons tp tps ih => intro s; exact ih (revokeOne s tp)
  obtain ⟨h1, h2, h3⟩ := hone tps s
  refine onRevoke_induction c (P := fun t => t.heap.map (·.core) = s.heap.map (·.core) ∧
    t.offsetTrackers = tps.foldl Dict.erase s.offsetTrackers ∧
    t.sharedOffsetTrackers = tps.foldl discardKey s.sharedOffsetTrackers) ?_ ?_ (fun _ ht => ht) (fun _ ht => ht)
  · exact ⟨congrArg _ h1, h2, h3⟩
  · rintro t id ⟨g1, g2, g3⟩
    have g := trackerFrame_releaseInFlightItem (c := c) t id false
    exact ⟨g.heap.trans g1, g.offsetTrackers.trans g2, g.sharedOffsetTrackers.trans g3⟩

end WorkManager

end PyrallelConsumer
