import PyrallelConsumer.WorkExclusion

/-!
# PyrallelConsumer.WorkBooks

What scheduling and polling do to the books of the work manager: the index of ids by offset, the events
that wait, and the history. A poll processes the events that it returns and no others, and the only new
events are forced failures of poisoned items.

* `Books` — the books after an operation. One lemma for each operation.
* `books_schedule`, `books_pollCompletedEvents` — the two operations as a whole.
* `enqueuedItems_eq` — neither enqueues anything.
-/

set_option linter.unusedSectionVars false

namespace PyrallelConsumer

variable {κ π : Type} [DecidableEq κ]

/-- The event reports the work item. -/
structure CompletionEvent.Echoes (e : CompletionEvent) (x : WorkItem κ π) : Prop where
  id : e.id = x.id
  tp : e.tp = x.tp
  offset : e.offset = x.offset
  epoch : e.epoch = x.epoch

/-- The entry is of work handed over, of a poisoned item, or of one of the events. -/
inductive BooksEntry (events : List CompletionEvent) : Entry κ π → Prop where
  | handed (lease : List (WorkItem κ π)) : BooksEntry events (.handed lease)
  | poisoned (x : WorkItem κ π) : BooksEntry events (.poisoned x)
  | processed (e : CompletionEvent) (he : e ∈ events) : BooksEntry events (.processed e)

namespace WorkManager

/-- The books after an operation that processed the events. -/
structure Books (events : List CompletionEvent) (s s' : WorkManager κ π) : Prop where
  log : ∃ l, s'.log = l ++ s.log ∧ ∀ entry ∈ l, BooksEntry events entry
  index : ∀ k id, s'.workItemIdsByTpOffset.get? k = some id → s.workItemIdsByTpOffset.get? k = some id
  waiting : ∀ e ∈ s'.completionQueue, e ∈ s.completionQueue ∨ ∃ x, .poisoned x ∈ s'.log ∧ e.Echoes x ∧ e.status = .failure

namespace Books

variable {events events' : List CompletionEvent} {s s' s'' : WorkManager κ π}

/-- Nothing about the books changes, except that events may be taken off the queue. -/
theorem same (hlog : s'.log = s.log) (hindex : s'.workItemIdsByTpOffset = s.workItemIdsByTpOffset)
    (hqueue : ∀ e ∈ s'.completionQueue, e ∈ s.completionQueue) : Books events s s' :=
  ⟨⟨[], hlog, by simp⟩, fun _ _ h => hindex ▸ h, fun e he => .inl (hqueue e he)⟩

theorem refl (s : WorkManager κ π) : Books events s s := same rfl rfl fun _ h => h

theorem mono (h : Books events s s') (hsub : ∀ e ∈ events, e ∈ events') : Books events' s s' := by
  obtain ⟨l, hl, hentries⟩ := h.log
  refine ⟨⟨l, hl, fun entry he => ?_⟩, h.index, h.waiting⟩
  cases hentries entry he with
  | handed lease => exact .handed lease
  | poisoned x => exact .poisoned x
  | processed e hmem => exact .processed e (hsub e hmem)

theorem trans (h : Books events s s') (h' : Books events s' s'') : Books events s s'' := by
  obtain ⟨l, hl, hentries⟩ := h.log
  obtain ⟨l', hl', hentries'⟩ := h'.log
  refine ⟨⟨l' ++ l, by rw [hl', hl, List.append_assoc], fun entry he => ?_⟩,
    fun k id hk => h.index k id (h'.index k id hk), fun e he => ?_⟩
  · exact (List.mem_append.mp he).elim (hentries' entry) (hentries entry)
  · rcases h'.waiting e he with he | he
    · refine (h.waiting e he).imp_right ?_
      rintro ⟨x, hx, hecho⟩
      exact ⟨x, by rw [hl']; exact List.mem_append_right _ hx, hecho⟩
    · exact .inr he

/-- Work is handed over or a completion is recorded. -/
theorem recorded {entry : Entry κ π} (hentry : BooksEntry events entry) (s : WorkManager κ π) :
    Books events s (s.record entry) :=
  ⟨⟨[entry], rfl, by simpa using hentry⟩, fun _ _ h => h, fun _ h => .inl h⟩

theorem enqueuedItems_eq (h : Books events s s') : WorkLog.enqueuedItems s'.log = WorkLog.enqueuedItems s.log := by
  obtain ⟨l, hl, hentries⟩ := h.log
  rw [hl]
  clear hl
  induction l with
  | nil => rfl
  | cons entry l ih =>
    have hrest := ih fun e he => hentries e (List.mem_cons_of_mem _ he)
    cases hentries entry List.mem_cons_self with
    | handed => exact hrest
    | poisoned => exact hrest
    | processed => exact hrest

end Books

section Operations

variable {c : WorkManagerConfig} {env : Env κ π} {events : List CompletionEvent}

/-! ## Scheduling -/

theorem books_blockingOffsetsFrom (l : List (TopicPartition × TrackerRef)) :
    ∀ (s : WorkManager κ π) (acc : Dict TopicPartition (Option OffsetRange)),
      Books events s (s.blockingOffsetsFrom acc l).2 := by
  induction l with
  | nil => intro s acc; exact .refl s
  | cons e l ih =>
    intro s acc
    obtain ⟨tp, r⟩ := e
    simp only [blockingOffsetsFrom]
    refine .trans ?_ (ih _ _)
    split
    · exact .refl s
    · exact .same rfl rfl fun _ h => h

theorem books_cachedBlockingOffsets (s : WorkManager κ π) : Books events s (s.cachedBlockingOffsets c).2 := by
  unfold cachedBlockingOffsets
  split
  · exact (books_blockingOffsetsFrom s.offsetTrackers.entries s .empty).trans (.same rfl rfl fun _ h => h)
  · exact .same rfl rfl fun _ h => h

theorem books_pickQueueKey (s : WorkManager κ π) (b : Dict TopicPartition (Option OffsetRange)) :
    Books events s (s.pickQueueKey c b).2 := by
  unfold pickQueueKey
  split <;> exact .same rfl rfl fun _ h => h

theorem books_shouldForceFail (s : WorkManager κ π) (x : WorkItem κ π) :
    Books events s (s.shouldForceFail env x).2 := by
  unfold shouldForceFail
  split
  · exact .refl s
  · exact .same rfl rfl fun _ h => h

/-- The forced failure reports the item that it takes off its queue. -/
theorem books_forceFailQueuedItem (s : WorkManager κ π) (x : WorkItem κ π) (k : QueueKey κ) :
    Books events s (s.forceFailQueuedItem env x k).2 := by
  have h := @books_shouldForceFail κ π _ env events s x
  unfold forceFailQueuedItem
  dsimp only
  split
  · exact h
  · rename_i circuit _
    split
    · exact h
    · split
      · exact h.trans (.same rfl rfl fun _ h => h)
      · rename_i y _
        refine h.trans ⟨⟨[.poisoned y], rfl, by simpa using BooksEntry.poisoned y⟩, fun _ _ h => h,
          fun e he => ?_⟩
        rcases List.mem_append.mp he with he | he
        · exact .inl he
        · cases List.mem_singleton.mp he
          exact .inr ⟨y, List.mem_cons_self, ⟨rfl, rfl, rfl, rfl⟩, rfl⟩

theorem books_truncateBatch (items : List (WorkItem κ π)) :
    ∀ s : WorkManager κ π, Books events s (s.truncateBatchBeforeForceFail env items).2 := by
  induction items with
  | nil => intro s; exact .refl s
  | cons x items ih =>
    intro s
    have h := @books_shouldForceFail κ π _ env events s x
    simp only [truncateBatchBeforeForceFail]
    split
    · rename_i s1 heq; rw [heq] at h; exact h
    · rename_i s1 heq; rw [heq] at h; exact h.trans (ih s1)

theorem books_acceptItems (s : WorkManager κ π) (k : QueueKey κ) (n : Nat) :
    Books events s (s.acceptItems c k n).2 := by
  have hrecord : ∀ (items : List (WorkItem κ π)) (s : WorkManager κ π),
      Books events s (recordSubmittedItems c s items) := by
    intro items
    induction items with
    | nil => intro s; exact .refl s
    | cons x items ih =>
      intro s
      refine .trans ?_ (ih (recordSubmittedItem c s x))
      unfold recordSubmittedItem recordOrderingLock
      split <;> exact .same rfl rfl fun _ h => h
  unfold acceptItems
  dsimp only
  have hdequeued : Books events s { s with queueTopology := (s.queueTopology.dequeueSubmittedItems k.1 k.2 n).2 } :=
    .same rfl rfl fun _ h => h
  exact hdequeued.trans (hrecord _ _)

theorem books_submitLease (s : WorkManager κ π) (d : List (QueueKey κ)) (k : QueueKey κ)
    (queue : List (WorkItem κ π)) (head : WorkItem κ π) (lease : List (WorkItem κ π)) (b : Bool) :
    Books events s (s.submitLease c env d k queue head lease b).2.1 := by
  have hcall : Books events s { s with engineCalls := s.engineCalls + 1 } := .same rfl rfl fun _ h => h
  have haccept : ∀ (items : List (WorkItem κ π)) (n : Nat), Books events s
      ((({ s with engineCalls := s.engineCalls + 1 } : WorkManager κ π).record (.handed items)).acceptItems c k n).2 :=
    fun items n => (hcall.trans (.recorded (.handed items) _)).trans (books_acceptItems _ k n)
  unfold submitLease
  dsimp only
  split
  · have h := haccept lease lease.length
    split
    · exact h
    · split
      · exact h.trans (.same rfl rfl fun _ h => h)
      · exact h
  · split
    · exact haccept _ _
    · exact .same rfl rfl fun _ h => h
  · exact .same rfl rfl fun _ h => h

theorem books_serveQueue (s : WorkManager κ π) (d : List (QueueKey κ)) (k : QueueKey κ)
    (head : WorkItem κ π) (rest : List (WorkItem κ π)) :
    Books events s (s.serveQueue c env d k head rest).2.1 := by
  have hforce := @books_forceFailQueuedItem κ π _ env events s head k
  unfold serveQueue
  dsimp only
  split
  · exact .refl s
  · split
    · rename_i s1 heq; rw [heq] at hforce; exact hforce
    · rename_i s1 heq
      rw [heq] at hforce
      have htrunc := @books_truncateBatch κ π _ env events ((head :: rest).take (s.resolveRouteBatchLimit c)) s1
      split
      · rename_i s2 heq2; rw [heq2] at htrunc; exact hforce.trans htrunc
      · rename_i x lease s2 heq2
        rw [heq2] at htrunc
        exact (hforce.trans htrunc).trans (books_submitLease _ _ _ _ _ _ _)

theorem books_scheduleLoop (b : Dict TopicPartition (Option OffsetRange)) (fuel : Nat) :
    ∀ (s : WorkManager κ π) (d : List (QueueKey κ)), Books events s (s.scheduleLoop c env b fuel d).1 := by
  induction fuel with
  | zero => intro s d; exact .refl s
  | succ fuel ih =>
    intro s d
    have h : Books events s (s.scheduleStep c env b d).2.1 := by
      have hpick := @books_pickQueueKey κ π _ c events s b
      unfold scheduleStep
      split
      · exact .refl s
      · split
        · exact .refl s
        · split
          · rename_i s1 heq; rw [heq] at hpick; exact hpick
          · rename_i k s1 heq
            rw [heq] at hpick
            split
            · exact hpick.trans (.same rfl rfl fun _ h => h)
            · exact hpick.trans (.same rfl rfl fun _ h => h)
            · exact hpick.trans (books_serveQueue _ _ _ _ _)
    simp only [scheduleLoop]
    split
    · rename_i s1 d1 heq; rw [heq] at h; exact h
    · rename_i s1 d1 heq; rw [heq] at h; exact h.trans (ih s1 d1)

theorem books_schedule (s : WorkManager κ π) : Books events s (s.schedule c env) := by
  have hreactivate : ∀ (l : List (QueueKey κ)) (s : WorkManager κ π), Books events s (l.foldl reactivate s) := by
    intro l
    induction l with
    | nil => intro s; exact .refl s
    | cons k l ih =>
      intro s
      refine .trans ?_ (ih _)
      unfold reactivate
      split <;> exact .same rfl rfl fun _ h => h
  have h1 := @books_cachedBlockingOffsets κ π _ c events s
  have h2 := @books_scheduleLoop κ π _ c env events (s.cachedBlockingOffsets c).1
    (s.cachedBlockingOffsets c).2.scheduleFuel (s.cachedBlockingOffsets c).2 []
  unfold schedule
  dsimp only
  exact (h1.trans h2).trans (hreactivate _ _)

/-! ## Polling -/

/-- An item that is released may leave the index. -/
theorem books_releaseInFlightItem (s : WorkManager κ π) (id : WorkId) (b : Bool) :
    Books events s (releaseInFlightItem c s id b).2 := by
  unfold releaseInFlightItem
  split
  · exact .same rfl rfl fun _ h => h
  · rename_i x _
    have hindex : ∀ k id', (if s.workItemIdsByTpOffset.get? (x.tp, x.offset) = some id then
        s.workItemIdsByTpOffset.erase (x.tp, x.offset) else s.workItemIdsByTpOffset).get? k = some id' →
        s.workItemIdsByTpOffset.get? k = some id' := by
      intro k id' hk
      split at hk
      · rw [Dict.get?_erase] at hk
        split at hk
        · cases hk
        · exact hk
      · exact hk
    dsimp only
    split
    · obtain ⟨keys, keyCounts, partitions, partitionCounts, heq⟩ := releaseOrderingLock_eq c
        ({ s with
          inFlightWorkItems := s.inFlightWorkItems.erase id
          dispatchTimestamps := discardKey s.dispatchTimestamps id
          workItemIdsByTpOffset := if s.workItemIdsByTpOffset.get? (x.tp, x.offset) = some id then
            s.workItemIdsByTpOffset.erase (x.tp, x.offset) else s.workItemIdsByTpOffset
          queueTopology := s.queueTopology.cleanupEmptyQueue x.tp x.key
          currentInFlightCount := s.currentInFlightCount - 1
          blockingCacheCounter := if b then 0 else s.blockingCacheCounter } : WorkManager κ π) x
      simp only [heq]
      exact ⟨⟨[], rfl, by simp⟩, hindex, fun _ h => .inl h⟩
    · exact ⟨⟨[], rfl, by simp⟩, hindex, fun _ h => .inl h⟩

theorem books_processCompletionEvent (s : WorkManager κ π) {e : CompletionEvent} (he : e ∈ events) :
    Books events s (s.processCompletionEvent c env e).2 := by
  have h0 : Books events s (s.record (.processed e)) := .recorded (.processed e he) s
  have hpop : ∀ t : WorkManager κ π, Books events s t → Books events s (t.popDispatchTimestamp e.id) :=
    fun t ht => ht.trans (.same rfl rfl fun _ h => h)
  unfold processCompletionEvent
  dsimp only
  split
  · exact hpop _ h0
  · split
    · refine hpop _ ?_
      split
      · split
        · exact h0.trans (books_releaseInFlightItem _ _ _)
        · exact h0
      · exact h0
    · rename_i r _ _
      have h1 : Books events s (if e.tp ∈ (s.record (.processed e)).sharedOffsetTrackers then s.record (.processed e)
          else ((s.record (.processed e)).modifyTracker r (·.markComplete e.offset)).invalidateBlockingCache) := by
        split
        · exact h0
        · exact h0.trans (.same rfl rfl fun _ h => h)
      split
      · exact hpop _ h1
      · rename_i x _
        have hcomplete : ∀ t : WorkManager κ π, Books events t (t.recordCompletion env e x) := by
          intro t
          unfold recordCompletion
          split
          · exact .refl t
          · exact .same rfl rfl fun _ h => h
        exact hpop _ ((h1.trans (hcomplete _)).trans (books_releaseInFlightItem _ _ _))

theorem books_processAll (l : List CompletionEvent) (hl : ∀ e ∈ l, e ∈ events) :
    ∀ s : WorkManager κ π, Books events s (s.processAll c env l).2 := by
  induction l with
  | nil => intro s; exact .refl s
  | cons e l ih =>
    intro s
    exact (books_processCompletionEvent s (hl e List.mem_cons_self)).trans
      (ih (fun e he => hl e (List.mem_cons_of_mem _ he)) _)

/-- **A poll.** It returns the events that it processed: those that waited, and forced failures. -/
theorem books_pollLoop (after : Bool) (fuel : Nat) :
    ∀ (s : WorkManager κ π) (completed : List CompletionEvent), ∃ events,
      (pollLoop c env after fuel s completed).1 = completed ++ events ∧
      Books events s (pollLoop c env after fuel s completed).2 ∧
      ∀ e ∈ events, e ∈ s.completionQueue ∨
        ∃ x, .poisoned x ∈ (pollLoop c env after fuel s completed).2.log ∧ e.Echoes x ∧ e.status = .failure := by
  induction fuel with
  | zero => intro s completed; exact ⟨[], by simp [pollLoop], .refl s, by simp⟩
  | succ fuel ih =>
    intro s completed
    let s0 : WorkManager κ π := { s with completionQueue := [] }
    have h0 : ∀ events, Books events s s0 := fun events => .same rfl rfl fun _ h => by cases h
    have h1 : Books s.completionQueue s (s0.processAll c env s.completionQueue).2 :=
      (h0 _).trans (books_processAll s.completionQueue (fun e he => he) s0)
    simp only [pollLoop]
    split
    · exact ⟨s.completionQueue, rfl, h1, fun e he => .inl he⟩
    · split
      · exact ⟨s.completionQueue, rfl, h1.trans (books_schedule _), fun e he => .inl he⟩
      · let s2 := (s0.processAll c env s.completionQueue).2.schedule c env
        obtain ⟨events, heq, hserved, horigin⟩ := ih s2 (completed ++ s.completionQueue)
        refine ⟨s.completionQueue ++ events, by rw [heq, List.append_assoc], ?_, fun e he => ?_⟩
        · have h2 : Books (s.completionQueue ++ events) s s2 :=
            (h1.trans (books_schedule _)).mono fun e he => List.mem_append_left _ he
          exact h2.trans (hserved.mono fun e he => List.mem_append_right _ he)
        · rcases List.mem_append.mp he with he | he
          · exact .inl he
          · rcases horigin e he with hwait | hpoisoned
            · -- an event that waited after scheduling was made by it
              have hs2 : ∃ x, .poisoned x ∈ s2.log ∧ e.Echoes x ∧ e.status = .failure := by
                have hsv := (@books_processAll κ π _ c env s.completionQueue s.completionQueue (fun e he => he) s0).trans
                  (@books_schedule κ π _ c env s.completionQueue (s0.processAll c env s.completionQueue).2)
                exact (hsv.waiting e hwait).resolve_left (by simp [s0])
              obtain ⟨x, hx, hecho⟩ := hs2
              obtain ⟨l, hl, -⟩ := hserved.log
              exact .inr ⟨x, by rw [hl]; exact List.mem_append_right _ hx, hecho⟩
            · exact .inr hpoisoned

theorem books_pollCompletedEvents (s : WorkManager κ π) (engineEvents : List CompletionEvent) (after : Bool) :
    Books (s.pollCompletedEvents c env engineEvents after).1
      { s with completionQueue := s.completionQueue ++ engineEvents }
      (s.pollCompletedEvents c env engineEvents after).2 ∧
    ∀ e ∈ (s.pollCompletedEvents c env engineEvents after).1, e ∈ s.completionQueue ++ engineEvents ∨
      ∃ x, .poisoned x ∈ (s.pollCompletedEvents c env engineEvents after).2.log ∧ e.Echoes x ∧ e.status = .failure := by
  obtain ⟨events, heq, hserved, horigin⟩ := @books_pollLoop κ π _ c env after s.scheduleFuel
    { s with completionQueue := s.completionQueue ++ engineEvents } []
  have hevents : (s.pollCompletedEvents c env engineEvents after).1 = events := heq
  rw [hevents]
  exact ⟨hserved, horigin⟩

end Operations

end WorkManager

end PyrallelConsumer
