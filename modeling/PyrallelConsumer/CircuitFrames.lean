import PyrallelConsumer.CircuitReads
import PyrallelConsumer.ScheduleIterations

/-!
# PyrallelConsumer.CircuitFrames

What the operations of the work manager do to the poison circuit, to its clock readings and to the queued
completions.

* `SamePoison` — the operations that leave them alone.
* `Shrunk`, `CircuitShrinks` — scheduling and revocation: circuits are dropped at most, events are added at
  most.
* `processCompletionEvent_recorded` — processing an event is `record_completion`, for the events that get there.
* `offer_of_closed` — the items whose circuit stays closed go to the engine.
-/

set_option linter.unusedSectionVars false

namespace PyrallelConsumer

variable {κ π : Type} [DecidableEq κ]

namespace PoisonMessageCircuitBreaker

/-- Circuits were dropped at most. -/
structure Shrunk (p p' : PoisonMessageCircuitBreaker κ) : Prop where
  config : p'.config = p.config
  states : ∀ k, p'.states.get? k = none ∨ p'.states.get? k = p.states.get? k

namespace Shrunk

theorem refl (p : PoisonMessageCircuitBreaker κ) : Shrunk p p := ⟨rfl, fun _ => .inr rfl⟩

theorem trans {p q r : PoisonMessageCircuitBreaker κ} (h : Shrunk p q) (h' : Shrunk q r) : Shrunk p r := by
  refine ⟨h'.config.trans h.config, fun k => ?_⟩
  rcases h'.states k with hk | hk
  · exact .inl hk
  · rw [hk]
    exact h.states k

/-- An item that may run may still run. -/
theorem shouldForceFail {p p' : PoisonMessageCircuitBreaker κ} (h : Shrunk p p') {now : Time} {x : WorkItem κ π}
    (hshut : (p'.shouldForceFail now x).1 = true) : (p.shouldForceFail now x).1 = true := by
  rw [shouldForceFail_fst, Bool.and_eq_true] at hshut ⊢
  obtain ⟨henabled, hopen⟩ := hshut
  have hconfig : p'.enabled = p.enabled := congrArg Prod.fst h.config
  refine ⟨hconfig ▸ henabled, ?_⟩
  rcases h.states (circuitKey x) with hk | hk
  · rw [hk] at hopen
    cases hopen
  · rw [hk] at hopen
    exact hopen

end Shrunk

theorem filter_or {β : Type} (f : β → Bool) (o : Option β) : o.filter f = none ∨ o.filter f = o := by
  cases o with
  | none => exact .inl rfl
  | some x =>
    by_cases hx : f x = true
    · exact .inr (by simp [Option.filter, hx])
    · exact .inl (by simp [Option.filter, hx])

theorem shrunk_shouldForceFail (p : PoisonMessageCircuitBreaker κ) (now : Time) (x : WorkItem κ π) :
    Shrunk p (p.shouldForceFail now x).2 := by
  refine ⟨config_shouldForceFail p now x, fun k => ?_⟩
  rw [get?_shouldForceFail]
  split
  · exact filter_or _ _
  · exact .inr rfl

theorem shrunk_getOpenCircuitCount (p : PoisonMessageCircuitBreaker κ) (now : Time) :
    Shrunk p (p.getOpenCircuitCount now).2 := by
  refine ⟨config_getOpenCircuitCount p now, fun k => ?_⟩
  rw [get?_getOpenCircuitCount]
  split
  · exact filter_or _ _
  · exact .inr rfl

theorem shrunk_clearPartition (p : PoisonMessageCircuitBreaker κ) (tp : TopicPartition) :
    Shrunk p (p.clearPartition tp) := by
  refine ⟨rfl, fun k => ?_⟩
  rw [get?_clearPartition]
  split
  · exact .inl rfl
  · exact .inr rfl

end PoisonMessageCircuitBreaker

namespace WorkManager

open PoisonMessageCircuitBreaker

/-- `get_poison_message_open_circuit_count`; the clock is read when the circuit is enabled. -/
def getPoisonMessageOpenCircuitCount (env : Env κ π) (s : WorkManager κ π) : Nat × WorkManager κ π :=
  match s.poisonMessageCircuit with
  | none => (0, s)
  | some circuit =>
    let (count, circuit) := circuit.getOpenCircuitCount (env.clock s.clockReads)
    (count, { s with poisonMessageCircuit := some circuit, clockReads := s.clockReads + 1 })

/-! ## The circuit is left alone -/

/-- The circuit, the number of its clock readings and the queued completions are the same. -/
structure SamePoison (s s' : WorkManager κ π) : Prop where
  circuit : s'.poisonMessageCircuit = s.poisonMessageCircuit
  clockReads : s'.clockReads = s.clockReads
  completionQueue : s'.completionQueue = s.completionQueue

theorem SamePoison.refl (s : WorkManager κ π) : SamePoison s s := ⟨rfl, rfl, rfl⟩

theorem SamePoison.trans {s t u : WorkManager κ π} (h : SamePoison s t) (h' : SamePoison t u) : SamePoison s u :=
  ⟨h'.circuit.trans h.circuit, h'.clockReads.trans h.clockReads, h'.completionQueue.trans h.completionQueue⟩

/-- A fold of operations that leave the circuit alone does too. -/
theorem samePoison_foldl {β : Type} {f : WorkManager κ π → β → WorkManager κ π} (hf : ∀ s x, SamePoison s (f s x))
    (l : List β) : ∀ s, SamePoison s (l.foldl f s) := by
  induction l with
  | nil => exact .refl
  | cons x l ih => exact fun s => (hf s x).trans (ih (f s x))

section Frames

variable {c : WorkManagerConfig} {env : Env κ π}

theorem samePoison_pickQueueKey (s : WorkManager κ π) (b : Dict TopicPartition (Option OffsetRange)) :
    SamePoison s (s.pickQueueKey c b).2 := by
  unfold pickQueueKey
  split
  · exact ⟨rfl, rfl, rfl⟩
  · exact ⟨rfl, rfl, rfl⟩

theorem samePoison_acceptItems (s : WorkManager κ π) (k : QueueKey κ) (n : Nat) :
    SamePoison s (s.acceptItems c k n).2 := by
  unfold acceptItems
  dsimp only
  obtain ⟨_, _, _, _, _, _, _, heq⟩ := recordSubmittedItems_eq c
    (s.queueTopology.dequeueSubmittedItems k.1 k.2 n).1
    { s with queueTopology := (s.queueTopology.dequeueSubmittedItems k.1 k.2 n).2 }
  rw [heq]
  exact ⟨rfl, rfl, rfl⟩

theorem samePoison_submitLease (s : WorkManager κ π) (d : List (QueueKey κ)) (k : QueueKey κ)
    (queue : List (WorkItem κ π)) (head : WorkItem κ π) (lease : List (WorkItem κ π)) (truncated : Bool) :
    SamePoison s (s.submitLease c env d k queue head lease truncated).2.1 := by
  have haccept : ∀ (t : WorkManager κ π) (n : Nat), SamePoison s t → SamePoison s (t.acceptItems c k n).2 :=
    fun t n ht => ht.trans (samePoison_acceptItems t k n)
  unfold submitLease
  dsimp only
  split
  · have h := haccept ({ s with engineCalls := s.engineCalls + 1 }.record (.handed lease)) lease.length
      ⟨rfl, rfl, rfl⟩
    split
    · exact h
    · split
      · exact h.trans ⟨rfl, rfl, rfl⟩
      · exact h
  · split
    · exact haccept _ _ ⟨rfl, rfl, rfl⟩
    · exact ⟨rfl, rfl, rfl⟩
  · exact ⟨rfl, rfl, rfl⟩

theorem samePoison_reactivate (s : WorkManager κ π) (k : QueueKey κ) : SamePoison s (s.reactivate k) := by
  unfold reactivate
  split
  · exact .refl s
  · exact .refl s
  · exact ⟨rfl, rfl, rfl⟩

theorem samePoison_cachedBlockingOffsets (s : WorkManager κ π) : SamePoison s (s.cachedBlockingOffsets c).2 := by
  obtain ⟨_, _, _, heq⟩ := cachedBlockingOffsets_eq c s
  rw [heq]
  exact ⟨rfl, rfl, rfl⟩

theorem samePoison_onAssign (s : WorkManager κ π) (l : List (TopicPartition × TrackerOrOffset)) :
    SamePoison s (s.onAssign c l) := by
  have hone : ∀ (s : WorkManager κ π) (a : TopicPartition × TrackerOrOffset), SamePoison s (assignOne c s a) := by
    intro s a
    unfold assignOne
    cases a.2 with
    | offset o => exact ⟨rfl, rfl, rfl⟩
    | tracker r => exact ⟨rfl, rfl, rfl⟩
  exact (samePoison_foldl hone l s).trans ⟨rfl, rfl, rfl⟩

theorem samePoison_createItems (tp : TopicPartition) (key : κ) (messages : List (QueuedMessage κ π)) :
    ∀ s : WorkManager κ π, SamePoison s (createItems tp key s messages).2 := by
  induction messages with
  | nil => exact .refl
  | cons m messages ih =>
    intro s
    have hone : SamePoison s (submitOne tp key s m).2 := ⟨rfl, rfl, rfl⟩
    exact hone.trans (ih (submitOne tp key s m).2)

theorem samePoison_submitGroups (groups : List (QueueKey κ × List (QueuedMessage κ π))) :
    ∀ (s : WorkManager κ π) (d : Dict TopicPartition Int), SamePoison s (s.submitGroups d groups).1 := by
  induction groups with
  | nil => exact fun s _ => .refl s
  | cons g groups ih =>
    intro s d
    obtain ⟨k, messages⟩ := g
    simp only [submitGroups]
    split
    · have hgroup : SamePoison s (s.submitGroup k messages) :=
        (samePoison_createItems k.1 k.2 messages s).trans ⟨rfl, rfl, rfl⟩
      exact hgroup.trans (ih _ _)
    · exact .refl s

theorem samePoison_submitMessageBatch (s : WorkManager κ π)
    (groups : List (QueueKey κ × List (QueuedMessage κ π))) : SamePoison s (s.submitMessageBatch groups).1 := by
  have hupdate : ∀ (s : WorkManager κ π) (e : TopicPartition × Int), SamePoison s (s.updateLastFetched e) := by
    intro s e
    unfold updateLastFetched
    split
    · exact .refl s
    · exact ⟨rfl, rfl, rfl⟩
  have hgroups := samePoison_submitGroups groups s .empty
  unfold submitMessageBatch
  split
  · rename_i s₁ e heq
    rw [heq] at hgroups
    exact hgroups
  · rename_i s₁ d heq
    rw [heq] at hgroups
    split
    · exact hgroups
    · exact (hgroups.trans (samePoison_foldl hupdate d.entries s₁)).trans ⟨rfl, rfl, rfl⟩

theorem samePoison_releaseInFlightItem (s : WorkManager κ π) (id : WorkId) (reschedule : Bool) :
    SamePoison s (releaseInFlightItem c s id reschedule).2 := by
  unfold releaseInFlightItem
  split
  · exact ⟨rfl, rfl, rfl⟩
  · rename_i item _
    dsimp only
    split
    · obtain ⟨_, _, _, _, heq⟩ := releaseOrderingLock_eq c _ item
      rw [heq]
      exact ⟨rfl, rfl, rfl⟩
    · exact ⟨rfl, rfl, rfl⟩

/-! ## Processing -/

/-- The item with which `_process_completion_event` calls `record_completion`, if it gets there. -/
def recordedItem (s : WorkManager κ π) (event : CompletionEvent) : Option (WorkItem κ π) :=
  match s.offsetTrackers.get? event.tp with
  | none => none
  | some r =>
    if (s.trackerAt r).map (·.epoch) ≠ some event.epoch then none else s.inFlightWorkItems.get? event.id

theorem SamePoison.recordCompletion {s t : WorkManager κ π} (h : SamePoison s t) (e : CompletionEvent)
    (x : WorkItem κ π) : SamePoison (s.recordCompletion env e x) (t.recordCompletion env e x) := by
  unfold WorkManager.recordCompletion
  rw [h.circuit, h.clockReads]
  split
  · exact h
  · exact ⟨rfl, rfl, h.completionQueue⟩

/-- What `_process_completion_event` does before it looks the item up. -/
theorem samePoison_mark (s : WorkManager κ π) (r : TrackerRef) (e : CompletionEvent) :
    SamePoison s (if e.tp ∈ s.sharedOffsetTrackers then s
      else (s.modifyTracker r (·.markComplete e.offset)).invalidateBlockingCache) := by
  split
  · exact .refl s
  · exact ⟨rfl, rfl, rfl⟩

theorem ledger_mark (s : WorkManager κ π) (r : TrackerRef) (e : CompletionEvent) :
    (if e.tp ∈ s.sharedOffsetTrackers then s
      else (s.modifyTracker r (·.markComplete e.offset)).invalidateBlockingCache).inFlightWorkItems =
        s.inFlightWorkItems := by
  split
  · rfl
  · rfl

theorem processCompletionEvent_unrecorded {s : WorkManager κ π} {e : CompletionEvent}
    (h : s.recordedItem e = none) : SamePoison s (s.processCompletionEvent c env e).2 := by
  have h0 : SamePoison s (s.record (.processed e)) := ⟨rfl, rfl, rfl⟩
  have hpop : ∀ t : WorkManager κ π, SamePoison s t → SamePoison s (t.popDispatchTimestamp e.id) :=
    fun t ht => ht.trans ⟨rfl, rfl, rfl⟩
  unfold recordedItem at h
  unfold processCompletionEvent
  dsimp only
  split
  · exact hpop _ h0
  · rename_i r htracker
    have htracker : s.offsetTrackers.get? e.tp = some r := htracker
    rw [htracker] at h
    dsimp only at h
    split
    · refine hpop _ ?_
      split
      · split
        · exact h0.trans (samePoison_releaseInFlightItem _ _ _)
        · exact h0
      · exact h0
    · rename_i hepoch
      rw [if_neg (by exact hepoch)] at h
      split
      · exact hpop _ (h0.trans (samePoison_mark (s.record (.processed e)) r e))
      · -- the item is in the ledger
        rename_i x hx
        rw [ledger_mark, show (s.record (.processed e)).inFlightWorkItems = s.inFlightWorkItems from rfl, h] at hx
        cases hx

theorem processCompletionEvent_recorded {s : WorkManager κ π} {e : CompletionEvent} {x : WorkItem κ π}
    (h : s.recordedItem e = some x) :
    SamePoison (s.recordCompletion env e x) (s.processCompletionEvent c env e).2 := by
  have h0 : SamePoison s (s.record (.processed e)) := ⟨rfl, rfl, rfl⟩
  unfold recordedItem at h
  unfold processCompletionEvent
  dsimp only
  split
  · rename_i htracker
    have htracker : s.offsetTrackers.get? e.tp = none := htracker
    rw [htracker] at h
    cases h
  · rename_i r htracker
    have htracker : s.offsetTrackers.get? e.tp = some r := htracker
    rw [htracker] at h
    dsimp only at h
    split
    · rename_i hepoch
      rw [if_pos (by exact hepoch)] at h
      cases h
    · rename_i hepoch
      rw [if_neg (by exact hepoch)] at h
      split
      · rename_i hx
        rw [ledger_mark, show (s.record (.processed e)).inFlightWorkItems = s.inFlightWorkItems from rfl, h] at hx
        cases hx
      · rename_i y hx
        rw [ledger_mark, show (s.record (.processed e)).inFlightWorkItems = s.inFlightWorkItems from rfl, h] at hx
        cases hx
        have hmark := h0.trans (samePoison_mark (s.record (.processed e)) r e)
        have hrecord := @SamePoison.recordCompletion κ π _ env _ _ hmark e x
        exact (hrecord.trans (samePoison_releaseInFlightItem _ e.id false)).trans ⟨rfl, rfl, rfl⟩

/-- Other queued completions. -/
def withCompletions (s : WorkManager κ π) (q : List CompletionEvent) : WorkManager κ π :=
  { s with completionQueue := q }

theorem releaseOrderingLock_withCompletions (s : WorkManager κ π) (q : List CompletionEvent) (x : WorkItem κ π) :
    releaseOrderingLock c (s.withCompletions q) x = (releaseOrderingLock c s x).withCompletions q := by
  unfold releaseOrderingLock withCompletions
  cases c.orderingMode with
  | keyHash =>
    dsimp only
    split
    · rfl
    · rfl
  | partition =>
    dsimp only
    split
    · rfl
    · rfl
  | unordered => rfl

theorem releaseInFlightItem_withCompletions (s : WorkManager κ π) (q : List CompletionEvent) (id : WorkId)
    (b : Bool) :
    (releaseInFlightItem c (s.withCompletions q) id b).2 = (releaseInFlightItem c s id b).2.withCompletions q := by
  have hlock : ∀ (t : WorkManager κ π) (x : WorkItem κ π),
      (if id ∈ s.dispatchTimestamps then releaseOrderingLock c t x else t).withCompletions q =
        if id ∈ s.dispatchTimestamps then releaseOrderingLock c (t.withCompletions q) x else t.withCompletions q := by
    intro t x
    rw [releaseOrderingLock_withCompletions]
    split
    · rfl
    · rfl
  unfold releaseInFlightItem
  rw [show (s.withCompletions q).inFlightWorkItems = s.inFlightWorkItems from rfl]
  cases s.inFlightWorkItems.get? id with
  | none => rfl
  | some x =>
    dsimp only
    symm
    exact hlock _ x

theorem recordCompletion_withCompletions (s : WorkManager κ π) (q : List CompletionEvent) (e : CompletionEvent)
    (x : WorkItem κ π) :
    (s.withCompletions q).recordCompletion env e x = (s.recordCompletion env e x).withCompletions q := by
  unfold recordCompletion
  dsimp only [withCompletions]
  split
  · rfl
  · rfl

theorem mark_withCompletions (s : WorkManager κ π) (q : List CompletionEvent) (r : TrackerRef) (e : CompletionEvent) :
    (if e.tp ∈ (s.withCompletions q).sharedOffsetTrackers then s.withCompletions q
      else ((s.withCompletions q).modifyTracker r (·.markComplete e.offset)).invalidateBlockingCache) =
    (if e.tp ∈ s.sharedOffsetTrackers then s
      else (s.modifyTracker r (·.markComplete e.offset)).invalidateBlockingCache).withCompletions q := by
  by_cases hs : e.tp ∈ s.sharedOffsetTrackers
  · rw [if_pos hs, if_pos (by exact hs)]
  · rw [if_neg hs, if_neg (by exact hs)]
    rfl

/-- Processing an event does not depend on the completions that wait behind it. -/
theorem processCompletionEvent_withCompletions (s : WorkManager κ π) (q : List CompletionEvent)
    (e : CompletionEvent) :
    ((s.withCompletions q).processCompletionEvent c env e).2 =
      (s.processCompletionEvent c env e).2.withCompletions q := by
  unfold processCompletionEvent
  dsimp only
  have hrecord : (s.withCompletions q).record (.processed e) = (s.record (.processed e)).withCompletions q := rfl
  rw [hrecord]
  generalize s.record (.processed e) = t
  rw [show (t.withCompletions q).offsetTrackers = t.offsetTrackers from rfl]
  cases t.offsetTrackers.get? e.tp with
  | none => rfl
  | some r =>
    dsimp only
    rw [mark_withCompletions, show (t.withCompletions q).trackerAt r = t.trackerAt r from rfl,
      show (t.withCompletions q).inFlightWorkItems = t.inFlightWorkItems from rfl]
    split
    · dsimp only
      split
      · split
        · exact congrArg (popDispatchTimestamp · e.id) (releaseInFlightItem_withCompletions t q e.id true)
        · rfl
      · rfl
    · generalize (if e.tp ∈ t.sharedOffsetTrackers then t
        else (t.modifyTracker r (·.markComplete e.offset)).invalidateBlockingCache) = t
      rw [show (t.withCompletions q).inFlightWorkItems = t.inFlightWorkItems from rfl]
      split
      · rfl
      · rename_i x _
        dsimp only
        rw [recordCompletion_withCompletions, releaseInFlightItem_withCompletions]
        rfl

theorem completionQueue_processCompletionEvent (s : WorkManager κ π) (e : CompletionEvent) :
    (s.processCompletionEvent c env e).2.completionQueue = s.completionQueue := by
  cases hx : s.recordedItem e with
  | none => exact (processCompletionEvent_unrecorded hx).completionQueue
  | some x =>
    refine (processCompletionEvent_recorded hx).completionQueue.trans ?_
    unfold recordCompletion
    split
    · rfl
    · rfl

/-! ## Scheduling -/

/-- Circuits were dropped at most, and completions added at most. -/
structure CircuitShrinks (s s' : WorkManager κ π) : Prop where
  reads : s.clockReads ≤ s'.clockReads
  queue : s.completionQueue <+: s'.completionQueue
  circuit : ∀ p, s.poisonMessageCircuit = some p → ∃ p', s'.poisonMessageCircuit = some p' ∧ Shrunk p p'

theorem CircuitShrinks.trans {s t u : WorkManager κ π} (h : CircuitShrinks s t) (h' : CircuitShrinks t u) :
    CircuitShrinks s u := by
  refine ⟨h.reads.trans h'.reads, h.queue.trans h'.queue, fun p hp => ?_⟩
  obtain ⟨p', hp', hshrunk⟩ := h.circuit p hp
  obtain ⟨p'', hp'', hshrunk'⟩ := h'.circuit p' hp'
  exact ⟨p'', hp'', hshrunk.trans hshrunk'⟩

theorem CircuitShrinks.isSome {s s' : WorkManager κ π} (h : CircuitShrinks s s')
    (hsome : s.poisonMessageCircuit.isSome = true) : s'.poisonMessageCircuit.isSome = true := by
  obtain ⟨p, hp⟩ := Option.isSome_iff_exists.mp hsome
  obtain ⟨p', hp', -⟩ := h.circuit p hp
  exact Option.isSome_iff_exists.mpr ⟨p', hp'⟩

theorem SamePoison.shrinks {s s' : WorkManager κ π} (h : SamePoison s s') : CircuitShrinks s s' :=
  ⟨h.clockReads.ge, h.completionQueue ▸ List.prefix_rfl, fun p hp => ⟨p, h.circuit.trans hp, .refl p⟩⟩

theorem shrinks_shouldForceFail (s : WorkManager κ π) (x : WorkItem κ π) :
    CircuitShrinks s (s.shouldForceFail env x).2 := by
  unfold shouldForceFail
  split
  · exact (SamePoison.refl s).shrinks
  · rename_i circuit hcircuit
    refine ⟨Nat.le_succ _, List.prefix_rfl, fun p hp => ⟨_, rfl, ?_⟩⟩
    rw [hcircuit] at hp
    cases hp
    exact shrunk_shouldForceFail _ _ x

theorem shrinks_forceFailQueuedItem (s : WorkManager κ π) (x : WorkItem κ π) (k : QueueKey κ) :
    CircuitShrinks s (s.forceFailQueuedItem env x k).2 := by
  have h := @shrinks_shouldForceFail κ π _ env s x
  unfold forceFailQueuedItem
  dsimp only
  split
  · exact h
  · split
    · exact h
    · split
      · exact h.trans (SamePoison.shrinks ⟨rfl, rfl, rfl⟩)
      · exact h.trans ⟨le_refl _, List.prefix_append _ _, fun p hp => ⟨p, hp, .refl p⟩⟩

theorem shrinks_truncateBatch (items : List (WorkItem κ π)) :
    ∀ s : WorkManager κ π, CircuitShrinks s (s.truncateBatchBeforeForceFail env items).2 := by
  induction items with
  | nil => exact fun s => (SamePoison.refl s).shrinks
  | cons x items ih =>
    intro s
    have h := @shrinks_shouldForceFail κ π _ env s x
    simp only [truncateBatchBeforeForceFail]
    split
    · rename_i s₁ heq
      rw [heq] at h
      exact h
    · rename_i s₁ heq
      rw [heq] at h
      exact h.trans (ih s₁)

theorem shrinks_serveQueue (s : WorkManager κ π) (d : List (QueueKey κ)) (k : QueueKey κ) (head : WorkItem κ π)
    (rest : List (WorkItem κ π)) : CircuitShrinks s (s.serveQueue c env d k head rest).2.1 := by
  have hforce := @shrinks_forceFailQueuedItem κ π _ env s head k
  unfold serveQueue
  dsimp only
  split
  · exact (SamePoison.refl s).shrinks
  · split
    · rename_i s₁ heq
      rw [heq] at hforce
      exact hforce
    · rename_i s₁ heq
      rw [heq] at hforce
      have htrunc := @shrinks_truncateBatch κ π _ env ((head :: rest).take (s.resolveRouteBatchLimit c)) s₁
      split
      · rename_i s₂ heq₂
        rw [heq₂] at htrunc
        exact hforce.trans htrunc
      · rename_i x lease s₂ heq₂
        rw [heq₂] at htrunc
        exact (hforce.trans htrunc).trans (samePoison_submitLease _ _ _ _ _ _ _).shrinks

theorem shrinks_scheduleStep (s : WorkManager κ π) (b : Dict TopicPartition (Option OffsetRange))
    (d : List (QueueKey κ)) : CircuitShrinks s (s.scheduleStep c env b d).2.1 := by
  have hpick := (samePoison_pickQueueKey (c := c) s b).shrinks
  unfold scheduleStep
  split
  · exact (SamePoison.refl s).shrinks
  · split
    · exact (SamePoison.refl s).shrinks
    · split
      · rename_i s₁ heq
        rw [heq] at hpick
        exact hpick
      · rename_i k s₁ heq
        rw [heq] at hpick
        split
        · exact hpick.trans (SamePoison.shrinks ⟨rfl, rfl, rfl⟩)
        · exact hpick.trans (SamePoison.shrinks ⟨rfl, rfl, rfl⟩)
        · exact hpick.trans (shrinks_serveQueue _ _ _ _ _)

theorem shrinks_onRevoke (s : WorkManager κ π) (tps : List TopicPartition) : CircuitShrinks s (s.onRevoke c tps) := by
  have hrevoke : ∀ (l : List TopicPartition) (t : WorkManager κ π), CircuitShrinks t (l.foldl revokeOne t) := by
    intro l
    induction l with
    | nil => exact fun t => (SamePoison.refl t).shrinks
    | cons tp l ih =>
      refine fun t => CircuitShrinks.trans ?_ (ih (t.revokeOne tp))
      refine ⟨le_refl _, List.prefix_rfl, fun p hp => ⟨_, ?_, shrunk_clearPartition p tp⟩⟩
      show t.poisonMessageCircuit.map (·.clearPartition tp) = _
      rw [hp]
      rfl
  refine onRevoke_induction c (hrevoke tps s) (fun t id ht => ?_) (fun t ht => ?_) (fun t ht => ?_)
  · exact ht.trans (samePoison_releaseInFlightItem t id false).shrinks
  · exact ht.trans (SamePoison.shrinks ⟨rfl, rfl, rfl⟩)
  · exact ht.trans (SamePoison.shrinks ⟨rfl, rfl, rfl⟩)

theorem completionQueue_onRevoke (s : WorkManager κ π) (tps : List TopicPartition) :
    (s.onRevoke c tps).completionQueue = s.completionQueue := by
  have hrevoke : ∀ (l : List TopicPartition) (t : WorkManager κ π),
      (l.foldl revokeOne t).completionQueue = t.completionQueue := by
    intro l
    induction l with
    | nil => exact fun _ => rfl
    | cons tp l ih => exact fun t => ih (t.revokeOne tp)
  refine onRevoke_induction c (P := fun t => t.completionQueue = s.completionQueue) (hrevoke tps s)
    (fun t id ht => ?_) (fun _ ht => ht) (fun _ ht => ht)
  exact (samePoison_releaseInFlightItem (c := c) t id false).completionQueue.trans ht

theorem shrinks_forceFail (s : WorkManager κ π) (tp : TopicPartition) (offset epoch : Int) (error : String)
    (attempt : Int) : CircuitShrinks s (s.forceFail tp offset epoch error attempt).2 := by
  unfold forceFail
  dsimp only
  split
  · exact ⟨le_refl _, List.prefix_append _ _, fun p hp => ⟨p, hp, .refl p⟩⟩
  · split
    · exact ⟨le_refl _, List.prefix_append _ _, fun p hp => ⟨p, hp, .refl p⟩⟩
    · exact (SamePoison.refl s).shrinks

theorem shrinks_getPoisonMessageOpenCircuitCount (s : WorkManager κ π) :
    CircuitShrinks s (s.getPoisonMessageOpenCircuitCount env).2 := by
  unfold getPoisonMessageOpenCircuitCount
  split
  · exact (SamePoison.refl s).shrinks
  · rename_i circuit hcircuit
    refine ⟨Nat.le_succ _, List.prefix_rfl, fun p hp => ⟨_, rfl, ?_⟩⟩
    rw [hcircuit] at hp
    cases hp
    exact shrunk_getOpenCircuitCount _ _

/-! ## The engine call of an iteration -/

/-- The batch that an iteration considers: the front of the queue it picks. -/
def consideredBatch (c : WorkManagerConfig) (b : Dict TopicPartition (Option OffsetRange)) (s : WorkManager κ π) :
    Option (QueueKey κ × List (WorkItem κ π)) :=
  if (s.currentInFlightCount : Int) ≥ c.maxInFlightMessages then none
  else if s.rebalancing then none
  else
    match s.pickQueueKey c b with
    | (none, _) => none
    | (some k, s) =>
      match s.queueTopology.getQueue k.1 k.2 with
      | none | some [] => none
      | some (head :: rest) => some (k, (head :: rest).take (s.resolveRouteBatchLimit c))

/-- The circuit lets the item run, at this clock reading and at the later ones. -/
def ClosedFor (env : Env κ π) (s : WorkManager κ π) (x : WorkItem κ π) : Prop :=
  ∀ n, s.clockReads ≤ n → ∀ p, s.poisonMessageCircuit = some p → (p.shouldForceFail (env.clock n) x).1 = false

theorem ClosedFor.shrinks {s s' : WorkManager κ π} {x : WorkItem κ π} (h : ClosedFor env s x)
    (hs : CircuitShrinks s s') (hsome : s.poisonMessageCircuit.isSome = true) : ClosedFor env s' x := by
  intro n hn p' hp'
  obtain ⟨p, hp⟩ := Option.isSome_iff_exists.mp hsome
  obtain ⟨p'', hp'', hshrunk⟩ := hs.circuit p hp
  rw [hp'] at hp''
  cases hp''
  have hfalse := h n (hs.reads.trans hn) p hp
  by_contra hne
  rw [hshrunk.shouldForceFail (Bool.eq_true_of_not_eq_false hne)] at hfalse
  cases hfalse

theorem shouldForceFail_of_closed {s : WorkManager κ π} {x : WorkItem κ π} (h : ClosedFor env s x) :
    (s.shouldForceFail env x).1 = false := by
  unfold shouldForceFail
  split
  · rfl
  · rename_i p hp
    exact h _ (le_refl _) p hp

theorem forceFailQueuedItem_of_closed {s : WorkManager κ π} {x : WorkItem κ π} (h : ClosedFor env s x)
    (k : QueueKey κ) : s.forceFailQueuedItem env x k = (false, (s.shouldForceFail env x).2) := by
  unfold forceFailQueuedItem
  dsimp only
  split
  · rfl
  · rw [shouldForceFail_of_closed h]
    rfl

/-- A batch is not cut short before items that may run. -/
theorem prefix_truncate_of_closed (p rest : List (WorkItem κ π)) :
    ∀ {s : WorkManager κ π}, s.poisonMessageCircuit.isSome = true → (∀ x ∈ p, ClosedFor env s x) →
      p <+: (s.truncateBatchBeforeForceFail env (p ++ rest)).1 := by
  induction p with
  | nil => exact fun _ _ => List.nil_prefix
  | cons x p ih =>
    intro s hsome h
    have hshrinks := @shrinks_shouldForceFail κ π _ env s x
    have hfalse := shouldForceFail_of_closed (h x List.mem_cons_self)
    obtain ⟨fail, s₁, heq⟩ : ∃ fail s₁, s.shouldForceFail env x = (fail, s₁) := ⟨_, _, rfl⟩
    rw [heq] at hshrinks hfalse
    cases hfalse
    simp only [List.cons_append, truncateBatchBeforeForceFail, heq]
    refine (List.prefix_cons_inj x).mpr (ih (hshrinks.isSome hsome) fun y hy => ?_)
    exact (h y (List.mem_cons_of_mem x hy)).shrinks hshrinks hsome

/-- The lease starts with the items of the batch whose circuits stay closed. -/
theorem leaseOffer_of_closed {s : WorkManager κ π} (hsome : s.poisonMessageCircuit.isSome = true) (k : QueueKey κ)
    {head : WorkItem κ π} {rest p : List (WorkItem κ π)}
    (hp : p <+: (head :: rest).take (s.resolveRouteBatchLimit c)) (hne : p ≠ [])
    (hclosed : ∀ x ∈ p, ClosedFor env s x) :
    ∃ o, s.leaseOffer c env k head rest = some o ∧ o.key = k ∧ p <+: o.lease := by
  obtain ⟨y, p, rfl⟩ := List.exists_cons_of_ne_nil hne
  obtain ⟨tail, hitems⟩ := hp
  -- the first item of the batch is the head of the queue
  obtain ⟨hy, hrest⟩ : y = head ∧ ∃ l, (head :: rest).take (s.resolveRouteBatchLimit c) = head :: l := by
    cases hn : s.resolveRouteBatchLimit c with
    | zero =>
      rw [hn] at hitems
      cases hitems
    | succ n =>
      rw [hn] at hitems
      exact ⟨(List.cons.inj hitems).1, _, rfl⟩
  subst hy
  obtain ⟨l, hl⟩ := hrest
  have hshrinks := @shrinks_shouldForceFail κ π _ env s y
  have hcut := @prefix_truncate_of_closed κ π _ env (y :: p) tail _ (hshrinks.isSome hsome)
    fun x hx => (hclosed x hx).shrinks hshrinks hsome
  unfold leaseOffer
  dsimp only
  rw [if_neg (by rw [hl]; exact List.cons_ne_nil _ _),
    forceFailQueuedItem_of_closed (hclosed y List.mem_cons_self)]
  rw [hitems] at hcut
  dsimp only
  obtain ⟨lease, s', htrunc⟩ : ∃ lease s', (s.shouldForceFail env y).2.truncateBatchBeforeForceFail env
      ((y :: rest).take (s.resolveRouteBatchLimit c)) = (lease, s') := ⟨_, _, rfl⟩
  rw [htrunc] at hcut ⊢
  cases lease with
  | nil =>
    obtain ⟨_, hnil⟩ := hcut
    cases hnil
  | cons z lease => exact ⟨_, rfl, rfl, hcut⟩

theorem offer_of_closed {b : Dict TopicPartition (Option OffsetRange)} {s : WorkManager κ π}
    (hsome : s.poisonMessageCircuit.isSome = true) {k : QueueKey κ} {batch p : List (WorkItem κ π)}
    (hbatch : s.consideredBatch c b = some (k, batch)) (hp : p <+: batch) (hne : p ≠ [])
    (hclosed : ∀ x ∈ p, ClosedFor env s x) : ∃ o, s.offer c env b = some o ∧ o.key = k ∧ p <+: o.lease := by
  have hpick := samePoison_pickQueueKey (c := c) s b
  unfold consideredBatch at hbatch
  unfold offer
  split at hbatch
  · cases hbatch
  rename_i hroom
  rw [if_neg hroom]
  split at hbatch
  · cases hbatch
  rename_i hreb
  rw [if_neg hreb]
  obtain ⟨picked, s₁, heq⟩ : ∃ picked s₁, s.pickQueueKey c b = (picked, s₁) := ⟨_, _, rfl⟩
  rw [heq] at hbatch hpick ⊢
  cases picked with
  | none => cases hbatch
  | some k' =>
    dsimp only at hbatch ⊢
    cases hqueue : s₁.queueTopology.getQueue k'.1 k'.2 with
    | none =>
      rw [hqueue] at hbatch
      cases hbatch
    | some queue =>
      rw [hqueue] at hbatch
      cases queue with
      | nil => cases hbatch
      | cons head rest =>
        cases hbatch
        exact leaseOffer_of_closed (hpick.shrinks.isSome hsome) _ hp hne
          fun x hx => (hclosed x hx).shrinks hpick.shrinks hsome

end Frames

end WorkManager

end PyrallelConsumer
