import PyrallelConsumer.WorkManager
import PyrallelConsumer.VirtualQueues

/-!
# PyrallelConsumer.WorkView

What the accounting of the work manager is about: the history of the items, and the part of the state
that the accounting results read. The history is newest first.

* `enqueuedOf`, `consumedOf` — the items of one virtual queue in the current assignment, and those
  taken off it, oldest first.
* `unfinished` — the items handed to the engine under the current assignments whose completion has
  not been processed.
* `view` — the observed state. Selecting queues, clock readings and tracker updates that keep the
  epoch are invisible: `view_pickQueueKey`, `view_cachedBlockingOffsets`, `view_shouldForceFail`.
-/

set_option linter.unusedSectionVars false

namespace PyrallelConsumer

namespace WorkLog

variable {κ π : Type} [DecidableEq κ]

def enqueuedItems : List (Entry κ π) → List (WorkItem κ π)
  | [] => []
  | .enqueued x :: l => enqueuedItems l ++ [x]
  | _ :: l => enqueuedItems l

/-- The items taken off their queue, by a lease or by the poison circuit. -/
def consumedItems : List (Entry κ π) → List (WorkItem κ π)
  | [] => []
  | .handed lease :: l => consumedItems l ++ lease
  | .poisoned x :: l => consumedItems l ++ [x]
  | _ :: l => consumedItems l

def handedItems : List (Entry κ π) → List (WorkItem κ π)
  | [] => []
  | .handed lease :: l => handedItems l ++ lease
  | _ :: l => handedItems l

/-- The items of a virtual queue since its partition was assigned. -/
def enqueuedOf (tp : TopicPartition) (key : κ) : List (Entry κ π) → List (WorkItem κ π)
  | [] => []
  | .enqueued x :: l =>
    if x.tp = tp ∧ x.key = key then enqueuedOf tp key l ++ [x] else enqueuedOf tp key l
  | .assigned tp' :: l => if tp' = tp then [] else enqueuedOf tp key l
  | .revoked tps :: l => if tp ∈ tps then [] else enqueuedOf tp key l
  | _ :: l => enqueuedOf tp key l

/-- The items taken off a virtual queue since its partition was assigned. -/
def consumedOf (tp : TopicPartition) (key : κ) : List (Entry κ π) → List (WorkItem κ π)
  | [] => []
  | .handed lease :: l => consumedOf tp key l ++ lease.filter fun x => x.tp = tp ∧ x.key = key
  | .poisoned x :: l =>
    if x.tp = tp ∧ x.key = key then consumedOf tp key l ++ [x] else consumedOf tp key l
  | .assigned tp' :: l => if tp' = tp then [] else consumedOf tp key l
  | .revoked tps :: l => if tp ∈ tps then [] else consumedOf tp key l
  | _ :: l => consumedOf tp key l

/-- The items of a virtual queue handed to the engine since its partition was assigned. -/
def handedOf (tp : TopicPartition) (key : κ) : List (Entry κ π) → List (WorkItem κ π)
  | [] => []
  | .handed lease :: l => handedOf tp key l ++ lease.filter fun x => x.tp = tp ∧ x.key = key
  | .assigned tp' :: l => if tp' = tp then [] else handedOf tp key l
  | .revoked tps :: l => if tp ∈ tps then [] else handedOf tp key l
  | _ :: l => handedOf tp key l

/-- Handed to the engine, not revoked since, and no completion processed since. -/
def unfinished : List (Entry κ π) → List (WorkItem κ π)
  | [] => []
  | .handed lease :: l => lease ++ unfinished l
  | .processed e :: l => (unfinished l).filter fun x => x.id ≠ e.id
  | .revoked tps :: l => (unfinished l).filter fun x => x.tp ∉ tps
  | _ :: l => unfinished l

/-- No completion with this id has been processed since the item with this id was enqueued. -/
def Untouched (id : WorkId) : List (Entry κ π) → Prop
  | [] => True
  | .enqueued x :: l => x.id = id ∨ Untouched id l
  | .processed e :: l => e.id ≠ id ∧ Untouched id l
  | _ :: l => Untouched id l

theorem handedOf_sublist_consumedOf (tp : TopicPartition) (key : κ) (l : List (Entry κ π)) :
    (handedOf tp key l).Sublist (consumedOf tp key l) := by
  induction l with
  | nil => exact List.Sublist.refl _
  | cons e l ih =>
    cases e with
    | handed lease => exact ih.append (List.Sublist.refl _)
    | poisoned x =>
      simp only [handedOf, consumedOf]
      split
      · exact ih.trans (List.sublist_append_left _ _)
      · exact ih
    | assigned tp' =>
      simp only [handedOf, consumedOf]
      split
      · exact List.Sublist.refl _
      · exact ih
    | revoked tps =>
      simp only [handedOf, consumedOf]
      split
      · exact List.Sublist.refl _
      · exact ih
    | enqueued x => exact ih
    | processed e => exact ih

theorem handedItems_sublist_consumedItems (l : List (Entry κ π)) :
    (handedItems l).Sublist (consumedItems l) := by
  induction l with
  | nil => exact List.Sublist.refl _
  | cons e l ih =>
    cases e with
    | handed lease => exact ih.append (List.Sublist.refl _)
    | poisoned x => exact ih.trans (List.sublist_append_left _ _)
    | _ => exact ih

theorem mem_handedItems_of_unfinished {x : WorkItem κ π} (l : List (Entry κ π)) :
    x ∈ unfinished l → x ∈ handedItems l := by
  induction l with
  | nil => exact id
  | cons e l ih =>
    cases e with
    | handed lease =>
      intro h
      rcases List.mem_append.mp h with h | h
      · exact List.mem_append_right _ h
      · exact List.mem_append_left _ (ih h)
    | processed e => exact fun h => ih (List.mem_of_mem_filter h)
    | revoked tps => exact fun h => ih (List.mem_of_mem_filter h)
    | _ => exact ih

theorem mem_enqueuedOf {tp : TopicPartition} {key : κ} {x : WorkItem κ π} (l : List (Entry κ π)) :
    x ∈ enqueuedOf tp key l → (x.tp = tp ∧ x.key = key) ∧ x ∈ enqueuedItems l := by
  induction l with
  | nil => intro h; cases h
  | cons e l ih =>
    cases e with
    | enqueued y =>
      simp only [enqueuedOf, enqueuedItems]
      split
      · rename_i hy
        intro h
        rcases List.mem_append.mp h with h | h
        · exact ⟨(ih h).1, List.mem_append_left _ (ih h).2⟩
        · rw [List.mem_singleton.mp h]; exact ⟨hy, by simp⟩
      · exact fun h => ⟨(ih h).1, List.mem_append_left _ (ih h).2⟩
    | assigned tp' =>
      simp only [enqueuedOf]
      split
      · intro h; cases h
      · exact ih
    | revoked tps =>
      simp only [enqueuedOf]
      split
      · intro h; cases h
      · exact ih
    | _ => exact ih

end WorkLog

/-! ## The observed state -/

structure WorkView (κ π : Type) where
  timestamps : List WorkId
  ledger : Dict WorkId (WorkItem κ π)
  count : Nat
  keys : List (QueueKey κ)
  keyCounts : Dict (QueueKey κ) Nat
  partitions : List TopicPartition
  partitionCounts : Dict TopicPartition Nat
  queueOf : TopicPartition → κ → List (WorkItem κ π)
  assigned : TopicPartition → Prop
  totalSize : Nat
  totalQueued : Nat
  epochOf : TopicPartition → Option (Option Int)
  completionQueue : List CompletionEvent
  log : List (Entry κ π)
  nextUuid : Nat

namespace WorkManager

variable {κ π : Type} [DecidableEq κ]

/-- The epoch of a partition's tracker; the outer `none` is a partition without tracker. -/
def epochOf (s : WorkManager κ π) (tp : TopicPartition) : Option (Option Int) :=
  (s.offsetTrackers.get? tp).map fun r => (s.trackerAt r).map (·.epoch)

def view (s : WorkManager κ π) : WorkView κ π :=
  { timestamps := s.dispatchTimestamps
    ledger := s.inFlightWorkItems
    count := s.currentInFlightCount
    keys := s.keysInFlight
    keyCounts := s.keyInFlightCounts
    partitions := s.partitionsInFlight
    partitionCounts := s.partitionInFlightCounts
    queueOf := s.queueTopology.queueOf
    assigned := s.queueTopology.assigned
    totalSize := s.queueTopology.totalSize
    totalQueued := s.totalQueuedMessages
    epochOf := s.epochOf
    completionQueue := s.completionQueue
    log := s.log
    nextUuid := s.nextUuid }

theorem view_of_sameQueues (s : WorkManager κ π) {q : WorkQueueTopology κ π}
    (h : WorkQueueTopology.SameQueues s.queueTopology q) :
    ({ s with queueTopology := q } : WorkManager κ π).view = s.view := by
  unfold view
  rw [h.queueOf, h.assigned, h.totalSize]
  rfl

theorem view_of_dequeued_nil {s : WorkManager κ π} {tp : TopicPartition} {key : κ}
    {q : WorkQueueTopology κ π} (h : WorkQueueTopology.Dequeued s.queueTopology tp key 1 [] q) :
    ({ s with queueTopology := q } : WorkManager κ π).view = s.view := by
  have hnil : s.queueTopology.queueOf tp key = [] := by
    have := h.items_eq
    cases hq : s.queueTopology.queueOf tp key with
    | nil => rfl
    | cons x l => rw [hq] at this; cases this
  have hqueue : q.queueOf = s.queueTopology.queueOf := by
    funext tp' key'
    rw [h.queueOf_eq]
    split
    · rename_i heq; rw [← heq.1, ← heq.2, hnil]; rfl
    · rfl
  unfold view
  rw [hqueue, h.assigned_eq, ← h.totalSize_eq]
  rfl

theorem epochOf_modifyTracker (s : WorkManager κ π) (r : TrackerRef)
    {f : OffsetTracker → OffsetTracker} (hf : ∀ t, (f t).epoch = t.epoch) :
    (s.modifyTracker r f).epochOf = s.epochOf := by
  funext tp
  unfold epochOf trackerAt modifyTracker
  congr 1
  funext r'
  rw [List.getElem?_modify]
  cases s.heap[r']? with
  | none => rfl
  | some t =>
    simp only [Option.map_eq_map, Option.map_some]
    split
    · rw [hf]
    · rfl

theorem view_modifyTracker (s : WorkManager κ π) (r : TrackerRef)
    {f : OffsetTracker → OffsetTracker} (hf : ∀ t, (f t).epoch = t.epoch) :
    (s.modifyTracker r f).view = s.view := by
  unfold view
  rw [epochOf_modifyTracker s r hf]
  rfl

theorem view_deactivate (s : WorkManager κ π) (k : QueueKey κ) : (s.deactivate k).view = s.view :=
  view_of_sameQueues s (WorkQueueTopology.sameQueues_deactivate _ k)

theorem view_refreshHead (s : WorkManager κ π) (k : QueueKey κ) (l : List (WorkItem κ π)) :
    (s.refreshHead k l).view = s.view :=
  view_of_sameQueues s (WorkQueueTopology.sameQueues_refresh _ k l)

theorem view_reactivate (s : WorkManager κ π) (k : QueueKey κ) : (s.reactivate k).view = s.view := by
  unfold reactivate
  split
  · rfl
  · rfl
  · exact view_refreshHead s k _

theorem view_pickQueueKey (c : WorkManagerConfig) (s : WorkManager κ π)
    (b : Dict TopicPartition (Option OffsetRange)) : (s.pickQueueKey c b).2.view = s.view := by
  have hb := WorkQueueTopology.sameQueues_pickBlocking (s.isQueueEligible c) s.queueTopology b
  unfold pickQueueKey
  split
  · rename_i k topology hk
    rw [hk] at hb
    exact view_of_sameQueues s hb
  · rename_i topology hk
    rw [hk] at hb
    exact view_of_sameQueues s
      (hb.trans (WorkQueueTopology.sameQueues_pickNext (s.isQueueEligible c) _ topology))

theorem advanceHighWaterMark_epoch (t : OffsetTracker) : t.advanceHighWaterMark.epoch = t.epoch :=
  OffsetTracker.commitThrough_epoch t _

theorem view_blockingOffsetsFrom (l : List (TopicPartition × TrackerRef)) :
    ∀ (s : WorkManager κ π) (acc : Dict TopicPartition (Option OffsetRange)),
      (s.blockingOffsetsFrom acc l).2.view = s.view := by
  induction l with
  | nil => intro s acc; rfl
  | cons e l ih =>
    intro s acc
    obtain ⟨tp, r⟩ := e
    simp only [blockingOffsetsFrom]
    rw [ih]
    split
    · rfl
    · exact view_modifyTracker s r advanceHighWaterMark_epoch

theorem view_cachedBlockingOffsets (c : WorkManagerConfig) (s : WorkManager κ π) :
    (s.cachedBlockingOffsets c).2.view = s.view := by
  unfold cachedBlockingOffsets
  split
  · exact view_blockingOffsetsFrom _ s .empty
  · rfl

theorem view_shouldForceFail (env : Env κ π) (s : WorkManager κ π) (x : WorkItem κ π) :
    (s.shouldForceFail env x).2.view = s.view := by
  unfold shouldForceFail
  split <;> rfl

theorem view_recordCompletion (env : Env κ π) (s : WorkManager κ π) (e : CompletionEvent)
    (x : WorkItem κ π) : (s.recordCompletion env e x).view = s.view := by
  unfold recordCompletion
  split <;> rfl

/-- Truncation keeps a prefix of the batch and is otherwise invisible. -/
theorem truncateBatchBeforeForceFail_spec (env : Env κ π) (items : List (WorkItem κ π)) :
    ∀ s : WorkManager κ π,
      (s.truncateBatchBeforeForceFail env items).1 <+: items ∧
        (s.truncateBatchBeforeForceFail env items).2.view = s.view := by
  induction items with
  | nil => intro s; exact ⟨List.prefix_rfl, rfl⟩
  | cons x items ih =>
    intro s
    have hv := view_shouldForceFail env s x
    simp only [truncateBatchBeforeForceFail]
    split
    · rename_i s' h
      rw [h] at hv
      exact ⟨List.nil_prefix, hv⟩
    · rename_i s' h
      rw [h] at hv
      exact ⟨(List.prefix_cons_inj x).mpr (ih s').1, (ih s').2.trans hv⟩

end WorkManager

end PyrallelConsumer
