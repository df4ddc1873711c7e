import PyrallelConsumer.OffsetTracker
import PyrallelConsumer.PoisonMessage
import PyrallelConsumer.WorkQueueTopology

/-!
# PyrallelConsumer.WorkManager

`WorkManager` of `control_plane/work_manager.py`: virtual queues, the ledger of work items, dispatch
accounting, ordering locks, the scheduling loop and completion processing.

A tracker is a mutable object shared with the poller, so the state has a `heap` of trackers and the
partition map holds references into it. What the code leaves to its surroundings is the `Env` of an
operation: the answers of the execution engine, the clock of the poison circuit and the iteration
order of a set. Dispatch timestamps are kept as the set of ids that have one, since their values
feed metrics only; the leased-key set is empty between operations and is left out.

`log` is a history variable. No operation reads it.
-/

namespace PyrallelConsumer

abbrev TrackerRef := Nat

structure WorkManagerConfig where
  maxInFlightMessages : Int := 1000
  orderingMode : OrderingMode := .unordered
  blockingCacheTtl : Int := 100
  maxRevokeGraceMs : Int := 500
  routeBatchSize : Nat := 1
  routeBatchSize_pos : 1 ≤ routeBatchSize := by decide
  supportsOrderedRouteBatch : Bool := false

/-- How `submit` or `submit_batch` ends: all accepted, an ordinary exception with nothing accepted,
or `BatchSubmitError` with an accepted prefix. -/
inductive SubmitOutcome where
  | accepted
  | error
  | batchError (acceptedCount : Nat)
deriving DecidableEq, Repr

/-- `submit n items` is the answer to the `n`-th engine call, `clock n` the `n`-th clock reading and
`setOrder l` the order in which Python iterates a set with the members of `l`. -/
structure Env (κ π : Type) where
  submit : Nat → List (WorkItem κ π) → SubmitOutcome
  clock : Nat → Time
  setOrder : List (QueueKey κ) → List (QueueKey κ)

/-- The engine's contract for partial acceptance: what is accepted is a prefix of the batch. -/
def Env.AcceptsPrefix {κ π : Type} (env : Env κ π) : Prop :=
  ∀ n items k, env.submit n items = .batchError k → k ≤ items.length

/-- An engine that accepts everything. -/
def acceptingEnv (κ π : Type) : Env κ π :=
  { submit := fun _ _ => .accepted, clock := fun _ => 0, setOrder := id }

theorem acceptsPrefix_acceptingEnv {κ π : Type} : (acceptingEnv κ π).AcceptsPrefix := by
  intro _ _ _ h; cases h

/-- What happened to the work of a partition, as seen from outside the work manager. -/
inductive Entry (κ π : Type) where
  | assigned (tp : TopicPartition)
  | revoked (tps : List TopicPartition)
  | enqueued (item : WorkItem κ π)
  | handed (lease : List (WorkItem κ π))
  | poisoned (item : WorkItem κ π)
  | processed (event : CompletionEvent)
deriving DecidableEq, Repr

inductive TrackerOrOffset where
  | offset (startingOffset : Int)
  | tracker (ref : TrackerRef)
deriving DecidableEq, Repr

/-- A message of `submit_message_batch`; without a poison key it is the three-field form. -/
structure QueuedMessage (κ π : Type) where
  offset : Int
  epoch : Int
  payload : π
  poisonKey : Option κ := none
deriving DecidableEq, Repr

structure WorkManager (κ π : Type) where
  heap : List OffsetTracker
  offsetTrackers : Dict TopicPartition TrackerRef
  queueTopology : WorkQueueTopology κ π
  completionQueue : List CompletionEvent
  inFlightWorkItems : Dict WorkId (WorkItem κ π)
  workItemIdsByTpOffset : Dict (TopicPartition × Int) WorkId
  dispatchTimestamps : List WorkId
  totalQueuedMessages : Nat
  currentInFlightCount : Nat
  rebalancing : Bool
  keysInFlight : List (QueueKey κ)
  partitionsInFlight : List TopicPartition
  keyInFlightCounts : Dict (QueueKey κ) Nat
  partitionInFlightCounts : Dict TopicPartition Nat
  blockingCache : Dict TopicPartition (Option OffsetRange)
  blockingCacheCounter : Int
  sharedOffsetTrackers : List TopicPartition
  poisonMessageCircuit : Option (PoisonMessageCircuitBreaker κ)
  nextUuid : Nat
  engineCalls : Nat
  clockReads : Nat
  log : List (Entry κ π)

namespace WorkManager

variable {κ π : Type} [DecidableEq κ]

def new (poisonMessageCircuit : Option (PoisonMessageCircuitBreaker κ)) : WorkManager κ π :=
  { heap := []
    offsetTrackers := .empty
    queueTopology := .new
    completionQueue := []
    inFlightWorkItems := .empty
    workItemIdsByTpOffset := .empty
    dispatchTimestamps := []
    totalQueuedMessages := 0
    currentInFlightCount := 0
    rebalancing := false
    keysInFlight := []
    partitionsInFlight := []
    keyInFlightCounts := .empty
    partitionInFlightCounts := .empty
    blockingCache := .empty
    blockingCacheCounter := 0
    sharedOffsetTrackers := []
    poisonMessageCircuit := poisonMessageCircuit
    nextUuid := 0
    engineCalls := 0
    clockReads := 0
    log := [] }

/-! ## Trackers -/

def trackerAt (s : WorkManager κ π) (r : TrackerRef) : Option OffsetTracker := s.heap[r]?

def trackerOf (s : WorkManager κ π) (tp : TopicPartition) : Option OffsetTracker :=
  (s.offsetTrackers.get? tp).bind s.trackerAt

def modifyTracker (s : WorkManager κ π) (r : TrackerRef) (f : OffsetTracker → OffsetTracker) :
    WorkManager κ π :=
  { s with heap := s.heap.modify r f }

omit [DecidableEq κ] in
theorem trackerAt_modifyTracker (s : WorkManager κ π) (r r' : TrackerRef)
    (f : OffsetTracker → OffsetTracker) :
    (s.modifyTracker r f).trackerAt r' = if r = r' then (s.trackerAt r').map f else s.trackerAt r' := by
  unfold modifyTracker trackerAt
  rw [List.getElem?_modify]
  cases s.heap[r']? with
  | none => split <;> rfl
  | some t => split <;> rfl

/-- A new tracker object. -/
def allocTracker (s : WorkManager κ π) (t : OffsetTracker) : TrackerRef × WorkManager κ π :=
  (s.heap.length, { s with heap := s.heap ++ [t] })

def invalidateBlockingCache (s : WorkManager κ π) : WorkManager κ π :=
  { s with blockingCacheCounter := 0 }

def record (s : WorkManager κ π) (e : Entry κ π) : WorkManager κ π := { s with log := e :: s.log }

/-! ## Ordering locks -/

section Locks

variable (c : WorkManagerConfig)

def recordOrderingLock (s : WorkManager κ π) (item : WorkItem κ π) : WorkManager κ π :=
  match c.orderingMode with
  | .keyHash =>
    let key := (item.tp, item.key)
    { s with
      keyInFlightCounts := s.keyInFlightCounts.set key ((s.keyInFlightCounts.get? key).getD 0 + 1)
      keysInFlight := appendKey s.keysInFlight key }
  | .partition =>
    { s with
      partitionInFlightCounts := s.partitionInFlightCounts.set item.tp
        ((s.partitionInFlightCounts.get? item.tp).getD 0 + 1)
      partitionsInFlight := appendKey s.partitionsInFlight item.tp }
  | .unordered => s

def releaseOrderingLock (s : WorkManager κ π) (item : WorkItem κ π) : WorkManager κ π :=
  match c.orderingMode with
  | .keyHash =>
    let key := (item.tp, item.key)
    let remaining := (s.keyInFlightCounts.get? key).getD 1 - 1
    if remaining > 0 then { s with keyInFlightCounts := s.keyInFlightCounts.set key remaining }
    else
      { s with
        keyInFlightCounts := s.keyInFlightCounts.erase key
        keysInFlight := discardKey s.keysInFlight key }
  | .partition =>
    let remaining := (s.partitionInFlightCounts.get? item.tp).getD 1 - 1
    if remaining > 0 then
      { s with partitionInFlightCounts := s.partitionInFlightCounts.set item.tp remaining }
    else
      { s with
        partitionInFlightCounts := s.partitionInFlightCounts.erase item.tp
        partitionsInFlight := discardKey s.partitionsInFlight item.tp }
  | .unordered => s

/-- `_record_submitted_items` for one item. -/
def recordSubmittedItem (s : WorkManager κ π) (item : WorkItem κ π) : WorkManager κ π :=
  recordOrderingLock c
    { s with
      totalQueuedMessages := s.totalQueuedMessages - 1
      currentInFlightCount := s.currentInFlightCount + 1
      dispatchTimestamps := appendKey s.dispatchTimestamps item.id }
    item

def recordSubmittedItems (s : WorkManager κ π) (items : List (WorkItem κ π)) : WorkManager κ π :=
  items.foldl (recordSubmittedItem c) s

def popDispatchTimestamp (s : WorkManager κ π) (id : WorkId) : WorkManager κ π :=
  { s with dispatchTimestamps := discardKey s.dispatchTimestamps id }

/-- `_release_in_flight_item`; the result says whether the item was in the ledger. Only an item with
a dispatch timestamp gives back its lock and its place in the in-flight count. -/
def releaseInFlightItem (s : WorkManager κ π) (id : WorkId) (reschedule : Bool) :
    Bool × WorkManager κ π :=
  match s.inFlightWorkItems.get? id with
  | none => (false, s.popDispatchTimestamp id)
  | some item =>
    let dispatched := id ∈ s.dispatchTimestamps
    let s := { s with
      inFlightWorkItems := s.inFlightWorkItems.erase id
      dispatchTimestamps := discardKey s.dispatchTimestamps id
      workItemIdsByTpOffset :=
        if s.workItemIdsByTpOffset.get? (item.tp, item.offset) = some id then
          s.workItemIdsByTpOffset.erase (item.tp, item.offset)
        else s.workItemIdsByTpOffset
      queueTopology := s.queueTopology.cleanupEmptyQueue item.tp item.key
      currentInFlightCount :=
        if dispatched then s.currentInFlightCount - 1 else s.currentInFlightCount
      blockingCacheCounter := if reschedule then 0 else s.blockingCacheCounter }
    (true, if dispatched then releaseOrderingLock c s item else s)

def isQueueEligible (s : WorkManager κ π) (k : QueueKey κ) : Bool :=
  match c.orderingMode with
  | .keyHash => k ∉ s.keysInFlight
  | .partition => k.1 ∉ s.partitionsInFlight
  | .unordered => true

def resolveRouteBatchLimit (s : WorkManager κ π) : Nat :=
  let remainingCapacity := c.maxInFlightMessages - s.currentInFlightCount
  if remainingCapacity ≤ 0 then 0
  else
    match c.orderingMode with
    | .partition => 1
    | .keyHash =>
      if c.supportsOrderedRouteBatch then min c.routeBatchSize remainingCapacity.toNat else 1
    | .unordered => min c.routeBatchSize remainingCapacity.toNat

end Locks

/-! ## Poison circuit -/

section Poison

variable (env : Env κ π)

/-- `should_force_fail` on the circuit, if there is one. -/
def shouldForceFail (s : WorkManager κ π) (item : WorkItem κ π) : Bool × WorkManager κ π :=
  match s.poisonMessageCircuit with
  | none => (false, s)
  | some circuit =>
    let (fail, circuit) := circuit.shouldForceFail (env.clock s.clockReads) item
    (fail, { s with poisonMessageCircuit := some circuit, clockReads := s.clockReads + 1 })

def forceFailQueuedItem (s : WorkManager κ π) (item : WorkItem κ π) (k : QueueKey κ) :
    Bool × WorkManager κ π :=
  let (fail, s) := s.shouldForceFail env item
  match s.poisonMessageCircuit with
  | none => (false, s)
  | some circuit =>
    if !fail then (false, s)
    else
      let (dequeued, topology) := s.queueTopology.dequeueSubmittedItem k.1 k.2
      let s := { s with queueTopology := topology }
      match dequeued with
      | none => (false, s)
      | some dequeuedItem =>
        let s := { s with
          totalQueuedMessages := s.totalQueuedMessages - 1
          completionQueue := s.completionQueue ++ [circuit.buildForcedFailureEvent dequeuedItem] }
        (true, (s.record (.poisoned dequeuedItem)).invalidateBlockingCache)

/-- `_truncate_batch_before_force_fail`. -/
def truncateBatchBeforeForceFail (s : WorkManager κ π) :
    List (WorkItem κ π) → List (WorkItem κ π) × WorkManager κ π
  | [] => ([], s)
  | item :: items =>
    match s.shouldForceFail env item with
    | (true, s) => ([], s)
    | (false, s) =>
      let (accepted, s) := truncateBatchBeforeForceFail s items
      (item :: accepted, s)

def recordCompletion (s : WorkManager κ π) (event : CompletionEvent) (item : WorkItem κ π) :
    WorkManager κ π :=
  match s.poisonMessageCircuit with
  | none => s
  | some circuit =>
    { s with
      poisonMessageCircuit := some (circuit.recordCompletion (env.clock s.clockReads) event item)
      clockReads := s.clockReads + 1 }

end Poison

/-! ## Assignment -/

/-- `on_assign` for one entry of the mapping. -/
def assignOne (c : WorkManagerConfig) (s : WorkManager κ π) (a : TopicPartition × TrackerOrOffset) :
    WorkManager κ π :=
  let s :=
    match a.2 with
    | .offset startingOffset =>
      let (r, s) := s.allocTracker (.new a.1 startingOffset c.maxRevokeGraceMs .empty)
      { s with
        offsetTrackers := s.offsetTrackers.set a.1 r
        sharedOffsetTrackers := discardKey s.sharedOffsetTrackers a.1 }
    | .tracker r =>
      { s with
        offsetTrackers := s.offsetTrackers.set a.1 r
        sharedOffsetTrackers := appendKey s.sharedOffsetTrackers a.1 }
  { s with queueTopology := s.queueTopology.assign a.1 }.record (.assigned a.1)

def onAssign (c : WorkManagerConfig) (s : WorkManager κ π)
    (assignments : List (TopicPartition × TrackerOrOffset)) : WorkManager κ π :=
  { assignments.foldl (assignOne c) s with rebalancing := false }.invalidateBlockingCache

/-- The first loop of `on_revoke` for one partition. -/
def revokeOne (s : WorkManager κ π) (tp : TopicPartition) : WorkManager κ π :=
  let (removedCount, topology) := s.queueTopology.revoke tp
  { s with
    queueTopology := topology
    totalQueuedMessages := s.totalQueuedMessages - removedCount
    offsetTrackers := s.offsetTrackers.erase tp
    sharedOffsetTrackers := discardKey s.sharedOffsetTrackers tp
    poisonMessageCircuit := s.poisonMessageCircuit.map (·.clearPartition tp) }

def staleIds (s : WorkManager κ π) (revokedTps : List TopicPartition) : List WorkId :=
  (s.inFlightWorkItems.entries.filter fun e => e.2.tp ∈ revokedTps).map Prod.fst

/-- Drop the locks of revoked partitions. -/
def dropRevokedLocks (c : WorkManagerConfig) (s : WorkManager κ π)
    (revokedTps : List TopicPartition) : WorkManager κ π :=
  { s with
    keysInFlight :=
      if c.orderingMode = .keyHash then s.keysInFlight.filter fun k => k.1 ∉ revokedTps
      else s.keysInFlight
    partitionsInFlight :=
      if c.orderingMode = .partition then s.partitionsInFlight.filter fun tp => tp ∉ revokedTps
      else s.partitionsInFlight
    keyInFlightCounts := s.keyInFlightCounts.filter fun k _ => k.1 ∉ revokedTps
    partitionInFlightCounts := s.partitionInFlightCounts.filter fun tp _ => tp ∉ revokedTps }

def onRevoke (c : WorkManagerConfig) (s : WorkManager κ π) (revokedTps : List TopicPartition) :
    WorkManager κ π :=
  let s := revokedTps.foldl revokeOne s
  let s :=
    if revokedTps = [] then s
    else
      let s := (s.staleIds revokedTps).foldl (fun s id => (releaseInFlightItem c s id false).2) s
      dropRevokedLocks c s revokedTps
  { s.record (.revoked revokedTps) with rebalancing := true }.invalidateBlockingCache

/-- What the first loop establishes, and the releases, the lock tables and the flags keep, holds after
`on_revoke`. -/
theorem onRevoke_induction (c : WorkManagerConfig) {P : WorkManager κ π → Prop} {s : WorkManager κ π}
    {tps : List TopicPartition} (hrevoke : P (tps.foldl revokeOne s))
    (hrelease : ∀ t id, P t → P (releaseInFlightItem c t id false).2)
    (hlocks : ∀ t, P t → P (dropRevokedLocks c t tps))
    (hflags : ∀ t, P t → P ({ t.record (.revoked tps) with rebalancing := true }.invalidateBlockingCache)) :
    P (s.onRevoke c tps) := by
  have hstale : ∀ (ids : List WorkId) (t : WorkManager κ π), P t →
      P (ids.foldl (fun t id => (releaseInFlightItem c t id false).2) t) := by
    intro ids
    induction ids with
    | nil => intro t ht; exact ht
    | cons id ids ih => intro t ht; exact ih _ (hrelease t id ht)
  unfold onRevoke
  dsimp only
  split
  · exact hflags _ hrevoke
  · exact hflags _ (hlocks _ (hstale _ _ hrevoke))

/-! ## Submission -/

def submitOne (tp : TopicPartition) (key : κ) (s : WorkManager κ π) (m : QueuedMessage κ π) :
    WorkItem κ π × WorkManager κ π :=
  let item : WorkItem κ π :=
    { id := .uuid s.nextUuid
      tp := tp
      offset := m.offset
      epoch := m.epoch
      key := key
      payload := m.payload
      poisonKey := some (m.poisonKey.getD key) }
  (item,
    { s with
      nextUuid := s.nextUuid + 1
      inFlightWorkItems := s.inFlightWorkItems.set item.id item
      workItemIdsByTpOffset := s.workItemIdsByTpOffset.set (tp, m.offset) item.id }.record (.enqueued item))

/-- The inner loop of `submit_message_batch`: the work items of one group. -/
def createItems (tp : TopicPartition) (key : κ) (s : WorkManager κ π) :
    List (QueuedMessage κ π) → List (WorkItem κ π) × WorkManager κ π
  | [] => ([], s)
  | m :: ms =>
    let (item, s) := submitOne tp key s m
    let (items, s) := createItems tp key s ms
    (item :: items, s)

def raiseMax (maxOffsets : Dict TopicPartition Int) (tp : TopicPartition) (offset : Int) :
    Dict TopicPartition Int :=
  match maxOffsets.get? tp with
  | none => maxOffsets.set tp offset
  | some m => if offset > m then maxOffsets.set tp offset else maxOffsets

def submitGroup (s : WorkManager κ π) (k : QueueKey κ) (messages : List (QueuedMessage κ π)) :
    WorkManager κ π :=
  let (items, s) := createItems k.1 k.2 s messages
  { s with
    queueTopology := s.queueTopology.enqueueBatch k.1 k.2 items
    totalQueuedMessages := s.totalQueuedMessages + items.length }

/-- The groups in order. A partition without queues raises `ValueError`, with the groups before it
already queued. -/
def submitGroups (s : WorkManager κ π) (maxOffsets : Dict TopicPartition Int) :
    List (QueueKey κ × List (QueuedMessage κ π)) →
    WorkManager κ π × Except String (Dict TopicPartition Int)
  | [] => (s, .ok maxOffsets)
  | (k, messages) :: groups =>
    if s.queueTopology.virtualPartitionQueues.contains k.1 then
      submitGroups (s.submitGroup k messages)
        (messages.foldl (fun d m => raiseMax d k.1 m.offset) maxOffsets) groups
    else (s, .error ("TopicPartition " ++ k.1.text ++ " is not assigned to WorkManager."))

def updateLastFetched (s : WorkManager κ π) (e : TopicPartition × Int) : WorkManager κ π :=
  match s.offsetTrackers.get? e.1 with
  | none => s
  | some r => s.modifyTracker r (·.updateLastFetchedOffset e.2)

def submitMessageBatch (s : WorkManager κ π)
    (groupedMessages : List (QueueKey κ × List (QueuedMessage κ π))) :
    WorkManager κ π × Except String Unit :=
  match s.submitGroups .empty groupedMessages with
  | (s, .error e) => (s, .error e)
  | (s, .ok maxOffsets) =>
    if maxOffsets.entries = [] then (s, .ok ())
    else ((maxOffsets.entries.foldl updateLastFetched s).invalidateBlockingCache, .ok ())

def submitMessage (s : WorkManager κ π) (tp : TopicPartition) (offset epoch : Int) (key : κ)
    (payload : π) : WorkManager κ π × Except String Unit :=
  s.submitMessageBatch [((tp, key), [⟨offset, epoch, payload, none⟩])]

/-- `force_fail`; the result says whether an item was found. -/
def forceFail (s : WorkManager κ π) (tp : TopicPartition) (offset epoch : Int) (error : String)
    (attempt : Int) : Bool × WorkManager κ π :=
  let put (s : WorkManager κ π) (id : WorkId) : WorkManager κ π :=
    { s with completionQueue := s.completionQueue ++
        [{ id := id, tp := tp, offset := offset, epoch := epoch, status := .failure,
           error := some (.text error), attempt := attempt }] }
  match s.workItemIdsByTpOffset.get? (tp, offset) with
  | some id => (true, put s id)
  | none =>
    match s.inFlightWorkItems.entries.find? fun e => e.2.tp = tp ∧ e.2.offset = offset with
    | some (id, _) =>
      (true, put { s with workItemIdsByTpOffset := s.workItemIdsByTpOffset.set (tp, offset) id } id)
    | none => (false, s)

/-! ## Scheduling -/

/-- The loop of `get_blocking_offsets`. Trackers that are not shared first advance. -/
def blockingOffsetsFrom (s : WorkManager κ π) (acc : Dict TopicPartition (Option OffsetRange)) :
    List (TopicPartition × TrackerRef) → Dict TopicPartition (Option OffsetRange) × WorkManager κ π
  | [] => (acc, s)
  | (tp, r) :: l =>
    let s := if tp ∈ s.sharedOffsetTrackers then s else s.modifyTracker r (·.advanceHighWaterMark)
    let gap := ((s.trackerAt r).bind (·.firstGapHead)).map fun o => OffsetRange.mk o o
    blockingOffsetsFrom s (acc.set tp gap) l

def getBlockingOffsets (s : WorkManager κ π) :
    Dict TopicPartition (Option OffsetRange) × WorkManager κ π :=
  s.blockingOffsetsFrom .empty s.offsetTrackers.entries

section Schedule

variable (c : WorkManagerConfig) (env : Env κ π)

def pickQueueKey (s : WorkManager κ π) (blockingOffsets : Dict TopicPartition (Option OffsetRange)) :
    Option (QueueKey κ) × WorkManager κ π :=
  match s.queueTopology.pickBlockingQueueKey (s.isQueueEligible c) blockingOffsets with
  | (some k, topology) => (some k, { s with queueTopology := topology })
  | (none, topology) =>
    let (k, topology) := topology.pickNextRunnableQueueKey (s.isQueueEligible c)
    (k, { s with queueTopology := topology })

def deactivate (s : WorkManager κ π) (k : QueueKey κ) : WorkManager κ π :=
  { s with queueTopology := s.queueTopology.deactivateQueueKey k }

def refreshHead (s : WorkManager κ π) (k : QueueKey κ) (queue : List (WorkItem κ π)) :
    WorkManager κ π :=
  { s with queueTopology := s.queueTopology.refreshQueueHead k queue }

/-- Dequeue what the engine accepted and record it. -/
def acceptItems (s : WorkManager κ π) (k : QueueKey κ) (count : Nat) :
    List (WorkItem κ π) × WorkManager κ π :=
  let (dequeued, topology) := s.queueTopology.dequeueSubmittedItems k.1 k.2 count
  (dequeued, recordSubmittedItems c { s with queueTopology := topology } dequeued)

inductive Next where
  | again
  | stop
deriving DecidableEq, Repr

/-- The `try` block: one engine call with a lease that starts with `head`. -/
def submitLease (s : WorkManager κ π) (deferred : List (QueueKey κ)) (k : QueueKey κ)
    (queue : List (WorkItem κ π)) (head : WorkItem κ π) (lease : List (WorkItem κ π))
    (truncated : Bool) : Next × WorkManager κ π × List (QueueKey κ) :=
  let outcome := env.submit s.engineCalls lease
  let s := { s with engineCalls := s.engineCalls + 1 }
  match outcome with
  | .accepted =>
    let (dequeued, s) := acceptItems c (s.record (.handed lease)) k lease.length
    if dequeued = [] then (.stop, s, deferred)
    else if truncated then (.again, s.deactivate k, appendKey deferred k)
    else (.again, s, deferred)
  | .batchError acceptedCount =>
    if acceptedCount > 0 then
      (.stop, (acceptItems c (s.record (.handed (lease.take acceptedCount))) k acceptedCount).2, deferred)
    else (.stop, s.refreshHead (head.tp, head.key) queue, deferred)
  | .error => (.stop, s.refreshHead (head.tp, head.key) queue, deferred)

/-- The items selected from the queue `head :: rest`: force the failure of the first, or lease those
before the first poisoned one. -/
def serveQueue (s : WorkManager κ π) (deferred : List (QueueKey κ)) (k : QueueKey κ)
    (head : WorkItem κ π) (rest : List (WorkItem κ π)) :
    Next × WorkManager κ π × List (QueueKey κ) :=
  let items := (head :: rest).take (s.resolveRouteBatchLimit c)
  if items = [] then (.stop, s, deferred)
  else
    match s.forceFailQueuedItem env head k with
    | (true, s) => (.again, s, deferred)
    | (false, s) =>
      match s.truncateBatchBeforeForceFail env items with
      | ([], s) => (.again, s, deferred)
      | (x :: lease, s) =>
        s.submitLease c env deferred k (head :: rest) head (x :: lease)
          ((x :: lease).length < items.length)

/-- One iteration of the `while` loop of `schedule`. -/
def scheduleStep (blockingOffsets : Dict TopicPartition (Option OffsetRange)) (s : WorkManager κ π)
    (deferred : List (QueueKey κ)) : Next × WorkManager κ π × List (QueueKey κ) :=
  if (s.currentInFlightCount : Int) ≥ c.maxInFlightMessages then (.stop, s, deferred)
  else if s.rebalancing then (.stop, s, deferred)
  else
    match s.pickQueueKey c blockingOffsets with
    | (none, s) => (.stop, s, deferred)
    | (some k, s) =>
      match s.queueTopology.getQueue k.1 k.2 with
      | none | some [] => (.again, s.deactivate k, deferred)
      | some (head :: rest) => s.serveQueue c env deferred k head rest

def scheduleLoop (blockingOffsets : Dict TopicPartition (Option OffsetRange)) :
    Nat → WorkManager κ π → List (QueueKey κ) → WorkManager κ π × List (QueueKey κ)
  | 0, s, deferred => (s, deferred)
  | fuel + 1, s, deferred =>
    match s.scheduleStep c env blockingOffsets deferred with
    | (.stop, s, deferred) => (s, deferred)
    | (.again, s, deferred) => scheduleLoop blockingOffsets fuel s deferred

/-- The `finally` block of `schedule` for one deferred key. -/
def reactivate (s : WorkManager κ π) (k : QueueKey κ) : WorkManager κ π :=
  match s.queueTopology.getQueue k.1 k.2 with
  | none | some [] => s
  | some (head :: rest) => s.refreshHead k (head :: rest)

/-- The blocking offsets of a schedule call, cached for `blockingCacheTtl` calls. -/
def cachedBlockingOffsets (s : WorkManager κ π) :
    Dict TopicPartition (Option OffsetRange) × WorkManager κ π :=
  if s.blockingCacheCounter ≤ 0 then
    let (blockingOffsets, s) := s.getBlockingOffsets
    (blockingOffsets,
      { s with blockingCache := blockingOffsets, blockingCacheCounter := c.blockingCacheTtl })
  else (s.blockingCache, { s with blockingCacheCounter := s.blockingCacheCounter - 1 })

/-- A bound on the iterations of `schedule`: each deactivates a key or dequeues an item. -/
def scheduleFuel (s : WorkManager κ π) : Nat :=
  (s.queueTopology.virtualPartitionQueues.sum fun queues => queues.sum List.length) +
    s.queueTopology.activeRunnableQueueKeys.length + 1

def schedule (s : WorkManager κ π) : WorkManager κ π :=
  let (blockingOffsets, s) := s.cachedBlockingOffsets c
  let (s, deferred) := s.scheduleLoop c env blockingOffsets s.scheduleFuel []
  (env.setOrder deferred).foldl reactivate s

/-! ## Completion -/

/-- `_process_completion_event`; the result asks for another scheduling round. -/
def processCompletionEvent (s : WorkManager κ π) (event : CompletionEvent) : Bool × WorkManager κ π :=
  let s := s.record (.processed event)
  match s.offsetTrackers.get? event.tp with
  | none => (false, s.popDispatchTimestamp event.id)
  | some r =>
    if (s.trackerAt r).map (·.epoch) ≠ some event.epoch then
      let s :=
        match s.inFlightWorkItems.get? event.id with
        | some item => if item.tp = event.tp then (releaseInFlightItem c s event.id true).2 else s
        | none => s
      (false, s.popDispatchTimestamp event.id)
    else
      let s :=
        if event.tp ∈ s.sharedOffsetTrackers then s
        else (s.modifyTracker r (·.markComplete event.offset)).invalidateBlockingCache
      match s.inFlightWorkItems.get? event.id with
      | none => (false, s.popDispatchTimestamp event.id)
      | some item =>
        let s := s.recordCompletion env event item
        (true, ((releaseInFlightItem c s event.id false).2).popDispatchTimestamp event.id)

/-- The inner loop of `poll_completed_events` over the queued events. -/
def processAll (s : WorkManager κ π) : List CompletionEvent → Bool × WorkManager κ π
  | [] => (false, s)
  | event :: events =>
    let (b, s) := s.processCompletionEvent c env event
    let (b', s) := processAll s events
    (b || b', s)

/-- The outer loop of `poll_completed_events`; it goes round again only when scheduling has forced
failures, each of which took an item off a queue. -/
def pollLoop (scheduleAfterRelease : Bool) :
    Nat → WorkManager κ π → List CompletionEvent → List CompletionEvent × WorkManager κ π
  | 0, s, completed => (completed, s)
  | fuel + 1, s, completed =>
    let events := s.completionQueue
    let (shouldSchedule, s) := processAll c env { s with completionQueue := [] } events
    let completed := completed ++ events
    if !scheduleAfterRelease || !shouldSchedule then (completed, s)
    else
      let s := s.schedule c env
      if s.completionQueue = [] then (completed, s)
      else pollLoop scheduleAfterRelease fuel s completed

def pollCompletedEvents (s : WorkManager κ π) (engineEvents : List CompletionEvent)
    (scheduleAfterRelease : Bool) : List CompletionEvent × WorkManager κ π :=
  pollLoop c env scheduleAfterRelease s.scheduleFuel
    { s with completionQueue := s.completionQueue ++ engineEvents } []

end Schedule

def getMinInFlightOffset (s : WorkManager κ π) (tp : TopicPartition) : Option Int :=
  s.dispatchTimestamps.foldl
    (fun best id =>
      match s.inFlightWorkItems.get? id with
      | none => best
      | some item =>
        if item.tp ≠ tp then best
        else
          match best with
          | none => some item.offset
          | some m => if item.offset < m then some item.offset else best)
    none

end WorkManager

end PyrallelConsumer
