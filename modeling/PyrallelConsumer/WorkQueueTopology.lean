import PyrallelConsumer.Dto
import PyrallelConsumer.Lib.Counted

/-!
# PyrallelConsumer.WorkQueueTopology

The virtual queues of `control_plane/work_queue_topology.py` and the index that selects among them:
the ordered runnable keys, the active set, and the head offsets in both directions. An
`asyncio.Queue` is the list of its items, oldest first; a set is a list without order.
-/

namespace PyrallelConsumer

abbrev QueueKey (κ : Type) := TopicPartition × κ

instance (κ : Type) [DecidableEq κ] : LawfulBEq (QueueKey κ) := inferInstanceAs (LawfulBEq (_ × _))

structure WorkQueueTopology (κ π : Type) where
  virtualPartitionQueues : Dict TopicPartition (Dict κ (List (WorkItem κ π)))
  runnableQueueKeys : List (QueueKey κ)
  activeRunnableQueueKeys : List (QueueKey κ)
  headOffsets : Dict (QueueKey κ) Int
  headQueueKeysByOffset : Dict (TopicPartition × Int) (QueueKey κ)

namespace WorkQueueTopology

variable {κ π : Type} [DecidableEq κ]

def new : WorkQueueTopology κ π :=
  { virtualPartitionQueues := .empty
    runnableQueueKeys := []
    activeRunnableQueueKeys := []
    headOffsets := .empty
    headQueueKeysByOffset := .empty }

def getQueue (q : WorkQueueTopology κ π) (tp : TopicPartition) (key : κ) :
    Option (List (WorkItem κ π)) :=
  (q.virtualPartitionQueues.get? tp).bind (·.get? key)

/-- Store the items of a queue whose partition is assigned. -/
def putQueue (q : WorkQueueTopology κ π) (tp : TopicPartition) (key : κ) (l : List (WorkItem κ π)) :
    WorkQueueTopology κ π :=
  match q.virtualPartitionQueues.get? tp with
  | none => q
  | some queues =>
    { q with virtualPartitionQueues := q.virtualPartitionQueues.set tp (queues.set key l) }

def deactivateQueueKey (q : WorkQueueTopology κ π) (k : QueueKey κ) : WorkQueueTopology κ π :=
  { q with
    activeRunnableQueueKeys := discardKey q.activeRunnableQueueKeys k
    headOffsets := q.headOffsets.erase k
    headQueueKeysByOffset :=
      match q.headOffsets.get? k with
      | some o => q.headQueueKeysByOffset.erase (k.1, o)
      | none => q.headQueueKeysByOffset
    runnableQueueKeys := discardKey q.runnableQueueKeys k }

def activateQueueKey (q : WorkQueueTopology κ π) (k : QueueKey κ) : WorkQueueTopology κ π :=
  if k ∈ q.activeRunnableQueueKeys then q
  else
    { q with
      runnableQueueKeys := appendKey q.runnableQueueKeys k
      activeRunnableQueueKeys := appendKey q.activeRunnableQueueKeys k }

def refreshQueueHead (q : WorkQueueTopology κ π) (k : QueueKey κ) (queue : List (WorkItem κ π)) :
    WorkQueueTopology κ π :=
  let q := q.deactivateQueueKey k
  match queue with
  | [] => q
  | head :: _ =>
    { q with
      headOffsets := q.headOffsets.set k head.offset
      headQueueKeysByOffset := q.headQueueKeysByOffset.set (k.1, head.offset) k }.activateQueueKey k

/-- `cleanup_empty_queue`: drop a queue that exists and is empty. -/
def cleanupEmptyQueue (q : WorkQueueTopology κ π) (tp : TopicPartition) (key : κ) :
    WorkQueueTopology κ π :=
  match q.virtualPartitionQueues.get? tp with
  | none => q
  | some queues =>
    match queues.get? key with
    | some [] =>
      { q.deactivateQueueKey (tp, key) with
        virtualPartitionQueues := q.virtualPartitionQueues.set tp (queues.erase key) }
    | _ => q

def assign (q : WorkQueueTopology κ π) (tp : TopicPartition) : WorkQueueTopology κ π :=
  { q with virtualPartitionQueues := q.virtualPartitionQueues.set tp .empty }

def partitionSize (q : WorkQueueTopology κ π) (tp : TopicPartition) : Nat :=
  ((q.virtualPartitionQueues.get? tp).getD .empty).sum List.length

/-- `revoke`, with the number of items it removes. -/
def revoke (q : WorkQueueTopology κ π) (tp : TopicPartition) : Nat × WorkQueueTopology κ π :=
  let keys := ((q.virtualPartitionQueues.get? tp).getD .empty).keys
  let q' := keys.foldl (fun q key => q.deactivateQueueKey (tp, key)) q
  (q.partitionSize tp, { q' with virtualPartitionQueues := q'.virtualPartitionQueues.erase tp })

def enqueueBatch (q : WorkQueueTopology κ π) (tp : TopicPartition) (key : κ)
    (workItems : List (WorkItem κ π)) : WorkQueueTopology κ π :=
  let queue := (q.getQueue tp key).getD []
  let q := q.putQueue tp key (queue ++ workItems)
  if queue = [] ∧ workItems ≠ [] then q.refreshQueueHead (tp, key) workItems else q

section Pick

variable (isQueueEligible : QueueKey κ → Bool)

/-- The loop of `pick_blocking_queue_key`, with the best key and offset so far. -/
def bestBlocking (q : WorkQueueTopology κ π) :
    List (TopicPartition × Option OffsetRange) → Option (QueueKey κ × Int) → Option (QueueKey κ × Int)
  | [], best => best
  | (_, none) :: gaps, best => bestBlocking q gaps best
  | (tp, some gap) :: gaps, best =>
    match q.headQueueKeysByOffset.get? (tp, gap.start) with
    | none => bestBlocking q gaps best
    | some k =>
      if k ∉ q.activeRunnableQueueKeys then bestBlocking q gaps best
      else if !isQueueEligible k then bestBlocking q gaps best
      else
        match best with
        | none => bestBlocking q gaps (some (k, gap.start))
        | some (_, o) => bestBlocking q gaps (if gap.start < o then some (k, gap.start) else best)

def pickBlockingQueueKey (q : WorkQueueTopology κ π)
    (blockingOffsets : Dict TopicPartition (Option OffsetRange)) :
    Option (QueueKey κ) × WorkQueueTopology κ π :=
  match bestBlocking isQueueEligible q blockingOffsets.entries none with
  | none => (none, q)
  | some (k, _) =>
    (some k,
      { q with
        activeRunnableQueueKeys := discardKey q.activeRunnableQueueKeys k
        runnableQueueKeys := discardKey q.runnableQueueKeys k })

/-- The loop of `pick_next_runnable_queue_key`, with the attempts left. -/
def pickNext : Nat → WorkQueueTopology κ π → Option (QueueKey κ) × WorkQueueTopology κ π
  | 0, q => (none, q)
  | attempts + 1, q =>
    match q.runnableQueueKeys with
    | [] => (none, q)
    | k :: rest =>
      let q := { q with runnableQueueKeys := rest }
      if k ∉ q.activeRunnableQueueKeys then pickNext attempts q
      else if (q.getQueue k.1 k.2).getD [] = [] then pickNext attempts (q.deactivateQueueKey k)
      else if !isQueueEligible k then
        pickNext attempts { q with runnableQueueKeys := appendKey q.runnableQueueKeys k }
      else
        (some k, { q with activeRunnableQueueKeys := discardKey q.activeRunnableQueueKeys k })

def pickNextRunnableQueueKey (q : WorkQueueTopology κ π) :
    Option (QueueKey κ) × WorkQueueTopology κ π :=
  pickNext isQueueEligible q.runnableQueueKeys.length q

end Pick

/-- The end of both dequeue functions: drop the queue or refresh its head. -/
def settleQueue (q : WorkQueueTopology κ π) (tp : TopicPartition) (key : κ)
    (rest : List (WorkItem κ π)) : WorkQueueTopology κ π :=
  let q := q.putQueue tp key rest
  if rest = [] then q.cleanupEmptyQueue tp key else q.refreshQueueHead (tp, key) rest

def dequeueSubmittedItem (q : WorkQueueTopology κ π) (tp : TopicPartition) (key : κ) :
    Option (WorkItem κ π) × WorkQueueTopology κ π :=
  match q.getQueue tp key with
  | some (item :: rest) => (some item, q.settleQueue tp key rest)
  | _ => (none, q.deactivateQueueKey (tp, key))

def dequeueSubmittedItems (q : WorkQueueTopology κ π) (tp : TopicPartition) (key : κ) (count : Nat) :
    List (WorkItem κ π) × WorkQueueTopology κ π :=
  if count = 0 then ([], q)
  else
    match q.getQueue tp key with
    | some (item :: rest) =>
      ((item :: rest).take count, q.settleQueue tp key ((item :: rest).drop count))
    | _ => ([], q.deactivateQueueKey (tp, key))

end WorkQueueTopology

end PyrallelConsumer
