import PyrallelConsumer.VirtualQueues
import PyrallelConsumer.WorkManager
import PyrallelConsumer.Lib.Grouping

/-!
# PyrallelConsumer.QueueBatches

`enqueue_batch` of `control_plane/work_queue_topology.py` called again and again. A batch refreshes the head
of its queue only if the queue was empty, so later batches for the queue only append, and then they commute
with the batches of the other queues.

* `enqueueBatch_append`, `enqueueBatch_comm` — batches of one queue and of two.
* `enqueueBatch_mapItems` — the items matter by their offsets alone.
* `batchable_enqueue` — batches of messages can be grouped by queue.
-/

set_option linter.unusedSectionVars false

namespace PyrallelConsumer

variable {κ π : Type} [DecidableEq κ]

namespace WorkQueueTopology

/-! ## Queues up to their items -/

/-- The topology with a function applied to every queued item. -/
def mapItems (q : WorkQueueTopology κ π) (f : WorkItem κ π → WorkItem κ π) : WorkQueueTopology κ π :=
  { q with virtualPartitionQueues := q.virtualPartitionQueues.mapValues fun queues => queues.mapValues (·.map f) }

/-- The topology with other queues. -/
def withQueues (q : WorkQueueTopology κ π) (d : Dict TopicPartition (Dict κ (List (WorkItem κ π)))) :
    WorkQueueTopology κ π :=
  { q with virtualPartitionQueues := d }

/-- The queues after storing the items of one of an assigned partition. -/
def putIn (d : Dict TopicPartition (Dict κ (List (WorkItem κ π)))) (tp : TopicPartition) (key : κ)
    (l : List (WorkItem κ π)) : Dict TopicPartition (Dict κ (List (WorkItem κ π))) :=
  match d.get? tp with
  | none => d
  | some queues => d.set tp (queues.set key l)

theorem putQueue_eq (q : WorkQueueTopology κ π) (tp : TopicPartition) (key : κ) (l : List (WorkItem κ π)) :
    q.putQueue tp key l = q.withQueues (putIn q.virtualPartitionQueues tp key l) := by
  unfold putQueue putIn
  cases q.virtualPartitionQueues.get? tp <;> rfl

/-- Refreshing a head does not look at the queues. -/
theorem refreshQueueHead_withQueues (q : WorkQueueTopology κ π)
    (d : Dict TopicPartition (Dict κ (List (WorkItem κ π)))) (k : QueueKey κ) (l : List (WorkItem κ π)) :
    (q.withQueues d).refreshQueueHead k l = (q.refreshQueueHead k l).withQueues d := by
  cases l with
  | nil => rfl
  | cons x l =>
    unfold refreshQueueHead activateQueueKey
    dsimp only
    split <;> split
    · rfl
    · contradiction
    · contradiction
    · rfl

theorem putQueue_refresh (q : WorkQueueTopology κ π) (k : QueueKey κ) (l : List (WorkItem κ π))
    (tp : TopicPartition) (key : κ) (l' : List (WorkItem κ π)) :
    (q.refreshQueueHead k l).putQueue tp key l' = (q.putQueue tp key l').refreshQueueHead k l := by
  rw [putQueue_eq, putQueue_eq, refreshQueueHead_withQueues, sameQueues_refresh q k l]

/-- Only the first item of a queue counts for its head. -/
theorem refreshQueueHead_append (q : WorkQueueTopology κ π) (k : QueueKey κ) {l : List (WorkItem κ π)}
    (l' : List (WorkItem κ π)) (h : l ≠ []) : q.refreshQueueHead k (l ++ l') = q.refreshQueueHead k l := by
  cases l with
  | nil => exact absurd rfl h
  | cons x l => rfl

theorem putIn_putIn (d : Dict TopicPartition (Dict κ (List (WorkItem κ π)))) (tp : TopicPartition) (key : κ)
    (l l' : List (WorkItem κ π)) : putIn (putIn d tp key l) tp key l' = putIn d tp key l' := by
  cases h : d.get? tp with
  | none => simp [putIn, h]
  | some queues => simp [putIn, h, Dict.set_set]

theorem putQueue_putQueue (q : WorkQueueTopology κ π) (tp : TopicPartition) (key : κ)
    (l l' : List (WorkItem κ π)) : (q.putQueue tp key l).putQueue tp key l' = q.putQueue tp key l' := by
  rw [putQueue_eq, putQueue_eq, putQueue_eq]
  show q.withQueues (putIn (putIn q.virtualPartitionQueues tp key l) tp key l') = _
  rw [putIn_putIn]

/-- Storing two queues commutes once the first of them exists. -/
theorem putQueue_comm {q : WorkQueueTopology κ π} {k j : QueueKey κ} (hne : j ≠ k)
    (l l' : List (WorkItem κ π)) (h : (q.getQueue k.1 k.2).isSome) :
    (q.putQueue k.1 k.2 l).putQueue j.1 j.2 l' = (q.putQueue j.1 j.2 l').putQueue k.1 k.2 l := by
  obtain ⟨tp, key⟩ := k
  obtain ⟨tp', key'⟩ := j
  obtain ⟨queue, hqueue⟩ := Option.isSome_iff_exists.mp h
  obtain ⟨queues, hqueues, hkey⟩ := Option.bind_eq_some_iff.mp hqueue
  rw [putQueue_eq, putQueue_eq, putQueue_eq, putQueue_eq]
  show q.withQueues (putIn (putIn q.virtualPartitionQueues tp key l) tp' key' l') =
    q.withQueues (putIn (putIn q.virtualPartitionQueues tp' key' l') tp key l)
  congr 1
  by_cases htp : tp' = tp
  · subst htp
    have hkeys : key' ≠ key := fun heq => hne (heq ▸ rfl)
    have hcomm : (queues.set key l).set key' l' = (queues.set key' l').set key l :=
      Dict.set_comm hkeys l l' (Option.isSome_iff_exists.mpr ⟨_, hkey⟩)
    simp [putIn, hqueues, Dict.set_set, hcomm]
  · cases hother : q.virtualPartitionQueues.get? tp' with
    | none => simp [putIn, hqueues, hother, Dict.get?_set, Ne.symm htp]
    | some queues' =>
      simp only [putIn, hqueues, hother, Dict.get?_set, if_neg htp, if_neg (Ne.symm htp)]
      exact Dict.set_comm htp _ _ (Option.isSome_iff_exists.mpr ⟨_, hqueues⟩)

/-! ## Batches -/

theorem enqueueBatch_of_queueOf_ne_nil {q : WorkQueueTopology κ π} {tp : TopicPartition} {key : κ}
    (h : q.queueOf tp key ≠ []) (l : List (WorkItem κ π)) :
    q.enqueueBatch tp key l = q.putQueue tp key (q.queueOf tp key ++ l) := by
  unfold enqueueBatch
  exact if_neg fun hnil => h hnil.1

/-- A batch is served as well in two parts. -/
theorem enqueueBatch_append {q : WorkQueueTopology κ π} {tp : TopicPartition} (h : q.assigned tp) (key : κ)
    {l : List (WorkItem κ π)} (hl : l ≠ []) (l' : List (WorkItem κ π)) :
    q.enqueueBatch tp key (l ++ l') = (q.enqueueBatch tp key l).enqueueBatch tp key l' := by
  have hqueue : (q.enqueueBatch tp key l).queueOf tp key = q.queueOf tp key ++ l := by
    rw [queueOf_enqueueBatch h, if_pos ⟨rfl, rfl⟩]
  have hsecond : (q.enqueueBatch tp key l).enqueueBatch tp key l' =
      (q.enqueueBatch tp key l).putQueue tp key (q.queueOf tp key ++ l ++ l') := by
    rw [enqueueBatch_of_queueOf_ne_nil (q := q.enqueueBatch tp key l) (by rw [hqueue]; simp [hl]), hqueue]
  rw [hsecond]
  unfold enqueueBatch
  dsimp only
  by_cases hnil : (q.getQueue tp key).getD [] = []
  · rw [if_pos ⟨hnil, by simp [hl]⟩, if_pos ⟨hnil, hl⟩, putQueue_refresh, putQueue_putQueue,
      refreshQueueHead_append _ _ _ hl]
    simp only [queueOf, List.append_assoc]
  · rw [if_neg fun hboth => hnil hboth.1, if_neg fun hboth => hnil hboth.1, putQueue_putQueue]
    simp only [queueOf, List.append_assoc]

/-- Appending to an open queue commutes with a batch for another queue. -/
theorem enqueueBatch_comm {q : WorkQueueTopology κ π} {k j : QueueKey κ} (hk : q.assigned k.1) (hj : q.assigned j.1)
    (hne : j ≠ k) (hopen : q.queueOf k.1 k.2 ≠ []) (l l' : List (WorkItem κ π)) :
    (q.enqueueBatch k.1 k.2 l).enqueueBatch j.1 j.2 l' = (q.enqueueBatch j.1 j.2 l').enqueueBatch k.1 k.2 l := by
  have hkeys : ¬(j.1 = k.1 ∧ j.2 = k.2) := fun h => hne (Prod.ext h.1 h.2)
  have hkeys' : ¬(k.1 = j.1 ∧ k.2 = j.2) := fun h => hkeys ⟨h.1.symm, h.2.symm⟩
  have hsome : (q.getQueue k.1 k.2).isSome := by
    by_contra hnone
    rw [Option.not_isSome_iff_eq_none] at hnone
    exact hopen (by rw [queueOf, hnone]; rfl)
  have hafter : (q.enqueueBatch j.1 j.2 l').queueOf k.1 k.2 = q.queueOf k.1 k.2 := by
    rw [queueOf_enqueueBatch hj, if_neg hkeys]
  have hsecond : (q.enqueueBatch j.1 j.2 l').enqueueBatch k.1 k.2 l =
      (q.enqueueBatch j.1 j.2 l').putQueue k.1 k.2 (q.queueOf k.1 k.2 ++ l) := by
    rw [enqueueBatch_of_queueOf_ne_nil (q := q.enqueueBatch j.1 j.2 l') (by rw [hafter]; exact hopen), hafter]
  rw [enqueueBatch_of_queueOf_ne_nil hopen, hsecond]
  have hother : (q.putQueue k.1 k.2 (q.queueOf k.1 k.2 ++ l)).queueOf j.1 j.2 = q.queueOf j.1 j.2 := by
    rw [queueOf_putQueue hk, if_neg hkeys']
  unfold enqueueBatch
  dsimp only
  rw [show ((q.putQueue k.1 k.2 (q.queueOf k.1 k.2 ++ l)).getQueue j.1 j.2).getD [] =
    (q.getQueue j.1 j.2).getD [] from hother]
  split
  · rw [putQueue_comm hne _ _ hsome, putQueue_refresh]
  · exact putQueue_comm hne _ _ hsome

/-! ## Operations on mapped queues -/

section

variable {f : WorkItem κ π → WorkItem κ π}

theorem getQueue_mapItems (q : WorkQueueTopology κ π) (tp : TopicPartition) (key : κ) :
    (q.mapItems f).getQueue tp key = (q.getQueue tp key).map (·.map f) := by
  unfold getQueue mapItems
  dsimp only
  rw [Dict.get?_mapValues]
  cases q.virtualPartitionQueues.get? tp with
  | none => rfl
  | some queues => exact Dict.get?_mapValues queues _ key

theorem queueOf_mapItems (q : WorkQueueTopology κ π) (tp : TopicPartition) (key : κ) :
    (q.mapItems f).queueOf tp key = (q.queueOf tp key).map f := by
  unfold queueOf
  rw [getQueue_mapItems]
  cases q.getQueue tp key <;> rfl

theorem assigned_mapItems (q : WorkQueueTopology κ π) : (q.mapItems f).assigned = q.assigned := by
  funext tp
  simp only [assigned, mapItems, Dict.get?_mapValues, Option.isSome_map]

theorem putQueue_mapItems (q : WorkQueueTopology κ π) (tp : TopicPartition) (key : κ) (l : List (WorkItem κ π)) :
    (q.putQueue tp key l).mapItems f = (q.mapItems f).putQueue tp key (l.map f) := by
  cases h : q.virtualPartitionQueues.get? tp with
  | none => simp [putQueue, mapItems, Dict.get?_mapValues, h]
  | some queues => simp [putQueue, mapItems, Dict.get?_mapValues, h, Dict.mapValues_set]

theorem refreshQueueHead_mapItems (hf : ∀ x, (f x).offset = x.offset) (q : WorkQueueTopology κ π) (k : QueueKey κ)
    (l : List (WorkItem κ π)) : (q.refreshQueueHead k l).mapItems f = (q.mapItems f).refreshQueueHead k (l.map f) := by
  cases l with
  | nil => rfl
  | cons x l =>
    unfold refreshQueueHead
    simp only [List.map_cons, hf]
    unfold activateQueueKey
    split <;> split
    · rfl
    · contradiction
    · contradiction
    · rfl

theorem enqueueBatch_mapItems (hf : ∀ x, (f x).offset = x.offset) (q : WorkQueueTopology κ π)
    (tp : TopicPartition) (key : κ) (l : List (WorkItem κ π)) :
    (q.enqueueBatch tp key l).mapItems f = (q.mapItems f).enqueueBatch tp key (l.map f) := by
  unfold enqueueBatch
  have hqueue : ((q.mapItems f).getQueue tp key).getD [] = ((q.getQueue tp key).getD []).map f :=
    queueOf_mapItems q tp key
  simp only [hqueue, ← List.map_append, ← putQueue_mapItems, List.map_eq_nil_iff, ne_eq]
  split
  · exact refreshQueueHead_mapItems hf _ _ _
  · rfl

end

end WorkQueueTopology

/-! ## Submitting a batch of a queue -/

/-- What a group does to the queues and to the number of queued messages, when `item k m` is the work item
of a message. -/
def enqueueMessages (item : QueueKey κ → QueuedMessage κ π → WorkItem κ π) (s : WorkQueueTopology κ π × Nat)
    (k : QueueKey κ) (messages : List (QueuedMessage κ π)) : WorkQueueTopology κ π × Nat :=
  (s.1.enqueueBatch k.1 k.2 (messages.map (item k)), s.2 + messages.length)

/-- The batches of queues of the assigned partitions `P` are independent; a queue with items is open. -/
theorem batchable_enqueue (item : QueueKey κ → QueuedMessage κ π → WorkItem κ π) (P : TopicPartition → Prop) :
    Batchable (enqueueMessages item) (fun s => ∀ tp, P tp → s.1.assigned tp) (fun k => P k.1)
      (fun s k => s.1.queueOf k.1 k.2 ≠ []) where
  keeps := by
    intro s k messages hs _ tp htp
    show (s.1.enqueueBatch k.1 k.2 _).assigned tp
    rw [WorkQueueTopology.assigned_enqueueBatch]
    exact hs tp htp
  opens := by
    intro s k messages hs hk hne
    show (s.1.enqueueBatch k.1 k.2 _).queueOf k.1 k.2 ≠ []
    rw [WorkQueueTopology.queueOf_enqueueBatch (hs _ hk), if_pos ⟨rfl, rfl⟩]
    simp [hne]
  stays := by
    intro s k j messages hs hk hopen
    show (s.1.enqueueBatch k.1 k.2 _).queueOf j.1 j.2 ≠ []
    rw [WorkQueueTopology.queueOf_enqueueBatch (hs _ hk)]
    split
    · rename_i hkey
      rw [hkey.1, hkey.2]
      simp [hopen]
    · exact hopen
  append := by
    intro s k messages m hs hk hne
    unfold enqueueMessages
    rw [List.map_append, WorkQueueTopology.enqueueBatch_append (hs _ hk) _ (by simp [hne]), List.length_append,
      ← add_assoc]
  comm := by
    intro s k j m messages hs hk hj hopen hne
    unfold enqueueMessages
    rw [WorkQueueTopology.enqueueBatch_comm (hs _ hk) (hs _ hj) hne hopen, Nat.add_right_comm]

end PyrallelConsumer
