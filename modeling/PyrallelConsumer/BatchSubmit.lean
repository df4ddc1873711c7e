import PyrallelConsumer.WorkAssign
import PyrallelConsumer.TopologyOps
import Mathlib.Data.List.TakeWhile

/-!
# PyrallelConsumer.BatchSubmit

`submit_message_batch` of `control_plane/work_manager.py` as a whole: it checks each group when its turn
comes, and raises the last fetched offsets after the last one. An unassigned partition leaves the groups
before it queued.

* `submitGroups_of_assigned`, `submitGroups_error` — the groups that are queued.
* `submit_error_unchanged_iff` — when the error leaves nothing behind.
-/

set_option linter.unusedSectionVars false

namespace PyrallelConsumer

namespace WorkManager

variable {κ π : Type} [DecidableEq κ] {s : WorkManager κ π}

abbrev Group (κ π : Type) := QueueKey κ × List (QueuedMessage κ π)

def submitAll (s : WorkManager κ π) (groups : List (Group κ π)) : WorkManager κ π :=
  groups.foldl (fun s g => s.submitGroup g.1 g.2) s

/-- The groups before the first one of a partition that is not assigned. -/
def groupsBefore (s : WorkManager κ π) (groups : List (Group κ π)) : List (Group κ π) :=
  groups.takeWhile fun g => s.queueTopology.virtualPartitionQueues.contains g.1.1

/-! ## One group -/

theorem queueTopology_submitGroup (s : WorkManager κ π) (k : QueueKey κ) (messages : List (QueuedMessage κ π)) :
    (s.submitGroup k messages).queueTopology =
      s.queueTopology.enqueueBatch k.1 k.2 (createItems k.1 k.2 s messages).1 := by
  have htopology := (createItems_spec k messages s).queueTopology
  show (createItems k.1 k.2 s messages).2.queueTopology.enqueueBatch k.1 k.2 _ = _
  rw [htopology]

theorem assigned_submitGroup (s : WorkManager κ π) (k : QueueKey κ) (messages : List (QueuedMessage κ π)) :
    (s.submitGroup k messages).queueTopology.assigned = s.queueTopology.assigned := by
  rw [queueTopology_submitGroup, WorkQueueTopology.assigned_enqueueBatch]

theorem contains_submitGroup (s : WorkManager κ π) (k : QueueKey κ) (messages : List (QueuedMessage κ π))
    (tp : TopicPartition) :
    (s.submitGroup k messages).queueTopology.virtualPartitionQueues.contains tp =
      s.queueTopology.virtualPartitionQueues.contains tp := by
  have h := congrFun (assigned_submitGroup s k messages) tp
  exact Bool.eq_iff_iff.mpr (iff_of_eq h)

theorem length_createItems (k : QueueKey κ) (messages : List (QueuedMessage κ π)) (s : WorkManager κ π) :
    (createItems k.1 k.2 s messages).1.length = messages.length := by
  have h := congrArg List.length (offsets_createItems k messages s)
  simpa using h

theorem totalQueuedMessages_submitGroup (s : WorkManager κ π) (k : QueueKey κ)
    (messages : List (QueuedMessage κ π)) :
    (s.submitGroup k messages).totalQueuedMessages = s.totalQueuedMessages + messages.length := by
  have htotal : (createItems k.1 k.2 s messages).2.totalQueuedMessages = s.totalQueuedMessages :=
    (congrArg WorkView.totalQueued (createItems_spec k messages s).view :)
  show (createItems k.1 k.2 s messages).2.totalQueuedMessages + _ = _
  rw [htotal, length_createItems]

/-- An empty group changes nothing if its queue exists. -/
theorem submitGroup_nil {k : QueueKey κ} (h : (s.queueTopology.getQueue k.1 k.2).isSome) :
    s.submitGroup k [] = s := by
  have htopology : s.queueTopology.enqueueBatch k.1 k.2 [] = s.queueTopology := by
    obtain ⟨queue, hqueue⟩ := Option.isSome_iff_exists.mp h
    obtain ⟨queues, hqueues, hkey⟩ := Option.bind_eq_some_iff.mp hqueue
    unfold WorkQueueTopology.enqueueBatch WorkQueueTopology.putQueue
    simp only [hqueue, hqueues, Option.getD_some, List.append_nil, ne_eq, not_true, and_false, if_false]
    rw [Dict.set_of_get? hkey, Dict.set_of_get? hqueues]
  show { s with queueTopology := s.queueTopology.enqueueBatch k.1 k.2 [], totalQueuedMessages := _ } = s
  rw [htopology]
  rfl

/-- After its group the queue exists. -/
theorem getQueue_submitGroup (s : WorkManager κ π) (k : QueueKey κ) (messages : List (QueuedMessage κ π))
    (j : QueueKey κ) (h : s.queueTopology.assigned k.1) :
    ((s.submitGroup k messages).queueTopology.getQueue j.1 j.2).isSome ↔
      k = j ∨ (s.queueTopology.getQueue j.1 j.2).isSome := by
  rw [queueTopology_submitGroup]
  have hsame := WorkQueueTopology.sameQueues_enqueueBatch s.queueTopology k.1 k.2 (createItems k.1 k.2 s messages).1
  generalize s.queueTopology.enqueueBatch k.1 k.2 (createItems k.1 k.2 s messages).1 = q at hsame ⊢
  have hqueues : q.getQueue j.1 j.2 = (s.queueTopology.putQueue k.1 k.2 _).getQueue j.1 j.2 :=
    congrArg (fun d => (d.get? j.1).bind (·.get? j.2)) hsame
  rw [hqueues]
  obtain ⟨queues, hassigned⟩ := Option.isSome_iff_exists.mp h
  unfold WorkQueueTopology.getQueue
  rw [WorkQueueTopology.get?_putQueue, hassigned]
  obtain ⟨tp, key⟩ := k
  obtain ⟨tp', key'⟩ := j
  by_cases htp : tp = tp'
  · subst htp
    by_cases hkey : key = key'
    · simp [hkey]
    · simp [hkey, hassigned, Dict.get?_set]
  · simp [htp]

/-! ## The groups before the error -/

theorem groupsBefore_submitGroup (s : WorkManager κ π) (k : QueueKey κ) (messages : List (QueuedMessage κ π))
    (groups : List (Group κ π)) : (s.submitGroup k messages).groupsBefore groups = s.groupsBefore groups := by
  unfold groupsBefore
  simp only [contains_submitGroup]

/-- Without an unassigned partition every group is queued. -/
theorem submitGroups_of_assigned (groups : List (Group κ π)) :
    ∀ {s : WorkManager κ π} (d : Dict TopicPartition Int), (∀ g ∈ groups, s.queueTopology.assigned g.1.1) →
      s.submitGroups d groups =
        (s.submitAll groups,
          .ok (groups.foldl (fun d g => g.2.foldl (fun d m => raiseMax d g.1.1 m.offset) d) d)) := by
  induction groups with
  | nil => intro s d _; rfl
  | cons g groups ih =>
    intro s d hassigned
    have hg : s.queueTopology.virtualPartitionQueues.contains g.1.1 = true := hassigned g List.mem_cons_self
    have hrest : ∀ g' ∈ groups, (s.submitGroup g.1 g.2).queueTopology.assigned g'.1.1 := by
      intro g' hg'
      rw [assigned_submitGroup]
      exact hassigned g' (List.mem_cons_of_mem _ hg')
    simp only [submitGroups, if_pos hg]
    exact ih _ hrest

/-- An unassigned partition raises, with the groups before it queued. -/
theorem submitGroups_error (groups : List (Group κ π)) :
    ∀ {s : WorkManager κ π} (d : Dict TopicPartition Int), (∃ g ∈ groups, ¬s.queueTopology.assigned g.1.1) →
      ∃ e, s.submitGroups d groups = (s.submitAll (s.groupsBefore groups), .error e) := by
  induction groups with
  | nil => rintro s d ⟨g, hg, -⟩; cases hg
  | cons g groups ih =>
    rintro s d ⟨g', hg', hnot⟩
    by_cases hg : s.queueTopology.virtualPartitionQueues.contains g.1.1 = true
    · have hmem : g' ∈ groups := by
        rcases List.mem_cons.mp hg' with rfl | hmem
        · exact absurd hg hnot
        · exact hmem
      have hrest : ∃ g' ∈ groups, ¬(s.submitGroup g.1 g.2).queueTopology.assigned g'.1.1 := by
        refine ⟨g', hmem, ?_⟩
        rw [assigned_submitGroup]
        exact hnot
      obtain ⟨e, he⟩ := ih (g.2.foldl (fun d m => raiseMax d g.1.1 m.offset) d) hrest
      refine ⟨e, ?_⟩
      simp only [submitGroups, if_pos hg, he, groupsBefore_submitGroup]
      simp only [groupsBefore, List.takeWhile_cons, hg, if_true, submitAll, List.foldl_cons]
    · refine ⟨"TopicPartition " ++ g.1.1.text ++ " is not assigned to WorkManager.", ?_⟩
      have hnone : s.groupsBefore (g :: groups) = [] := by
        simp [groupsBefore, hg]
      rw [hnone]
      simp only [submitGroups, if_neg hg]
      rfl

theorem submitMessageBatch_error {groups : List (Group κ π)} (h : ∃ g ∈ groups, ¬s.queueTopology.assigned g.1.1) :
    ∃ e, s.submitMessageBatch groups = (s.submitAll (s.groupsBefore groups), .error e) := by
  obtain ⟨e, he⟩ := submitGroups_error groups (s := s) .empty h
  refine ⟨e, ?_⟩
  unfold submitMessageBatch
  rw [he]

/-! ## What the error leaves behind -/

theorem totalQueuedMessages_submitAll (groups : List (Group κ π)) :
    ∀ s : WorkManager κ π,
      (s.submitAll groups).totalQueuedMessages = s.totalQueuedMessages + (groups.map (·.2.length)).sum := by
  induction groups with
  | nil => intro s; rfl
  | cons g groups ih =>
    intro s
    have h := ih (s.submitGroup g.1 g.2)
    rw [totalQueuedMessages_submitGroup] at h
    rw [List.map_cons, List.sum_cons, ← add_assoc]
    exact h

theorem getQueue_submitAll (groups : List (Group κ π)) :
    ∀ {s : WorkManager κ π}, (∀ g ∈ groups, s.queueTopology.assigned g.1.1) →
      ∀ j : QueueKey κ, ((s.submitAll groups).queueTopology.getQueue j.1 j.2).isSome ↔
        (∃ g ∈ groups, g.1 = j) ∨ (s.queueTopology.getQueue j.1 j.2).isSome := by
  induction groups with
  | nil => intro s _ j; simp [submitAll]
  | cons g groups ih =>
    intro s hassigned j
    have hrest : ∀ g' ∈ groups, (s.submitGroup g.1 g.2).queueTopology.assigned g'.1.1 := by
      intro g' hg'
      rw [assigned_submitGroup]
      exact hassigned g' (List.mem_cons_of_mem _ hg')
    refine (ih hrest j).trans ?_
    rw [getQueue_submitGroup s g.1 g.2 j (hassigned g List.mem_cons_self), ← or_assoc, List.exists_mem_cons_iff]
    exact or_congr_left or_comm

theorem submitAll_unchanged (groups : List (Group κ π)) (s : WorkManager κ π)
    (h : ∀ g ∈ groups, g.2 = [] ∧ (s.queueTopology.getQueue g.1.1 g.1.2).isSome) : s.submitAll groups = s := by
  induction groups with
  | nil => rfl
  | cons g groups ih =>
    obtain ⟨hempty, hqueue⟩ := h g List.mem_cons_self
    have hg : s.submitGroup g.1 g.2 = s := by rw [hempty, submitGroup_nil hqueue]
    show (s.submitGroup g.1 g.2).submitAll groups = s
    rw [hg]
    exact ih fun g' hg' => h g' (List.mem_cons_of_mem _ hg')

/-- Two states with the same queues, heads, ledger and total, and the same last fetched offsets. -/
structure SameWork (s s' : WorkManager κ π) : Prop where
  queues : s'.queueTopology.virtualPartitionQueues = s.queueTopology.virtualPartitionQueues
  headOffsets : s'.queueTopology.headOffsets = s.queueTopology.headOffsets
  headKeys : s'.queueTopology.headQueueKeysByOffset = s.queueTopology.headQueueKeysByOffset
  ledger : s'.inFlightWorkItems = s.inFlightWorkItems
  total : s'.totalQueuedMessages = s.totalQueuedMessages
  lastFetched : ∀ tp, (s'.trackerOf tp).map (·.lastFetchedOffset) = (s.trackerOf tp).map (·.lastFetchedOffset)

theorem SameWork.of_eq {s s' : WorkManager κ π} (h : s' = s) : SameWork s s' := by
  subst h
  exact ⟨rfl, rfl, rfl, rfl, rfl, fun _ => rfl⟩

/-- No group before the unassigned partition has a message or needs a queue. -/
def NothingBefore (s : WorkManager κ π) (groups : List (Group κ π)) : Prop :=
  ∀ g ∈ s.groupsBefore groups, g.2 = [] ∧ (s.queueTopology.getQueue g.1.1 g.1.2).isSome

theorem nothingBefore_of_sameWork {groups : List (Group κ π)}
    (h : SameWork s (s.submitAll (s.groupsBefore groups))) : s.NothingBefore groups := by
  have hassigned : ∀ g ∈ s.groupsBefore groups, s.queueTopology.assigned g.1.1 := by
    intro g hg
    have hcontains := List.mem_takeWhile_imp hg
    exact hcontains
  have htotal := h.total
  rw [totalQueuedMessages_submitAll] at htotal
  have hsum : ((s.groupsBefore groups).map (·.2.length)).sum = 0 := by omega
  intro g hg
  constructor
  · have hlen := List.sum_eq_zero_iff_forall_eq_nat.mp hsum g.2.length (List.mem_map_of_mem hg)
    exact List.length_eq_zero_iff.mp hlen
  · have hafter := (getQueue_submitAll _ hassigned g.1).mpr (.inl ⟨g, hg, rfl⟩)
    have hsame : (s.submitAll (s.groupsBefore groups)).queueTopology.getQueue g.1.1 g.1.2 =
        s.queueTopology.getQueue g.1.1 g.1.2 :=
      congrArg (fun d => (d.get? g.1.1).bind (·.get? g.1.2)) h.queues
    rw [hsame] at hafter
    exact hafter

/-- The error for an unassigned partition leaves the work manager as it was exactly when the groups before
it are empty and have their queues. -/
theorem submit_error_unchanged_iff {groups : List (Group κ π)}
    (h : ∃ g ∈ groups, ¬s.queueTopology.assigned g.1.1) :
    (∃ e, (s.submitMessageBatch groups).2 = .error e) ∧
      ((s.submitMessageBatch groups).1 = s ↔ s.NothingBefore groups) ∧
      (SameWork s (s.submitMessageBatch groups).1 ↔ s.NothingBefore groups) := by
  obtain ⟨e, he⟩ := submitMessageBatch_error h
  rw [he]
  have hback : s.NothingBefore groups → s.submitAll (s.groupsBefore groups) = s := submitAll_unchanged _ s
  exact ⟨⟨e, rfl⟩, ⟨fun heq => nothingBefore_of_sameWork (.of_eq heq), hback⟩,
    ⟨nothingBefore_of_sameWork, fun hnothing => .of_eq (hback hnothing)⟩⟩

section Examples

/-- A work manager with partition 0 of `orders`. -/
def onePartition : WorkManager Nat Unit :=
  (new none).onAssign { orderingMode := .keyHash, routeBatchSize_pos := Nat.one_pos }
    [(⟨"orders", 0⟩, .offset 0)]

/-- A message for partition 0 and one for partition 1. -/
def twoPartitions : List (Group Nat Unit) :=
  [((⟨"orders", 0⟩, 7), [⟨0, 1, (), none⟩]), ((⟨"orders", 1⟩, 7), [⟨0, 1, (), none⟩])]

/-- The message of partition 0 stays queued, and its tracker has not seen it fetched. -/
theorem submit_error_not_atomic :
    (onePartition.submitMessageBatch twoPartitions).2 =
        .error "TopicPartition TopicPartition(topic='orders', partition=1) is not assigned to WorkManager." ∧
      (onePartition.submitMessageBatch twoPartitions).1.totalQueuedMessages = 1 ∧
      (((onePartition.submitMessageBatch twoPartitions).1.trackerOf ⟨"orders", 0⟩).map (·.lastFetchedOffset)) =
        some (-1) ∧
      ¬SameWork onePartition (onePartition.submitMessageBatch twoPartitions).1 := by
  have htotal : (onePartition.submitMessageBatch twoPartitions).1.totalQueuedMessages = 1 := by decide
  refine ⟨by decide, htotal, by decide, fun h => ?_⟩
  have hsame := h.total
  rw [htotal] at hsame
  exact absurd hsame (by decide)

/-- In the other order nothing is queued before the error. -/
theorem submit_error_unchanged_first :
    (onePartition.submitMessageBatch twoPartitions.reverse).1 = onePartition :=
  (submit_error_unchanged_iff ⟨((⟨"orders", 1⟩, 7), [⟨0, 1, (), none⟩]), by decide, by decide⟩).2.1.mpr
    (by intro g hg; cases hg)

end Examples

end WorkManager

end PyrallelConsumer
