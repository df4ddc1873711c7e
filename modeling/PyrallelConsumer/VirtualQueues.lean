import PyrallelConsumer.WorkQueueTopology

/-!
# PyrallelConsumer.VirtualQueues

What the operations of the queue topology do to the queues. The index only decides which queue is
served next, so everything is stated through `queueOf`, `assigned` and `totalSize`:

* `sameQueues_pickNext`, `sameQueues_pickBlocking`, `sameQueues_refresh` — selecting a queue and
  refreshing its head change no queue.
* `queueOf_enqueueBatch` — items are appended at the back of one queue.
* `Dequeued`, `dequeueSubmittedItems_spec` — items are taken off the front of one queue.
* `queueOf_assign`, `queueOf_revoke` — a partition's queues start empty and are dropped whole.
-/

set_option linter.unusedSectionVars false

namespace PyrallelConsumer

namespace WorkQueueTopology

variable {κ π : Type} [DecidableEq κ]

/-- The items of a virtual queue, none where there is no queue. -/
def queueOf (q : WorkQueueTopology κ π) (tp : TopicPartition) (key : κ) : List (WorkItem κ π) :=
  (q.getQueue tp key).getD []

/-- The partitions with virtual queues. -/
def assigned (q : WorkQueueTopology κ π) (tp : TopicPartition) : Prop :=
  (q.virtualPartitionQueues.get? tp).isSome

instance (q : WorkQueueTopology κ π) (tp : TopicPartition) : Decidable (q.assigned tp) :=
  inferInstanceAs (Decidable (_ = true))

/-- The number of items in all virtual queues. -/
def totalSize (q : WorkQueueTopology κ π) : Nat :=
  q.virtualPartitionQueues.sum fun queues => queues.sum List.length

/-- Two topologies with the same queues, whatever their index. -/
def SameQueues (q q' : WorkQueueTopology κ π) : Prop :=
  q'.virtualPartitionQueues = q.virtualPartitionQueues

theorem SameQueues.queueOf {q q' : WorkQueueTopology κ π} (h : SameQueues q q') :
    q'.queueOf = q.queueOf := by
  unfold SameQueues at h
  funext tp key
  simp only [WorkQueueTopology.queueOf, getQueue, h]

theorem SameQueues.assigned {q q' : WorkQueueTopology κ π} (h : SameQueues q q') :
    q'.assigned = q.assigned := by
  unfold SameQueues at h
  funext tp
  simp only [WorkQueueTopology.assigned, h]

theorem SameQueues.totalSize {q q' : WorkQueueTopology κ π} (h : SameQueues q q') :
    q'.totalSize = q.totalSize := by
  unfold SameQueues at h
  simp only [WorkQueueTopology.totalSize, h]

theorem SameQueues.trans {q q' q'' : WorkQueueTopology κ π} (h : SameQueues q q')
    (h' : SameQueues q' q'') : SameQueues q q'' := Eq.trans h' h

theorem sameQueues_deactivate (q : WorkQueueTopology κ π) (k : QueueKey κ) :
    SameQueues q (q.deactivateQueueKey k) := rfl

theorem sameQueues_activate (q : WorkQueueTopology κ π) (k : QueueKey κ) :
    SameQueues q (q.activateQueueKey k) := by
  unfold activateQueueKey; split <;> rfl

theorem sameQueues_refresh (q : WorkQueueTopology κ π) (k : QueueKey κ) (l : List (WorkItem κ π)) :
    SameQueues q (q.refreshQueueHead k l) := by
  unfold refreshQueueHead
  cases l with
  | nil => exact sameQueues_deactivate q k
  | cons head rest => exact (sameQueues_deactivate q k).trans (sameQueues_activate _ k)

theorem sameQueues_pickBlocking (e : QueueKey κ → Bool) (q : WorkQueueTopology κ π)
    (b : Dict TopicPartition (Option OffsetRange)) :
    SameQueues q (q.pickBlockingQueueKey e b).2 := by
  unfold pickBlockingQueueKey; split <;> rfl

theorem sameQueues_pickNext (e : QueueKey κ → Bool) (n : Nat) :
    ∀ q : WorkQueueTopology κ π, SameQueues q (pickNext e n q).2 := by
  induction n with
  | zero => intro q; rfl
  | succ n ih =>
    intro q
    simp only [pickNext]
    split
    · rfl
    · split
      · exact ih _
      · split
        · exact ih _
        · split
          · exact ih _
          · rfl

/-- What holds of every active and eligible key that a blocking offset leads to holds of the best
blocking key. -/
theorem bestBlocking_induction {I : QueueKey κ × Int → Prop} (e : QueueKey κ → Bool)
    (q : WorkQueueTopology κ π) (gaps : List (TopicPartition × Option OffsetRange))
    (hI : ∀ tp gap k, (tp, some gap) ∈ gaps → q.headQueueKeysByOffset.get? (tp, gap.start) = some k →
      k ∈ q.activeRunnableQueueKeys → e k = true → I (k, gap.start)) :
    ∀ best : Option (QueueKey κ × Int), (∀ b ∈ best, I b) → ∀ b ∈ bestBlocking e q gaps best, I b := by
  induction gaps with
  | nil => intro best h; exact h
  | cons gap gaps ih =>
    intro best h
    have ih := ih fun tp g k hm => hI tp g k (List.mem_cons_of_mem _ hm)
    obtain ⟨tp, gap⟩ := gap
    cases gap with
    | none => exact ih best h
    | some gap =>
      simp only [bestBlocking]
      split
      · exact ih best h
      · rename_i k hk
        split
        · exact ih best h
        · rename_i hactive
          split
          · exact ih best h
          · rename_i he
            have hnew : I (k, gap.start) :=
              hI tp gap k (by simp) hk (not_not.mp hactive) (by simpa using he)
            split
            · refine ih _ fun b hb => ?_
              cases hb; exact hnew
            · refine ih _ fun b hb => ?_
              split at hb
              · cases hb; exact hnew
              · exact h b hb

theorem pickBlocking_eligible {e : QueueKey κ → Bool} {q q' : WorkQueueTopology κ π}
    {b : Dict TopicPartition (Option OffsetRange)} {k : QueueKey κ}
    (h : q.pickBlockingQueueKey e b = (some k, q')) : e k = true := by
  unfold pickBlockingQueueKey at h
  split at h
  · cases h
  · rename_i k' o hbest
    cases h
    exact bestBlocking_induction (I := fun b => e b.1 = true) e q b.entries
      (fun _ _ _ _ _ _ he => he) none (by simp) _ hbest

theorem pickNext_eligible (e : QueueKey κ → Bool) (n : Nat) :
    ∀ (q : WorkQueueTopology κ π) (k : QueueKey κ), (pickNext e n q).1 = some k → e k = true := by
  induction n with
  | zero => intro q k h; cases h
  | succ n ih =>
    intro q k h
    simp only [pickNext] at h
    split at h
    · cases h
    · split at h
      · exact ih _ k h
      · split at h
        · exact ih _ k h
        · split at h
          · exact ih _ k h
          · rename_i hk
            cases h
            simpa using hk

theorem pickBlocking_active {e : QueueKey κ → Bool} {q q' : WorkQueueTopology κ π}
    {b : Dict TopicPartition (Option OffsetRange)} {k : QueueKey κ}
    (h : q.pickBlockingQueueKey e b = (some k, q')) : k ∈ q.activeRunnableQueueKeys := by
  unfold pickBlockingQueueKey at h
  split at h
  · cases h
  · rename_i k' o hbest
    cases h
    exact bestBlocking_induction (I := fun b => b.1 ∈ q.activeRunnableQueueKeys) e q b.entries
      (fun _ _ _ _ _ ha _ => ha) none (by simp) _ hbest

theorem pickNext_active (e : QueueKey κ → Bool) (n : Nat) :
    ∀ (q : WorkQueueTopology κ π) (k : QueueKey κ), (pickNext e n q).1 = some k →
      k ∈ q.activeRunnableQueueKeys := by
  induction n with
  | zero => intro q k h; cases h
  | succ n ih =>
    intro q k h
    simp only [pickNext] at h
    split at h
    · cases h
    · split at h
      · have := ih _ k h
        exact this
      · rename_i hactive
        split at h
        · exact (mem_discardKey.mp (ih _ k h)).1
        · split at h
          · have := ih _ k h
            exact this
          · cases h
            exact not_not.mp hactive

/-! ## One queue -/

theorem get?_putQueue (q : WorkQueueTopology κ π) (tp : TopicPartition) (key : κ)
    (l : List (WorkItem κ π)) (tp' : TopicPartition) :
    (q.putQueue tp key l).virtualPartitionQueues.get? tp' =
      if tp = tp' then (q.virtualPartitionQueues.get? tp).map (·.set key l)
      else q.virtualPartitionQueues.get? tp' := by
  cases h : q.virtualPartitionQueues.get? tp with
  | none =>
    simp only [putQueue, h, Option.map_none]
    split
    · rename_i heq; rw [← heq, h]
    · rfl
  | some queues => simp only [putQueue, h, Dict.get?_set, Option.map_some]

theorem queueOf_putQueue {q : WorkQueueTopology κ π} {tp : TopicPartition} (h : q.assigned tp)
    (key : κ) (l : List (WorkItem κ π)) (tp' : TopicPartition) (key' : κ) :
    (q.putQueue tp key l).queueOf tp' key' =
      if tp = tp' ∧ key = key' then l else q.queueOf tp' key' := by
  obtain ⟨queues, hq⟩ := Option.isSome_iff_exists.mp h
  unfold queueOf getQueue
  rw [get?_putQueue, hq]
  by_cases htp : tp = tp'
  · subst htp
    by_cases hkey : key = key'
    · subst hkey; simp
    · simp [hkey, hq, Dict.get?_set]
  · simp [htp]

theorem assigned_putQueue (q : WorkQueueTopology κ π) (tp : TopicPartition) (key : κ)
    (l : List (WorkItem κ π)) : (q.putQueue tp key l).assigned = q.assigned := by
  funext tp'
  simp only [assigned, get?_putQueue]
  split
  · rename_i h; subst h; simp
  · rfl

theorem totalSize_putQueue {q : WorkQueueTopology κ π} {tp : TopicPartition} (h : q.assigned tp)
    (key : κ) (l : List (WorkItem κ π)) :
    (q.putQueue tp key l).totalSize + (q.queueOf tp key).length = q.totalSize + l.length := by
  obtain ⟨queues, hq⟩ := Option.isSome_iff_exists.mp h
  have houter := q.virtualPartitionQueues.sum_set (fun d => d.sum List.length) tp (queues.set key l)
  have hinner := queues.sum_set List.length key l
  have hlen : (q.queueOf tp key).length = (queues.get? key).elim 0 List.length := by
    unfold queueOf getQueue
    rw [hq]
    cases h' : queues.get? key <;> simp [h']
  rw [hq, Option.elim_some] at houter
  simp only [totalSize, putQueue, hq]
  omega

theorem get?_cleanupEmptyQueue (q : WorkQueueTopology κ π) (tp : TopicPartition) (key : κ) :
    (∃ queues, q.virtualPartitionQueues.get? tp = some queues ∧ queues.get? key = some [] ∧
      (q.cleanupEmptyQueue tp key).virtualPartitionQueues =
        q.virtualPartitionQueues.set tp (queues.erase key)) ∨
    SameQueues q (q.cleanupEmptyQueue tp key) := by
  unfold cleanupEmptyQueue
  split
  · exact .inr rfl
  · rename_i queues hq
    split
    · rename_i hkey; exact .inl ⟨queues, hq, hkey, rfl⟩
    · exact .inr rfl

theorem queueOf_cleanupEmptyQueue (q : WorkQueueTopology κ π) (tp : TopicPartition) (key : κ) :
    (q.cleanupEmptyQueue tp key).queueOf = q.queueOf := by
  rcases get?_cleanupEmptyQueue q tp key with ⟨queues, hq, hkey, heq⟩ | h
  · funext tp' key'
    simp only [queueOf, getQueue, heq, Dict.get?_set]
    split
    · rename_i htp
      subst htp
      simp only [Option.bind_some, hq, Dict.get?_erase]
      split
      · rename_i hk; subst hk; simp [hkey]
      · rfl
    · rfl
  · exact h.queueOf

theorem assigned_cleanupEmptyQueue (q : WorkQueueTopology κ π) (tp : TopicPartition) (key : κ) :
    (q.cleanupEmptyQueue tp key).assigned = q.assigned := by
  rcases get?_cleanupEmptyQueue q tp key with ⟨queues, hq, -, heq⟩ | h
  · funext tp'
    simp only [assigned, heq, Dict.get?_set]
    split
    · rename_i htp; subst htp; simp [hq]
    · rfl
  · exact h.assigned

theorem totalSize_cleanupEmptyQueue (q : WorkQueueTopology κ π) (tp : TopicPartition) (key : κ) :
    (q.cleanupEmptyQueue tp key).totalSize = q.totalSize := by
  rcases get?_cleanupEmptyQueue q tp key with ⟨queues, hq, hkey, heq⟩ | h
  · have houter := q.virtualPartitionQueues.sum_set (fun d => d.sum List.length) tp (queues.erase key)
    have hinner := queues.sum_erase List.length key
    rw [hq, Option.elim_some] at houter
    rw [hkey, Option.elim_some, List.length_nil] at hinner
    simp only [totalSize, heq]
    omega
  · exact h.totalSize

/-! ## Enqueue and dequeue -/

theorem sameQueues_enqueueBatch (q : WorkQueueTopology κ π) (tp : TopicPartition) (key : κ)
    (l : List (WorkItem κ π)) :
    SameQueues (q.putQueue tp key (q.queueOf tp key ++ l)) (q.enqueueBatch tp key l) := by
  unfold enqueueBatch
  dsimp only
  split
  · exact sameQueues_refresh _ _ _
  · rfl

theorem queueOf_enqueueBatch {q : WorkQueueTopology κ π} {tp : TopicPartition} (h : q.assigned tp)
    (key : κ) (l : List (WorkItem κ π)) (tp' : TopicPartition) (key' : κ) :
    (q.enqueueBatch tp key l).queueOf tp' key' =
      if tp = tp' ∧ key = key' then q.queueOf tp key ++ l else q.queueOf tp' key' := by
  rw [(sameQueues_enqueueBatch q tp key l).queueOf, queueOf_putQueue h]

theorem assigned_enqueueBatch (q : WorkQueueTopology κ π) (tp : TopicPartition) (key : κ)
    (l : List (WorkItem κ π)) : (q.enqueueBatch tp key l).assigned = q.assigned := by
  rw [(sameQueues_enqueueBatch q tp key l).assigned, assigned_putQueue]

theorem totalSize_enqueueBatch {q : WorkQueueTopology κ π} {tp : TopicPartition} (h : q.assigned tp)
    (key : κ) (l : List (WorkItem κ π)) :
    (q.enqueueBatch tp key l).totalSize = q.totalSize + l.length := by
  have := totalSize_putQueue h key (q.queueOf tp key ++ l)
  rw [(sameQueues_enqueueBatch q tp key l).totalSize]
  rw [List.length_append] at this
  omega

theorem queueOf_settleQueue {q : WorkQueueTopology κ π} {tp : TopicPartition} (h : q.assigned tp)
    (key : κ) (l : List (WorkItem κ π)) (tp' : TopicPartition) (key' : κ) :
    (q.settleQueue tp key l).queueOf tp' key' =
      if tp = tp' ∧ key = key' then l else q.queueOf tp' key' := by
  rw [← queueOf_putQueue h]
  unfold settleQueue
  dsimp only
  split
  · rw [queueOf_cleanupEmptyQueue]
  · rw [(sameQueues_refresh _ _ _).queueOf]

theorem assigned_settleQueue (q : WorkQueueTopology κ π) (tp : TopicPartition) (key : κ)
    (l : List (WorkItem κ π)) : (q.settleQueue tp key l).assigned = q.assigned := by
  rw [← assigned_putQueue q tp key l]
  unfold settleQueue
  dsimp only
  split
  · rw [assigned_cleanupEmptyQueue]
  · rw [(sameQueues_refresh _ _ _).assigned]

theorem totalSize_settleQueue {q : WorkQueueTopology κ π} {tp : TopicPartition} (h : q.assigned tp)
    (key : κ) (l : List (WorkItem κ π)) :
    (q.settleQueue tp key l).totalSize + (q.queueOf tp key).length = q.totalSize + l.length := by
  rw [← totalSize_putQueue h]
  unfold settleQueue
  dsimp only
  split
  · rw [totalSize_cleanupEmptyQueue]
  · rw [(sameQueues_refresh _ _ _).totalSize]

theorem assigned_of_queueOf_ne_nil {q : WorkQueueTopology κ π} {tp : TopicPartition} {key : κ}
    (h : q.queueOf tp key ≠ []) : q.assigned tp := by
  unfold queueOf getQueue at h
  unfold assigned
  cases hq : q.virtualPartitionQueues.get? tp with
  | none => rw [hq] at h; exact absurd rfl h
  | some queues => rfl

theorem getQueue_of_queueOf_ne_nil {q : WorkQueueTopology κ π} {tp : TopicPartition} {key : κ}
    (h : q.queueOf tp key ≠ []) : q.getQueue tp key = some (q.queueOf tp key) := by
  unfold queueOf at h ⊢
  cases hq : q.getQueue tp key with
  | none => rw [hq] at h; exact absurd rfl h
  | some l => rfl

/-- What taking `n` items off the front of a queue does: the items, the queues, the partitions and
the number of queued items. -/
structure Dequeued (q : WorkQueueTopology κ π) (tp : TopicPartition) (key : κ) (n : Nat)
    (items : List (WorkItem κ π)) (q' : WorkQueueTopology κ π) : Prop where
  items_eq : items = (q.queueOf tp key).take n
  queueOf_eq : ∀ tp' key', q'.queueOf tp' key' =
    if tp = tp' ∧ key = key' then (q.queueOf tp key).drop n else q.queueOf tp' key'
  assigned_eq : q'.assigned = q.assigned
  totalSize_eq : q'.totalSize + items.length = q.totalSize

theorem dequeued_of_nil {q q' : WorkQueueTopology κ π} {tp : TopicPartition} {key : κ} {n : Nat}
    (h : q.queueOf tp key = []) (hq : SameQueues q q') : Dequeued q tp key n [] q' where
  items_eq := by rw [h, List.take_nil]
  queueOf_eq := by
    intro tp' key'
    rw [hq.queueOf]
    split
    · rename_i heq; obtain ⟨rfl, rfl⟩ := heq; rw [h, List.drop_nil]
    · rfl
  assigned_eq := hq.assigned
  totalSize_eq := hq.totalSize

theorem dequeued_settleQueue {q : WorkQueueTopology κ π} {tp : TopicPartition} {key : κ} {n : Nat}
    (h : q.queueOf tp key ≠ []) :
    Dequeued q tp key n ((q.queueOf tp key).take n)
      (q.settleQueue tp key ((q.queueOf tp key).drop n)) where
  items_eq := rfl
  queueOf_eq := queueOf_settleQueue (assigned_of_queueOf_ne_nil h) key _
  assigned_eq := assigned_settleQueue q tp key _
  totalSize_eq := by
    have := totalSize_settleQueue (assigned_of_queueOf_ne_nil h) key ((q.queueOf tp key).drop n)
    rw [List.length_drop] at this
    rw [List.length_take]
    omega

theorem queueOf_eq_of_getQueue {q : WorkQueueTopology κ π} {tp : TopicPartition} {key : κ}
    {l : List (WorkItem κ π)} (h : q.getQueue tp key = some l) : q.queueOf tp key = l := by
  rw [queueOf, h]; rfl

theorem queueOf_eq_nil_of_getQueue {q : WorkQueueTopology κ π} {tp : TopicPartition} {key : κ}
    (h : ∀ item rest, q.getQueue tp key = some (item :: rest) → False) : q.queueOf tp key = [] := by
  unfold queueOf
  cases hq : q.getQueue tp key with
  | none => rfl
  | some l =>
    cases l with
    | nil => rfl
    | cons item rest => exact absurd hq (h item rest)

theorem dequeueSubmittedItems_spec (q : WorkQueueTopology κ π) (tp : TopicPartition) (key : κ)
    (n : Nat) :
    Dequeued q tp key n (q.dequeueSubmittedItems tp key n).1 (q.dequeueSubmittedItems tp key n).2 := by
  unfold dequeueSubmittedItems
  split
  · rename_i hn
    subst hn
    refine ⟨rfl, fun tp' key' => ?_, rfl, rfl⟩
    split
    · rename_i heq; obtain ⟨rfl, rfl⟩ := heq; rfl
    · rfl
  · split
    · rename_i item rest hq
      have hl := queueOf_eq_of_getQueue hq
      have := dequeued_settleQueue (q := q) (n := n) (by rw [hl]; simp)
      rwa [hl] at this
    · rename_i hq
      exact dequeued_of_nil (queueOf_eq_nil_of_getQueue hq) (sameQueues_deactivate q _)

theorem dequeueSubmittedItem_spec (q : WorkQueueTopology κ π) (tp : TopicPartition) (key : κ) :
    Dequeued q tp key 1 (q.dequeueSubmittedItem tp key).1.toList (q.dequeueSubmittedItem tp key).2 := by
  unfold dequeueSubmittedItem
  split
  · rename_i item rest hq
    have hl := queueOf_eq_of_getQueue hq
    have := dequeued_settleQueue (q := q) (n := 1) (by rw [hl]; simp)
    rwa [hl] at this
  · rename_i hq
    exact dequeued_of_nil (queueOf_eq_nil_of_getQueue hq) (sameQueues_deactivate q _)

/-! ## Assignment and revocation -/

theorem queueOf_assign {q : WorkQueueTopology κ π} {tp : TopicPartition} (tp' : TopicPartition)
    (key' : κ) : (q.assign tp).queueOf tp' key' = if tp = tp' then [] else q.queueOf tp' key' := by
  unfold queueOf getQueue assign
  rw [Dict.get?_set]
  split <;> rfl

theorem assigned_assign (q : WorkQueueTopology κ π) (tp tp' : TopicPartition) :
    (q.assign tp).assigned tp' ↔ tp = tp' ∨ q.assigned tp' := by
  unfold assigned assign
  rw [Dict.get?_set]
  split
  · rename_i h; simp [h]
  · rename_i h; simp [h]

theorem totalSize_assign {q : WorkQueueTopology κ π} {tp : TopicPartition} (h : ¬ q.assigned tp) :
    (q.assign tp).totalSize = q.totalSize := by
  have hs := q.virtualPartitionQueues.sum_set (fun d => d.sum List.length) tp .empty
  rw [Option.not_isSome_iff_eq_none.mp h, Option.elim_none] at hs
  exact hs

theorem sameQueues_deactivateAll (tp : TopicPartition) (keys : List κ) :
    ∀ q : WorkQueueTopology κ π,
      SameQueues q (keys.foldl (fun q key => q.deactivateQueueKey (tp, key)) q) := by
  induction keys with
  | nil => intro q; rfl
  | cons key keys ih => intro q; exact (sameQueues_deactivate q (tp, key)).trans (ih _)

theorem virtualPartitionQueues_revoke (q : WorkQueueTopology κ π) (tp : TopicPartition) :
    (q.revoke tp).2.virtualPartitionQueues = q.virtualPartitionQueues.erase tp := by
  have hsame := sameQueues_deactivateAll tp ((q.virtualPartitionQueues.get? tp).getD .empty).keys q
  unfold SameQueues at hsame
  unfold revoke
  simp only [hsame]

theorem queueOf_revoke (q : WorkQueueTopology κ π) (tp tp' : TopicPartition) (key' : κ) :
    (q.revoke tp).2.queueOf tp' key' = if tp = tp' then [] else q.queueOf tp' key' := by
  unfold queueOf getQueue
  rw [virtualPartitionQueues_revoke, Dict.get?_erase]
  split <;> rfl

theorem assigned_revoke (q : WorkQueueTopology κ π) (tp tp' : TopicPartition) :
    (q.revoke tp).2.assigned tp' ↔ tp ≠ tp' ∧ q.assigned tp' := by
  unfold assigned
  rw [virtualPartitionQueues_revoke, Dict.get?_erase]
  split
  · rename_i h; simp [h]
  · rename_i h; simp [h]

theorem totalSize_revoke (q : WorkQueueTopology κ π) (tp : TopicPartition) :
    (q.revoke tp).2.totalSize + (q.revoke tp).1 = q.totalSize := by
  have hs := q.virtualPartitionQueues.sum_erase (fun d => d.sum List.length) tp
  have hsize : (q.revoke tp).1 = (q.virtualPartitionQueues.get? tp).elim 0 fun d => d.sum List.length := by
    unfold revoke partitionSize
    cases h : q.virtualPartitionQueues.get? tp <;> rfl
  rw [totalSize, virtualPartitionQueues_revoke, hsize]
  exact hs

end WorkQueueTopology

end PyrallelConsumer
