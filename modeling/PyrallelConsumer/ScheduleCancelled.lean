import PyrallelConsumer.ScheduleCall

/-!
# PyrallelConsumer.ScheduleCancelled

A call of `schedule` that is cancelled while it waits for the engine. `CancelledError` passes both
handlers of the engine call; of the clean-up only the `finally` blocks run, and these put back the
deferred keys and not the key whose queue was offered.

* `cancelledAt` — the state that the cancelled call leaves.
* `offer_taken` — at the engine call the picked key is out of the order.
* `cancelled_strands` — wherever the call is cancelled, that key stays out, and its queue has items.
-/

set_option linter.unusedSectionVars false

namespace PyrallelConsumer

open WorkQueueTopology WorkManager

variable {κ π : Type} [DecidableEq κ] {c : WorkManagerConfig} {env : Env κ π}
  {b : Dict TopicPartition (Option OffsetRange)} {s : WorkManager κ π}

namespace WorkManager

/-- The engine call raises `CancelledError`: what the `finally` blocks leave, with `deferred` as deferred
keys. -/
def cancelledAt (env : Env κ π) (o : Offer κ π) (deferred : List (QueueKey κ)) : WorkManager κ π :=
  (env.setOrder deferred).foldl reactivate { o.state with engineCalls := o.state.engineCalls + 1 }

/-- Every queue with items is in the order. -/
def NoneStranded (s : WorkManager κ π) : Prop :=
  ∀ k : QueueKey κ, s.queueTopology.queueOf k.1 k.2 ≠ [] → k ∈ s.queueTopology.runnableQueueKeys

/-- The queue has items, and no scheduling call picks it. -/
structure Stranded (c : WorkManagerConfig) (s : WorkManager κ π) (k : QueueKey κ) : Prop where
  items : s.queueTopology.queueOf k.1 k.2 ≠ []
  runnable : k ∉ s.queueTopology.runnableQueueKeys
  unpicked : ∀ b, (s.pickQueueKey c b).1 ≠ some k

/-- At the engine call the picked key is out of the order, and its queue is as it was. -/
theorem offer_taken (h : Pickable s.queueTopology) {o : Offer κ π} (ho : s.offer c env b = some o) :
    ∃ r a, Taken s.queueTopology o.key r a ∧ o.state.queueTopology = s.queueTopology.withOrder r a ∧
      s.queueTopology.queueOf o.key.1 o.key.2 = o.head :: o.rest := by
  unfold offer at ho
  split at ho
  · cases ho
  · rename_i hfull
    split at ho
    · cases ho
    · rcases pickQueueKey_taken (c := c) h b with ⟨r, -, hpick, -⟩ | ⟨k, r, a, hpick, htaken⟩
      · rw [hpick] at ho
        cases ho
      · rw [hpick] at ho
        dsimp only at ho
        split at ho
        · cases ho
        · cases ho
        · rename_i head rest hq
          rcases leaseOffer_spec (c := c) env
            (s := { s with queueTopology := s.queueTopology.withOrder r a }) hq
            (resolveRouteBatchLimit_pos hfull) with
            ⟨s', -, -, hnone⟩ | ⟨o', hlease, hoffered⟩
          · rw [hnone] at ho
            cases ho
          · rw [hlease] at ho
            cases ho
            refine ⟨r, a, hoffered.key ▸ htaken, hoffered.topology, ?_⟩
            rw [hoffered.key, hoffered.head, hoffered.rest]
            exact queueOf_eq_of_getQueue (q := s.queueTopology) hq

/-! ## What the clean-up does to other keys -/

theorem mem_refresh_of_ne {q : WorkQueueTopology κ π} {j k : QueueKey κ} (hne : k ≠ j) (l : List (WorkItem κ π)) :
    (k ∈ (q.refreshQueueHead j l).runnableQueueKeys → k ∈ q.runnableQueueKeys) ∧
      (k ∈ (q.refreshQueueHead j l).activeRunnableQueueKeys → k ∈ q.activeRunnableQueueKeys) := by
  unfold refreshQueueHead
  cases l with
  | nil => exact ⟨fun hk => (mem_discardKey.mp hk).1, fun hk => (mem_discardKey.mp hk).1⟩
  | cons x l =>
    unfold activateQueueKey
    dsimp only
    split
    · exact ⟨fun hk => (mem_discardKey.mp hk).1, fun hk => (mem_discardKey.mp hk).1⟩
    · refine ⟨fun hk => ?_, fun hk => ?_⟩
      · exact (mem_discardKey.mp ((mem_appendKey.mp hk).resolve_right hne)).1
      · exact (mem_discardKey.mp ((mem_appendKey.mp hk).resolve_right hne)).1

theorem mem_reactivateAll (ks : List (QueueKey κ)) {k : QueueKey κ} (hk : k ∉ ks) :
    ∀ {s : WorkManager κ π},
      (k ∈ (ks.foldl reactivate s).queueTopology.runnableQueueKeys → k ∈ s.queueTopology.runnableQueueKeys) ∧
        (k ∈ (ks.foldl reactivate s).queueTopology.activeRunnableQueueKeys →
          k ∈ s.queueTopology.activeRunnableQueueKeys) := by
  induction ks with
  | nil => intro s; exact ⟨id, id⟩
  | cons j ks ih =>
    intro s
    rw [List.mem_cons, not_or] at hk
    obtain ⟨hr, ha⟩ := ih hk.2 (s := s.reactivate j)
    have hone : (k ∈ (s.reactivate j).queueTopology.runnableQueueKeys → k ∈ s.queueTopology.runnableQueueKeys) ∧
        (k ∈ (s.reactivate j).queueTopology.activeRunnableQueueKeys →
          k ∈ s.queueTopology.activeRunnableQueueKeys) := by
      unfold reactivate
      split
      · exact ⟨id, id⟩
      · exact ⟨id, id⟩
      · exact mem_refresh_of_ne hk.1 _
    exact ⟨fun h => hone.1 (hr h), fun h => hone.2 (ha h)⟩

/-- Only active keys are picked. -/
theorem active_of_pickQueueKey {k : QueueKey κ} (h : (s.pickQueueKey c b).1 = some k) :
    k ∈ s.queueTopology.activeRunnableQueueKeys := by
  unfold pickQueueKey at h
  split at h
  · rename_i k' q' hpick
    cases h
    exact pickBlocking_active hpick
  · rename_i q' hpick
    have hq' := pickBlocking_none hpick
    subst hq'
    exact pickNext_active _ _ _ k h

end WorkManager

/-- **Wherever a call of `schedule` is cancelled at its engine call, it strands the queue that it offered:
the queue has items and no later call picks it.** -/
theorem cancelled_strands (h : (workMachine κ π c).ReachableBy (TopologyStep fun _ _ => True) s)
    (henv : env.IteratesSets) {s₁ : WorkManager κ π} {d₁ : List (QueueKey κ)}
    (hsteps : LoopSteps c env (s.cachedBlockingOffsets c).1 (s.cachedBlockingOffsets c).2 [] s₁ d₁)
    {o : Offer κ π} (ho : s₁.offer c env (s.cachedBlockingOffsets c).1 = some o) :
    Stranded c (cancelledAt env o d₁) o.key ∧ ¬ NoneStranded (cancelledAt env o d₁) := by
  obtain ⟨hw, hexact⟩ := order_reachable h
  have hloop := looping_steps hsteps (looping_entry hexact (routed_of_queueInv hw.queues))
  obtain ⟨r, a, htaken, htop, hqueue⟩ := offer_taken hloop.pickable ho
  -- the picked key was runnable, so it is not among those that are put back
  have hkd : o.key ∉ env.setOrder d₁ := fun hm =>
    ((hloop.exact.runnable o.key).mp htaken.runnable).1 ((henv d₁).mem_iff.mp hm)
  have hback := mem_reactivateAll (env.setOrder d₁) hkd
    (s := { o.state with engineCalls := o.state.engineCalls + 1 })
  obtain ⟨q, hq, hsame⟩ := reactivateAll_eq (env.setOrder d₁)
    { o.state with engineCalls := o.state.engineCalls + 1 }
  have hstranded : Stranded c (cancelledAt env o d₁) o.key := by
    refine ⟨?_, fun hm => ?_, fun b hpick => ?_⟩
    · rw [cancelledAt, hq]
      show q.queueOf o.key.1 o.key.2 ≠ []
      rw [hsame.queueOf, htop]
      show s₁.queueTopology.queueOf o.key.1 o.key.2 ≠ []
      rw [hqueue]
      exact List.cons_ne_nil _ _
    · have hm : o.key ∈ o.state.queueTopology.runnableQueueKeys := hback.1 hm
      rw [htop] at hm
      exact htaken.gone hm
    · have hm : o.key ∈ o.state.queueTopology.activeRunnableQueueKeys := hback.2 (active_of_pickQueueKey hpick)
      rw [htop] at hm
      exact htaken.inactive hm
  exact ⟨hstranded, fun hnone => hstranded.runnable (hnone o.key hstranded.items)⟩

section Examples

/-- The engine call of the first iteration from `beforeCut`. -/
def firstOffer : Option (Offer Nat Unit) :=
  (beforeCut.cachedBlockingOffsets batchesOfTwo).2.offer batchesOfTwo (acceptingEnv Nat Unit)
    (beforeCut.cachedBlockingOffsets batchesOfTwo).1

theorem cancelled_strands_firstOffer :
    ∃ o, firstOffer = some o ∧ Stranded batchesOfTwo (cancelledAt (acceptingEnv Nat Unit) o []) o.key ∧
      ¬ NoneStranded (cancelledAt (acceptingEnv Nat Unit) o []) := by
  obtain ⟨o, ho⟩ := Option.isSome_iff_exists.mp (show firstOffer.isSome = true by decide)
  exact ⟨o, ho, cancelled_strands beforeCut_reachable iteratesSets_acceptingEnv .refl ho⟩

/-- The cancelled call leaves the two items under key 1, and the key out of the order. -/
theorem cancelled_queue_not_runnable :
    (workMachine Nat Unit batchesOfTwo).ReachableBy (TopologyStep fun _ _ => True) beforeCut ∧
      ∃ o, firstOffer = some o ∧ ¬ NoneStranded (cancelledAt (acceptingEnv Nat Unit) o []) := by
  refine ⟨beforeCut_reachable, firstOffer.get (by decide), (Option.some_get _).symm, fun hnone => ?_⟩
  exact absurd (hnone (⟨"t", 0⟩, 1) (by decide)) (by decide)

end Examples

end PyrallelConsumer
