import PyrallelConsumer.QueueIndex
import PyrallelConsumer.TopologyOps

/-!
# PyrallelConsumer.IndexRuns

The index of the virtual queues in runs of the work manager without a poison circuit, whose keys are
never deferred.

* `scheduleStep_plain` — everything an iteration of the scheduling loop does there: it stops, finds
  no eligible queue, or makes one engine call with the front of the queue it picked.
* `ready_reachable` — the index agrees with the queues in every reachable state.
-/

set_option linter.unusedSectionVars false

namespace PyrallelConsumer

open WorkQueueTopology

variable {κ π : Type} [DecidableEq κ] {P : QueueKey κ → Prop}

/-- How the picked key left the order `r`: as the key of a queue whose head blocks its partition, or
as the first eligible one, with those before it sent to the end. -/
inductive Chosen (eligible : QueueKey κ → Bool) (b : Dict TopicPartition (Option OffsetRange))
    (q : WorkQueueTopology κ π) (k : QueueKey κ) (r : List (QueueKey κ)) : Prop where
  | blocking (gap : OffsetRange) (hgap : b.get? k.1 = some (some gap))
      (hhead : (q.headOf k).map (·.offset) = some gap.start)
      (hr : r = discardKey q.runnableQueueKeys k)
  | next (pre post : List (QueueKey κ)) (hq : q.runnableQueueKeys = pre ++ k :: post)
      (hpre : ∀ j ∈ pre, eligible j = false) (hr : r = post ++ pre)

/-- The key `k` is picked from the topology `q`, which becomes `q'`. -/
structure Picked (P : QueueKey κ → Prop) (eligible : QueueKey κ → Bool)
    (b : Dict TopicPartition (Option OffsetRange)) (q : WorkQueueTopology κ π) (k : QueueKey κ)
    (q' : WorkQueueTopology κ π) : Prop where
  free : eligible k = true
  runnable : k ∈ q.runnableQueueKeys
  same : SameQueues q q'
  indexed : Indexed P (· = k) q'
  chosen : Chosen eligible b q k q'.runnableQueueKeys

namespace WorkManager

/-- Without a poison circuit, and with the index in order. -/
structure Ready (P : QueueKey κ → Prop) (s : WorkManager κ π) : Prop where
  circuit : s.poisonMessageCircuit = none
  indexed : Indexed.All P s.queueTopology

theorem Ready.congr {s s' : WorkManager κ π} (h : Ready P s)
    (hc : s'.poisonMessageCircuit = s.poisonMessageCircuit)
    (hq : s'.queueTopology = s.queueTopology) : Ready P s' :=
  ⟨hc.trans h.circuit, hq ▸ h.indexed⟩

/-! ## One iteration -/

theorem pickQueueKey_spec {c : WorkManagerConfig} {s : WorkManager κ π}
    (h : Indexed.All P s.queueTopology) (b : Dict TopicPartition (Option OffsetRange)) :
    (∃ r, r.Perm s.queueTopology.runnableQueueKeys ∧
      s.pickQueueKey c b =
        (none, { s with queueTopology := { s.queueTopology with runnableQueueKeys := r } }) ∧
      ∀ j ∈ s.queueTopology.runnableQueueKeys, s.isQueueEligible c j = false) ∨
    (∃ k q', s.pickQueueKey c b = (some k, { s with queueTopology := q' }) ∧
      Picked P (s.isQueueEligible c) b s.queueTopology k q') := by
  have hb := sameQueues_pickBlocking (s.isQueueEligible c) s.queueTopology b
  unfold pickQueueKey
  split
  · rename_i k q' hpick
    rw [hpick] at hb
    obtain ⟨⟨gap, hgap, hhead⟩, he, hk, hi, hr⟩ := pickBlocking_spec h hpick
    exact .inr ⟨k, q', rfl, he, hk, hb, hi, .blocking gap hgap hhead hr⟩
  · rename_i q' hpick
    have hq' := pickBlocking_none hpick
    subst hq'
    have hn := sameQueues_pickNext (s.isQueueEligible c) s.queueTopology.runnableQueueKeys.length
      s.queueTopology
    unfold pickNextRunnableQueueKey
    rcases pickNext_spec (s.isQueueEligible c) _ s.queueTopology h.pickable (le_refl _) with
      ⟨r, hperm, hpick, hall⟩ | ⟨pre, k, post, hq, hpre, he, hpick⟩
    · left
      refine ⟨r, hperm, by rw [hpick], fun j hj => hall j ?_⟩
      rw [List.take_length]
      exact hj
    · right
      rw [hpick] at hn ⊢
      have hnodup := h.nodup
      rw [hq] at hnodup
      have hmem : ∀ j, j ∈ post ++ pre ↔ j ∈ s.queueTopology.runnableQueueKeys ∧ j ≠ k := by
        intro j
        have hk : k ∉ pre ++ post := (List.nodup_middle.mp hnodup |> List.nodup_cons.mp).1
        rw [hq]
        simp only [List.mem_append, List.mem_cons] at hk ⊢
        constructor
        · intro hj
          refine ⟨by tauto, ?_⟩
          rintro rfl
          tauto
        · tauto
      refine ⟨k, _, rfl, he, by rw [hq]; simp, hn, ?_, .next pre post hq hpre rfl⟩
      refine indexed_taken h ?_ hmem fun j => mem_discardKey
      have := (List.nodup_cons.mp (List.nodup_middle.mp hnodup)).2
      exact List.perm_append_comm.nodup_iff.mp this

theorem resolveRouteBatchLimit_pos {c : WorkManagerConfig} {s : WorkManager κ π}
    (h : ¬ (s.currentInFlightCount : Int) ≥ c.maxInFlightMessages) :
    0 < s.resolveRouteBatchLimit c := by
  have hsize := c.routeBatchSize_pos
  have hmin : 0 < min c.routeBatchSize (c.maxInFlightMessages - s.currentInFlightCount).toNat := by
    omega
  unfold resolveRouteBatchLimit
  dsimp only
  rw [if_neg (by omega)]
  cases c.orderingMode with
  | partition => exact Nat.one_pos
  | keyHash =>
    simp only
    split
    · exact hmin
    · exact Nat.one_pos
  | unordered => exact hmin

theorem truncateBatchBeforeForceFail_plain (env : Env κ π) {s : WorkManager κ π}
    (h : s.poisonMessageCircuit = none) (items : List (WorkItem κ π)) :
    s.truncateBatchBeforeForceFail env items = (items, s) := by
  induction items with
  | nil => rfl
  | cons x items ih => simp only [truncateBatchBeforeForceFail, shouldForceFail, h, ih]

theorem serveQueue_plain {c : WorkManagerConfig} {env : Env κ π} {s : WorkManager κ π}
    (h : s.poisonMessageCircuit = none) (hlimit : 0 < s.resolveRouteBatchLimit c)
    (d : List (QueueKey κ)) (k : QueueKey κ) (head : WorkItem κ π) (rest : List (WorkItem κ π)) :
    s.serveQueue c env d k head rest =
      s.submitLease c env d k (head :: rest) head
        ((head :: rest).take (s.resolveRouteBatchLimit c)) false := by
  have hforce : s.forceFailQueuedItem env head k = (false, s) := by
    simp only [forceFailQueuedItem, shouldForceFail, h]
  obtain ⟨n, hn⟩ := Nat.exists_eq_add_one.mpr hlimit
  unfold serveQueue
  rw [hn, List.take_succ_cons]
  dsimp only
  rw [if_neg (List.cons_ne_nil _ _), hforce]
  dsimp only
  rw [truncateBatchBeforeForceFail_plain env h]
  simp

/-- **One iteration without a poison circuit.** It stops at a guard, finds no eligible queue, or
picks a queue and offers its front to the engine. -/
theorem scheduleStep_plain {c : WorkManagerConfig} {s : WorkManager κ π} (h : Ready P s)
    (env : Env κ π) (b : Dict TopicPartition (Option OffsetRange)) (d : List (QueueKey κ)) :
    (((s.currentInFlightCount : Int) ≥ c.maxInFlightMessages ∨ s.rebalancing = true) ∧
      s.scheduleStep c env b d = (.stop, s, d)) ∨
    (∃ r, r.Perm s.queueTopology.runnableQueueKeys ∧
      (∀ j ∈ s.queueTopology.runnableQueueKeys, s.isQueueEligible c j = false) ∧
      s.scheduleStep c env b d =
        (.stop, { s with queueTopology := { s.queueTopology with runnableQueueKeys := r } }, d)) ∨
    (∃ k q' x rest, Picked P (s.isQueueEligible c) b s.queueTopology k q' ∧
      s.queueTopology.queueOf k.1 k.2 = x :: rest ∧ 0 < s.resolveRouteBatchLimit c ∧
      s.scheduleStep c env b d =
        ({ s with queueTopology := q' } : WorkManager κ π).submitLease c env d k (x :: rest) x
          ((x :: rest).take (s.resolveRouteBatchLimit c)) false) := by
  unfold scheduleStep
  split
  · rename_i hfull; exact .inl ⟨.inl hfull, rfl⟩
  · rename_i hroom
    have hlimit := resolveRouteBatchLimit_pos hroom
    split
    · rename_i hreb; exact .inl ⟨.inr hreb, rfl⟩
    · rcases pickQueueKey_spec (c := c) h.indexed b with
        ⟨r, hperm, hpick, hall⟩ | ⟨k, q', hpick, hpicked⟩
      · rw [hpick]; exact .inr (.inl ⟨r, hperm, hall, rfl⟩)
      · rw [hpick]
        right; right
        -- an active key has a queue that is not empty
        obtain ⟨x, rest, hq⟩ : ∃ x rest, s.queueTopology.queueOf k.1 k.2 = x :: rest := by
          have hne := ((h.indexed.runnable k).mp hpicked.runnable).2
          rw [headOf] at hne
          cases hq : s.queueTopology.queueOf k.1 k.2 with
          | nil => rw [hq] at hne; exact absurd rfl hne
          | cons x rest => exact ⟨x, rest, rfl⟩
        refine ⟨k, q', x, rest, hpicked, hq, hlimit, ?_⟩
        have hget : q'.getQueue k.1 k.2 = some (x :: rest) := by
          have hq' : q'.queueOf k.1 k.2 = x :: rest := by rw [hpicked.same.queueOf, hq]
          rw [getQueue_of_queueOf_ne_nil (by rw [hq']; simp), hq']
        dsimp only
        rw [hget]
        exact serveQueue_plain (s := { s with queueTopology := q' }) h.circuit hlimit d k x rest

/-! ## Recording -/

/-- Recording accepted items changes counters, timestamps and locks. -/
theorem recordSubmittedItems_eq (c : WorkManagerConfig) (items : List (WorkItem κ π)) :
    ∀ s : WorkManager κ π, ∃ queued count stamps keys keyCounts partitions partitionCounts,
      recordSubmittedItems c s items =
        { s with
          totalQueuedMessages := queued
          currentInFlightCount := count
          dispatchTimestamps := stamps
          keysInFlight := keys
          keyInFlightCounts := keyCounts
          partitionsInFlight := partitions
          partitionInFlightCounts := partitionCounts } := by
  induction items with
  | nil => intro s; exact ⟨_, _, _, _, _, _, _, rfl⟩
  | cons x items ih =>
    intro s
    obtain ⟨_, _, _, _, _, _, _, h⟩ := ih (recordSubmittedItem c s x)
    have heq : recordSubmittedItems c s (x :: items) =
        recordSubmittedItems c (recordSubmittedItem c s x) items := rfl
    rw [heq, h]
    unfold recordSubmittedItem recordOrderingLock
    cases c.orderingMode with
    | keyHash => exact ⟨_, _, _, _, _, _, _, rfl⟩
    | partition => exact ⟨_, _, _, _, _, _, _, rfl⟩
    | unordered => exact ⟨_, _, _, _, _, _, _, rfl⟩

/-- Accepting the front of the picked queue settles it. -/
theorem queueTopology_acceptItems (c : WorkManagerConfig) (s : WorkManager κ π) {k : QueueKey κ}
    {x : WorkItem κ π} {rest : List (WorkItem κ π)}
    (hq : s.queueTopology.queueOf k.1 k.2 = x :: rest) {n : Nat} (hn : 0 < n) :
    (acceptItems c s k n).2.queueTopology =
      s.queueTopology.settleQueue k.1 k.2 ((x :: rest).drop n) := by
  have hget : s.queueTopology.getQueue k.1 k.2 = some (x :: rest) := by
    rw [getQueue_of_queueOf_ne_nil (by rw [hq]; simp), hq]
  unfold acceptItems
  dsimp only
  rw [(recordSubmittedItems_spec c _ _).queueTopology]
  simp only [dequeueSubmittedItems, if_neg (Nat.ne_of_gt hn), hget]

theorem ready_acceptItems (c : WorkManagerConfig) {s : WorkManager κ π}
    (hc : s.poisonMessageCircuit = none) {k : QueueKey κ} (hi : Indexed P (· = k) s.queueTopology)
    {x : WorkItem κ π} {rest : List (WorkItem κ π)}
    (hq : s.queueTopology.queueOf k.1 k.2 = x :: rest) {n : Nat} (hn : 0 < n) :
    Ready P (acceptItems c s k n).2 := by
  have hne : s.queueTopology.queueOf k.1 k.2 ≠ [] := by rw [hq]; simp
  refine ⟨?_, ?_⟩
  · unfold acceptItems
    dsimp only
    obtain ⟨_, _, _, _, _, _, _, h⟩ := recordSubmittedItems_eq c
      (s.queueTopology.dequeueSubmittedItems k.1 k.2 n).1
      { s with queueTopology := (s.queueTopology.dequeueSubmittedItems k.1 k.2 n).2 }
    rw [h]
    exact hc
  · rw [queueTopology_acceptItems c s hq hn]
    refine indexed_settleQueue hi (assigned_of_queueOf_ne_nil hne) (hi.routed k ?_)
    rw [headOf, hq]
    simp

theorem ready_refreshHead {s : WorkManager κ π} (hc : s.poisonMessageCircuit = none)
    {k : QueueKey κ} (hi : Indexed P (· = k) s.queueTopology) {l : List (WorkItem κ π)}
    (hq : s.queueTopology.queueOf k.1 k.2 = l) : Ready P (s.refreshHead k l) := by
  subst hq
  exact ⟨hc, indexed_refresh hi fun j hj => hj⟩

theorem ready_submitLease {c : WorkManagerConfig} (env : Env κ π) {s : WorkManager κ π}
    (hc : s.poisonMessageCircuit = none) (d : List (QueueKey κ)) {k : QueueKey κ}
    (hi : Indexed P (· = k) s.queueTopology) {x : WorkItem κ π} {rest : List (WorkItem κ π)}
    (hq : s.queueTopology.queueOf k.1 k.2 = x :: rest) (hroute : (x.tp, x.key) = k)
    {lease : List (WorkItem κ π)} (hlease : lease ≠ []) :
    Ready P (s.submitLease c env d k (x :: rest) x lease false).2.1 ∧
      (s.submitLease c env d k (x :: rest) x lease false).2.2 = d := by
  have hlen : 0 < lease.length := List.length_pos_iff.mpr hlease
  unfold submitLease
  dsimp only
  split
  · have h := ready_acceptItems (P := P) c
      (s := { s with engineCalls := s.engineCalls + 1 }.record (.handed lease)) hc hi hq hlen
    split
    · exact ⟨h, rfl⟩
    · exact ⟨h, rfl⟩
  · rename_i n _
    split
    · rename_i hn
      exact ⟨ready_acceptItems (P := P) c
        (s := { s with engineCalls := s.engineCalls + 1 }.record (.handed (lease.take n))) hc hi hq hn,
        rfl⟩
    · rw [hroute]
      exact ⟨ready_refreshHead (s := { s with engineCalls := s.engineCalls + 1 }) hc hi hq, rfl⟩
  · rw [hroute]
    exact ⟨ready_refreshHead (s := { s with engineCalls := s.engineCalls + 1 }) hc hi hq, rfl⟩

/-! ## A call of `schedule` -/

theorem ready_scheduleStep {c : WorkManagerConfig} {s : WorkManager κ π} (h : Ready P s)
    (hq : QueueInv s.view) (env : Env κ π) (b : Dict TopicPartition (Option OffsetRange))
    (d : List (QueueKey κ)) :
    Ready P (s.scheduleStep c env b d).2.1 ∧ (s.scheduleStep c env b d).2.2 = d := by
  rcases scheduleStep_plain (c := c) h env b d with
    ⟨-, heq⟩ | ⟨r, hperm, -, heq⟩ | ⟨k, q', x, rest, hp, hqueue, hlimit, heq⟩
  · rw [heq]; exact ⟨h, rfl⟩
  · rw [heq]; exact ⟨⟨h.circuit, indexed_rotate h.indexed hperm⟩, rfl⟩
  · rw [heq]
    have hx : x.tp = k.1 ∧ x.key = k.2 :=
      hq.route (show x ∈ s.queueTopology.queueOf k.1 k.2 by rw [hqueue]; simp)
    have hqueue' : q'.queueOf k.1 k.2 = x :: rest := by rw [hp.same.queueOf, hqueue]
    refine ready_submitLease env (s := { s with queueTopology := q' }) h.circuit d hp.indexed hqueue'
      (Prod.ext hx.1 hx.2) ?_
    obtain ⟨n, hn⟩ := Nat.exists_eq_add_one.mpr hlimit
    rw [hn, List.take_succ_cons]
    exact List.cons_ne_nil _ _

theorem ready_scheduleLoop {c : WorkManagerConfig} {env : Env κ π} (henv : env.AcceptsPrefix)
    (b : Dict TopicPartition (Option OffsetRange)) (fuel : Nat) :
    ∀ (s : WorkManager κ π) (d : List (QueueKey κ)), Ready P s → QueueInv s.view →
      Ready P (s.scheduleLoop c env b fuel d).1 := by
  induction fuel with
  | zero => intro s d h _; exact h
  | succ fuel ih =>
    intro s d h hq
    have hready := (ready_scheduleStep (c := c) h hq env b d).1
    have hqueues : QueueInv (s.scheduleStep c env b d).2.1.view := by
      rcases scheduleStep_cases (c := c) henv b s d with he | ⟨k, x, hp⟩ | ⟨k, lease, hh⟩
      · rw [he]; exact hq
      · exact hq.poison hp
      · exact hq.hand hh
    simp only [scheduleLoop]
    split
    · rename_i s' d' heq; rw [heq] at hready; exact hready
    · rename_i s' d' heq; rw [heq] at hready hqueues; exact ih s' d' hready hqueues

theorem ready_reactivate {s : WorkManager κ π} (h : Ready P s) (k : QueueKey κ) :
    Ready P (s.reactivate k) := by
  unfold reactivate
  split
  · exact h
  · exact h
  · rename_i x rest hq
    refine ⟨h.circuit, ?_⟩
    have := indexed_refresh h.indexed (k := k) fun _ ho => ho.elim
    rwa [queueOf_eq_of_getQueue hq] at this

/-- Computing the blocking offsets touches trackers and the cache only. -/
theorem cachedBlockingOffsets_eq (c : WorkManagerConfig) (s : WorkManager κ π) :
    ∃ heap cache counter, (s.cachedBlockingOffsets c).2 =
      { s with heap := heap, blockingCache := cache, blockingCacheCounter := counter } := by
  have hfrom : ∀ (l : List (TopicPartition × TrackerRef)) (s : WorkManager κ π)
      (acc : Dict TopicPartition (Option OffsetRange)),
      ∃ heap, (s.blockingOffsetsFrom acc l).2 = { s with heap := heap } := by
    intro l
    induction l with
    | nil => intro s acc; exact ⟨_, rfl⟩
    | cons e l ih =>
      intro s acc
      obtain ⟨tp, r⟩ := e
      simp only [blockingOffsetsFrom]
      split
      · exact ih _ _
      · obtain ⟨heap, h⟩ := ih (s.modifyTracker r (·.advanceHighWaterMark))
          (acc.set tp ((((s.modifyTracker r (·.advanceHighWaterMark)).trackerAt r).bind
            (·.firstGapHead)).map fun o => OffsetRange.mk o o))
        exact ⟨heap, h⟩
  unfold cachedBlockingOffsets
  split
  · obtain ⟨heap, h⟩ := hfrom s.offsetTrackers.entries s .empty
    refine ⟨heap, s.getBlockingOffsets.1, c.blockingCacheTtl, ?_⟩
    unfold getBlockingOffsets
    simp only [h]
  · exact ⟨_, _, _, rfl⟩

theorem ready_schedule {c : WorkManagerConfig} {env : Env κ π} (henv : env.AcceptsPrefix)
    {s : WorkManager κ π} (h : Ready P s) (hq : QueueInv s.view) : Ready P (s.schedule c env) := by
  have hreact : ∀ (l : List (QueueKey κ)) (t : WorkManager κ π), Ready P t →
      Ready P (l.foldl reactivate t) := by
    intro l
    induction l with
    | nil => intro t ht; exact ht
    | cons k l ih => intro t ht; exact ih _ (ready_reactivate ht k)
  obtain ⟨heap, cache, counter, heq⟩ := cachedBlockingOffsets_eq c s
  have h1 : Ready P (s.cachedBlockingOffsets c).2 := by
    rw [heq]; exact h.congr rfl rfl
  unfold schedule
  dsimp only
  refine hreact _ _ (ready_scheduleLoop henv _ _ _ _ h1 ?_)
  rw [view_cachedBlockingOffsets]
  exact hq

/-! ## The other operations -/

/-- Without a circuit, and with the index in order. -/
theorem ready_ops (P : QueueKey κ → Prop) :
    TopologyOps (fun k _ => P k) fun circuit (q : WorkQueueTopology κ π) => circuit = none ∧ Indexed.All P q where
  circuit := by
    rintro _ q f ⟨rfl, hi⟩
    exact ⟨rfl, hi⟩
  assign := fun h hn => ⟨h.1, indexed_assign h.2 hn⟩
  revoke := fun tp h => ⟨h.1, indexed_revoke h.2 tp⟩
  cleanup := fun tp key h =>
    ⟨h.1, indexed_cleanupEmptyQueue (k := (tp, key)) h.2 (fun _ ho => ho.elim) fun ho => ho.elim⟩
  enqueue := fun h ha hP _ => ⟨h.1, indexed_enqueueBatch h.2 ha _ hP⟩

end WorkManager

open WorkManager

/-- A step of the work manager and its callers without a poison circuit, whose messages are queued
under keys that satisfy `P`. -/
def PlainStep (P : QueueKey κ → Prop) (s : WorkManager κ π) (a : WorkAction κ π) : Prop :=
  s.poisonMessageCircuit = none ∧ ∀ groups, a = .submit groups → ∀ g ∈ groups, P g.1

/-- **The index in every run.** -/
theorem ready_reachable {c : WorkManagerConfig} {s : WorkManager κ π}
    (h : (workMachine κ π c).ReachableBy (PlainStep P) s) (hc : s.poisonMessageCircuit = none) :
    WorkInv c s.view ∧ Ready P s := by
  suffices hall : WorkInv c s.view ∧ Indexed.All P s.queueTopology from ⟨hall.1, hc, hall.2⟩
  refine (workMachine κ π c).invariant
    (I := fun s => WorkInv c s.view ∧ Indexed.All P s.queueTopology) ?_ ?_ h
  · rintro s ⟨circuit, rfl⟩
    exact ⟨workInv_new c circuit, indexed_new P⟩
  · rintro s a ⟨hw, hi⟩ he ⟨hnone, hP⟩
    refine ⟨next_induction (fun _ _ hv hs => hv.step hs) (Reports.all c _)
      (fun _ hv => hv.filed) (fun _ hv => hv.queues.tracked) hw he
      fun _ _ _ _ _ _ => trivial, ?_⟩
    refine (topology_next (ready_ops P) hw ⟨hnone, hi⟩ he hP fun env henv t ht hq => ?_).2
    have haccepts : env.AcceptsPrefix := by
      rcases henv with rfl | ⟨events, after, rfl⟩
      · exact he
      · exact he
    have hready := ready_schedule (c := c) haccepts ⟨ht.1, ht.2⟩ hq
    exact ⟨hready.circuit, hready.indexed⟩

end PyrallelConsumer
