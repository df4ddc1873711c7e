import PyrallelConsumer.IndexRuns

/-!
# PyrallelConsumer.SubmitRefusal

Consecutive calls of `schedule` against an engine that refuses every submission with one item `x`. A
refusal ends the call and sends the queue of `x` to the end of the order, so a later call serves every
other queue first, unless the lease of `x` starts at the blocking offset of its partition and is
offered out of turn again.

* `Serving` — what the calls preserve: a queue is untouched or its first item has been handed over.
* `scheduleStep_serves`, `schedule_serves` — one iteration and one call.
* `heads_handed_unless_offeredFirst` — after one call in turn the head of every other queue has been
  handed over.
-/

set_option linter.unusedSectionVars false

namespace PyrallelConsumer

open WorkLog WorkQueueTopology

variable {κ π : Type} [DecidableEq κ]

/-- An engine that refuses the submissions with `x` by an ordinary exception and accepts the others;
a Python set is iterated in some order of its members. -/
structure Env.RefusesOnly (env : Env κ π) (x : WorkItem κ π) : Prop where
  refused : ∀ n items, x ∈ items → env.submit n items = .error
  accepted : ∀ n items, x ∉ items → env.submit n items = .accepted
  order : ∀ l, (env.setOrder l).Perm l

/-- The length of a full lease. -/
def WorkManagerConfig.leaseLimit (c : WorkManagerConfig) : Nat :=
  match c.orderingMode with
  | .partition => 1
  | .keyHash => if c.supportsOrderedRouteBatch then c.routeBatchSize else 1
  | .unordered => c.routeBatchSize

theorem WorkManagerConfig.leaseLimit_pos (c : WorkManagerConfig) : 0 < c.leaseLimit := by
  have hsize := c.routeBatchSize_pos
  unfold leaseLimit
  split
  · exact Nat.one_pos
  · split
    · exact hsize
    · exact Nat.one_pos
  · exact hsize

namespace WorkQueueTopology

/-- The number of virtual queues with items. -/
def nonEmptyQueues (q : WorkQueueTopology κ π) : Nat :=
  q.virtualPartitionQueues.sum fun queues => queues.sum fun l => if l.isEmpty then 0 else 1

theorem length_queueOf_le (q : WorkQueueTopology κ π) (tp : TopicPartition) (key : κ) :
    (q.queueOf tp key).length ≤ q.totalSize := by
  by_cases hq : q.queueOf tp key = []
  · rw [hq]; exact Nat.zero_le _
  · have := totalSize_putQueue (assigned_of_queueOf_ne_nil hq) key []
    rw [List.length_nil] at this
    omega

end WorkQueueTopology

namespace WorkManager

def scheduleCalls (c : WorkManagerConfig) (env : Env κ π) : Nat → WorkManager κ π → WorkManager κ π
  | 0, s => s
  | n + 1, s => scheduleCalls c env n (s.schedule c env)

/-- The blocking offsets that the `i`-th of consecutive calls uses. -/
def blockingUsed (c : WorkManagerConfig) :
    Nat → WorkManager κ π → Dict TopicPartition (Option OffsetRange)
  | 0, s => (s.cachedBlockingOffsets c).1
  | i + 1, s => blockingUsed c i (s.cachedBlockingOffsets c).2

/-- A call with the blocking offsets `b` offers the lease with the item at `j` of a queue of `tp` out
of turn: the lease comes first in the queue, or leases do not lock it, and the item it starts with is
at the blocking offset. -/
def OfferedFirst (c : WorkManagerConfig) (b : Dict TopicPartition (Option OffsetRange))
    (tp : TopicPartition) (queue : List (WorkItem κ π)) (j : Nat) : Prop :=
  (c.orderingMode = .unordered ∨ j < c.leaseLimit) ∧
    (b.get? tp).join.map (·.start) = queue[j / c.leaseLimit * c.leaseLimit]?.map (·.offset)

instance (c : WorkManagerConfig) (b : Dict TopicPartition (Option OffsetRange))
    (tp : TopicPartition) (queue : List (WorkItem κ π)) (j : Nat) :
    Decidable (OfferedFirst c b tp queue j) := inferInstanceAs (Decidable (_ ∧ _))

/-! ## Locks and leases -/

/-- An unfinished item keeps the queue `k` from being picked. -/
def holdsRoute (c : WorkManagerConfig) (k : QueueKey κ) (y : WorkItem κ π) : Bool :=
  match c.orderingMode with
  | .keyHash => (y.tp, y.key) = k
  | .partition => y.tp = k.1
  | .unordered => false

theorem isQueueEligible_recordSubmittedItems (c : WorkManagerConfig) (k : QueueKey κ)
    (items : List (WorkItem κ π)) :
    ∀ s : WorkManager κ π, (recordSubmittedItems c s items).isQueueEligible c k =
      (s.isQueueEligible c k && !items.any (holdsRoute c k)) := by
  induction items with
  | nil => intro s; simp [recordSubmittedItems]
  | cons y items ih =>
    intro s
    have hone : (recordSubmittedItem c s y).isQueueEligible c k =
        (s.isQueueEligible c k && !holdsRoute c k y) := by
      unfold recordSubmittedItem recordOrderingLock isQueueEligible holdsRoute
      cases c.orderingMode with
      | keyHash => simp [eq_comm]
      | partition => simp [eq_comm]
      | unordered => rfl
    have heq : recordSubmittedItems c s (y :: items) =
        recordSubmittedItems c (recordSubmittedItem c s y) items := rfl
    rw [heq, ih, hone, List.any_cons, Bool.not_or, Bool.and_assoc]

/-- Keys of the queues: in partition mode a partition has one. -/
def RoutedBy (c : WorkManagerConfig) (keyOf : TopicPartition → κ) (k : QueueKey κ) : Prop :=
  c.orderingMode = .partition → k.2 = keyOf k.1

theorem holdsRoute_self {c : WorkManagerConfig} {k : QueueKey κ} {y : WorkItem κ π}
    (hy : y.tp = k.1 ∧ y.key = k.2) (hm : c.orderingMode ≠ .unordered) : holdsRoute c k y = true := by
  unfold holdsRoute
  cases h : c.orderingMode with
  | keyHash => exact decide_eq_true (Prod.ext hy.1 hy.2)
  | partition => exact decide_eq_true hy.1
  | unordered => exact absurd h hm

/-- An item locks no queue but its own. -/
theorem eq_of_holdsRoute {c : WorkManagerConfig} {keyOf : TopicPartition → κ} {k i : QueueKey κ}
    {y : WorkItem κ π} (hy : y.tp = k.1 ∧ y.key = k.2) (hk : RoutedBy c keyOf k)
    (hi : RoutedBy c keyOf i) (h : holdsRoute c i y = true) : k = i := by
  unfold holdsRoute at h
  cases hm : c.orderingMode with
  | keyHash =>
    rw [hm] at h
    exact (Prod.ext hy.1 hy.2 : (y.tp, y.key) = k).symm.trans (of_decide_eq_true h)
  | partition =>
    rw [hm] at h
    have htp : k.1 = i.1 := hy.1.symm.trans (of_decide_eq_true h)
    exact Prod.ext htp (by rw [hk hm, hi hm, htp])
  | unordered => rw [hm] at h; cases h

/-- With room for all of a queue, its lease is cut at the full length only. -/
theorem take_resolveRouteBatchLimit {c : WorkManagerConfig} {s : WorkManager κ π}
    {l : List (WorkItem κ π)}
    (h : (s.currentInFlightCount + l.length : Int) ≤ c.maxInFlightMessages) (hl : l ≠ []) :
    l.take (s.resolveRouteBatchLimit c) = l.take c.leaseLimit := by
  have hpos : 0 < l.length := List.length_pos_iff.mpr hl
  have hmin : ∀ n, l.take (min n (c.maxInFlightMessages - s.currentInFlightCount).toNat) =
      l.take n := by
    intro n
    rw [List.take_eq_take_iff]
    omega
  unfold resolveRouteBatchLimit WorkManagerConfig.leaseLimit
  dsimp only
  rw [if_neg (by omega)]
  cases c.orderingMode with
  | partition => rfl
  | keyHash =>
    simp only
    split
    · exact hmin _
    · rfl
  | unordered => exact hmin _

theorem isQueueEligible_acceptItems (c : WorkManagerConfig) (s : WorkManager κ π) {k : QueueKey κ}
    {lease : List (WorkItem κ π)} (hlead : lease <+: s.queueTopology.queueOf k.1 k.2)
    (j : QueueKey κ) :
    (acceptItems c s k lease.length).2.isQueueEligible c j =
      (s.isQueueEligible c j && !lease.any (holdsRoute c j)) := by
  have hitems : (s.queueTopology.dequeueSubmittedItems k.1 k.2 lease.length).1 = lease := by
    rw [(dequeueSubmittedItems_spec _ _ _ _).items_eq]
    exact (List.prefix_iff_eq_take.mp hlead).symm
  unfold acceptItems
  dsimp only
  rw [isQueueEligible_recordSubmittedItems, hitems]
  rfl

/-- What the blocking offsets are computed from. -/
def blockingState (s : WorkManager κ π) : List OffsetTracker × Dict TopicPartition TrackerRef ×
    List TopicPartition × Dict TopicPartition (Option OffsetRange) × Int :=
  (s.heap, s.offsetTrackers, s.sharedOffsetTrackers, s.blockingCache, s.blockingCacheCounter)

theorem blockingOffsetsFrom_congr (l : List (TopicPartition × TrackerRef)) :
    ∀ {s t : WorkManager κ π} (acc : Dict TopicPartition (Option OffsetRange)),
      s.blockingState = t.blockingState →
      (s.blockingOffsetsFrom acc l).1 = (t.blockingOffsetsFrom acc l).1 ∧
        (s.blockingOffsetsFrom acc l).2.blockingState =
          (t.blockingOffsetsFrom acc l).2.blockingState := by
  induction l with
  | nil => intro s t acc h; exact ⟨rfl, h⟩
  | cons e l ih =>
    intro s t acc h
    obtain ⟨tp, r⟩ := e
    have hfields := h
    simp only [blockingState, Prod.mk.injEq] at hfields
    obtain ⟨hheap, htrackers, hshared, hcache, hcounter⟩ := hfields
    simp only [blockingOffsetsFrom, hshared]
    split
    · rw [trackerAt, trackerAt, hheap]
      exact ih _ h
    · have hnext : (s.modifyTracker r (·.advanceHighWaterMark)).blockingState =
          (t.modifyTracker r (·.advanceHighWaterMark)).blockingState := by
        simp only [blockingState, modifyTracker, hheap, htrackers, hshared, hcache, hcounter]
      have hat : (s.modifyTracker r (·.advanceHighWaterMark)).trackerAt r =
          (t.modifyTracker r (·.advanceHighWaterMark)).trackerAt r := by
        simp only [trackerAt, modifyTracker, hheap]
      rw [hat]
      exact ih _ hnext

theorem cachedBlockingOffsets_congr (c : WorkManagerConfig) {s t : WorkManager κ π}
    (h : s.blockingState = t.blockingState) :
    (s.cachedBlockingOffsets c).1 = (t.cachedBlockingOffsets c).1 ∧
      (s.cachedBlockingOffsets c).2.blockingState = (t.cachedBlockingOffsets c).2.blockingState := by
  have hfields := h
  simp only [blockingState, Prod.mk.injEq] at hfields
  obtain ⟨hheap, htrackers, hshared, hcache, hcounter⟩ := hfields
  have hfrom := blockingOffsetsFrom_congr s.offsetTrackers.entries .empty h
  unfold cachedBlockingOffsets
  rw [hcounter]
  split
  · unfold getBlockingOffsets
    rw [← htrackers]
    dsimp only
    have hstate := hfrom.2
    simp only [blockingState, Prod.mk.injEq] at hstate
    refine ⟨hfrom.1, ?_⟩
    simp only [blockingState, hstate.1, hstate.2.1, hstate.2.2.1, hfrom.1]
  · exact ⟨hcache, by simp only [blockingState, hheap, htrackers, hshared, hcache]⟩

theorem blockingUsed_congr (c : WorkManagerConfig) (i : Nat) :
    ∀ {s t : WorkManager κ π}, s.blockingState = t.blockingState →
      blockingUsed c i s = blockingUsed c i t := by
  induction i with
  | zero => intro s t h; exact (cachedBlockingOffsets_congr c h).1
  | succ i ih => intro s t h; exact ih (cachedBlockingOffsets_congr c h).2

/-! ## What the calls preserve -/

/-- The first item that the queue `k` of `q` had is among the items handed over. -/
def HeadHanded (q : WorkQueueTopology κ π) (log : List (Entry κ π)) (k : QueueKey κ) : Prop :=
  ∀ y ∈ q.headOf k, y ∈ handedItems log

section Serving

variable (c : WorkManagerConfig) (keyOf : TopicPartition → κ) (q₀ : WorkQueueTopology κ π)
  (kx : QueueKey κ) (j : Nat)

/-- The state during the calls, which started with the queues `q₀`: the item at `j` of the queue `kx`
is refused. -/
structure Serving (s : WorkManager κ π) : Prop where
  ready : Ready (RoutedBy c keyOf) s
  rebalancing : s.rebalancing = false
  queues : QueueInv s.view
  room : (s.currentInFlightCount + s.queueTopology.totalSize : Int) ≤ c.maxInFlightMessages
  served : ∀ k, s.queueTopology.queueOf k.1 k.2 = q₀.queueOf k.1 k.2 ∨ HeadHanded q₀ s.log k
  locked : ∀ k, s.queueTopology.headOf k ≠ none → s.isQueueEligible c k = false →
    HeadHanded q₀ s.log k
  waiting : ∃ d, c.leaseLimit ∣ d ∧ d ≤ j ∧
    s.queueTopology.queueOf kx.1 kx.2 = (q₀.queueOf kx.1 kx.2).drop d ∧
    (c.orderingMode = .unordered ∨ d = 0 ∨ s.isQueueEligible c kx = false)

/-- The head of every other queue has been handed over. -/
def OthersHanded (s : WorkManager κ π) : Prop := ∀ k, k ≠ kx → HeadHanded q₀ s.log k

/-- The queues whose head is still to be handed over come before `kx`. -/
def Ahead (s : WorkManager κ π) : Prop :=
  ∀ k, k ≠ kx → ¬ HeadHanded q₀ s.log k → [k, kx].Sublist s.queueTopology.runnableQueueKeys

end Serving

theorem HeadHanded.mono {q : WorkQueueTopology κ π} {log log' : List (Entry κ π)} {k : QueueKey κ}
    (h : HeadHanded q log k) (hlog : ∀ y ∈ handedItems log, y ∈ handedItems log') :
    HeadHanded q log' k := fun y hy => hlog y (h y hy)

section Step

variable {c : WorkManagerConfig} {keyOf : TopicPartition → κ} {q₀ : WorkQueueTopology κ π}
  {kx : QueueKey κ} {j : Nat} {s : WorkManager κ π}

/-- A queue whose head is still to be handed over is as it was, and runnable. -/
theorem Serving.runnable (h : Serving c keyOf q₀ kx j s) {k : QueueKey κ}
    (hk : ¬ HeadHanded q₀ s.log k) : s.queueTopology.headOf k ≠ none := by
  have hq := (h.served k).resolve_right hk
  intro hnone
  refine hk fun y hy => ?_
  rw [headOf, ← hq, show (s.queueTopology.queueOf k.1 k.2).head? = none from hnone] at hy
  cases hy

theorem Serving.eligible (h : Serving c keyOf q₀ kx j s) {k : QueueKey κ}
    (hk : ¬ HeadHanded q₀ s.log k) : s.isQueueEligible c k ≠ false :=
  fun hn => hk (h.locked k (h.runnable hk) hn)

theorem Serving.head_waiting (h : Serving c keyOf q₀ kx j s) {x : WorkItem κ π}
    (hx : (q₀.queueOf kx.1 kx.2)[j]? = some x) : s.queueTopology.headOf kx ≠ none := by
  obtain ⟨d, -, hdj, hd, -⟩ := h.waiting
  have hlen := (List.getElem?_eq_some_iff.mp hx).1
  rw [headOf, hd, List.head?_drop, Ne, List.getElem?_eq_none_iff]
  omega

/-- Without an eligible queue, or without room, every head has been handed over. -/
theorem Serving.handed_of_idle (h : Serving c keyOf q₀ kx j s)
    (hidle : (s.currentInFlightCount : Int) ≥ c.maxInFlightMessages ∨
      ∀ k ∈ s.queueTopology.runnableQueueKeys, s.isQueueEligible c k = false) :
    OthersHanded q₀ kx s := by
  intro k _
  by_contra hk
  have hne := h.runnable hk
  rcases hidle with hfull | hall
  · have hroom := h.room
    have hlen := length_queueOf_le s.queueTopology k.1 k.2
    have hnil : s.queueTopology.queueOf k.1 k.2 = [] := List.length_eq_zero_iff.mp (by omega)
    exact hne (by rw [headOf, hnil]; rfl)
  · exact h.eligible hk (hall k ((h.ready.indexed.runnable k).mpr ⟨not_false, hne⟩))

/-- The front of the picked queue goes to the engine. -/
theorem Serving.lease (h : Serving c keyOf q₀ kx j s) {k : QueueKey κ} {x : WorkItem κ π}
    {rest : List (WorkItem κ π)} (hq : s.queueTopology.queueOf k.1 k.2 = x :: rest) :
    (x :: rest).take (s.resolveRouteBatchLimit c) = (x :: rest).take c.leaseLimit := by
  have hlen := length_queueOf_le s.queueTopology k.1 k.2
  have hroom := h.room
  rw [hq] at hlen
  exact take_resolveRouteBatchLimit (by omega) (by simp)

theorem drop_length_take {α : Type} (l : List α) (n : Nat) : l.drop (l.take n).length = l.drop n := by
  rw [List.length_take]
  rcases Nat.le_total n l.length with hn | hn
  · rw [Nat.min_eq_left hn]
  · rw [Nat.min_eq_right hn, List.drop_length, List.drop_eq_nil_of_le hn]

theorem sublist_pair_of_notMem {α : Type} {a b : α} {l m : List α} (h : [a, b].Sublist (l ++ m))
    (ha : a ∉ l) : [a, b].Sublist m := by
  obtain ⟨l₁, l₂, heq, h1, h2⟩ := List.sublist_append_iff.mp h
  cases l₁ with
  | nil => rw [List.nil_append] at heq; rwa [heq]
  | cons y l₁ =>
    rw [List.cons_append, List.cons.injEq] at heq
    exact absurd (h1.subset (by rw [heq.1]; simp)) ha

/-! ## A lease is accepted -/

/-- The state after the engine accepts a lease of the picked queue. -/
def handOver (c : WorkManagerConfig) (s : WorkManager κ π) (q : WorkQueueTopology κ π)
    (k : QueueKey κ) (lease : List (WorkItem κ π)) : WorkManager κ π :=
  (acceptItems c ({ s with queueTopology := q, engineCalls := s.engineCalls + 1 }.record
    (.handed lease)) k lease.length).2

section Hand

variable {P : QueueKey κ → Prop} {b : Dict TopicPartition (Option OffsetRange)} {k : QueueKey κ}
  {q : WorkQueueTopology κ π} {lease : List (WorkItem κ π)}

theorem handedOver_handOver (hp : Picked P (s.isQueueEligible c) b s.queueTopology k q)
    (hlead : lease <+: s.queueTopology.queueOf k.1 k.2) (hne : lease ≠ [])
    (hlimit : lease.length ≤ s.resolveRouteBatchLimit c) :
    (acceptItems c ({ s with queueTopology := q, engineCalls := s.engineCalls + 1 }.record
      (.handed lease)) k lease.length).1 = lease ∧
    HandedOver c s.view k lease (handOver c s q k lease).view := by
  have hview : ({ s with queueTopology := q, engineCalls := s.engineCalls + 1 } :
      WorkManager κ π).view = s.view := view_of_sameQueues s hp.same
  have hover := handedOver_acceptItems (c := c)
    (s := { s with queueTopology := q, engineCalls := s.engineCalls + 1 }) (k := k) hne
    (by rw [show q.queueOf = s.queueTopology.queueOf from hp.same.queueOf]; exact hlead)
    (by rw [hview]; exact free_of_isQueueEligible hp.free) hlimit
  rw [hview] at hover
  exact hover

theorem isQueueEligible_handOver (hp : Picked P (s.isQueueEligible c) b s.queueTopology k q)
    (hlead : lease <+: s.queueTopology.queueOf k.1 k.2) (i : QueueKey κ) :
    (handOver c s q k lease).isQueueEligible c i =
      (s.isQueueEligible c i && !lease.any (holdsRoute c i)) := by
  have hlead' : lease <+: q.queueOf k.1 k.2 := by rw [hp.same.queueOf]; exact hlead
  exact isQueueEligible_acceptItems c
    ({ s with queueTopology := q, engineCalls := s.engineCalls + 1 }.record (.handed lease)) hlead' i

theorem frame_handOver (c : WorkManagerConfig) (s : WorkManager κ π) (q : WorkQueueTopology κ π)
    (k : QueueKey κ) (lease : List (WorkItem κ π)) :
    (handOver c s q k lease).rebalancing = s.rebalancing ∧
      (handOver c s q k lease).blockingState = s.blockingState := by
  unfold handOver acceptItems
  dsimp only
  obtain ⟨_, _, _, _, _, _, _, h⟩ := recordSubmittedItems_eq c
    (({ s with queueTopology := q, engineCalls := s.engineCalls + 1 }.record
      (.handed lease)).queueTopology.dequeueSubmittedItems k.1 k.2 lease.length).1
    { { s with queueTopology := q, engineCalls := s.engineCalls + 1 }.record (.handed lease) with
      queueTopology := (({ s with queueTopology := q, engineCalls := s.engineCalls + 1 }.record
        (.handed lease)).queueTopology.dequeueSubmittedItems k.1 k.2 lease.length).2 }
  rw [h]
  exact ⟨rfl, rfl⟩

theorem handedItems_handOver (hover : HandedOver c s.view k lease (handOver c s q k lease).view) :
    ∀ z ∈ handedItems s.log, z ∈ handedItems (handOver c s q k lease).log := by
  intro z hz
  rw [show (handOver c s q k lease).log = .handed lease :: s.log from hover.log]
  exact List.mem_append_left _ hz

variable {x y : WorkItem κ π} {rest : List (WorkItem κ π)}

section Accepted

variable (h : Serving c keyOf q₀ kx j s)
  (hp : Picked (RoutedBy c keyOf) (s.isQueueEligible c) b s.queueTopology k q)
  (hq : s.queueTopology.queueOf k.1 k.2 = y :: rest)
  (hlease : lease = (y :: rest).take c.leaseLimit)

include hq hlease

theorem mem_lease : y ∈ lease := by
  obtain ⟨n, hn⟩ := Nat.exists_eq_add_one.mpr c.leaseLimit_pos
  rw [hlease, hn, List.take_succ_cons]
  simp

theorem lease_isPrefix : lease <+: s.queueTopology.queueOf k.1 k.2 := by
  rw [hq, hlease]
  exact List.take_prefix _ _

variable (hover : HandedOver c s.view k lease (handOver c s q k lease).view)

include hover

/-- The served queue loses a full lease. -/
theorem queueOf_handOver (i : QueueKey κ) :
    (handOver c s q k lease).queueTopology.queueOf i.1 i.2 =
      if k = i then (y :: rest).drop c.leaseLimit else s.queueTopology.queueOf i.1 i.2 := by
  rw [show (handOver c s q k lease).queueTopology.queueOf =
    s.view.withQueue k ((s.queueTopology.queueOf k.1 k.2).drop lease.length) from hover.queueOf]
  unfold WorkView.withQueue
  rw [hq, hlease, drop_length_take]
  by_cases hi : k = i
  · subst hi; simp
  · rw [if_neg hi, if_neg fun hk => hi (Prod.ext hk.1 hk.2)]; rfl

include h

theorem headHanded_handOver : HeadHanded q₀ (handOver c s q k lease).log k := by
  have hlog : handedItems (handOver c s q k lease).log = handedItems s.log ++ lease := by
    rw [show (handOver c s q k lease).log = .handed lease :: s.log from hover.log]; rfl
  intro z hz
  rw [hlog]
  rcases h.served k with hsame | hdone
  · rw [headOf, ← hsame, hq] at hz
    cases hz
    exact List.mem_append_right _ (mem_lease hq hlease)
  · exact List.mem_append_left _ (hdone z hz)

include hp

/-- A route is locked by the lease or was locked before. -/
theorem locked_handOver {i : QueueKey κ}
    (hhead : (handOver c s q k lease).queueTopology.headOf i ≠ none)
    (hi : (handOver c s q k lease).isQueueEligible c i = false) :
    HeadHanded q₀ (handOver c s q k lease).log i := by
  have hlead := lease_isPrefix hq hlease
  by_cases hik : k = i
  · subst hik; exact headHanded_handOver h hq hlease hover
  · rw [headOf, queueOf_handOver hq hlease hover, if_neg hik] at hhead
    rw [isQueueEligible_handOver hp hlead, Bool.and_eq_false_iff] at hi
    rcases hi with hi | hi
    · exact (h.locked i hhead hi).mono (handedItems_handOver hover)
    · rw [Bool.not_eq_false', List.any_eq_true] at hi
      obtain ⟨z, hz, hzi⟩ := hi
      have hk : RoutedBy c keyOf k := hp.indexed.routed k (by rw [hp.same.headOf, headOf, hq]; simp)
      exact absurd (eq_of_holdsRoute (h.queues.route (hlead.subset hz)) hk
        (h.ready.indexed.routed i hhead) hzi) hik

/-- A lease without the refused item leaves that item waiting. -/
theorem waiting_handOver (hx : (q₀.queueOf kx.1 kx.2)[j]? = some x) (hxl : x ∉ lease) :
    ∃ d, c.leaseLimit ∣ d ∧ d ≤ j ∧
      (handOver c s q k lease).queueTopology.queueOf kx.1 kx.2 = (q₀.queueOf kx.1 kx.2).drop d ∧
      (c.orderingMode = .unordered ∨ d = 0 ∨
        (handOver c s q k lease).isQueueEligible c kx = false) := by
  have hlead := lease_isPrefix hq hlease
  obtain ⟨d, hdvd, hdj, hd, hlock⟩ := h.waiting
  rw [isQueueEligible_handOver hp hlead, queueOf_handOver hq hlease hover]
  by_cases hk : k = kx
  · subst hk
    refine ⟨d + c.leaseLimit, Nat.dvd_add hdvd (Nat.dvd_refl _), ?_, ?_, ?_⟩
    · by_contra hlt
      refine hxl ?_
      rw [hlease, ← hq, hd]
      refine List.mem_iff_getElem?.mpr ⟨j - d, ?_⟩
      rw [List.getElem?_take_of_lt (by omega), List.getElem?_drop, Nat.add_sub_cancel' hdj, hx]
    · rw [if_pos rfl, ← hq, hd, List.drop_drop]
    · by_cases hm : c.orderingMode = .unordered
      · exact .inl hm
      · refine .inr (.inr ?_)
        rw [Bool.and_eq_false_iff, Bool.not_eq_false', List.any_eq_true]
        have hy := mem_lease hq hlease
        exact .inr ⟨y, hy, holdsRoute_self (h.queues.route (hlead.subset hy)) hm⟩
  · refine ⟨d, hdvd, hdj, ?_, ?_⟩
    · rw [if_neg hk, hd]
    · refine hlock.imp_right fun hl => hl.imp_right fun hl => ?_
      rw [hl]
      rfl

end Accepted

theorem serving_handOver (h : Serving c keyOf q₀ kx j s)
    (hp : Picked (RoutedBy c keyOf) (s.isQueueEligible c) b s.queueTopology k q)
    (hq : s.queueTopology.queueOf k.1 k.2 = y :: rest)
    (hlease : lease = (y :: rest).take c.leaseLimit)
    (hover : HandedOver c s.view k lease (handOver c s q k lease).view)
    (hx : (q₀.queueOf kx.1 kx.2)[j]? = some x) (hxl : x ∉ lease) :
    Serving c keyOf q₀ kx j (handOver c s q k lease) := by
  have hne : lease ≠ [] := List.ne_nil_of_mem (mem_lease hq hlease)
  have hmono := handedItems_handOver hover
  have hq' : q.queueOf k.1 k.2 = y :: rest := by rw [hp.same.queueOf, hq]
  refine ⟨?_, (frame_handOver c s q k lease).1.trans h.rebalancing, h.queues.hand hover, ?_, ?_,
    fun i => locked_handOver h hp hq hlease hover, waiting_handOver h hp hq hlease hover hx hxl⟩
  · exact ready_acceptItems c
      (s := { s with queueTopology := q, engineCalls := s.engineCalls + 1 }.record (.handed lease))
      h.ready.circuit hp.indexed hq' (List.length_pos_iff.mpr hne)
  · have hcount : (handOver c s q k lease).currentInFlightCount =
        s.currentInFlightCount + lease.length := hover.count
    have hsize : (handOver c s q k lease).queueTopology.totalSize + lease.length =
        s.queueTopology.totalSize := hover.totalSize
    have := h.room
    omega
  · intro i
    by_cases hi : k = i
    · subst hi; exact .inr (headHanded_handOver h hq hlease hover)
    · rw [queueOf_handOver hq hlease hover, if_neg hi]
      exact (h.served i).imp_right fun hd => hd.mono hmono

/-- The queues still to be served stay before the queue of the refused item. -/
theorem ahead_handOver (h : Serving c keyOf q₀ kx j s)
    (hp : Picked (RoutedBy c keyOf) (s.isQueueEligible c) b s.queueTopology k q)
    (hq : s.queueTopology.queueOf k.1 k.2 = y :: rest)
    (hlease : lease = (y :: rest).take c.leaseLimit)
    (hover : HandedOver c s.view k lease (handOver c s q k lease).view)
    (hx : (q₀.queueOf kx.1 kx.2)[j]? = some x) (hxl : x ∉ lease) (ha : Ahead q₀ kx s) :
    Ahead q₀ kx (handOver c s q k lease) := by
  intro i hi hnot
  have hnot₀ : ¬ HeadHanded q₀ s.log i := fun hd => hnot (hd.mono (handedItems_handOver hover))
  have hik : i ≠ k := by
    rintro rfl
    exact hnot (headHanded_handOver h hq hlease hover)
  have hsub := ha i hi hnot₀
  have hq' : q.queueOf k.1 k.2 = y :: rest := by rw [hp.same.queueOf, hq]
  have htopology : (handOver c s q k lease).queueTopology =
      q.settleQueue k.1 k.2 ((y :: rest).drop lease.length) := by
    unfold handOver
    exact queueTopology_acceptItems c
      ({ s with queueTopology := q, engineCalls := s.engineCalls + 1 }.record (.handed lease)) hq'
      (List.length_pos_iff.mpr (List.ne_nil_of_mem (mem_lease hq hlease)))
  have horder := runnable_settleQueue hp.indexed ((y :: rest).drop lease.length)
  rw [← htopology] at horder
  by_cases hk : k = kx
  · -- the queue of the refused item goes to the end
    subst hk
    have hhead := (serving_handOver h hp hq hlease hover hx hxl).head_waiting hx
    have hmem : k ∈ (handOver c s q k lease).queueTopology.runnableQueueKeys :=
      ((serving_handOver h hp hq hlease hover hx hxl).ready.indexed.runnable k).mpr ⟨not_false, hhead⟩
    have hi' : i ∈ q.runnableQueueKeys := by
      refine (hp.indexed.runnable i).mpr ⟨hik, ?_⟩
      rw [hp.same.headOf]
      exact h.runnable hnot₀
    rcases horder with horder | horder
    · rw [horder] at hmem
      exact absurd rfl ((hp.indexed.runnable k).mp hmem).1
    · rw [horder]
      exact (List.singleton_sublist.mpr hi').append (List.Sublist.refl [k])
  · have hpicked : [i, kx].Sublist q.runnableQueueKeys := by
      cases hp.chosen with
      | blocking gap hgap hhead hr =>
        rw [hr]
        have := hsub.filter (· ≠ k)
        rwa [List.filter_eq_self.mpr (by simp [hik, Ne.symm hk])] at this
      | next pre post hr hpre hr' =>
        -- the keys before the picked one are locked
        rw [hr] at hsub
        have hpost := sublist_pair_of_notMem hsub fun hm => h.eligible hnot₀ (hpre i hm)
        rw [hr']
        exact (sublist_pair_of_notMem (l := [k]) hpost (by simpa using hik)).trans
          (List.sublist_append_left _ _)
    rcases horder with horder | horder
    · rw [horder]; exact hpicked
    · rw [horder]; exact hpicked.trans (List.sublist_append_left _ _)

end Hand

/-! ## A lease is refused -/

section Refuse

variable {b : Dict TopicPartition (Option OffsetRange)} {q : WorkQueueTopology κ π}
  {x y : WorkItem κ π} {rest : List (WorkItem κ π)}

/-- The state after the engine refuses a lease of the picked queue. -/
def putBack (s : WorkManager κ π) (q : WorkQueueTopology κ π) (k : QueueKey κ)
    (queue : List (WorkItem κ π)) : WorkManager κ π :=
  ({ s with queueTopology := q, engineCalls := s.engineCalls + 1 } : WorkManager κ π).refreshHead k
    queue

variable (h : Serving c keyOf q₀ kx j s)
  (hp : Picked (RoutedBy c keyOf) (s.isQueueEligible c) b s.queueTopology kx q)
  (hq : s.queueTopology.queueOf kx.1 kx.2 = y :: rest)

include h hp hq

theorem serving_putBack : Serving c keyOf q₀ kx j (putBack s q kx (y :: rest)) := by
  have hq' : q.queueOf kx.1 kx.2 = y :: rest := by rw [hp.same.queueOf, hq]
  have hsame : SameQueues s.queueTopology (putBack s q kx (y :: rest)).queueTopology :=
    hp.same.trans (sameQueues_refresh q kx (y :: rest))
  have hview : (putBack s q kx (y :: rest)).view = s.view :=
    (view_refreshHead _ kx _).trans (view_of_sameQueues s hp.same)
  refine ⟨?_, h.rebalancing, ?_, ?_, ?_, ?_, ?_⟩
  · exact ready_refreshHead
      (s := { s with queueTopology := q, engineCalls := s.engineCalls + 1 }) h.ready.circuit
      hp.indexed hq'
  · rw [hview]; exact h.queues
  · rw [hsame.totalSize]; exact h.room
  · rw [hsame.queueOf]; exact h.served
  · rw [hsame.headOf]; exact h.locked
  · rw [hsame.queueOf]; exact h.waiting

/-- After the refusal every other queue comes first. -/
theorem ahead_putBack : Ahead q₀ kx (putBack s q kx (y :: rest)) := by
  intro i hi hnot
  have hmem : i ∈ discardKey q.runnableQueueKeys kx := by
    rw [mem_discardKey, hp.indexed.runnable, hp.same.headOf]
    exact ⟨⟨hi, h.runnable hnot⟩, hi⟩
  show [i, kx].Sublist (q.refreshQueueHead kx (y :: rest)).runnableQueueKeys
  rw [runnable_refresh]
  exact (List.singleton_sublist.mpr hmem).append (List.Sublist.refl [kx])

/-- If the others came first, the refusal is of a lease offered out of turn, or they have all been
served. -/
theorem offeredFirst_of_refused (ha : Ahead q₀ kx s)
    (hfirst : x ∉ (q₀.queueOf kx.1 kx.2).take j) (hxl : x ∈ (y :: rest).take c.leaseLimit) :
    OthersHanded q₀ kx s ∨ OfferedFirst c b kx.1 (q₀.queueOf kx.1 kx.2) j := by
  cases hp.chosen with
  | next pre post hr hpre _ =>
    -- whatever comes before the picked key is locked
    left
    intro i hi
    by_contra hnot
    have hsub := ha i hi hnot
    have hnodup := h.ready.indexed.nodup
    rw [hr] at hsub hnodup
    have hpost : kx ∉ post := (List.nodup_cons.mp (List.nodup_append.mp hnodup).2.1).1
    have hi' : i ∉ pre := fun hm => h.eligible hnot (hpre i hm)
    have hsub := sublist_pair_of_notMem (l := [kx]) (sublist_pair_of_notMem hsub hi')
      (by simpa using hi)
    exact hpost (hsub.subset (by simp))
  | blocking gap hgap hhead _ =>
    right
    obtain ⟨d, ⟨m, hm⟩, hdj, hd, hlock⟩ := h.waiting
    rw [← hq, hd] at hxl
    -- the refused lease is the one with the item at `j`
    have hjd : j < d + c.leaseLimit := by
      by_contra hle
      refine hfirst ?_
      rw [List.take_drop] at hxl
      exact (List.take_sublist_take_left (by omega)).subset (List.mem_of_mem_drop hxl)
    have hstart : j / c.leaseLimit * c.leaseLimit = d := by
      have hdiv : j / c.leaseLimit = m := by
        rw [Nat.div_eq_iff c.leaseLimit_pos, Nat.mul_comm m]
        omega
      rw [hdiv, hm, Nat.mul_comm]
    refine ⟨?_, ?_⟩
    · rcases hlock with hm | hd0 | hl
      · exact .inl hm
      · right; omega
      · rw [hp.free] at hl; cases hl
    · rw [hgap, hstart, ← List.head?_drop, ← hd]
      exact hhead.symm

end Refuse

/-! ## Iterations and calls -/

section Calls

variable {env : Env κ π} {x : WorkItem κ π} (henv : env.RefusesOnly x)
  (hx : (q₀.queueOf kx.1 kx.2)[j]? = some x) (hfirst : x ∉ (q₀.queueOf kx.1 kx.2).take j)
  (hroute : (x.tp, x.key) = kx)

/-- What iterations keep: the trackers are not touched and nothing handed over is lost. -/
structure Kept (s s' : WorkManager κ π) : Prop where
  blocking : s'.blockingState = s.blockingState
  handed : ∀ z ∈ handedItems s.log, z ∈ handedItems s'.log

include henv hx hfirst hroute

/-- **One iteration.** It hands over a lease and goes on, or it stops: with every head handed over, or
at a refusal, which leaves the other queues first. -/
theorem scheduleStep_serves (h : Serving c keyOf q₀ kx j s)
    (b : Dict TopicPartition (Option OffsetRange)) :
    (∃ s', s.scheduleStep c env b [] = (.again, s', []) ∧ Serving c keyOf q₀ kx j s' ∧ Kept s s' ∧
      s'.queueTopology.totalSize < s.queueTopology.totalSize ∧
      (Ahead q₀ kx s → Ahead q₀ kx s')) ∨
    (∃ s', s.scheduleStep c env b [] = (.stop, s', []) ∧ Serving c keyOf q₀ kx j s' ∧ Kept s s' ∧
      (OthersHanded q₀ kx s' ∨ (Ahead q₀ kx s' ∧
        (Ahead q₀ kx s → OthersHanded q₀ kx s' ∨ OfferedFirst c b kx.1 (q₀.queueOf kx.1 kx.2) j)))) := by
  rcases scheduleStep_plain (c := c) h.ready env b [] with
    ⟨hguard, heq⟩ | ⟨r, hperm, hidle, heq⟩ | ⟨k, q, y, rest, hp, hq, hlimit, heq⟩
  · refine .inr ⟨s, heq, h, ⟨rfl, fun _ hz => hz⟩, .inl (h.handed_of_idle (.inl ?_))⟩
    rcases hguard with hfull | hreb
    · exact hfull
    · rw [h.rebalancing] at hreb; cases hreb
  · refine .inr ⟨_, heq, ?_, ⟨rfl, fun _ hz => hz⟩, .inl (h.handed_of_idle (.inr hidle))⟩
    exact ⟨⟨h.ready.circuit, indexed_rotate h.ready.indexed hperm⟩, h.rebalancing, h.queues, h.room,
      h.served, h.locked, h.waiting⟩
  · have hlease := h.lease hq
    by_cases hxl : x ∈ (y :: rest).take c.leaseLimit
    · -- the lease with the refused item is of its own queue
      have hk : k = kx := by
        have hmem : x ∈ s.queueTopology.queueOf k.1 k.2 := by
          rw [hq]; exact List.mem_of_mem_take hxl
        rw [← hroute]
        exact (Prod.ext (h.queues.route hmem).1 (h.queues.route hmem).2).symm
      subst hk
      have hy : (y.tp, y.key) = k := by
        have := h.queues.route (show y ∈ s.queueTopology.queueOf k.1 k.2 by rw [hq]; simp)
        exact Prod.ext this.1 this.2
      refine .inr ⟨putBack s q k (y :: rest), ?_, serving_putBack h hp hq, ⟨rfl, fun _ hz => hz⟩,
        .inr ⟨ahead_putBack h hp hq, fun ha => ?_⟩⟩
      · rw [heq, hlease]
        unfold submitLease
        dsimp only
        rw [henv.refused _ _ hxl, hy]
        rfl
      · exact offeredFirst_of_refused (s := s) h hp hq ha hfirst hxl
    · have hover := handedOver_handOver (c := c) hp
        (lease_isPrefix (c := c) hq rfl) (List.ne_nil_of_mem (mem_lease (c := c) hq rfl)) (by
          rw [← hlease]; exact List.length_take_le _ _)
      refine .inl ⟨handOver c s q k ((y :: rest).take c.leaseLimit), ?_,
        serving_handOver h hp hq rfl hover.2 hx hxl,
        ⟨(frame_handOver c s q k _).2, handedItems_handOver hover.2⟩, ?_,
        ahead_handOver h hp hq rfl hover.2 hx hxl⟩
      · rw [heq, hlease]
        unfold submitLease
        dsimp only
        rw [henv.accepted _ _ hxl]
        dsimp only
        rw [hover.1, if_neg (List.ne_nil_of_mem (mem_lease (c := c) hq rfl)), if_neg (by simp)]
        rfl
      · have hsize := hover.2.totalSize
        have hpos := List.length_pos_iff.mpr (List.ne_nil_of_mem (mem_lease (c := c) hq rfl))
        have hsize : (handOver c s q k ((y :: rest).take c.leaseLimit)).queueTopology.totalSize +
          ((y :: rest).take c.leaseLimit).length = s.queueTopology.totalSize := hsize
        omega

theorem scheduleLoop_serves (b : Dict TopicPartition (Option OffsetRange)) (fuel : Nat) :
    ∀ s : WorkManager κ π, Serving c keyOf q₀ kx j s → s.queueTopology.totalSize < fuel →
      ∃ s', s.scheduleLoop c env b fuel [] = (s', []) ∧ Serving c keyOf q₀ kx j s' ∧ Kept s s' ∧
        (OthersHanded q₀ kx s' ∨ (Ahead q₀ kx s' ∧
          (Ahead q₀ kx s → OfferedFirst c b kx.1 (q₀.queueOf kx.1 kx.2) j))) := by
  induction fuel with
  | zero => intro s _ hfuel; exact absurd hfuel (Nat.not_lt_zero _)
  | succ fuel ih =>
    intro s h hfuel
    rcases scheduleStep_serves henv hx hfirst hroute h b with
      ⟨s₁, heq, h₁, hkept, hless, hahead⟩ | ⟨s₁, heq, h₁, hkept, hend⟩
    · obtain ⟨s', hloop, h', hkept', hend⟩ := ih s₁ h₁ (by omega)
      refine ⟨s', ?_, h', ⟨hkept'.blocking.trans hkept.blocking,
        fun z hz => hkept'.handed z (hkept.handed z hz)⟩, ?_⟩
      · simp only [scheduleLoop, heq, hloop]
      · exact hend.imp_right fun he => ⟨he.1, fun ha => he.2 (hahead ha)⟩
    · refine ⟨s₁, by simp only [scheduleLoop, heq], h₁, hkept, ?_⟩
      rcases hend with hdone | ⟨hahead, hcause⟩
      · exact .inl hdone
      · by_cases hdone : OthersHanded q₀ kx s₁
        · exact .inl hdone
        · exact .inr ⟨hahead, fun ha => (hcause ha).resolve_left hdone⟩

/-- **One call.** It ends with every head handed over, or with the others first; if they were first
before, it has offered the lease of the refused item out of turn. -/
theorem schedule_serves (h : Serving c keyOf q₀ kx j s) :
    Serving c keyOf q₀ kx j (s.schedule c env) ∧
      Kept (s.cachedBlockingOffsets c).2 (s.schedule c env) ∧
      (OthersHanded q₀ kx (s.schedule c env) ∨ (Ahead q₀ kx (s.schedule c env) ∧
        (Ahead q₀ kx s →
          OfferedFirst c (s.cachedBlockingOffsets c).1 kx.1 (q₀.queueOf kx.1 kx.2) j))) := by
  have hview := view_cachedBlockingOffsets c s
  obtain ⟨heap, cache, counter, heq⟩ := cachedBlockingOffsets_eq c s
  have h₁ : Serving c keyOf q₀ kx j (s.cachedBlockingOffsets c).2 := by
    have hqueues := h.queues
    rw [← hview] at hqueues
    rw [heq] at hqueues ⊢
    exact ⟨h.ready.congr rfl rfl, h.rebalancing, hqueues, h.room, h.served, h.locked, h.waiting⟩
  have hahead : Ahead q₀ kx s → Ahead q₀ kx (s.cachedBlockingOffsets c).2 := by
    rw [heq]; exact fun ha => ha
  obtain ⟨s', hloop, h', hkept, hend⟩ := scheduleLoop_serves henv hx hfirst hroute
    (s.cachedBlockingOffsets c).1 (s.cachedBlockingOffsets c).2.scheduleFuel _ h₁ (by
      unfold scheduleFuel totalSize
      omega)
  have hschedule : s.schedule c env = s' := by
    unfold schedule
    dsimp only
    rw [hloop]
    dsimp only
    rw [List.perm_nil.mp (henv.order [])]
    rfl
  rw [hschedule]
  exact ⟨h', hkept, hend.imp_right fun he => ⟨he.1, fun ha => he.2 (hahead ha)⟩⟩

theorem handed_schedule (h : Serving c keyOf q₀ kx j s) (hdone : OthersHanded q₀ kx s) :
    OthersHanded q₀ kx (s.schedule c env) := by
  obtain ⟨-, hkept, -⟩ := schedule_serves henv hx hfirst hroute h
  have hlog : (s.cachedBlockingOffsets c).2.log = s.log :=
    congrArg WorkView.log (view_cachedBlockingOffsets c s)
  have hhanded := hkept.handed
  rw [hlog] at hhanded
  exact fun k hk => (hdone k hk).mono hhanded

theorem handed_scheduleCalls (n : Nat) :
    ∀ s : WorkManager κ π, Serving c keyOf q₀ kx j s → OthersHanded q₀ kx s →
      OthersHanded q₀ kx (scheduleCalls c env n s) := by
  induction n with
  | zero => intro s _ hdone; exact hdone
  | succ n ih =>
    intro s h hdone
    exact ih _ (schedule_serves henv hx hfirst hroute h).1
      (handed_schedule henv hx hfirst hroute h hdone)

/-- With the others first, one call in turn hands over their heads. -/
theorem handed_of_ahead (n : Nat) :
    ∀ (i : Nat) (s : WorkManager κ π), Serving c keyOf q₀ kx j s → Ahead q₀ kx s → i < n →
      ¬ OfferedFirst c (blockingUsed c i s) kx.1 (q₀.queueOf kx.1 kx.2) j →
      OthersHanded q₀ kx (scheduleCalls c env n s) := by
  induction n with
  | zero => intro i s _ _ hi; exact absurd hi (Nat.not_lt_zero _)
  | succ n ih =>
    intro i s h ha hi hturn
    obtain ⟨h', hkept, hend⟩ := schedule_serves henv hx hfirst hroute h
    rcases hend with hdone | ⟨ha', hcause⟩
    · exact handed_scheduleCalls henv hx hfirst hroute n _ h' hdone
    · cases i with
      | zero => exact absurd (hcause ha) hturn
      | succ i =>
        refine ih i _ h' ha' (by omega) ?_
        rw [blockingUsed_congr c i hkept.blocking]
        exact hturn

end Calls

end Step

/-- **A refused item.** Take a reachable state without poison circuit, in partition mode with one key
a partition, that is not rebalancing, holds no ordering lock and has room for every queued item, and
an engine that refuses exactly the submissions with the queued item `x`. If some call after the first
does not offer the lease of `x` out of turn, then after one call more than there are non-empty queues
the head of every queue but that of `x` has been handed over. -/
theorem heads_handed_unless_offeredFirst (c : WorkManagerConfig) (keyOf : TopicPartition → κ)
    {s : WorkManager κ π} (h : (workMachine κ π c).ReachableBy (PlainStep (RoutedBy c keyOf)) s)
    (hcircuit : s.poisonMessageCircuit = none) (hrebalancing : s.rebalancing = false)
    (hroom : (s.currentInFlightCount + s.totalQueuedMessages : Int) ≤ c.maxInFlightMessages)
    (hkeys : s.keysInFlight = []) (hpartitions : s.partitionsInFlight = []) {env : Env κ π}
    {x : WorkItem κ π} {kx : QueueKey κ} {before after : List (WorkItem κ π)}
    (hx : s.queueTopology.queueOf kx.1 kx.2 = before ++ x :: after) (henv : env.RefusesOnly x)
    (hturn : ∃ i, 1 ≤ i ∧ i ≤ s.queueTopology.nonEmptyQueues ∧
      ¬ OfferedFirst c (blockingUsed c i s) kx.1 (s.queueTopology.queueOf kx.1 kx.2) before.length) :
    ∀ k, k ≠ kx → ∀ y ∈ (s.queueTopology.queueOf k.1 k.2).head?,
      y ∈ handedItems (scheduleCalls c env (s.queueTopology.nonEmptyQueues + 1) s).log := by
  obtain ⟨hinv, hready⟩ := ready_reachable h hcircuit
  have hmem : x ∈ s.queueTopology.queueOf kx.1 kx.2 := by rw [hx]; simp
  have hroute : (x.tp, x.key) = kx := Prod.ext (hinv.queues.route hmem).1 (hinv.queues.route hmem).2
  have hat : (s.queueTopology.queueOf kx.1 kx.2)[before.length]? = some x := by rw [hx]; simp
  have hfirst : x ∉ (s.queueTopology.queueOf kx.1 kx.2).take before.length := by
    have hdistinct : ((s.queueTopology.queueOf kx.1 kx.2).map (·.id)).Nodup :=
      hinv.items.queue_distinct hinv.queues kx.1 kx.2
    rw [hx, List.map_append] at hdistinct
    rw [hx, List.take_left]
    exact fun hb => hdistinct.disjoint (List.mem_map_of_mem hb) (List.mem_map_of_mem (by simp))
  have hserving : Serving c keyOf s.queueTopology kx before.length s := by
    refine ⟨hready, hrebalancing, hinv.queues, ?_, fun _ => .inl rfl, fun k _ hk => ?_,
      0, Nat.dvd_zero _, Nat.zero_le _, rfl, .inr (.inl rfl)⟩
    · have htotal : s.totalQueuedMessages = s.queueTopology.totalSize := hinv.queues.total
      omega
    · -- without locks every queue is eligible
      unfold isQueueEligible at hk
      cases hm : c.orderingMode with
      | keyHash => rw [hm, hkeys] at hk; simp at hk
      | partition => rw [hm, hpartitions] at hk; simp at hk
      | unordered => rw [hm] at hk; cases hk
  obtain ⟨i, hi, hin, hturn⟩ := hturn
  obtain ⟨h', hkept, hend⟩ := schedule_serves henv hat hfirst hroute hserving
  suffices hall : OthersHanded s.queueTopology kx
      (scheduleCalls c env s.queueTopology.nonEmptyQueues (s.schedule c env)) from hall
  rcases hend with hdone | ⟨hahead, -⟩
  · exact handed_scheduleCalls henv hat hfirst hroute _ _ h' hdone
  · obtain ⟨i, rfl⟩ := Nat.exists_eq_add_of_le' hi
    refine handed_of_ahead henv hat hfirst hroute _ i _ h' hahead (by omega) ?_
    rw [blockingUsed_congr c i hkept.blocking]
    exact hturn

section Examples

/-- An engine that refuses what contains `x`. -/
def refusingEnv (x : WorkItem Nat Unit) : Env Nat Unit :=
  { submit := fun _ items => if x ∈ items then .error else .accepted
    clock := fun _ => 0
    setOrder := id }

theorem refusesOnly_refusingEnv (x : WorkItem Nat Unit) : (refusingEnv x).RefusesOnly x :=
  ⟨fun _ _ hx => if_pos hx, fun _ _ hx => if_neg hx, fun l => .refl l⟩

/-- Two keys of one partition with an item each, the first at the blocking offset. -/
def twoKeys : List (WorkAction Nat Unit) :=
  [.assign [(⟨"t", 0⟩, .offset 5)],
   .submit [((⟨"t", 0⟩, 1), [⟨5, 0, (), none⟩]), ((⟨"t", 0⟩, 2), [⟨6, 0, (), none⟩])]]

def keyHashConfig : WorkManagerConfig :=
  { orderingMode := .keyHash, routeBatchSize_pos := Nat.one_pos }

def twoKeysState : WorkManager Nat Unit := (workMachine Nat Unit keyHashConfig).run (.new none) twoKeys

def itemAt (n : Nat) : WorkItem Nat Unit :=
  { id := .uuid n, tp := ⟨"t", 0⟩, offset := 5 + n, epoch := 0, key := n + 1, payload := ()
    poisonKey := some (n + 1) }

theorem twoKeysState_reachable : (workMachine Nat Unit keyHashConfig).ReachableBy
    (PlainStep (RoutedBy keyHashConfig fun _ => 0)) twoKeysState := by
  refine (workMachine Nat Unit keyHashConfig).reachableBy_run _ (.start ⟨none, rfl⟩) ?_
  refine ⟨⟨by decide, by decide⟩, ⟨rfl, ?_⟩, trivial, ⟨rfl, ?_⟩, trivial⟩
  · intro groups heq; cases heq
  · intro groups _ g _ hm; cases hm

theorem heads_handed_unless_offeredFirst_secondRefused :
    ¬ OfferedFirst keyHashConfig (blockingUsed keyHashConfig 1 twoKeysState) ⟨"t", 0⟩
      (twoKeysState.queueTopology.queueOf ⟨"t", 0⟩ 2) 0 ∧
    itemAt 0 ∈ handedItems
      (scheduleCalls keyHashConfig (refusingEnv (itemAt 1)) 3 twoKeysState).log := by
  have hturn : ¬ OfferedFirst keyHashConfig (blockingUsed keyHashConfig 1 twoKeysState) ⟨"t", 0⟩
      (twoKeysState.queueTopology.queueOf ⟨"t", 0⟩ 2) 0 := by decide
  refine ⟨hturn, ?_⟩
  exact @heads_handed_unless_offeredFirst Nat Unit _ keyHashConfig (fun _ => 0) twoKeysState
    twoKeysState_reachable rfl rfl (by decide) rfl rfl (refusingEnv (itemAt 1)) (itemAt 1)
    (⟨"t", 0⟩, 2) [] [] (by decide) (refusesOnly_refusingEnv (itemAt 1))
    ⟨1, by decide, by decide, hturn⟩ (⟨"t", 0⟩, 1) (by decide) (itemAt 0) (by decide)

/-- The first item blocks its partition. Every call offers it first, is refused and returns, and the
second item is never handed over. -/
theorem refused_head_starves :
    (workMachine Nat Unit keyHashConfig).ReachableBy
      (PlainStep (RoutedBy keyHashConfig fun _ => 0)) twoKeysState ∧
    twoKeysState.poisonMessageCircuit = none ∧ twoKeysState.rebalancing = false ∧
    (twoKeysState.currentInFlightCount + twoKeysState.totalQueuedMessages : Int) ≤
      keyHashConfig.maxInFlightMessages ∧
    twoKeysState.keysInFlight = [] ∧ twoKeysState.partitionsInFlight = [] ∧
    itemAt 0 ∈ twoKeysState.queueTopology.queueOf ⟨"t", 0⟩ 1 ∧
    (refusingEnv (itemAt 0)).RefusesOnly (itemAt 0) ∧
    twoKeysState.queueTopology.nonEmptyQueues = 2 ∧
    (twoKeysState.queueTopology.queueOf ⟨"t", 0⟩ 2).head? = some (itemAt 1) ∧
    itemAt 1 ∉ handedItems
      (scheduleCalls keyHashConfig (refusingEnv (itemAt 0)) (2 + 1) twoKeysState).log :=
  ⟨twoKeysState_reachable, rfl, rfl, by decide, rfl, rfl, by decide,
    refusesOnly_refusingEnv (itemAt 0), by decide, by decide, by decide⟩

end Examples

end WorkManager

end PyrallelConsumer
