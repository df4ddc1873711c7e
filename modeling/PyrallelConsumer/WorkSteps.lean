import PyrallelConsumer.WorkLocks

/-!
# PyrallelConsumer.WorkSteps

What each operation of the work manager can do to the observed state, stated once. Every invariant
is derived from these relations and not from the code.

* `scheduleStep_cases`, `schedule_induction` — an iteration of the scheduling loop is invisible,
  forces the failure of the head of a queue, or hands the head of a free queue to the engine.
* `processCompletionEvent_cases` — processing an event releases the ledger item with its id or only
  drops a dispatch timestamp.
-/

set_option linter.unusedSectionVars false

namespace PyrallelConsumer

variable {κ π : Type} [DecidableEq κ]

def WorkView.withQueue (v : WorkView κ π) (k : QueueKey κ) (l : List (WorkItem κ π)) :
    TopicPartition → κ → List (WorkItem κ π) :=
  fun tp key => if k.1 = tp ∧ k.2 = key then l else v.queueOf tp key

/-- The poison circuit takes the head `x` of queue `k` and queues its failure. -/
structure PoisonedHead (v : WorkView κ π) (k : QueueKey κ) (x : WorkItem κ π) (v' : WorkView κ π) :
    Prop where
  queue : ∃ rest, v.queueOf k.1 k.2 = x :: rest ∧ v'.queueOf = v.withQueue k rest
  completionQueue : ∃ e : CompletionEvent, e.id = x.id ∧ e.tp = x.tp ∧
    v'.completionQueue = v.completionQueue ++ [e]
  log : v'.log = .poisoned x :: v.log
  totalSize : v'.totalSize + 1 = v.totalSize
  totalQueued : v'.totalQueued = v.totalQueued - 1
  timestamps : v'.timestamps = v.timestamps
  ledger : v'.ledger = v.ledger
  count : v'.count = v.count
  keys : v'.keys = v.keys
  keyCounts : v'.keyCounts = v.keyCounts
  partitions : v'.partitions = v.partitions
  partitionCounts : v'.partitionCounts = v.partitionCounts
  assigned : v'.assigned = v.assigned
  epochOf : v'.epochOf = v.epochOf
  nextUuid : v'.nextUuid = v.nextUuid

/-- A lease off the front of the free queue `k` goes to the engine. -/
structure HandedOver (c : WorkManagerConfig) (v : WorkView κ π) (k : QueueKey κ)
    (lease : List (WorkItem κ π)) (v' : WorkView κ π) : Prop where
  ne_nil : lease ≠ []
  isPrefix : lease <+: v.queueOf k.1 k.2
  free : v.Free c k
  single : c.orderingMode = .partition ∨
    (c.orderingMode = .keyHash ∧ c.supportsOrderedRouteBatch = false) → lease.length ≤ 1
  capacity : (v'.count : Int) ≤ c.maxInFlightMessages
  queueOf : v'.queueOf = v.withQueue k ((v.queueOf k.1 k.2).drop lease.length)
  log : v'.log = .handed lease :: v.log
  totalSize : v'.totalSize + lease.length = v.totalSize
  totalQueued : v'.totalQueued = v.totalQueued - lease.length
  timestamps : ∀ id, id ∈ v'.timestamps ↔ id ∈ v.timestamps ∨ ∃ x ∈ lease, x.id = id
  count : v'.count = v.count + lease.length
  locks : ∀ held, Locks c v held → Locks c v' (lease ++ held)
  ledger : v'.ledger = v.ledger
  assigned : v'.assigned = v.assigned
  epochOf : v'.epochOf = v.epochOf
  completionQueue : v'.completionQueue = v.completionQueue
  nextUuid : v'.nextUuid = v.nextUuid

/-- The ledger item `x` leaves the ledger; if it was dispatched, it gives back its lock and its place
in the in-flight count. -/
structure LedgerRelease (c : WorkManagerConfig) (v : WorkView κ π) (id : WorkId) (x : WorkItem κ π)
    (v' : WorkView κ π) : Prop where
  found : v.ledger.get? id = some x
  ledger : v'.ledger = v.ledger.erase id
  timestamps : ∀ id', id' ∈ v'.timestamps ↔ id' ∈ v.timestamps ∧ id' ≠ id
  count : v'.count = if id ∈ v.timestamps then v.count - 1 else v.count
  locks_dispatched : id ∈ v.timestamps → ∀ held, Locks c v held → (held.map (·.id)).Nodup →
    x ∈ held → Locks c v' (held.filter fun y => y.id ≠ id)
  locks_waiting : id ∉ v.timestamps → ∀ held, Locks c v held → Locks c v' held

/-- The part of the observed state outside history, ledger, timestamps, count and locks is the
same. -/
structure SameWork (v v' : WorkView κ π) : Prop where
  queueOf : v'.queueOf = v.queueOf
  assigned : v'.assigned = v.assigned
  totalSize : v'.totalSize = v.totalSize
  totalQueued : v'.totalQueued = v.totalQueued
  epochOf : v'.epochOf = v.epochOf
  completionQueue : v'.completionQueue = v.completionQueue
  nextUuid : v'.nextUuid = v.nextUuid

theorem SameWork.trans {v v' v'' : WorkView κ π} (h : SameWork v v') (h' : SameWork v' v'') :
    SameWork v v'' :=
  ⟨h'.queueOf.trans h.queueOf, h'.assigned.trans h.assigned, h'.totalSize.trans h.totalSize,
   h'.totalQueued.trans h.totalQueued, h'.epochOf.trans h.epochOf,
   h'.completionQueue.trans h.completionQueue, h'.nextUuid.trans h.nextUuid⟩

/-- The ledger item `x` is released by an event with its id. -/
structure CompletedItem (c : WorkManagerConfig) (v : WorkView κ π) (e : CompletionEvent)
    (x : WorkItem κ π) (v' : WorkView κ π) : Prop extends
    LedgerRelease c v e.id x v', SameWork v v' where
  log : v'.log = .processed e :: v.log

/-- The event only drops the dispatch timestamp of its id. -/
structure IgnoredEvent (v : WorkView κ π) (e : CompletionEvent) (v' : WorkView κ π) : Prop extends
    SameWork v v' where
  log : v'.log = .processed e :: v.log
  ledger : v'.ledger = v.ledger
  timestamps : ∀ id, id ∈ v'.timestamps ↔ id ∈ v.timestamps ∧ id ≠ e.id
  count : v'.count = v.count
  keys : v'.keys = v.keys
  keyCounts : v'.keyCounts = v.keyCounts
  partitions : v'.partitions = v.partitions
  partitionCounts : v'.partitionCounts = v.partitionCounts

/-- An event releases the ledger item with its id when its partition has a tracker and either its
epoch is the tracker's or its partition is the item's. -/
def WorkView.Releases (v : WorkView κ π) (e : CompletionEvent) (x : WorkItem κ π) : Prop :=
  ∃ epoch, v.epochOf e.tp = some epoch ∧ (epoch = some e.epoch ∨ x.tp = e.tp)

namespace WorkManager

/-! ## Scheduling -/

theorem free_of_isQueueEligible {c : WorkManagerConfig} {s : WorkManager κ π} {k : QueueKey κ}
    (h : s.isQueueEligible c k = true) : s.view.Free c k := by
  unfold isQueueEligible at h
  unfold WorkView.Free
  cases hm : c.orderingMode with
  | keyHash => rw [hm] at h; exact of_decide_eq_true h
  | partition => rw [hm] at h; exact of_decide_eq_true h
  | unordered => trivial

theorem pickQueueKey_free {c : WorkManagerConfig} {s s' : WorkManager κ π}
    {b : Dict TopicPartition (Option OffsetRange)} {k : QueueKey κ}
    (h : s.pickQueueKey c b = (some k, s')) : s.view.Free c k := by
  refine free_of_isQueueEligible ?_
  unfold pickQueueKey at h
  split at h
  · rename_i k' topology hk
    cases h
    exact WorkQueueTopology.pickBlocking_eligible hk
  · rename_i topology hk
    refine WorkQueueTopology.pickNext_eligible _ topology.runnableQueueKeys.length topology k ?_
    simp only [Prod.mk.injEq] at h
    exact h.1

theorem length_le_of_routeBatchLimit {c : WorkManagerConfig} {s : WorkManager κ π}
    {lease : List (WorkItem κ π)} (h : lease.length ≤ s.resolveRouteBatchLimit c) (hne : lease ≠ []) :
    (c.orderingMode = .partition ∨
      (c.orderingMode = .keyHash ∧ c.supportsOrderedRouteBatch = false) → lease.length ≤ 1) ∧
    ((s.currentInFlightCount + lease.length : Nat) : Int) ≤ c.maxInFlightMessages := by
  have hpos : 0 < lease.length := List.length_pos_iff.mpr hne
  unfold resolveRouteBatchLimit at h
  dsimp only at h
  split at h
  · omega
  · cases hm : c.orderingMode with
    | partition => rw [hm] at h; simp only at h; refine ⟨fun _ => h, ?_⟩; push_cast; omega
    | keyHash =>
      rw [hm] at h
      simp only at h
      cases hs : c.supportsOrderedRouteBatch with
      | true => rw [hs] at h; simp only [if_true] at h; refine ⟨by simp, ?_⟩; push_cast; omega
      | false =>
        rw [hs] at h
        simp only [Bool.false_eq_true, if_false] at h
        refine ⟨fun _ => h, ?_⟩
        push_cast
        omega
    | unordered => rw [hm] at h; simp only at h; refine ⟨by simp, ?_⟩; push_cast; omega

/-- Accepting a prefix of a queue hands it over. -/
theorem handedOver_acceptItems {c : WorkManagerConfig} {s : WorkManager κ π} {k : QueueKey κ}
    {lease : List (WorkItem κ π)} (hne : lease ≠ [])
    (hlead : lease <+: s.queueTopology.queueOf k.1 k.2) (hfree : s.view.Free c k)
    (hlimit : lease.length ≤ s.resolveRouteBatchLimit c) :
    (acceptItems c (s.record (.handed lease)) k lease.length).1 = lease ∧
    HandedOver c s.view k lease (acceptItems c (s.record (.handed lease)) k lease.length).2.view := by
  have hd := WorkQueueTopology.dequeueSubmittedItems_spec s.queueTopology k.1 k.2 lease.length
  have hitems : (s.queueTopology.dequeueSubmittedItems k.1 k.2 lease.length).1 = lease := by
    rw [hd.items_eq]; exact (List.prefix_iff_eq_take.mp hlead).symm
  rw [hitems] at hd
  have heq : acceptItems c (s.record (.handed lease)) k lease.length =
      (lease, recordSubmittedItems c
        { s.record (.handed lease) with
          queueTopology := (s.queueTopology.dequeueSubmittedItems k.1 k.2 lease.length).2 } lease) := by
    unfold acceptItems
    simp only [record, hitems]
  rw [heq]
  have hr := recordSubmittedItems_spec c lease
    { s.record (.handed lease) with
      queueTopology := (s.queueTopology.dequeueSubmittedItems k.1 k.2 lease.length).2 }
  have hbound := length_le_of_routeBatchLimit hlimit hne
  refine ⟨rfl, ?_⟩
  exact
    { ne_nil := hne
      isPrefix := hlead
      free := hfree
      single := hbound.1
      capacity := by
        have := hr.count
        simp only [view]
        rw [this]
        exact hbound.2
      queueOf := by
        funext tp key
        simp only [view, hr.queueTopology, hd.queueOf_eq]
        rfl
      log := hr.log
      totalSize := by simp only [view, hr.queueTopology]; exact hd.totalSize_eq
      totalQueued := hr.totalQueued
      timestamps := hr.timestamps
      count := hr.count
      locks := fun held h => hr.locks held (h.congr rfl rfl rfl rfl fun _ => rfl)
      ledger := hr.ledger
      assigned := by simp only [view, hr.queueTopology]; exact hd.assigned_eq
      epochOf := hr.epochOf
      completionQueue := hr.completionQueue
      nextUuid := hr.nextUuid }

/-- One engine call: nothing visible, or a lease handed over. -/
theorem submitLease_cases {c : WorkManagerConfig} {env : Env κ π} (henv : env.AcceptsPrefix)
    {s : WorkManager κ π} (d : List (QueueKey κ)) {k : QueueKey κ} (queue : List (WorkItem κ π))
    (head : WorkItem κ π) {lease : List (WorkItem κ π)} (truncated : Bool) (hne : lease ≠ [])
    (hlead : lease <+: s.queueTopology.queueOf k.1 k.2) (hfree : s.view.Free c k)
    (hlimit : lease.length ≤ s.resolveRouteBatchLimit c) :
    (s.submitLease c env d k queue head lease truncated).2.1.view = s.view ∨
    ∃ lease', HandedOver c s.view k lease'
      (s.submitLease c env d k queue head lease truncated).2.1.view := by
  unfold submitLease
  dsimp only
  split
  · obtain ⟨hitems, hover⟩ := handedOver_acceptItems (c := c)
      (s := { s with engineCalls := s.engineCalls + 1 }) hne hlead hfree hlimit
    refine .inr ⟨lease, ?_⟩
    rw [hitems, if_neg hne]
    split
    · rw [view_deactivate]; exact hover
    · exact hover
  · rename_i n hn
    split
    · rename_i hpos
      have hlen : (lease.take n).length = n :=
        List.length_take_of_le (henv _ _ _ hn)
      have htake : lease.take n ≠ [] := by
        rw [← List.length_pos_iff, hlen]; exact hpos
      have hover := (handedOver_acceptItems (c := c)
        (s := { s with engineCalls := s.engineCalls + 1 }) htake
        ((List.take_prefix n lease).trans hlead) hfree
        (by rw [hlen]; exact le_trans (henv _ _ _ hn) hlimit)).2
      rw [hlen] at hover
      exact .inr ⟨lease.take n, hover⟩
    · exact .inl (view_refreshHead _ _ _)
  · exact .inl (view_refreshHead _ _ _)

/-- Taking one item off a queue, with its failure queued, is a forced failure of the head. -/
theorem poisonedHead_of_dequeued {s : WorkManager κ π} {k : QueueKey κ} {y : WorkItem κ π}
    {q : WorkQueueTopology κ π} (hd : WorkQueueTopology.Dequeued s.queueTopology k.1 k.2 1 [y] q)
    {e : CompletionEvent} (hid : e.id = y.id) (htp : e.tp = y.tp) :
    PoisonedHead s.view k y
      ({ s with
        queueTopology := q
        totalQueuedMessages := s.totalQueuedMessages - 1
        completionQueue := s.completionQueue ++ [e] }.record (.poisoned y)).view := by
  obtain ⟨rest, hrest⟩ : ∃ rest, s.queueTopology.queueOf k.1 k.2 = y :: rest := by
    have h := hd.items_eq
    cases hq : s.queueTopology.queueOf k.1 k.2 with
    | nil => rw [hq] at h; cases h
    | cons z rest => rw [hq] at h; cases h; exact ⟨rest, rfl⟩
  exact
    { queue := ⟨rest, hrest, by
        funext tp key
        simp only [view, record, hd.queueOf_eq, hrest]
        rfl⟩
      completionQueue := ⟨e, hid, htp, rfl⟩
      log := rfl
      totalSize := hd.totalSize_eq
      totalQueued := rfl
      timestamps := rfl
      ledger := rfl
      count := rfl
      keys := rfl
      keyCounts := rfl
      partitions := rfl
      partitionCounts := rfl
      assigned := hd.assigned_eq
      epochOf := rfl
      nextUuid := rfl }

/-- Forcing the failure of the head of a queue, or not. -/
theorem forceFailQueuedItem_cases (env : Env κ π) (s : WorkManager κ π) (x : WorkItem κ π)
    (k : QueueKey κ) :
    ((s.forceFailQueuedItem env x k).1 = false ∧ (s.forceFailQueuedItem env x k).2.view = s.view) ∨
    ((s.forceFailQueuedItem env x k).1 = true ∧
      ∃ y, PoisonedHead s.view k y (s.forceFailQueuedItem env x k).2.view) := by
  have hv := view_shouldForceFail env s x
  unfold forceFailQueuedItem
  dsimp only
  split
  · exact .inl ⟨rfl, hv⟩
  · rename_i circuit hc
    split
    · exact .inl ⟨rfl, hv⟩
    · have hd := WorkQueueTopology.dequeueSubmittedItem_spec
        (s.shouldForceFail env x).2.queueTopology k.1 k.2
      split
      · rename_i hnone
        refine .inl ⟨rfl, ?_⟩
        rw [hnone] at hd
        exact (view_of_dequeued_nil hd).trans hv
      · rename_i y hy
        rw [hy] at hd
        refine .inr ⟨rfl, y, ?_⟩
        rw [← hv]
        exact poisonedHead_of_dequeued hd rfl rfl

theorem resolveRouteBatchLimit_congr {c : WorkManagerConfig} {s t : WorkManager κ π}
    (h : t.view = s.view) : t.resolveRouteBatchLimit c = s.resolveRouteBatchLimit c := by
  have hc : t.currentInFlightCount = s.currentInFlightCount := congrArg WorkView.count h
  unfold resolveRouteBatchLimit
  rw [hc]

theorem serveQueue_cases {c : WorkManagerConfig} {env : Env κ π} (henv : env.AcceptsPrefix)
    (s : WorkManager κ π) (d : List (QueueKey κ)) (k : QueueKey κ) (head : WorkItem κ π)
    (rest : List (WorkItem κ π)) (hq : s.queueTopology.getQueue k.1 k.2 = some (head :: rest))
    (hfree : s.view.Free c k) :
    (s.serveQueue c env d k head rest).2.1.view = s.view ∨
    (∃ x, PoisonedHead s.view k x (s.serveQueue c env d k head rest).2.1.view) ∨
    (∃ lease, HandedOver c s.view k lease (s.serveQueue c env d k head rest).2.1.view) := by
  have hqueue : s.view.queueOf k.1 k.2 = head :: rest :=
    WorkQueueTopology.queueOf_eq_of_getQueue hq
  have hforce := forceFailQueuedItem_cases env s head k
  unfold serveQueue
  dsimp only
  split
  · exact .inl rfl
  · split
    · rename_i s2 h2
      rw [h2] at hforce
      rcases hforce with ⟨hb, -⟩ | ⟨-, y, hy⟩
      · cases hb
      · exact .inr (.inl ⟨y, hy⟩)
    · rename_i s2 h2
      rw [h2] at hforce
      rcases hforce with ⟨-, hv2⟩ | ⟨hb, -⟩
      · obtain ⟨hpre, hv3⟩ := truncateBatchBeforeForceFail_spec env
          ((head :: rest).take (s.resolveRouteBatchLimit c)) s2
        split
        · rename_i s3 h3
          rw [h3] at hv3
          exact .inl (hv3.trans hv2)
        · rename_i x lease s3 h3
          rw [h3] at hv3 hpre
          have hv : s3.view = s.view := hv3.trans hv2
          have hlead : x :: lease <+: s3.view.queueOf k.1 k.2 := by
            rw [hv, hqueue]
            exact hpre.trans (List.take_prefix _ _)
          have hlimit : (x :: lease).length ≤ s3.resolveRouteBatchLimit c := by
            rw [resolveRouteBatchLimit_congr hv]
            exact le_trans hpre.length_le (List.length_take_le _ _)
          rcases submitLease_cases henv d (head :: rest) head _ (List.cons_ne_nil x lease) hlead
            (hv ▸ hfree) hlimit with h | ⟨lease', h⟩
          · exact .inl (h.trans hv)
          · exact .inr (.inr ⟨lease', hv ▸ h⟩)
      · cases hb

/-- **One iteration of the scheduling loop.** It changes nothing visible, forces the failure of the
head of a queue, or hands a lease off the front of a free queue to the engine. -/
theorem scheduleStep_cases {c : WorkManagerConfig} {env : Env κ π} (henv : env.AcceptsPrefix)
    (b : Dict TopicPartition (Option OffsetRange)) (s : WorkManager κ π) (d : List (QueueKey κ)) :
    (s.scheduleStep c env b d).2.1.view = s.view ∨
    (∃ k x, PoisonedHead s.view k x (s.scheduleStep c env b d).2.1.view) ∨
    (∃ k lease, HandedOver c s.view k lease (s.scheduleStep c env b d).2.1.view) := by
  have hpick := view_pickQueueKey c s b
  unfold scheduleStep
  split
  · exact .inl rfl
  · split
    · exact .inl rfl
    · split
      · rename_i s1 h1
        rw [h1] at hpick
        exact .inl hpick
      · rename_i k s1 h1
        have hfree := pickQueueKey_free h1
        rw [h1] at hpick
        split
        · exact .inl ((view_deactivate s1 k).trans hpick)
        · exact .inl ((view_deactivate s1 k).trans hpick)
        · rename_i head rest hq
          rcases serveQueue_cases henv s1 d k head rest hq (hpick ▸ hfree) with h | ⟨x, h⟩ | ⟨l, h⟩
          · exact .inl (h.trans hpick)
          · exact .inr (.inl ⟨k, x, hpick ▸ h⟩)
          · exact .inr (.inr ⟨k, l, hpick ▸ h⟩)

section Induction

variable {c : WorkManagerConfig} {env : Env κ π} {P : WorkView κ π → Prop}
  (hpoison : ∀ v v' k x, P v → PoisonedHead v k x v' → P v')
  (hhand : ∀ v v' k lease, P v → HandedOver c v k lease v' → P v')

include hpoison hhand

theorem scheduleLoop_induction (henv : env.AcceptsPrefix)
    (b : Dict TopicPartition (Option OffsetRange)) (fuel : Nat) :
    ∀ (s : WorkManager κ π) (d : List (QueueKey κ)), P s.view →
      P (s.scheduleLoop c env b fuel d).1.view := by
  induction fuel with
  | zero => intro s d h; exact h
  | succ fuel ih =>
    intro s d h
    have hstep : P (s.scheduleStep c env b d).2.1.view := by
      rcases scheduleStep_cases henv b s d with he | ⟨k, x, hp⟩ | ⟨k, lease, hh⟩
      · exact he ▸ h
      · exact hpoison _ _ k x h hp
      · exact hhand _ _ k lease h hh
    simp only [scheduleLoop]
    split
    · rename_i s' d' heq; rw [heq] at hstep; exact hstep
    · rename_i s' d' heq; rw [heq] at hstep; exact ih s' d' hstep

/-- What forced failures and leases preserve, a call of `schedule` preserves. -/
theorem schedule_induction (henv : env.AcceptsPrefix) {s : WorkManager κ π} (h : P s.view) :
    P (s.schedule c env).view := by
  have hreact : ∀ (l : List (QueueKey κ)) (t : WorkManager κ π),
      (l.foldl reactivate t).view = t.view := by
    intro l
    induction l with
    | nil => intro t; rfl
    | cons k l ih => intro t; rw [List.foldl_cons, ih, view_reactivate]
  unfold schedule
  dsimp only
  rw [hreact]
  refine scheduleLoop_induction hpoison hhand henv _ _ _ _ ?_
  rw [view_cachedBlockingOffsets]
  exact h

end Induction

/-! ## Completion -/

theorem completedItem_of_released {c : WorkManagerConfig} {s t t' : WorkManager κ π}
    {e : CompletionEvent} {x : WorkItem κ π} (hx : x.id = e.id)
    (hfound : s.inFlightWorkItems.get? e.id = some x)
    (ht : t.view = { s.view with log := .processed e :: s.view.log }) (h : Released c t x t') :
    CompletedItem c s.view e x (t'.popDispatchTimestamp e.id).view := by
  have hts : t.dispatchTimestamps = s.view.timestamps := congrArg WorkView.timestamps ht
  have hlocks : ∀ held, Locks c s.view held → Locks c t.view held := fun held hl => by
    rw [ht]; exact hl.congr rfl rfl rfl rfl fun _ => rfl
  have hd := h.locks_dispatched
  have hw := h.locks_waiting
  rw [hx, hts] at hd hw
  exact
    { found := hfound
      log := h.log.trans (congrArg WorkView.log ht)
      ledger := by
        have : t.inFlightWorkItems = s.view.ledger := congrArg WorkView.ledger ht
        exact h.ledger.trans (by rw [this, hx])
      timestamps := fun id => by
        simp only [view, popDispatchTimestamp, mem_discardKey, h.timestamps, hts, hx, and_assoc,
          and_self]
      count := by
        have hc : t.currentInFlightCount = s.view.count := congrArg WorkView.count ht
        have := h.count
        rw [hc, hts, hx] at this
        exact this
      locks_dispatched := fun hdisp held hl hn hmem =>
        (hd hdisp held (hlocks held hl) hn hmem).congr rfl rfl rfl rfl fun _ => rfl
      locks_waiting := fun hwait held hl =>
        (hw hwait held (hlocks held hl)).congr rfl rfl rfl rfl fun _ => rfl
      queueOf := h.queueOf.trans (congrArg WorkView.queueOf ht)
      assigned := h.assigned.trans (congrArg WorkView.assigned ht)
      totalSize := h.totalSize.trans (congrArg WorkView.totalSize ht)
      totalQueued := h.totalQueued.trans (congrArg WorkView.totalQueued ht)
      epochOf := h.epochOf.trans (congrArg WorkView.epochOf ht)
      completionQueue := h.completionQueue.trans (congrArg WorkView.completionQueue ht)
      nextUuid := h.nextUuid.trans (congrArg WorkView.nextUuid ht) }

theorem ignoredEvent_pop {s t : WorkManager κ π} {e : CompletionEvent}
    (ht : t.view = { s.view with log := .processed e :: s.view.log }) :
    IgnoredEvent s.view e (t.popDispatchTimestamp e.id).view :=
  { log := (congrArg WorkView.log ht :)
    ledger := (congrArg WorkView.ledger ht :)
    timestamps := fun id => by
      have : t.dispatchTimestamps = s.view.timestamps := congrArg WorkView.timestamps ht
      simp only [view, popDispatchTimestamp, mem_discardKey, this]
    count := (congrArg WorkView.count ht :)
    keys := (congrArg WorkView.keys ht :)
    keyCounts := (congrArg WorkView.keyCounts ht :)
    partitions := (congrArg WorkView.partitions ht :)
    partitionCounts := (congrArg WorkView.partitionCounts ht :)
    queueOf := (congrArg WorkView.queueOf ht :)
    assigned := (congrArg WorkView.assigned ht :)
    totalSize := (congrArg WorkView.totalSize ht :)
    totalQueued := (congrArg WorkView.totalQueued ht :)
    epochOf := (congrArg WorkView.epochOf ht :)
    completionQueue := (congrArg WorkView.completionQueue ht :)
    nextUuid := (congrArg WorkView.nextUuid ht :) }

/-- **Processing one event.** It releases the ledger item with its id, or it only drops a dispatch
timestamp; which of the two is decided by `Releases`. -/
theorem processCompletionEvent_cases (c : WorkManagerConfig) (env : Env κ π) (s : WorkManager κ π)
    (hid : ∀ id x, s.view.ledger.get? id = some x → x.id = id) (e : CompletionEvent) :
    (∃ x, s.view.Releases e x ∧ CompletedItem c s.view e x (s.processCompletionEvent c env e).2.view) ∨
    (IgnoredEvent s.view e (s.processCompletionEvent c env e).2.view ∧
      ∀ x, s.view.ledger.get? e.id = some x → ¬ s.view.Releases e x) := by
  have hlog : (s.record (.processed e)).view = { s.view with log := .processed e :: s.view.log } := rfl
  have htr : (s.record (.processed e)).offsetTrackers.get? e.tp = s.offsetTrackers.get? e.tp := rfl
  unfold processCompletionEvent
  dsimp only
  split
  · -- the partition is not managed
    rename_i hnone
    rw [htr] at hnone
    have hep : s.view.epochOf e.tp = none := by
      simp only [view, epochOf, hnone, Option.map_none]
    refine .inr ⟨ignoredEvent_pop hlog, ?_⟩
    rintro x - ⟨epoch, he, -⟩
    rw [hep] at he
    cases he
  · rename_i r hsome
    rw [htr] at hsome
    have hep : s.view.epochOf e.tp = some ((s.trackerAt r).map (·.epoch)) := by
      simp only [view, epochOf, hsome, Option.map_some]
    split
    · -- the epoch is not the tracker's
      rename_i hne
      split
      · rename_i item hitem
        split
        · rename_i htp
          refine .inl ⟨item, ⟨_, hep, .inr htp⟩, ?_⟩
          exact completedItem_of_released (hid _ _ hitem) hitem hlog
            (releaseInFlightItem_spec c _ (hid _ _ hitem) hitem true)
        · rename_i htp
          refine .inr ⟨ignoredEvent_pop hlog, ?_⟩
          rintro x hx ⟨epoch, he, hor⟩
          rw [hep] at he
          cases he
          have hxi : x = item := by
            have : some x = some item := hx.symm.trans hitem
            exact Option.some.inj this
          rcases hor with h | h
          · exact hne h
          · exact htp (hxi ▸ h)
      · rename_i hitem
        refine .inr ⟨ignoredEvent_pop hlog, ?_⟩
        intro x hx
        exact absurd (hx.symm.trans hitem) (by simp)
    · -- the epoch is the tracker's: a tracker that is not shared is marked first
      rename_i heq
      have heq : (s.trackerAt r).map (·.epoch) = some e.epoch := not_not.mp heq
      have hmark : (if e.tp ∈ (s.record (.processed e)).sharedOffsetTrackers then
          s.record (.processed e)
          else ((s.record (.processed e)).modifyTracker r
            (·.markComplete e.offset)).invalidateBlockingCache).view =
            { s.view with log := .processed e :: s.view.log } := by
        split
        · rfl
        · exact view_modifyTracker (s.record (.processed e)) r fun t => t.markComplete_epoch e.offset
      generalize hs1 : (if e.tp ∈ (s.record (.processed e)).sharedOffsetTrackers then
          s.record (.processed e)
          else ((s.record (.processed e)).modifyTracker r
            (·.markComplete e.offset)).invalidateBlockingCache) = s1 at hmark ⊢
      have hledger : s1.inFlightWorkItems = s.view.ledger := congrArg WorkView.ledger hmark
      split
      · rename_i hnone
        refine .inr ⟨ignoredEvent_pop hmark, ?_⟩
        intro x hx
        rw [hledger] at hnone
        exact absurd (hx.symm.trans hnone) (by simp)
      · rename_i item hitem
        rw [hledger] at hitem
        refine .inl ⟨item, ⟨_, hep, .inl heq⟩, ?_⟩
        have hv := view_recordCompletion env s1 e item
        have hitem' : (s1.recordCompletion env e item).inFlightWorkItems.get? e.id = some item := by
          have : (s1.recordCompletion env e item).inFlightWorkItems = s.view.ledger :=
            (congrArg WorkView.ledger hv).trans hledger
          rw [this]; exact hitem
        exact completedItem_of_released (hid _ _ hitem) hitem (hv.trans hmark)
          (releaseInFlightItem_spec c _ (hid _ _ hitem) hitem' false)

end WorkManager

end PyrallelConsumer
