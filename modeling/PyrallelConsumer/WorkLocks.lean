import PyrallelConsumer.WorkView

/-!
# PyrallelConsumer.WorkLocks

The ordering locks of the work manager as counts of holders. `Locks c v held` says that the counters
and sets of `v` are those of the items `held`: by key in key-hash mode, by partition in partition
mode, and empty for the other notion.

* `Recorded` — the effect of recording items that the engine accepted.
* `Released` — the effect of releasing one item of the ledger.
* `locks_dropRevokedLocks` — revocation drops the locks of the revoked partitions.
-/

set_option linter.unusedSectionVars false

namespace PyrallelConsumer

variable {κ π : Type} [DecidableEq κ]

def keyHolders (c : WorkManagerConfig) (held : List (WorkItem κ π)) (k : QueueKey κ) : Nat :=
  if c.orderingMode = .keyHash then held.countP fun x => (x.tp, x.key) = k else 0

def partitionHolders (c : WorkManagerConfig) (held : List (WorkItem κ π)) (tp : TopicPartition) : Nat :=
  if c.orderingMode = .partition then held.countP fun x => x.tp = tp else 0

structure Locks (c : WorkManagerConfig) (v : WorkView κ π) (held : List (WorkItem κ π)) : Prop where
  keys : Counted v.keyCounts v.keys (keyHolders c held)
  partitions : Counted v.partitionCounts v.partitions (partitionHolders c held)

/-- The queue key is not locked. -/
def WorkView.Free (c : WorkManagerConfig) (v : WorkView κ π) (k : QueueKey κ) : Prop :=
  match c.orderingMode with
  | .keyHash => k ∉ v.keys
  | .partition => k.1 ∉ v.partitions
  | .unordered => True

/-- Two items that the ordering mode keeps apart. -/
def SameRoute (c : WorkManagerConfig) (x y : WorkItem κ π) : Prop :=
  match c.orderingMode with
  | .keyHash => x.tp = y.tp ∧ x.key = y.key
  | .partition => x.tp = y.tp
  | .unordered => False

theorem Locks.congr {c : WorkManagerConfig} {v v' : WorkView κ π} {held held' : List (WorkItem κ π)}
    (h : Locks c v held) (hk : v'.keys = v.keys) (hkc : v'.keyCounts = v.keyCounts)
    (hp : v'.partitions = v.partitions) (hpc : v'.partitionCounts = v.partitionCounts)
    (hheld : ∀ p : WorkItem κ π → Bool, held'.countP p = held.countP p) : Locks c v' held' := by
  refine ⟨?_, ?_⟩
  · rw [hk, hkc]; exact h.keys.congr fun k => by unfold keyHolders; rw [hheld]
  · rw [hp, hpc]; exact h.partitions.congr fun tp => by unfold partitionHolders; rw [hheld]

/-- A free route has no holder. -/
theorem Locks.not_sameRoute {c : WorkManagerConfig} {v : WorkView κ π} {held : List (WorkItem κ π)}
    (h : Locks c v held) {k : QueueKey κ} (hfree : v.Free c k) {x y : WorkItem κ π}
    (hx : x.tp = k.1 ∧ x.key = k.2) (hy : y ∈ held) : ¬ SameRoute c x y := by
  intro hroute
  have hp : ∀ p : WorkItem κ π → Bool, p y = true → 0 < held.countP p :=
    fun p hpy => List.countP_pos_iff.mpr ⟨y, hy, hpy⟩
  unfold WorkView.Free at hfree
  unfold SameRoute at hroute
  cases hm : c.orderingMode with
  | keyHash =>
    rw [hm] at hfree hroute
    simp only at hfree hroute
    rw [h.keys.mem_iff, keyHolders, if_pos hm] at hfree
    exact hfree (hp _ (by simp [← hroute.1, ← hroute.2, hx.1, hx.2]))
  | partition =>
    rw [hm] at hfree hroute
    simp only at hfree hroute
    rw [h.partitions.mem_iff, partitionHolders, if_pos hm] at hfree
    exact hfree (hp _ (by simp [← hroute, hx.1]))
  | unordered => rw [hm] at hroute; exact hroute

/-! ## Recording -/

namespace WorkManager

theorem locks_recordOrderingLock {c : WorkManagerConfig} {s : WorkManager κ π}
    {held : List (WorkItem κ π)} (h : Locks c s.view held) (x : WorkItem κ π) :
    Locks c (recordOrderingLock c s x).view (x :: held) := by
  unfold recordOrderingLock
  cases hm : c.orderingMode with
  | keyHash =>
    refine ⟨(h.keys.acquire (x.tp, x.key)).congr fun k => ?_, h.partitions.congr fun tp => ?_⟩
    · simp only [keyHolders, hm, if_true, List.countP_cons, decide_eq_true_eq]
      by_cases hk : k = (x.tp, x.key)
      · rw [if_pos hk, if_pos hk.symm]
      · rw [if_neg hk, if_neg (Ne.symm hk), Nat.add_zero]
    · simp [partitionHolders, hm]
  | partition =>
    refine ⟨h.keys.congr fun k => ?_, (h.partitions.acquire x.tp).congr fun tp => ?_⟩
    · simp [keyHolders, hm]
    · simp only [partitionHolders, hm, if_true, List.countP_cons, decide_eq_true_eq]
      by_cases hk : tp = x.tp
      · rw [if_pos hk, if_pos hk.symm]
      · rw [if_neg hk, if_neg (Ne.symm hk), Nat.add_zero]
  | unordered =>
    refine ⟨h.keys.congr fun k => ?_, h.partitions.congr fun tp => ?_⟩
    · simp [keyHolders, hm]
    · simp [partitionHolders, hm]

/-- What recording accepted items changes: timestamps, counters and locks. -/
structure Recorded (c : WorkManagerConfig) (s : WorkManager κ π) (items : List (WorkItem κ π))
    (s' : WorkManager κ π) : Prop where
  timestamps : ∀ id, id ∈ s'.dispatchTimestamps ↔
    id ∈ s.dispatchTimestamps ∨ ∃ x ∈ items, x.id = id
  count : s'.currentInFlightCount = s.currentInFlightCount + items.length
  totalQueued : s'.totalQueuedMessages = s.totalQueuedMessages - items.length
  locks : ∀ held, Locks c s.view held → Locks c s'.view (items ++ held)
  ledger : s'.inFlightWorkItems = s.inFlightWorkItems
  queueTopology : s'.queueTopology = s.queueTopology
  epochOf : s'.epochOf = s.epochOf
  completionQueue : s'.completionQueue = s.completionQueue
  log : s'.log = s.log
  nextUuid : s'.nextUuid = s.nextUuid

theorem recordSubmittedItem_spec (c : WorkManagerConfig) (s : WorkManager κ π) (x : WorkItem κ π) :
    Recorded c s [x] (recordSubmittedItem c s x) := by
  have hlocks : ∀ held, Locks c s.view held →
      Locks c (recordSubmittedItem c s x).view ([x] ++ held) := by
    intro held h
    unfold recordSubmittedItem
    apply locks_recordOrderingLock
    exact h.congr rfl rfl rfl rfl fun _ => rfl
  refine ⟨?_, ?_, ?_, hlocks, ?_, ?_, ?_, ?_, ?_, ?_⟩ <;>
    unfold recordSubmittedItem recordOrderingLock
  · intro id
    cases c.orderingMode <;>
      simp only [mem_appendKey, List.mem_singleton, exists_eq_left, eq_comm (a := id)]
  all_goals cases c.orderingMode <;> rfl

theorem recordSubmittedItems_spec (c : WorkManagerConfig) (items : List (WorkItem κ π)) :
    ∀ s : WorkManager κ π, Recorded c s items (recordSubmittedItems c s items) := by
  induction items with
  | nil =>
    intro s
    exact { timestamps := fun id => by simp [recordSubmittedItems], count := rfl, totalQueued := rfl,
            locks := fun _ h => h, ledger := rfl, queueTopology := rfl, epochOf := rfl,
            completionQueue := rfl, log := rfl, nextUuid := rfl }
  | cons x items ih =>
    intro s
    have h1 := recordSubmittedItem_spec c s x
    have h2 := ih (recordSubmittedItem c s x)
    have heq : recordSubmittedItems c s (x :: items) =
        recordSubmittedItems c (recordSubmittedItem c s x) items := rfl
    rw [heq]
    exact
      { timestamps := fun id => by
          rw [h2.timestamps, h1.timestamps]
          simp only [List.mem_singleton, exists_eq_left, List.exists_mem_cons_iff, or_assoc]
        count := by rw [h2.count, h1.count]; simp; omega
        totalQueued := by rw [h2.totalQueued, h1.totalQueued]; simp; omega
        locks := fun held h => by
          refine (h2.locks _ (h1.locks held h)).congr rfl rfl rfl rfl fun p => ?_
          simp only [List.countP_append, List.countP_cons, List.cons_append, List.nil_append]
          omega
        ledger := h2.ledger.trans h1.ledger
        queueTopology := h2.queueTopology.trans h1.queueTopology
        epochOf := h2.epochOf.trans h1.epochOf
        completionQueue := h2.completionQueue.trans h1.completionQueue
        log := h2.log.trans h1.log
        nextUuid := h2.nextUuid.trans h1.nextUuid }

/-! ## Releasing -/

/-- Removing the one item with an id lowers a count by whether the item counts. -/
theorem countP_filter_id_ne {held : List (WorkItem κ π)} (hn : (held.map (·.id)).Nodup)
    {x : WorkItem κ π} (hx : x ∈ held) (p : WorkItem κ π → Bool) :
    (held.filter fun y => y.id ≠ x.id).countP p = held.countP p - (if p x then 1 else 0) := by
  induction held with
  | nil => cases hx
  | cons y l ih =>
    obtain ⟨hy, hn⟩ := List.nodup_cons.mp hn
    rcases List.mem_cons.mp hx with rfl | hx
    · have hl : (l.filter fun z => z.id ≠ x.id) = l := by
        refine List.filter_eq_self.mpr fun z hz => ?_
        simp only [ne_eq, decide_eq_true_eq]
        intro hid
        exact hy (List.mem_map.mpr ⟨z, hz, hid⟩)
      rw [List.filter_cons_of_neg (by simp), hl, List.countP_cons]
      omega
    · have hne : y.id ≠ x.id := fun hid => hy (List.mem_map.mpr ⟨x, hx, hid.symm⟩)
      rw [List.filter_cons_of_pos (by simpa using hne), List.countP_cons, List.countP_cons, ih hn hx]
      by_cases hpx : p x = true
      · have := List.countP_pos_iff.mpr ⟨x, hx, hpx⟩
        rw [if_pos hpx]
        omega
      · rw [if_neg hpx]
        omega

theorem locks_releaseOrderingLock {c : WorkManagerConfig} {s : WorkManager κ π}
    {held : List (WorkItem κ π)} (h : Locks c s.view held) (hn : (held.map (·.id)).Nodup)
    {x : WorkItem κ π} (hx : x ∈ held) :
    Locks c (releaseOrderingLock c s x).view (held.filter fun y => y.id ≠ x.id) := by
  have hpos : ∀ p : WorkItem κ π → Bool, p x = true → 0 < held.countP p :=
    fun p hpx => List.countP_pos_iff.mpr ⟨x, hx, hpx⟩
  unfold releaseOrderingLock
  cases hm : c.orderingMode with
  | keyHash =>
    have hkeys : ∀ k, keyHolders c (held.filter fun y => y.id ≠ x.id) k =
        if k = (x.tp, x.key) then keyHolders c held k - 1 else keyHolders c held k := by
      intro k
      simp only [keyHolders, hm, if_true, countP_filter_id_ne hn hx, decide_eq_true_eq]
      by_cases hk : k = (x.tp, x.key)
      · rw [if_pos hk, if_pos hk.symm]
      · rw [if_neg hk, if_neg (Ne.symm hk), Nat.sub_zero]
    have hparts : ∀ tp, partitionHolders c (held.filter fun y => y.id ≠ x.id) tp =
        partitionHolders c held tp := by intro tp; simp [partitionHolders, hm]
    obtain ⟨h1, h2⟩ := h.keys.release (a := (x.tp, x.key)) (by
      simp only [keyHolders, hm, if_true]; exact hpos _ (by simp))
    dsimp only
    split
    · rename_i hr; exact ⟨(h1 hr).congr hkeys, h.partitions.congr hparts⟩
    · rename_i hr; exact ⟨(h2 hr).congr hkeys, h.partitions.congr hparts⟩
  | partition =>
    have hparts : ∀ tp, partitionHolders c (held.filter fun y => y.id ≠ x.id) tp =
        if tp = x.tp then partitionHolders c held tp - 1 else partitionHolders c held tp := by
      intro tp
      simp only [partitionHolders, hm, if_true, countP_filter_id_ne hn hx, decide_eq_true_eq]
      by_cases hk : tp = x.tp
      · rw [if_pos hk, if_pos hk.symm]
      · rw [if_neg hk, if_neg (Ne.symm hk), Nat.sub_zero]
    have hkeys : ∀ k, keyHolders c (held.filter fun y => y.id ≠ x.id) k = keyHolders c held k := by
      intro k; simp [keyHolders, hm]
    obtain ⟨h1, h2⟩ := h.partitions.release (a := x.tp) (by
      simp only [partitionHolders, hm, if_true]; exact hpos _ (by simp))
    dsimp only
    split
    · rename_i hr; exact ⟨h.keys.congr hkeys, (h1 hr).congr hparts⟩
    · rename_i hr; exact ⟨h.keys.congr hkeys, (h2 hr).congr hparts⟩
  | unordered =>
    refine ⟨h.keys.congr fun k => ?_, h.partitions.congr fun tp => ?_⟩
    · simp [keyHolders, hm]
    · simp [partitionHolders, hm]

/-- What releasing the ledger item `x` changes. A dispatched item gives its lock back and leaves the
in-flight count; an item that was never dispatched only leaves the ledger. -/
structure Released (c : WorkManagerConfig) (s : WorkManager κ π) (x : WorkItem κ π)
    (s' : WorkManager κ π) : Prop where
  ledger : s'.inFlightWorkItems = s.inFlightWorkItems.erase x.id
  timestamps : s'.dispatchTimestamps = discardKey s.dispatchTimestamps x.id
  count : s'.currentInFlightCount =
    if x.id ∈ s.dispatchTimestamps then s.currentInFlightCount - 1 else s.currentInFlightCount
  locks_dispatched : x.id ∈ s.dispatchTimestamps → ∀ held, Locks c s.view held →
    (held.map (·.id)).Nodup → x ∈ held → Locks c s'.view (held.filter fun y => y.id ≠ x.id)
  locks_waiting : x.id ∉ s.dispatchTimestamps → ∀ held, Locks c s.view held → Locks c s'.view held
  queueOf : s'.queueTopology.queueOf = s.queueTopology.queueOf
  assigned : s'.queueTopology.assigned = s.queueTopology.assigned
  totalSize : s'.queueTopology.totalSize = s.queueTopology.totalSize
  totalQueued : s'.totalQueuedMessages = s.totalQueuedMessages
  epochOf : s'.epochOf = s.epochOf
  completionQueue : s'.completionQueue = s.completionQueue
  log : s'.log = s.log
  nextUuid : s'.nextUuid = s.nextUuid

/-- The release of a lock changes the locks only. -/
theorem releaseOrderingLock_eq (c : WorkManagerConfig) (s : WorkManager κ π) (x : WorkItem κ π) :
    ∃ keys keyCounts partitions partitionCounts, releaseOrderingLock c s x =
      { s with
        keysInFlight := keys
        keyInFlightCounts := keyCounts
        partitionsInFlight := partitions
        partitionInFlightCounts := partitionCounts } := by
  unfold releaseOrderingLock
  cases c.orderingMode with
  | keyHash => dsimp only; split <;> exact ⟨_, _, _, _, rfl⟩
  | partition => dsimp only; split <;> exact ⟨_, _, _, _, rfl⟩
  | unordered => exact ⟨_, _, _, _, rfl⟩

theorem releaseInFlightItem_spec (c : WorkManagerConfig) (s : WorkManager κ π) {x : WorkItem κ π}
    {id : WorkId} (hid : x.id = id) (h : s.inFlightWorkItems.get? id = some x) (reschedule : Bool) :
    Released c s x (releaseInFlightItem c s id reschedule).2 := by
  subst hid
  have hq := WorkQueueTopology.queueOf_cleanupEmptyQueue s.queueTopology x.tp x.key
  have ha := WorkQueueTopology.assigned_cleanupEmptyQueue s.queueTopology x.tp x.key
  have ht := WorkQueueTopology.totalSize_cleanupEmptyQueue s.queueTopology x.tp x.key
  simp only [releaseInFlightItem, h]
  by_cases hd : x.id ∈ s.dispatchTimestamps
  · simp only [hd, if_true]
    have hlocks : ∀ (t : WorkManager κ π), t.keysInFlight = s.keysInFlight →
        t.keyInFlightCounts = s.keyInFlightCounts → t.partitionsInFlight = s.partitionsInFlight →
        t.partitionInFlightCounts = s.partitionInFlightCounts → ∀ held, Locks c s.view held →
        (held.map (·.id)).Nodup → x ∈ held →
        Locks c (releaseOrderingLock c t x).view (held.filter fun y => y.id ≠ x.id) := by
      intro t h1 h2 h3 h4 held hl hn hx
      exact locks_releaseOrderingLock (hl.congr h1 h2 h3 h4 fun _ => rfl) hn hx
    refine ⟨?_, ?_, ?_, fun _ => hlocks _ rfl rfl rfl rfl, fun hn => absurd hd hn,
      ?_, ?_, ?_, ?_, ?_, ?_, ?_, ?_⟩
    all_goals
      obtain ⟨ks, kc, ps, pc, heq⟩ := releaseOrderingLock_eq c _ x
      rw [heq]
    · simp only [if_pos hd]
    · exact hq
    · exact ha
    · exact ht
    · rfl
  · simp only [hd, if_false]
    refine ⟨rfl, rfl, by simp only [if_neg hd], fun hp => absurd hp hd, fun _ held hl => ?_,
      hq, ha, ht, rfl, rfl, rfl, rfl, rfl⟩
    exact hl.congr rfl rfl rfl rfl fun _ => rfl

/-! ## Revocation -/

theorem countP_filter_mem (held : List (WorkItem κ π)) (p q : WorkItem κ π → Bool) (b : Bool)
    (h : ∀ x, q x = true → p x = b) :
    (held.filter p).countP q = if b then held.countP q else 0 := by
  rw [List.countP_filter]
  cases b with
  | true =>
    refine List.countP_congr fun x _ => ?_
    simp only [Bool.and_eq_true, and_iff_left_iff_imp]
    exact h x
  | false =>
    simp only [Bool.false_eq_true, if_false, List.countP_eq_zero, Bool.and_eq_true, not_and]
    intro x _ hq
    simp [h x hq]

theorem locks_dropRevokedLocks {c : WorkManagerConfig} {s : WorkManager κ π}
    {held : List (WorkItem κ π)} (h : Locks c s.view held) (tps : List TopicPartition) :
    Locks c (dropRevokedLocks c s tps).view (held.filter fun x => x.tp ∉ tps) := by
  have hkeys : ∀ k, keyHolders c (held.filter fun x => x.tp ∉ tps) k =
      if decide (k.1 ∉ tps) then keyHolders c held k else 0 := by
    intro k
    unfold keyHolders
    split
    · refine countP_filter_mem held _ _ _ fun x hx => ?_
      rw [← of_decide_eq_true hx]
    · simp
  have hparts : ∀ tp, partitionHolders c (held.filter fun x => x.tp ∉ tps) tp =
      if decide (tp ∉ tps) then partitionHolders c held tp else 0 := by
    intro tp
    unfold partitionHolders
    split
    · refine countP_filter_mem held _ _ _ fun x hx => ?_
      rw [← of_decide_eq_true hx]
    · simp
  -- a set that is not filtered is that of the other mode, and empty
  have hk := h.keys.restrict fun k => decide (k.1 ∉ tps)
  have hp := h.partitions.restrict fun tp => decide (tp ∉ tps)
  refine ⟨⟨fun k => ?_, fun k => ?_⟩, ⟨fun tp => ?_, fun tp => ?_⟩⟩
  · rw [hkeys]; exact hk.get?_eq k
  · rw [hkeys, ← hk.mem_iff]
    unfold dropRevokedLocks view
    dsimp only
    split
    · rfl
    · rename_i hm
      have hnil : ∀ k, k ∉ s.keysInFlight := fun k hmem => by
        have := (h.keys.mem_iff k).mp hmem
        simp [keyHolders, hm] at this
      simp [hnil]
  · rw [hparts]; exact hp.get?_eq tp
  · rw [hparts, ← hp.mem_iff]
    unfold dropRevokedLocks view
    dsimp only
    split
    · rfl
    · rename_i hm
      have hnil : ∀ tp, tp ∉ s.partitionsInFlight := fun tp hmem => by
        have := (h.partitions.mem_iff tp).mp hmem
        simp [partitionHolders, hm] at this
      simp [hnil]

end WorkManager

end PyrallelConsumer
