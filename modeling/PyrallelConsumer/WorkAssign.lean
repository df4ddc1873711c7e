import PyrallelConsumer.WorkAccounts

/-!
# PyrallelConsumer.WorkAssign

What assignment, revocation and submission do to the observed state.

* `assignOne_spec` — an unassigned partition gets empty queues.
* `onRevoke_spec` — revocation restricts queues, ledger and holders to the other partitions.
* `submitGroup_spec` — submission files fresh items and appends them to one queue.
-/

set_option linter.unusedSectionVars false

namespace PyrallelConsumer

open WorkLog

variable {κ π : Type} [DecidableEq κ]

/-- The accounts are the same. -/
structure SameAccounts (v v' : WorkView κ π) : Prop where
  timestamps : v'.timestamps = v.timestamps
  ledger : v'.ledger = v.ledger
  count : v'.count = v.count
  keys : v'.keys = v.keys
  keyCounts : v'.keyCounts = v.keyCounts
  partitions : v'.partitions = v.partitions
  partitionCounts : v'.partitionCounts = v.partitionCounts

theorem SameAccounts.trans {v v' v'' : WorkView κ π} (h : SameAccounts v v')
    (h' : SameAccounts v' v'') : SameAccounts v v'' :=
  ⟨h'.timestamps.trans h.timestamps, h'.ledger.trans h.ledger, h'.count.trans h.count,
   h'.keys.trans h.keys, h'.keyCounts.trans h.keyCounts, h'.partitions.trans h.partitions,
   h'.partitionCounts.trans h.partitionCounts⟩

theorem Held.same {c : WorkManagerConfig} {v v' : WorkView κ π} {held : List (WorkItem κ π)}
    (h : Held c v held) (hs : SameAccounts v v') : Held c v' held := by
  refine ⟨?_, h.locks.congr hs.keys hs.keyCounts hs.partitions hs.partitionCounts fun _ => rfl,
    h.distinct, ?_⟩
  · unfold WorkView.Filed; rw [hs.ledger]; exact h.filed
  · rw [hs.timestamps, hs.ledger]; exact h.dispatched

theorem Exact.same {c : WorkManagerConfig} {v v' : WorkView κ π} {held : List (WorkItem κ π)}
    (h : Exact c v held) (hs : SameAccounts v v') : Exact c v' held := by
  refine ⟨h.toHeld.same hs, hs.count.trans h.count, ?_, ?_⟩
  · rw [hs.ledger]; exact h.inLedger
  · rw [hs.timestamps]; exact h.timestamps

/-! ## Assignment -/

structure AssignedPartition (v : WorkView κ π) (tp : TopicPartition) (v' : WorkView κ π) : Prop extends
    SameAccounts v v' where
  queueOf : v'.queueOf = v.queueOf
  assigned : ∀ tp', v'.assigned tp' ↔ tp' = tp ∨ v.assigned tp'
  totalSize : v'.totalSize = v.totalSize
  totalQueued : v'.totalQueued = v.totalQueued
  epochOf : ∀ tp', (v'.epochOf tp').isSome ↔ tp' = tp ∨ (v.epochOf tp').isSome
  completionQueue : v'.completionQueue = v.completionQueue
  log : v'.log = .assigned tp :: v.log
  nextUuid : v'.nextUuid = v.nextUuid

namespace WorkManager

theorem assignOne_spec (c : WorkManagerConfig) (s : WorkManager κ π)
    (a : TopicPartition × TrackerOrOffset) (h : ¬ s.view.assigned a.1) :
    AssignedPartition s.view a.1 (assignOne c s a).view := by
  have hqueue : (s.queueTopology.assign a.1).queueOf = s.queueTopology.queueOf := by
    funext tp key
    rw [WorkQueueTopology.queueOf_assign]
    split
    · rename_i heq
      subst heq
      by_contra hne
      exact h (WorkQueueTopology.assigned_of_queueOf_ne_nil (Ne.symm hne))
    · rfl
  have hassigned : ∀ tp', (s.queueTopology.assign a.1).assigned tp' ↔
      tp' = a.1 ∨ s.queueTopology.assigned tp' := fun tp' => by
    rw [WorkQueueTopology.assigned_assign, eq_comm]
  have hsize := WorkQueueTopology.totalSize_assign h
  have hepoch : ∀ (trackers : Dict TopicPartition TrackerRef) (r : TrackerRef) (tp' : TopicPartition),
      ((trackers.set a.1 r).get? tp').isSome ↔ tp' = a.1 ∨ (trackers.get? tp').isSome := by
    intro trackers r tp'
    rw [Dict.get?_set]
    split
    · rename_i heq; simp [heq]
    · rename_i hne; simp [Ne.symm hne]
  obtain ⟨tp, ref⟩ := a
  cases ref with
  | offset o =>
    refine ⟨⟨rfl, rfl, rfl, rfl, rfl, rfl, rfl⟩, hqueue, hassigned, hsize, rfl, fun tp' => ?_, rfl,
      rfl, rfl⟩
    simp only [view, epochOf, Option.isSome_map]
    exact hepoch _ _ _
  | tracker r =>
    refine ⟨⟨rfl, rfl, rfl, rfl, rfl, rfl, rfl⟩, hqueue, hassigned, hsize, rfl, fun tp' => ?_, rfl,
      rfl, rfl⟩
    simp only [view, epochOf, Option.isSome_map]
    exact hepoch _ _ _

/-- What every single assignment preserves, `on_assign` of distinct unassigned partitions does. -/
theorem onAssign_induction {P : WorkView κ π → Prop} (c : WorkManagerConfig)
    (hassign : ∀ v v' tp, P v → ¬ v.assigned tp → AssignedPartition v tp v' → P v')
    (l : List (TopicPartition × TrackerOrOffset)) :
    ∀ s : WorkManager κ π, (l.map Prod.fst).Nodup → (∀ a ∈ l, ¬ s.view.assigned a.1) → P s.view →
      P (onAssign c s l).view := by
  have hfold : ∀ (l : List (TopicPartition × TrackerOrOffset)) (s : WorkManager κ π),
      (l.map Prod.fst).Nodup → (∀ a ∈ l, ¬ s.view.assigned a.1) → P s.view →
        P (l.foldl (assignOne c) s).view := by
    intro l
    induction l with
    | nil => intro s _ _ h; exact h
    | cons a l ih =>
      intro s hn hfree h
      obtain ⟨ha, hn⟩ := List.nodup_cons.mp hn
      have hspec := assignOne_spec c s a (hfree a (by simp))
      refine ih _ hn (fun b hb => ?_) (hassign _ _ a.1 h (hfree a (by simp)) hspec)
      rw [hspec.assigned, not_or]
      refine ⟨fun heq => ha ?_, hfree b (List.mem_cons_of_mem _ hb)⟩
      rw [← heq]
      exact List.mem_map_of_mem hb
  intro s hn hfree h
  exact hfold l s hn hfree h

end WorkManager

/-! ## Revocation -/

structure RevokedPartitions (c : WorkManagerConfig) (v : WorkView κ π) (tps : List TopicPartition)
    (v' : WorkView κ π) : Prop where
  queueOf : ∀ tp key, v'.queueOf tp key = if tp ∈ tps then [] else v.queueOf tp key
  assigned : ∀ tp, v'.assigned tp ↔ tp ∉ tps ∧ v.assigned tp
  total : v.totalQueued = v.totalSize → v'.totalQueued = v'.totalSize
  ledger : ∀ id x, v'.ledger.get? id = some x ↔ v.ledger.get? id = some x ∧ x.tp ∉ tps
  timestamps : ∀ id ∈ v'.timestamps, id ∈ v.timestamps
  epochOf : ∀ tp, v'.epochOf tp = if tp ∈ tps then none else v.epochOf tp
  held : ∀ held, Held c v held → Held c v' (held.filter fun x => x.tp ∉ tps)
  exact : ∀ held, Exact c v held → Exact c v' (held.filter fun x => x.tp ∉ tps)
  completionQueue : v'.completionQueue = v.completionQueue
  log : v'.log = .revoked tps :: v.log
  nextUuid : v'.nextUuid = v.nextUuid

namespace WorkManager

/-- The first loop of `on_revoke`: queues and trackers go, the accounts stay. -/
structure QueuesRevoked (v : WorkView κ π) (tps : List TopicPartition) (v' : WorkView κ π) : Prop
    extends SameAccounts v v' where
  queueOf : ∀ tp key, v'.queueOf tp key = if tp ∈ tps then [] else v.queueOf tp key
  assigned : ∀ tp, v'.assigned tp ↔ tp ∉ tps ∧ v.assigned tp
  total : v.totalQueued = v.totalSize → v'.totalQueued = v'.totalSize
  epochOf : ∀ tp, v'.epochOf tp = if tp ∈ tps then none else v.epochOf tp
  completionQueue : v'.completionQueue = v.completionQueue
  log : v'.log = v.log
  nextUuid : v'.nextUuid = v.nextUuid

theorem revokeAll_spec (tps : List TopicPartition) :
    ∀ s : WorkManager κ π, QueuesRevoked s.view tps (tps.foldl revokeOne s).view := by
  induction tps with
  | nil =>
    intro s
    exact
      { timestamps := rfl, ledger := rfl, count := rfl, keys := rfl, keyCounts := rfl
        partitions := rfl, partitionCounts := rfl, queueOf := fun _ _ => by simp
        assigned := fun _ => by simp, total := fun h => h, epochOf := fun _ => by simp
        completionQueue := rfl, log := rfl, nextUuid := rfl }
  | cons tp tps ih =>
    intro s
    have h := ih (s.revokeOne tp)
    have hq := WorkQueueTopology.queueOf_revoke s.queueTopology tp
    have ha := WorkQueueTopology.assigned_revoke s.queueTopology tp
    have ht := WorkQueueTopology.totalSize_revoke s.queueTopology tp
    have hsame : SameAccounts s.view (s.revokeOne tp).view := ⟨rfl, rfl, rfl, rfl, rfl, rfl, rfl⟩
    rw [List.foldl_cons]
    refine ⟨hsame.trans h.toSameAccounts, ?_, ?_, ?_, ?_, h.completionQueue, h.log, h.nextUuid⟩
    · intro tp' key
      rw [h.queueOf]
      show (if tp' ∈ tps then [] else (s.queueTopology.revoke tp).2.queueOf tp' key) = _
      rw [hq]
      by_cases h2 : tp' = tp
      · simp [h2]
      · simp [h2, Ne.symm h2, view]
    · intro tp'
      rw [h.assigned]
      show (tp' ∉ tps ∧ (s.queueTopology.revoke tp).2.assigned tp') ↔ _
      rw [ha, List.mem_cons, not_or, eq_comm, ← and_assoc, and_comm (a := tp' ∉ tps)]
      rfl
    · intro htotal
      refine h.total ?_
      have htotal : s.totalQueuedMessages = s.queueTopology.totalSize := htotal
      show s.totalQueuedMessages - (s.queueTopology.revoke tp).1 =
        (s.queueTopology.revoke tp).2.totalSize
      omega
    · intro tp'
      rw [h.epochOf]
      show (if tp' ∈ tps then none else ((s.offsetTrackers.erase tp).get? tp').map _) = _
      rw [Dict.get?_erase]
      by_cases h2 : tp' = tp
      · simp [h2]
      · simp only [if_neg (Ne.symm h2), List.mem_cons, h2, false_or]
        rfl

theorem mem_staleIds {s : WorkManager κ π} {tps : List TopicPartition} {id : WorkId} :
    id ∈ s.staleIds tps ↔ ∃ x, s.inFlightWorkItems.get? id = some x ∧ x.tp ∈ tps := by
  simp only [staleIds, List.mem_map, List.mem_filter, decide_eq_true_eq, Prod.exists,
    Dict.mem_entries_iff]
  constructor
  · rintro ⟨id', x, ⟨hx, htp⟩, rfl⟩; exact ⟨x, hx, htp⟩
  · rintro ⟨x, hx, htp⟩; exact ⟨id, x, ⟨hx, htp⟩, rfl⟩

theorem nodup_staleIds (s : WorkManager κ π) (tps : List TopicPartition) : (s.staleIds tps).Nodup :=
  s.inFlightWorkItems.nodup.sublist (List.filter_sublist.map Prod.fst)

/-- Releasing the stale ids and dropping the locks leaves the holders of the other partitions. -/
theorem releaseStale_spec (c : WorkManagerConfig) (s : WorkManager κ π) (tps : List TopicPartition)
    (hfiled : s.view.Filed) :
    let s1 := (s.staleIds tps).foldl (fun s id => (releaseInFlightItem c s id false).2) s
    let s2 := dropRevokedLocks c s1 tps
    SameWork s.view s2.view ∧ s2.view.log = s.view.log ∧
    (∀ id x, s2.view.ledger.get? id = some x ↔ s.view.ledger.get? id = some x ∧ x.tp ∉ tps) ∧
    (∀ id ∈ s2.view.timestamps, id ∈ s.view.timestamps) ∧
    (∀ held, Held c s.view held → Held c s2.view (held.filter fun x => x.tp ∉ tps)) ∧
    (∀ held, Exact c s.view held → Exact c s2.view (held.filter fun x => x.tp ∉ tps)) := by
  intro s1 s2
  have h := releaseAll_spec c (s.staleIds tps) s hfiled (nodup_staleIds s tps) fun id hid => by
    obtain ⟨x, hx, -⟩ := mem_staleIds.mp hid
    rw [hx]; rfl
  have hledger : ∀ id x, s2.view.ledger.get? id = some x ↔
      s.view.ledger.get? id = some x ∧ x.tp ∉ tps := by
    intro id x
    show s1.view.ledger.get? id = some x ↔ _
    rw [h.ledger]
    constructor
    · intro hx
      split at hx
      · cases hx
      · rename_i hid
        exact ⟨hx, fun htp => hid (mem_staleIds.mpr ⟨x, hx, htp⟩)⟩
    · rintro ⟨hx, htp⟩
      rw [if_neg, hx]
      intro hid
      obtain ⟨y, hy, hytp⟩ := mem_staleIds.mp hid
      have : some x = some y := hx.symm.trans hy
      cases this
      exact htp hytp
  -- a released holder is the ledger item with its id, so its partition is revoked
  have hfilter : ∀ held, Held c s.view held →
      ((held.filter fun y => ¬ (y.id ∈ s.staleIds tps ∧ y.id ∈ s.view.timestamps)).filter
        fun x => x.tp ∉ tps) = held.filter fun x => x.tp ∉ tps := by
    intro held hh
    rw [List.filter_filter]
    refine List.filter_congr fun y hy => ?_
    rw [← Bool.decide_and]
    refine decide_eq_decide.mpr ⟨And.left, fun htp => ⟨htp, ?_⟩⟩
    rintro ⟨hst, hts⟩
    obtain ⟨x, hx, hxtp⟩ := mem_staleIds.mp hst
    have hxh := hh.dispatched y.id hts x hx
    have : x = y := eq_of_id_eq hh.distinct hxh hy (hfiled _ _ hx)
    exact htp (this ▸ hxtp)
  have hheld : ∀ held, Held c s.view held → Held c s2.view (held.filter fun x => x.tp ∉ tps) := by
    intro held hh
    have h1 := h.held held hh
    refine ⟨h1.filed, ?_, nodup_filter hh.distinct _, ?_⟩
    · rw [← hfilter held hh]; exact locks_dropRevokedLocks h1.locks tps
    · intro id hid x hx
      obtain ⟨hx', htp⟩ := (hledger id x).mp hx
      refine List.mem_filter.mpr ⟨?_, by simpa using htp⟩
      exact hh.dispatched id ((h.timestamps id).mp hid).1 x hx'
  refine ⟨⟨h.queueOf, h.assigned, h.totalSize, h.totalQueued, h.epochOf, h.completionQueue,
    h.nextUuid⟩, h.log, hledger, fun id hid => ((h.timestamps id).mp hid).1, hheld, ?_⟩
  intro held hh
  have h1 := h.exact held hh
  have heq : (held.filter fun y => ¬ (y.id ∈ s.staleIds tps ∧ y.id ∈ s.view.timestamps)) =
      held.filter fun x => x.tp ∉ tps := by
    refine List.filter_congr fun y hy => decide_eq_decide.mpr ?_
    have hy' := hh.inLedger y hy
    have hts := (hh.timestamps y.id).mpr ⟨y, hy, rfl⟩
    rw [mem_staleIds]
    constructor
    · exact fun hn htp => hn ⟨⟨y, hy', htp⟩, hts⟩
    · rintro htp ⟨⟨x, hx, hxtp⟩, -⟩
      have : some y = some x := hy'.symm.trans hx
      cases this
      exact htp hxtp
  rw [heq] at h1
  exact ⟨hheld held hh.toHeld, h1.count, h1.inLedger, h1.timestamps⟩

theorem onRevoke_spec (c : WorkManagerConfig) (s : WorkManager κ π) (tps : List TopicPartition)
    (hfiled : s.view.Filed) : RevokedPartitions c s.view tps (onRevoke c s tps).view := by
  have h1 := revokeAll_spec tps s
  by_cases hnil : tps = []
  · subst hnil
    have hall : ∀ held : List (WorkItem κ π), (held.filter fun x => x.tp ∉ []) = held := by
      intro held; simp
    exact
      { queueOf := fun _ _ => by simp [onRevoke, view, record, invalidateBlockingCache]
        assigned := fun _ => by simp [onRevoke, view, record, invalidateBlockingCache]
        total := fun h => h
        ledger := fun _ _ => by simp [onRevoke, view, record, invalidateBlockingCache]
        timestamps := fun _ h => h
        epochOf := fun _ => by simp [onRevoke, view, record, invalidateBlockingCache]; rfl
        held := fun held h => by rw [hall]; exact h.same ⟨rfl, rfl, rfl, rfl, rfl, rfl, rfl⟩
        exact := fun held h => by rw [hall]; exact h.same ⟨rfl, rfl, rfl, rfl, rfl, rfl, rfl⟩
        completionQueue := rfl
        log := rfl
        nextUuid := rfl }
  · have hfiled1 : (tps.foldl revokeOne s).view.Filed := by
      unfold WorkView.Filed; rw [h1.ledger]; exact hfiled
    obtain ⟨hw, hl, hledger, hts, hheld, hexact⟩ :=
      releaseStale_spec c (tps.foldl revokeOne s) tps hfiled1
    have hview : ∃ s2 : WorkManager κ π,
        s2 = dropRevokedLocks c (((tps.foldl revokeOne s).staleIds tps).foldl
          (fun s id => (releaseInFlightItem c s id false).2) (tps.foldl revokeOne s)) tps ∧
        (onRevoke c s tps).view = { s2.view with log := .revoked tps :: s2.view.log } := by
      refine ⟨_, rfl, ?_⟩
      unfold onRevoke
      simp only [if_neg hnil]
      rfl
    obtain ⟨s2, hs2, hview⟩ := hview
    rw [← hs2] at hw hl hledger hts hheld hexact
    rw [hview]
    exact
      { queueOf := fun tp key => (congrFun (congrFun hw.queueOf tp) key).trans (h1.queueOf tp key)
        assigned := fun tp => (iff_of_eq (congrFun hw.assigned tp)).trans (h1.assigned tp)
        total := fun h => hw.totalQueued.trans ((h1.total h).trans hw.totalSize.symm)
        ledger := fun id x => by rw [← h1.ledger]; exact hledger id x
        timestamps := fun id hid => h1.timestamps ▸ hts id hid
        epochOf := fun tp => (congrFun hw.epochOf tp).trans (h1.epochOf tp)
        held := fun held h =>
          (hheld held (h.same h1.toSameAccounts)).same ⟨rfl, rfl, rfl, rfl, rfl, rfl, rfl⟩
        exact := fun held h =>
          (hexact held (h.same h1.toSameAccounts)).same ⟨rfl, rfl, rfl, rfl, rfl, rfl, rfl⟩
        completionQueue := hw.completionQueue.trans h1.completionQueue
        log := congrArg (Entry.revoked tps :: ·) (hl.trans h1.log)
        nextUuid := hw.nextUuid.trans h1.nextUuid }

end WorkManager

/-! ## Submission -/

/-- The history after a list of items has been enqueued. -/
def enqueueAll (items : List (WorkItem κ π)) (log : List (Entry κ π)) : List (Entry κ π) :=
  items.foldl (fun l x => .enqueued x :: l) log

structure EnqueuedItems (v : WorkView κ π) (k : QueueKey κ) (items : List (WorkItem κ π))
    (v' : WorkView κ π) : Prop where
  assigned_key : v.assigned k.1
  route : ∀ x ∈ items, x.tp = k.1 ∧ x.key = k.2
  ids : items.map (·.id) = (List.range' v.nextUuid items.length).map .uuid
  filed : ∀ x ∈ items, v'.ledger.get? x.id = some x
  others : ∀ id, (∀ x ∈ items, x.id ≠ id) → v'.ledger.get? id = v.ledger.get? id
  queueOf : v'.queueOf = v.withQueue k (v.queueOf k.1 k.2 ++ items)
  totalSize : v'.totalSize = v.totalSize + items.length
  totalQueued : v'.totalQueued = v.totalQueued + items.length
  log : v'.log = enqueueAll items v.log
  nextUuid : v'.nextUuid = v.nextUuid + items.length
  timestamps : v'.timestamps = v.timestamps
  count : v'.count = v.count
  keys : v'.keys = v.keys
  keyCounts : v'.keyCounts = v.keyCounts
  partitions : v'.partitions = v.partitions
  partitionCounts : v'.partitionCounts = v.partitionCounts
  assigned : v'.assigned = v.assigned
  epochOf : v'.epochOf = v.epochOf
  completionQueue : v'.completionQueue = v.completionQueue

namespace WorkManager

/-- What creating the items of a group does. -/
structure Created (s : WorkManager κ π) (k : QueueKey κ) (items : List (WorkItem κ π))
    (s' : WorkManager κ π) : Prop where
  route : ∀ x ∈ items, x.tp = k.1 ∧ x.key = k.2
  ids : items.map (·.id) = (List.range' s.nextUuid items.length).map .uuid
  filed : ∀ x ∈ items, s'.inFlightWorkItems.get? x.id = some x
  others : ∀ id, (∀ x ∈ items, x.id ≠ id) →
    s'.inFlightWorkItems.get? id = s.inFlightWorkItems.get? id
  log : s'.log = enqueueAll items s.log
  nextUuid : s'.nextUuid = s.nextUuid + items.length
  view : s'.view = { s.view with
    ledger := s'.inFlightWorkItems, log := s'.log, nextUuid := s'.nextUuid }
  queueTopology : s'.queueTopology = s.queueTopology

theorem uuid_ne_of_mem_range' {items : List (WorkItem κ π)} {n m : Nat}
    (hids : items.map (·.id) = (List.range' n items.length).map .uuid) (h : m < n) :
    ∀ x ∈ items, x.id ≠ .uuid m := by
  intro x hx heq
  have : x.id ∈ items.map (·.id) := List.mem_map_of_mem hx
  rw [hids, heq, List.mem_map] at this
  obtain ⟨i, hi, hii⟩ := this
  cases hii
  have := (List.mem_range'_1.mp hi).1
  omega

theorem createItems_spec (k : QueueKey κ) (messages : List (QueuedMessage κ π)) :
    ∀ s : WorkManager κ π,
      Created s k (createItems k.1 k.2 s messages).1 (createItems k.1 k.2 s messages).2 := by
  induction messages with
  | nil =>
    intro s
    exact { route := by simp [createItems], ids := rfl, filed := by simp [createItems]
            others := fun _ _ => rfl, log := rfl, nextUuid := rfl, view := rfl, queueTopology := rfl }
  | cons m messages ih =>
    intro s
    have h := ih (submitOne k.1 k.2 s m).2
    have hid : (submitOne k.1 k.2 s m).1.id = .uuid s.nextUuid := rfl
    have hfresh := uuid_ne_of_mem_range' h.ids (Nat.lt_succ_self s.nextUuid)
    simp only [createItems]
    exact
      { route := by
          intro x hx
          rcases List.mem_cons.mp hx with rfl | hx
          · exact ⟨rfl, rfl⟩
          · exact h.route x hx
        ids := by
          rw [List.map_cons, h.ids, List.length_cons, List.range'_succ, List.map_cons]
          rfl
        filed := by
          intro x hx
          rcases List.mem_cons.mp hx with rfl | hx
          · rw [h.others _ fun y hy => hid ▸ hfresh y hy]
            exact Dict.get?_set_self _ _ _
          · exact h.filed x hx
        others := by
          intro id hne
          rw [h.others id fun x hx => hne x (List.mem_cons_of_mem _ hx)]
          show (s.inFlightWorkItems.set _ _).get? id = _
          rw [Dict.get?_set]
          exact if_neg (hne (submitOne k.1 k.2 s m).1 List.mem_cons_self)
        log := h.log
        nextUuid := by
          rw [h.nextUuid, List.length_cons]
          show s.nextUuid + 1 + _ = _
          omega
        view := h.view
        queueTopology := h.queueTopology }

theorem submitGroup_spec (s : WorkManager κ π) (k : QueueKey κ) (messages : List (QueuedMessage κ π))
    (h : s.view.assigned k.1) :
    ∃ items, EnqueuedItems s.view k items (s.submitGroup k messages).view := by
  have hc := createItems_spec k messages s
  refine ⟨(createItems k.1 k.2 s messages).1, ?_⟩
  generalize hitems : (createItems k.1 k.2 s messages).1 = items at hc
  generalize hs : (createItems k.1 k.2 s messages).2 = s1 at hc
  have heq : s.submitGroup k messages =
      { s1 with
        queueTopology := s1.queueTopology.enqueueBatch k.1 k.2 items
        totalQueuedMessages := s1.totalQueuedMessages + items.length } := by
    unfold submitGroup
    simp only [hitems, hs]
  have h : s.queueTopology.assigned k.1 := h
  rw [heq]
  exact
    { assigned_key := h
      route := hc.route
      ids := hc.ids
      filed := hc.filed
      others := hc.others
      queueOf := by
        funext tp key
        simp only [view, hc.queueTopology, WorkQueueTopology.queueOf_enqueueBatch h]
        rfl
      totalSize := by
        simp only [view, hc.queueTopology, WorkQueueTopology.totalSize_enqueueBatch h]
      totalQueued := by
        have : s1.totalQueuedMessages = s.totalQueuedMessages :=
          (congrArg WorkView.totalQueued hc.view :)
        simp only [view, this]
      log := hc.log
      nextUuid := hc.nextUuid
      timestamps := (congrArg WorkView.timestamps hc.view :)
      count := (congrArg WorkView.count hc.view :)
      keys := (congrArg WorkView.keys hc.view :)
      keyCounts := (congrArg WorkView.keyCounts hc.view :)
      partitions := (congrArg WorkView.partitions hc.view :)
      partitionCounts := (congrArg WorkView.partitionCounts hc.view :)
      assigned := by
        simp only [view, WorkQueueTopology.assigned_enqueueBatch, hc.queueTopology]
      epochOf := (congrArg WorkView.epochOf hc.view :)
      completionQueue := (congrArg WorkView.completionQueue hc.view :) }

/-- What enqueuing the items of one group preserves, `submit_message_batch` does. -/
theorem submitMessageBatch_induction {P : WorkView κ π → Prop}
    (henq : ∀ v v' k items, P v → EnqueuedItems v k items v' → P v')
    (groups : List (QueueKey κ × List (QueuedMessage κ π))) {s : WorkManager κ π} (h : P s.view) :
    P (s.submitMessageBatch groups).1.view := by
  have hgroups : ∀ (groups : List (QueueKey κ × List (QueuedMessage κ π))) (s : WorkManager κ π)
      (d : Dict TopicPartition Int), P s.view → P (s.submitGroups d groups).1.view := by
    intro groups
    induction groups with
    | nil => intro s d h; exact h
    | cons g groups ih =>
      intro s d h
      obtain ⟨k, messages⟩ := g
      simp only [submitGroups]
      split
      · rename_i hk
        obtain ⟨items, hspec⟩ := submitGroup_spec s k messages hk
        exact ih _ _ (henq _ _ k items h hspec)
      · exact h
  have hupdate : ∀ (l : List (TopicPartition × Int)) (s : WorkManager κ π),
      (l.foldl updateLastFetched s).view = s.view := by
    intro l
    induction l with
    | nil => intro s; rfl
    | cons e l ih =>
      intro s
      rw [List.foldl_cons, ih]
      unfold updateLastFetched
      split
      · rfl
      · exact view_modifyTracker s _ fun t => t.updateLastFetchedOffset_epoch e.2
  have hall := hgroups groups s .empty h
  unfold submitMessageBatch
  split
  · rename_i s1 e heq
    rw [heq] at hall
    exact hall
  · rename_i s1 d heq
    rw [heq] at hall
    split
    · exact hall
    · show P ((d.entries.foldl updateLastFetched s1).view)
      rw [hupdate]
      exact hall

end WorkManager

end PyrallelConsumer
