import PyrallelConsumer.WorkRuns

/-!
# PyrallelConsumer.WorkInvariant

Invariants of every run of the work manager, whatever the events and the engine's answers.

* `QueueInv` — queued messages are counted, and a virtual queue is exactly what was enqueued and not
  yet taken off, in order.
* `ItemInv` — ids are never reused, and no queued item has been taken off a queue before.
-/

set_option linter.unusedSectionVars false

namespace PyrallelConsumer

open WorkLog

variable {κ π : Type} [DecidableEq κ]

/-! ## Histories -/

section Histories

variable (tp : TopicPartition) (key : κ)

theorem enqueuedOf_sublist (l : List (Entry κ π)) :
    (enqueuedOf tp key l).Sublist (enqueuedItems l) := by
  induction l with
  | nil => exact List.Sublist.refl _
  | cons e l ih =>
    cases e with
    | enqueued x =>
      simp only [enqueuedOf, enqueuedItems]
      split
      · exact ih.append (List.Sublist.refl _)
      · exact ih.trans (List.sublist_append_left _ _)
    | assigned tp' =>
      simp only [enqueuedOf]
      split
      · exact List.nil_sublist _
      · exact ih
    | revoked tps =>
      simp only [enqueuedOf]
      split
      · exact List.nil_sublist _
      · exact ih
    | _ => exact ih

/-- Items of one route are all of a queue or none of it. -/
theorem filter_route {k : QueueKey κ} {l : List (WorkItem κ π)}
    (h : ∀ x ∈ l, x.tp = k.1 ∧ x.key = k.2) :
    (l.filter fun x => x.tp = tp ∧ x.key = key) = if k.1 = tp ∧ k.2 = key then l else [] := by
  split
  · rename_i hk
    refine List.filter_eq_self.mpr fun x hx => ?_
    rw [(h x hx).1, (h x hx).2]
    exact decide_eq_true hk
  · rename_i hk
    refine List.filter_eq_nil_iff.mpr fun x hx => ?_
    rw [(h x hx).1, (h x hx).2]
    simpa using hk

theorem enqueuedOf_enqueueAll (items : List (WorkItem κ π)) :
    ∀ l, enqueuedOf tp key (enqueueAll items l) =
      enqueuedOf tp key l ++ items.filter fun x => x.tp = tp ∧ x.key = key := by
  induction items with
  | nil => intro l; simp [enqueueAll]
  | cons x items ih =>
    intro l
    have := ih (.enqueued x :: l)
    rw [show enqueueAll (x :: items) l = enqueueAll items (.enqueued x :: l) from rfl, this]
    by_cases hx : x.tp = tp ∧ x.key = key
    · simp [enqueuedOf, hx]
    · rw [List.filter_cons_of_neg (by simpa using hx)]
      simp only [enqueuedOf, if_neg hx]

/-- A function of histories that enqueue entries do not change. -/
theorem enqueueAll_congr {α : Type} {f : List (Entry κ π) → α}
    (hf : ∀ x l, f (.enqueued x :: l) = f l) (items : List (WorkItem κ π)) :
    ∀ l, f (enqueueAll items l) = f l := by
  induction items with
  | nil => intro l; rfl
  | cons x items ih => intro l; exact (ih (.enqueued x :: l)).trans (hf x l)

end Histories

theorem enqueuedItems_enqueueAll (items : List (WorkItem κ π)) :
    ∀ l, enqueuedItems (enqueueAll items l) = enqueuedItems l ++ items := by
  induction items with
  | nil => intro l; simp [enqueueAll]
  | cons x items ih =>
    intro l
    rw [show enqueueAll (x :: items) l = enqueueAll items (.enqueued x :: l) from rfl, ih]
    simp [enqueuedItems]

/-! ## Queues -/

structure QueueInv (v : WorkView κ π) : Prop where
  total : v.totalQueued = v.totalSize
  tracked : ∀ tp, (v.epochOf tp).isSome ↔ v.assigned tp
  unassigned : ∀ tp key, ¬ v.assigned tp → v.queueOf tp key = []
  fifo : ∀ tp key, enqueuedOf tp key v.log = consumedOf tp key v.log ++ v.queueOf tp key

namespace QueueInv

variable {c : WorkManagerConfig} {ok : WorkView κ π → CompletionEvent → Prop} {v v' : WorkView κ π}

theorem mem_enqueuedOf (h : QueueInv v) {tp : TopicPartition} {key : κ} {x : WorkItem κ π}
    (hx : x ∈ v.queueOf tp key) : x ∈ enqueuedOf tp key v.log := by
  rw [h.fifo]; exact List.mem_append_right _ hx

theorem route (h : QueueInv v) {tp : TopicPartition} {key : κ} {x : WorkItem κ π}
    (hx : x ∈ v.queueOf tp key) : x.tp = tp ∧ x.key = key :=
  (WorkLog.mem_enqueuedOf _ (h.mem_enqueuedOf hx)).1

theorem mem_enqueuedItems (h : QueueInv v) {tp : TopicPartition} {key : κ} {x : WorkItem κ π}
    (hx : x ∈ v.queueOf tp key) : x ∈ enqueuedItems v.log :=
  (WorkLog.mem_enqueuedOf _ (h.mem_enqueuedOf hx)).2

theorem assigned_of_mem (h : QueueInv v) {tp : TopicPartition} {key : κ} {x : WorkItem κ π}
    (hx : x ∈ v.queueOf tp key) : v.assigned tp := by
  by_contra hn
  rw [h.unassigned tp key hn] at hx
  cases hx

theorem poison (h : QueueInv v) {k : QueueKey κ} {x : WorkItem κ π} (hp : PoisonedHead v k x v') :
    QueueInv v' := by
  obtain ⟨rest, hq, hq'⟩ := hp.queue
  have hx := h.route (show x ∈ v.queueOf k.1 k.2 by rw [hq]; simp)
  refine ⟨?_, ?_, ?_, ?_⟩
  · have := hp.totalSize; have := hp.totalQueued; have := h.total; omega
  · rw [hp.epochOf, hp.assigned]; exact h.tracked
  · intro tp key hn
    rw [hp.assigned] at hn
    rw [hq', WorkView.withQueue]
    split
    · rename_i heq
      have := h.unassigned tp key hn
      rw [← heq.1, ← heq.2, hq] at this
      cases this
    · exact h.unassigned tp key hn
  · intro tp key
    have hf := h.fifo tp key
    rw [hp.log, hq']
    simp only [enqueuedOf, consumedOf, WorkView.withQueue, hx.1, hx.2]
    split
    · rename_i heq
      rw [hf, ← heq.1, ← heq.2, hq]
      simp
    · exact hf

theorem hand (h : QueueInv v) {k : QueueKey κ} {lease : List (WorkItem κ π)}
    (hh : HandedOver c v k lease v') : QueueInv v' := by
  have hroute : ∀ x ∈ lease, x.tp = k.1 ∧ x.key = k.2 := fun x hx => h.route (hh.isPrefix.subset hx)
  refine ⟨?_, ?_, ?_, ?_⟩
  · have := hh.totalSize; have := hh.totalQueued; have := h.total; omega
  · rw [hh.epochOf, hh.assigned]; exact h.tracked
  · intro tp key hn
    rw [hh.assigned] at hn
    rw [hh.queueOf, WorkView.withQueue]
    split
    · rename_i heq
      have := h.unassigned tp key hn
      rw [← heq.1, ← heq.2] at this
      rw [this, List.drop_nil]
    · exact h.unassigned tp key hn
  · intro tp key
    have hf := h.fifo tp key
    rw [hh.log, hh.queueOf]
    simp only [enqueuedOf, consumedOf, WorkView.withQueue, filter_route tp key hroute]
    split
    · rename_i heq
      have hsplit : lease ++ (v.queueOf k.1 k.2).drop lease.length = v.queueOf k.1 k.2 := by
        obtain ⟨rest, hrest⟩ := hh.isPrefix
        rw [← hrest, List.drop_left]
      rw [List.append_assoc, hsplit, hf, heq.1, heq.2]
    · rw [List.append_nil]; exact hf

theorem enqueue (h : QueueInv v) {k : QueueKey κ} {items : List (WorkItem κ π)}
    (he : EnqueuedItems v k items v') : QueueInv v' := by
  refine ⟨?_, ?_, ?_, ?_⟩
  · rw [he.totalQueued, he.totalSize, h.total]
  · rw [he.epochOf, he.assigned]; exact h.tracked
  · intro tp key hn
    rw [he.assigned] at hn
    rw [he.queueOf, WorkView.withQueue]
    split
    · rename_i heq; exact absurd (heq.1 ▸ he.assigned_key) hn
    · exact h.unassigned tp key hn
  · intro tp key
    have hc : consumedOf tp key (enqueueAll items v.log) = consumedOf tp key v.log :=
      enqueueAll_congr (fun _ _ => rfl) items v.log
    rw [he.log, enqueuedOf_enqueueAll, hc, he.queueOf, h.fifo tp key, filter_route tp key he.route]
    simp only [WorkView.withQueue]
    split
    · rename_i heq; rw [heq.1, heq.2, List.append_assoc]
    · rw [List.append_nil]

theorem assign (h : QueueInv v) {tp : TopicPartition} (hfree : ¬ v.assigned tp)
    (ha : AssignedPartition v tp v') : QueueInv v' := by
  refine ⟨?_, ?_, ?_, ?_⟩
  · rw [ha.totalQueued, ha.totalSize, h.total]
  · intro tp'; rw [ha.epochOf, ha.assigned, h.tracked]
  · intro tp' key hn
    rw [ha.assigned, not_or] at hn
    rw [ha.queueOf]
    exact h.unassigned tp' key hn.2
  · intro tp' key
    rw [ha.log, ha.queueOf]
    simp only [enqueuedOf, consumedOf]
    split
    · rename_i heq; rw [← heq, h.unassigned tp key hfree]; rfl
    · exact h.fifo tp' key

theorem revoke (h : QueueInv v) {tps : List TopicPartition} (hr : RevokedPartitions c v tps v') :
    QueueInv v' := by
  refine ⟨hr.total h.total, ?_, ?_, ?_⟩
  · intro tp
    rw [hr.epochOf, hr.assigned, ← h.tracked]
    split
    · rename_i hm; simp [hm]
    · rename_i hm; simp [hm]
  · intro tp key hn
    rw [hr.assigned, not_and_or, not_not] at hn
    rw [hr.queueOf]
    split
    · rfl
    · rename_i hm; exact h.unassigned tp key (hn.resolve_left hm)
  · intro tp key
    rw [hr.log, hr.queueOf]
    simp only [enqueuedOf, consumedOf]
    split
    · rfl
    · exact h.fifo tp key

theorem sameWork (h : QueueInv v) (hs : SameWork v v') {e : CompletionEvent}
    (hlog : v'.log = .processed e :: v.log) : QueueInv v' := by
  refine ⟨?_, ?_, ?_, ?_⟩
  · rw [hs.totalQueued, hs.totalSize, h.total]
  · rw [hs.epochOf, hs.assigned]; exact h.tracked
  · rw [hs.assigned, hs.queueOf]; exact h.unassigned
  · intro tp key; rw [hlog, hs.queueOf]; exact h.fifo tp key

theorem quiet (h : QueueInv v) (hq : QuietStep v v') : QueueInv v' := by
  refine ⟨?_, ?_, ?_, ?_⟩
  · rw [hq.totalQueued, hq.totalSize, h.total]
  · intro tp; rw [hq.tracked, hq.assigned]; exact h.tracked tp
  · rw [hq.assigned, hq.queueOf]; exact h.unassigned
  · rw [hq.log, hq.queueOf]; exact h.fifo

theorem step (h : QueueInv v) (hs : WorkStep c ok v v') : QueueInv v' := by
  cases hs with
  | quiet hq => exact h.quiet hq
  | assign tp hfree ha => exact h.assign hfree ha
  | revoke tps hr => exact h.revoke hr
  | enqueue k items he => exact h.enqueue he
  | poison k x hp => exact h.poison hp
  | hand k lease hh => exact h.hand hh
  | complete e x hok hc => exact h.sameWork hc.toSameWork hc.log
  | ignore e hok hi hkept => exact h.sameWork hi.toSameWork hi.log

end QueueInv

/-! ## Items -/

structure ItemInv (v : WorkView κ π) : Prop where
  drawn : ∀ x ∈ enqueuedItems v.log, ∃ n < v.nextUuid, x.id = .uuid n
  distinct : ((enqueuedItems v.log).map (·.id)).Nodup
  once : ((consumedItems v.log).map (·.id)).Nodup
  consumed : ∀ x ∈ consumedItems v.log, x ∈ enqueuedItems v.log
  waiting : ∀ tp key, ∀ x ∈ v.queueOf tp key, x ∉ consumedItems v.log
  filed : ∀ id x, v.ledger.get? id = some x → x.id = id ∧ x ∈ enqueuedItems v.log

namespace ItemInv

variable {c : WorkManagerConfig} {ok : WorkView κ π → CompletionEvent → Prop} {v v' : WorkView κ π}

theorem queue_distinct (h : ItemInv v) (hq : QueueInv v) (tp : TopicPartition) (key : κ) :
    ((v.queueOf tp key).map (·.id)).Nodup := by
  have hsub : (v.queueOf tp key).Sublist (enqueuedItems v.log) := by
    refine List.Sublist.trans ?_ (enqueuedOf_sublist tp key v.log)
    rw [hq.fifo]
    exact List.sublist_append_right _ _
  exact h.distinct.sublist (hsub.map _)

/-- A queued item has another id than any item taken off a queue before. -/
theorem id_ne_consumed (h : ItemInv v) (hq : QueueInv v) {tp : TopicPartition} {key : κ}
    {x y : WorkItem κ π} (hx : x ∈ v.queueOf tp key) (hy : y ∈ consumedItems v.log) : x.id ≠ y.id := by
  intro hid
  have : x = y := eq_of_id_eq h.distinct (hq.mem_enqueuedItems hx) (h.consumed y hy) hid
  exact h.waiting tp key x hx (this ▸ hy)

/-- Taking a prefix off a queue, by a lease or by the poison circuit. -/
theorem take (h : ItemInv v) (hq : QueueInv v) {k : QueueKey κ} {l : List (WorkItem κ π)}
    (hpre : l <+: v.queueOf k.1 k.2)
    (hqueue : v'.queueOf = v.withQueue k ((v.queueOf k.1 k.2).drop l.length))
    (henq : enqueuedItems v'.log = enqueuedItems v.log)
    (hcon : consumedItems v'.log = consumedItems v.log ++ l) (hledger : v'.ledger = v.ledger)
    (huuid : v'.nextUuid = v.nextUuid) : ItemInv v' := by
  have hnodup := h.queue_distinct hq k.1 k.2
  obtain ⟨rest, hrest⟩ := hpre
  have hmem : ∀ x ∈ l, x ∈ v.queueOf k.1 k.2 := fun x hx => by
    rw [← hrest]; exact List.mem_append_left _ hx
  refine ⟨?_, ?_, ?_, ?_, ?_, ?_⟩
  · rw [henq, huuid]; exact h.drawn
  · rw [henq]; exact h.distinct
  · rw [hcon, List.map_append]
    refine h.once.append ?_ ?_
    · rw [← hrest, List.map_append] at hnodup
      exact hnodup.of_append_left
    · intro id hy hx
      obtain ⟨y, hyc, hyid⟩ := List.mem_map.mp hy
      obtain ⟨x, hxl, hxid⟩ := List.mem_map.mp hx
      exact h.id_ne_consumed hq (hmem x hxl) hyc (hxid.trans hyid.symm)
  · intro x hx
    rw [hcon] at hx
    rw [henq]
    rcases List.mem_append.mp hx with hx | hx
    · exact h.consumed x hx
    · exact hq.mem_enqueuedItems (hmem x hx)
  · intro tp key x hx hxc
    rw [hcon] at hxc
    rw [hqueue, WorkView.withQueue] at hx
    split at hx
    · -- the rest of the queue: its items are not in the prefix
      rw [← hrest, List.drop_left] at hx
      have hx' : x ∈ v.queueOf k.1 k.2 := by rw [← hrest]; exact List.mem_append_right _ hx
      rcases List.mem_append.mp hxc with hxc | hxc
      · exact h.waiting k.1 k.2 x hx' hxc
      · rw [← hrest, List.map_append] at hnodup
        exact hnodup.disjoint (List.mem_map_of_mem hxc) (List.mem_map_of_mem hx)
    · -- another queue: its items have another route
      rename_i hne
      rcases List.mem_append.mp hxc with hxc | hxc
      · exact h.waiting tp key x hx hxc
      · have h1 := hq.route (hmem x hxc)
        have h2 := hq.route hx
        exact hne ⟨h1.1.symm.trans h2.1, h1.2.symm.trans h2.2⟩
  · rw [henq, hledger]; exact h.filed

theorem poison (h : ItemInv v) (hq : QueueInv v) {k : QueueKey κ} {x : WorkItem κ π}
    (hp : PoisonedHead v k x v') : ItemInv v' := by
  obtain ⟨rest, hqueue, hqueue'⟩ := hp.queue
  refine h.take hq (k := k) (l := [x]) ?_ ?_ ?_ ?_ hp.ledger hp.nextUuid
  · rw [hqueue]; exact ⟨rest, rfl⟩
  · rw [hqueue', hqueue]; rfl
  · rw [hp.log]; rfl
  · rw [hp.log]; rfl

theorem hand (h : ItemInv v) (hq : QueueInv v) {k : QueueKey κ} {lease : List (WorkItem κ π)}
    (hh : HandedOver c v k lease v') : ItemInv v' := by
  refine h.take hq hh.isPrefix hh.queueOf ?_ ?_ hh.ledger hh.nextUuid
  · rw [hh.log]; rfl
  · rw [hh.log]; rfl

theorem enqueue (h : ItemInv v) {k : QueueKey κ} {items : List (WorkItem κ π)}
    (he : EnqueuedItems v k items v') : ItemInv v' := by
  have hcon : consumedItems v'.log = consumedItems v.log := by
    rw [he.log]; exact enqueueAll_congr (fun _ _ => rfl) items v.log
  have henq : enqueuedItems v'.log = enqueuedItems v.log ++ items := by
    rw [he.log, enqueuedItems_enqueueAll]
  have hfresh : ∀ x ∈ enqueuedItems v.log, ∀ y ∈ items, y.id ≠ x.id := by
    intro x hx y hy
    obtain ⟨n, hn, hid⟩ := h.drawn x hx
    rw [hid]
    exact WorkManager.uuid_ne_of_mem_range' he.ids hn y hy
  refine ⟨?_, ?_, ?_, ?_, ?_, ?_⟩
  · intro x hx
    rw [he.nextUuid]
    rw [henq] at hx
    rcases List.mem_append.mp hx with hx | hx
    · obtain ⟨n, hn, hid⟩ := h.drawn x hx
      exact ⟨n, by omega, hid⟩
    · have hid : x.id ∈ items.map (·.id) := List.mem_map_of_mem hx
      rw [he.ids, List.mem_map] at hid
      obtain ⟨n, hn, hid⟩ := hid
      exact ⟨n, (List.mem_range'_1.mp hn).2, hid.symm⟩
  · rw [henq, List.map_append]
    refine h.distinct.append ?_ ?_
    · rw [he.ids]
      exact (List.nodup_range' ).map fun _ _ h => WorkId.uuid.inj h
    · intro id hx hy
      obtain ⟨x, hxl, hxid⟩ := List.mem_map.mp hx
      obtain ⟨y, hyl, hyid⟩ := List.mem_map.mp hy
      exact hfresh x hxl y hyl (hyid.trans hxid.symm)
  · rw [hcon]; exact h.once
  · intro x hx
    rw [hcon] at hx
    rw [henq]
    exact List.mem_append_left _ (h.consumed x hx)
  · intro tp key x hx
    rw [hcon]
    rw [he.queueOf, WorkView.withQueue] at hx
    split at hx
    · rcases List.mem_append.mp hx with hx | hx
      · exact h.waiting _ _ x hx
      · exact fun hxc => hfresh x (h.consumed x hxc) x hx rfl
    · exact h.waiting tp key x hx
  · intro id x hx
    rw [henq]
    by_cases hid : ∃ y ∈ items, y.id = id
    · obtain ⟨y, hy, rfl⟩ := hid
      rw [he.filed y hy] at hx
      cases hx
      exact ⟨rfl, List.mem_append_right _ hy⟩
    · rw [he.others id fun y hy heq => hid ⟨y, hy, heq⟩] at hx
      exact ⟨(h.filed id x hx).1, List.mem_append_left _ (h.filed id x hx).2⟩

/-- A step that takes nothing off a queue and files nothing. -/
theorem shrink (h : ItemInv v) (henq : enqueuedItems v'.log = enqueuedItems v.log)
    (hcon : consumedItems v'.log = consumedItems v.log) (huuid : v'.nextUuid = v.nextUuid)
    (hqueue : ∀ tp key, ∀ x ∈ v'.queueOf tp key, x ∈ v.queueOf tp key)
    (hledger : ∀ id x, v'.ledger.get? id = some x → v.ledger.get? id = some x) : ItemInv v' := by
  refine ⟨?_, ?_, ?_, ?_, ?_, ?_⟩
  · rw [henq, huuid]; exact h.drawn
  · rw [henq]; exact h.distinct
  · rw [hcon]; exact h.once
  · rw [henq, hcon]; exact h.consumed
  · rw [hcon]; exact fun tp key x hx => h.waiting tp key x (hqueue tp key x hx)
  · rw [henq]; exact fun id x hx => h.filed id x (hledger id x hx)

theorem step (h : ItemInv v) (hq : QueueInv v) (hs : WorkStep c ok v v') : ItemInv v' := by
  cases hs with
  | quiet hs =>
    refine h.shrink (by rw [hs.log]) (by rw [hs.log]) hs.nextUuid ?_ ?_
    · rw [hs.queueOf]; exact fun _ _ _ hx => hx
    · rw [hs.ledger]; exact fun _ _ hx => hx
  | assign tp hfree ha =>
    refine h.shrink (by rw [ha.log]; rfl) (by rw [ha.log]; rfl) ha.nextUuid ?_ ?_
    · rw [ha.queueOf]; exact fun _ _ _ hx => hx
    · rw [ha.ledger]; exact fun _ _ hx => hx
  | revoke tps hr =>
    refine h.shrink (by rw [hr.log]; rfl) (by rw [hr.log]; rfl) hr.nextUuid ?_ ?_
    · intro tp key x hx
      rw [hr.queueOf] at hx
      split at hx
      · cases hx
      · exact hx
    · exact fun id x hx => ((hr.ledger id x).mp hx).1
  | enqueue k items he => exact h.enqueue he
  | poison k x hp => exact h.poison hq hp
  | hand k lease hh => exact h.hand hq hh
  | complete e x hok hc =>
    refine h.shrink (by rw [hc.log]; rfl) (by rw [hc.log]; rfl) hc.nextUuid ?_ ?_
    · rw [hc.queueOf]; exact fun _ _ _ hx => hx
    · intro id y hy
      rw [hc.ledger, Dict.get?_erase] at hy
      split at hy
      · cases hy
      · exact hy
  | ignore e hok hi hkept =>
    refine h.shrink (by rw [hi.log]; rfl) (by rw [hi.log]; rfl) hi.nextUuid ?_ ?_
    · rw [hi.queueOf]; exact fun _ _ _ hx => hx
    · rw [hi.ledger]; exact fun _ _ hx => hx

end ItemInv

end PyrallelConsumer
