import PyrallelConsumer.WorkExclusion

/-!
# PyrallelConsumer.WorkLedger

The five redundant accounts of the work manager — ledger, dispatch timestamps, in-flight count, lock
tables and queues — against the history of the items.

`force_fail` finds an item by its offset whether or not it is still queued, and its event is processed
like a completion: the ledger drops the item while the queue keeps it. The item is then handed to the
engine and its completion finds no ledger entry, so its lock and its place in the count stay taken
(`ledger_leaks_after_forceFail`).

* `Harmless` — an event that names no queued item and releases the dispatched item it names.
* `ledger_exact` — along every run whose polls are harmless the accounts are exact.
-/

set_option linter.unusedSectionVars false

namespace PyrallelConsumer

open WorkLog

variable {κ π : Type} [DecidableEq κ]

/-- The ledger item with the event's id, if there is one, is not queued, and if it is dispatched the
event releases it. -/
def WorkView.Harmless (v : WorkView κ π) (e : CompletionEvent) : Prop :=
  ∀ x, v.ledger.get? e.id = some x →
    x ∉ v.queueOf x.tp x.key ∧ (e.id ∈ v.timestamps → v.Releases e x)

/-- No lease has an item whose completion or forced failure had been processed. -/
def HandedUntouched : List (Entry κ π) → Prop
  | [] => True
  | .handed lease :: l => (∀ x ∈ lease, Untouched x.id l) ∧ HandedUntouched l
  | _ :: l => HandedUntouched l

theorem handedUntouched_split {lease : List (WorkItem κ π)} {older : List (Entry κ π)}
    (newer : List (Entry κ π)) (h : HandedUntouched (newer ++ .handed lease :: older)) :
    ∀ x ∈ lease, Untouched x.id older := by
  induction newer with
  | nil => exact h.1
  | cons e newer ih =>
    cases e with
    | handed lease' => exact ih h.2
    | _ => exact ih h

theorem untouched_enqueueAll (id : WorkId) (items : List (WorkItem κ π)) :
    ∀ l, Untouched id l ∨ (∃ x ∈ items, x.id = id) → Untouched id (enqueueAll items l) := by
  induction items with
  | nil =>
    rintro l (h | ⟨x, hx, -⟩)
    · exact h
    · cases hx
  | cons x items ih =>
    rintro l (h | ⟨y, hy, hid⟩)
    · exact ih _ (.inl (.inr h))
    · rcases List.mem_cons.mp hy with rfl | hy
      · exact ih _ (.inl (.inl hid))
      · exact ih _ (.inr ⟨y, hy, hid⟩)

structure Accounted (c : WorkManagerConfig) (v : WorkView κ π) : Prop extends WorkInv c v where
  exact : Exact c v (unfinished v.log)
  filedQueued : ∀ tp key, ∀ x ∈ v.queueOf tp key, v.ledger.get? x.id = some x
  untouched : ∀ tp key, ∀ x ∈ v.queueOf tp key, Untouched x.id v.log
  handedUntouched : HandedUntouched v.log

namespace Accounted

variable {c : WorkManagerConfig} {v v' : WorkView κ π} {e : CompletionEvent}

/-- A harmless event has another id than every queued item. -/
theorem id_ne_queued (h : Accounted c v) (he : v.Harmless e) {tp : TopicPartition} {key : κ}
    {x : WorkItem κ π} (hx : x ∈ v.queueOf tp key) : e.id ≠ x.id := by
  intro hid
  have hroute := h.queues.route hx
  refine (he x (hid ▸ h.filedQueued tp key x hx)).1 ?_
  rw [hroute.1, hroute.2]
  exact hx

/-- Items that were not dispatched have no unfinished namesake. -/
theorem unfinished_filter_of_not_mem (h : Accounted c v) {id : WorkId} (hid : id ∉ v.timestamps) :
    ((unfinished v.log).filter fun x => x.id ≠ id) = unfinished v.log := by
  refine List.filter_eq_self.mpr fun x hx => decide_eq_true fun heq => hid ?_
  exact (h.exact.timestamps id).mpr ⟨x, hx, heq⟩

theorem exact_hand (h : Accounted c v) {k : QueueKey κ} {lease : List (WorkItem κ π)}
    (hh : HandedOver c v k lease v') : Exact c v' (lease ++ unfinished v.log) := by
  have hmem : ∀ x ∈ lease, x ∈ v.queueOf k.1 k.2 := fun x hx => hh.isPrefix.subset hx
  have hconsumed : ∀ x ∈ unfinished v.log, x ∈ consumedItems v.log := fun x hx =>
    (handedItems_sublist_consumedItems v.log).subset (mem_handedItems_of_unfinished v.log hx)
  have hledger : ∀ x ∈ lease ++ unfinished v.log, v.ledger.get? x.id = some x := by
    intro x hx
    rcases List.mem_append.mp hx with hx | hx
    · exact h.filedQueued _ _ x (hmem x hx)
    · exact h.exact.inLedger x hx
  have hts : ∀ id, id ∈ v'.timestamps ↔ ∃ x ∈ lease ++ unfinished v.log, x.id = id := by
    intro id
    rw [hh.timestamps, h.exact.timestamps]
    constructor
    · rintro (⟨x, hx, hid⟩ | ⟨x, hx, hid⟩)
      · exact ⟨x, List.mem_append_right _ hx, hid⟩
      · exact ⟨x, List.mem_append_left _ hx, hid⟩
    · rintro ⟨x, hx, hid⟩
      rcases List.mem_append.mp hx with hx | hx
      · exact .inr ⟨x, hx, hid⟩
      · exact .inl ⟨x, hx, hid⟩
  refine ⟨⟨?_, hh.locks _ h.exact.locks, ?_, ?_⟩, ?_, ?_, hts⟩
  · unfold WorkView.Filed; rw [hh.ledger]; exact h.exact.filed
  · rw [List.map_append]
    refine List.Nodup.append ?_ h.exact.distinct ?_
    · exact (h.items.queue_distinct h.queues k.1 k.2).sublist (hh.isPrefix.sublist.map _)
    · intro id hx hy
      obtain ⟨x, hxl, hxid⟩ := List.mem_map.mp hx
      obtain ⟨y, hyu, hyid⟩ := List.mem_map.mp hy
      exact h.items.id_ne_consumed h.queues (hmem x hxl) (hconsumed y hyu) (hxid.trans hyid.symm)
  · intro id hid y hy
    obtain ⟨x, hx, hxid⟩ := (hts id).mp hid
    have hfound := hledger x hx
    rw [hh.ledger, ← hxid, hfound] at hy
    cases hy
    exact hx
  · rw [hh.count, h.exact.count, List.length_append, Nat.add_comm]
  · rw [hh.ledger]; exact hledger

theorem exact_enqueue (h : Accounted c v) {k : QueueKey κ} {items : List (WorkItem κ π)}
    (he : EnqueuedItems v k items v') : Exact c v' (unfinished v.log) := by
  have hold : ∀ x ∈ unfinished v.log, v'.ledger.get? x.id = v.ledger.get? x.id := by
    intro x hx
    obtain ⟨-, hxe⟩ := h.items.filed x.id x (h.exact.inLedger x hx)
    obtain ⟨n, hn, hxn⟩ := h.items.drawn x hxe
    rw [hxn]
    exact he.others _ (WorkManager.uuid_ne_of_mem_range' he.ids hn)
  refine ⟨⟨?_, ?_, h.exact.distinct, ?_⟩, he.count.trans h.exact.count, ?_, ?_⟩
  · exact fun id x hx => ((h.items.enqueue he).filed id x hx).1
  · exact h.exact.locks.congr he.keys he.keyCounts he.partitions he.partitionCounts fun _ => rfl
  · intro id hid y hy
    rw [he.timestamps] at hid
    obtain ⟨x, hx, rfl⟩ := (h.exact.timestamps id).mp hid
    rw [hold x hx, h.exact.inLedger x hx] at hy
    cases hy
    exact hx
  · intro x hx; rw [hold x hx]; exact h.exact.inLedger x hx
  · rw [he.timestamps]; exact h.exact.timestamps

/-- The accounts after a step that serves no queue and processes no event. -/
theorem keep (h : Accounted c v) (hw : WorkInv c v') (hlog : Exact c v' (unfinished v'.log))
    (hqueue : ∀ tp key, ∀ x ∈ v'.queueOf tp key, x ∈ v.queueOf tp key ∧
      v'.ledger.get? x.id = v.ledger.get? x.id ∧ (Untouched x.id v.log → Untouched x.id v'.log))
    (hhanded : HandedUntouched v'.log = HandedUntouched v.log) : Accounted c v' :=
  { toWorkInv := hw
    exact := hlog
    filedQueued := fun tp key x hx => by
      obtain ⟨hx, hledger, -⟩ := hqueue tp key x hx
      rw [hledger]
      exact h.filedQueued tp key x hx
    untouched := fun tp key x hx => by
      obtain ⟨hx, -, hun⟩ := hqueue tp key x hx
      exact hun (h.untouched tp key x hx)
    handedUntouched := hhanded ▸ h.handedUntouched }

/-- The accounts after a harmless event. -/
theorem processed (h : Accounted c v) (he : v.Harmless e) (hw : WorkInv c v')
    (hlog : v'.log = .processed e :: v.log) (hqueueOf : v'.queueOf = v.queueOf)
    (hexact : Exact c v' ((unfinished v.log).filter fun x => x.id ≠ e.id))
    (hledger : ∀ id, id ≠ e.id → v'.ledger.get? id = v.ledger.get? id) : Accounted c v' := by
  refine h.keep hw (by rw [hlog]; exact hexact) ?_ (by rw [hlog]; rfl)
  intro tp key x hx
  rw [hqueueOf] at hx
  have hne := h.id_ne_queued he hx
  refine ⟨hx, hledger x.id (Ne.symm hne), fun hun => ?_⟩
  rw [hlog]
  exact ⟨hne, hun⟩

theorem step (h : Accounted c v) (hs : WorkStep c WorkView.Harmless v v') : Accounted c v' := by
  have hw := h.toWorkInv.step hs
  cases hs with
  | quiet hq =>
    refine h.keep hw ?_ ?_ (by rw [hq.log])
    · rw [hq.log]; exact h.exact.same hq.toSameAccounts
    · intro tp key x hx
      rw [hq.queueOf] at hx
      rw [hq.log, hq.ledger]
      exact ⟨hx, rfl, id⟩
  | assign tp hfree ha =>
    refine h.keep hw ?_ ?_ (by rw [ha.log]; rfl)
    · rw [ha.log]; exact h.exact.same ha.toSameAccounts
    · intro tp key x hx
      rw [ha.queueOf] at hx
      rw [ha.log, ha.ledger]
      exact ⟨hx, rfl, id⟩
  | revoke tps hr =>
    refine h.keep hw ?_ ?_ (by rw [hr.log]; rfl)
    · rw [hr.log]; exact hr.exact _ h.exact
    · intro tp key x hx
      rw [hr.queueOf] at hx
      split at hx
      · cases hx
      · rename_i hkept
        have hfound := h.filedQueued tp key x hx
        refine ⟨hx, ?_, fun hun => by rw [hr.log]; exact hun⟩
        rw [hfound, hr.ledger]
        exact ⟨hfound, (h.queues.route hx).1 ▸ hkept⟩
  | enqueue k items he =>
    have hun : unfinished v'.log = unfinished v.log := by
      rw [he.log]; exact enqueueAll_congr (fun _ _ => rfl) items v.log
    have hcases : ∀ tp key, ∀ x ∈ v'.queueOf tp key, x ∈ v.queueOf tp key ∨ x ∈ items := by
      intro tp key x hx
      rw [he.queueOf, WorkView.withQueue] at hx
      split at hx
      · rename_i hk
        rw [← hk.1, ← hk.2]
        exact List.mem_append.mp hx
      · exact .inl hx
    refine ⟨hw, by rw [hun]; exact h.exact_enqueue he, ?_, ?_, ?_⟩
    · intro tp key x hx
      by_cases hi : x ∈ items
      · exact he.filed x hi
      · have hx := (hcases tp key x hx).resolve_right hi
        obtain ⟨n, hn, hxn⟩ := h.items.drawn x (h.queues.mem_enqueuedItems hx)
        rw [he.others x.id (hxn ▸ WorkManager.uuid_ne_of_mem_range' he.ids hn)]
        exact h.filedQueued tp key x hx
    · intro tp key x hx
      rw [he.log]
      refine untouched_enqueueAll x.id items v.log ?_
      exact (hcases tp key x hx).imp (h.untouched tp key x) fun hi => ⟨x, hi, rfl⟩
    · rw [he.log, enqueueAll_congr (f := HandedUntouched) (fun _ _ => rfl)]
      exact h.handedUntouched
  | poison k x hp =>
    obtain ⟨rest, hqueue, hqueue'⟩ := hp.queue
    refine h.keep hw ?_ ?_ (by rw [hp.log]; rfl)
    · rw [hp.log]
      exact h.exact.same ⟨hp.timestamps, hp.ledger, hp.count, hp.keys, hp.keyCounts, hp.partitions,
        hp.partitionCounts⟩
    · intro tp key y hy
      rw [hqueue', WorkView.withQueue] at hy
      rw [hp.ledger, hp.log]
      refine ⟨?_, rfl, id⟩
      split at hy
      · rename_i hk
        rw [← hk.1, ← hk.2, hqueue]
        exact List.mem_cons_of_mem _ hy
      · exact hy
  | hand k lease hh =>
    have hmem : ∀ tp key, ∀ x ∈ v'.queueOf tp key, x ∈ v.queueOf tp key := by
      intro tp key x hx
      rw [hh.queueOf, WorkView.withQueue] at hx
      split at hx
      · rename_i hk
        rw [← hk.1, ← hk.2]
        exact List.mem_of_mem_drop hx
      · exact hx
    refine ⟨hw, by rw [hh.log]; exact h.exact_hand hh, ?_, ?_, ?_⟩
    · rw [hh.ledger]; exact fun tp key x hx => h.filedQueued tp key x (hmem tp key x hx)
    · rw [hh.log]; exact fun tp key x hx => h.untouched tp key x (hmem tp key x hx)
    · rw [hh.log]
      exact ⟨fun x hx => h.untouched k.1 k.2 x (hh.isPrefix.subset hx), h.handedUntouched⟩
  | complete e x hok hc =>
    refine h.processed hok hw hc.log hc.queueOf ?_ ?_
    · have hexact := h.exact.released hc.toLedgerRelease
      by_cases hd : e.id ∈ v.timestamps
      · rw [heldAfter_dispatched hd] at hexact; exact hexact
      · rw [heldAfter_waiting hd] at hexact
        rw [h.unfinished_filter_of_not_mem hd]; exact hexact
    · intro id hne
      rw [hc.ledger, Dict.get?_erase, if_neg (Ne.symm hne)]
  | ignore e hok hi hkept =>
    -- a dispatched item would be in the ledger, and the event would release it
    have hd : e.id ∉ v.timestamps := by
      intro hts
      obtain ⟨x, hx, hid⟩ := (h.exact.timestamps e.id).mp hts
      have hfound := hid ▸ h.exact.inLedger x hx
      exact hkept x hfound ((hok x hfound).2 hts)
    refine h.processed hok hw hi.log hi.queueOf ?_ fun id _ => by rw [hi.ledger]
    rw [h.unfinished_filter_of_not_mem hd]
    exact h.exact.ignored hi hd

/-- Harmless events stay harmless, and those of the poison circuit are. -/
theorem reports (c : WorkManagerConfig) :
    Reports c (Accounted c) (WorkView.Harmless (κ := κ) (π := π)) where
  queue _ h := h
  complete := by
    intro v v' e e' x _ he _ hc y hy
    rw [hc.ledger, Dict.get?_erase] at hy
    split at hy
    · cases hy
    · obtain ⟨hq, hd⟩ := he y hy
      rw [hc.queueOf]
      refine ⟨hq, fun hts => ?_⟩
      rw [WorkView.Releases, hc.epochOf]
      exact hd ((hc.timestamps e.id).mp hts).1
  ignore := by
    intro v v' e e' _ he _ hi y hy
    rw [hi.ledger] at hy
    obtain ⟨hq, hd⟩ := he y hy
    rw [hi.queueOf]
    refine ⟨hq, fun hts => ?_⟩
    rw [WorkView.Releases, hi.epochOf]
    exact hd ((hi.timestamps e.id).mp hts).1
  poison := by
    intro v v' e k x _ he hp y hy
    obtain ⟨rest, hqueue, hqueue'⟩ := hp.queue
    rw [hp.ledger] at hy
    obtain ⟨hq, hd⟩ := he y hy
    refine ⟨fun hyq => hq ?_, ?_⟩
    · rw [hqueue', WorkView.withQueue] at hyq
      split at hyq
      · rename_i hk
        rw [← hk.1, ← hk.2, hqueue]
        exact List.mem_cons_of_mem _ hyq
      · exact hyq
    · rw [hp.timestamps, WorkView.Releases, hp.epochOf]; exact hd
  poisoned := by
    intro v v' e k x hv hp hid y hy
    obtain ⟨rest, hqueue, hqueue'⟩ := hp.queue
    have hxq : x ∈ v.queueOf k.1 k.2 := by rw [hqueue]; exact List.mem_cons_self
    have hyx : y = x := by
      rw [hp.ledger, hid, hv.filedQueued _ _ x hxq] at hy
      exact (Option.some.inj hy).symm
    subst hyx
    have hroute := hv.queues.route hxq
    refine ⟨?_, fun hts => ?_⟩
    · -- the head has left its queue
      rw [hqueue', WorkView.withQueue, if_pos ⟨hroute.1.symm, hroute.2.symm⟩]
      have hnodup := hv.items.queue_distinct hv.queues k.1 k.2
      rw [hqueue] at hnodup
      exact fun hmem => (List.nodup_cons.mp hnodup).1 (List.mem_map_of_mem hmem)
    · -- and was never dispatched
      rw [hp.timestamps, hid] at hts
      obtain ⟨z, hz, hzid⟩ := hv.leases.stamped _ hts
      exact absurd hzid.symm (hv.items.id_ne_consumed hv.queues hxq hz)
  hand := by
    intro v v' e k lease hv he hh y hy
    rw [hh.ledger] at hy
    obtain ⟨hq, hd⟩ := he y hy
    refine ⟨fun hyq => hq ?_, fun hts => ?_⟩
    · rw [hh.queueOf, WorkView.withQueue] at hyq
      split at hyq
      · rename_i hk
        rw [← hk.1, ← hk.2]
        exact List.mem_of_mem_drop hyq
      · exact hyq
    · rw [WorkView.Releases, hh.epochOf]
      rcases (hh.timestamps e.id).mp hts with hts | ⟨x, hx, hid⟩
      · exact hd hts
      · exact absurd hid.symm (hv.id_ne_queued he (hh.isPrefix.subset hx))

end Accounted

/-! ## Every run with harmless polls -/

/-- Every event that a poll processes is harmless in the state before the poll. -/
def HarmlessPoll (s : WorkManager κ π) : WorkAction κ π → Prop
  | .poll _ engineEvents _ => ∀ e ∈ s.completionQueue ++ engineEvents, s.view.Harmless e
  | _ => True

theorem accounted_new (c : WorkManagerConfig) (circuit : Option (PoisonMessageCircuitBreaker κ)) :
    Accounted c (WorkManager.new (π := π) circuit).view := by
  refine ⟨workInv_new c circuit, ⟨⟨?_, ⟨?_, ?_⟩, List.nodup_nil, ?_⟩, rfl, ?_, ?_⟩, ?_, ?_, trivial⟩
  · intro id x hx; cases hx
  · exact Counted.zero.congr fun k => by simp [keyHolders, WorkManager.view, WorkManager.new, unfinished]
  · exact Counted.zero.congr fun tp => by
      simp [partitionHolders, WorkManager.view, WorkManager.new, unfinished]
  · intro id hid; cases hid
  · intro x hx; cases hx
  · intro id
    constructor
    · intro hid; cases hid
    · rintro ⟨x, hx, -⟩; cases hx
  · intro tp key x hx; cases hx
  · intro tp key x hx; cases hx

theorem accounted_reachable {c : WorkManagerConfig} {s : WorkManager κ π}
    (h : (workMachine κ π c).ReachableBy HarmlessPoll s) : Accounted c s.view := by
  refine (workMachine κ π c).invariant (I := fun s => Accounted c s.view) ?_ ?_ h
  · rintro s ⟨circuit, rfl⟩; exact accounted_new c circuit
  · intro s a hi he hc
    refine WorkManager.next_induction (fun _ _ hv hs => hv.step hs) (Accounted.reports c)
      (fun _ hv id x hx => (hv.items.filed id x hx).1) (fun _ hv => hv.queues.tracked) hi he ?_
    rintro env events after rfl
    exact hc

/-- **The ledger is exact.** Along every run whose polls are harmless: the in-flight count is the
number of unfinished items, the lock tables count them by key or partition, the queued total is the
size of the queues, and no item is handed over after a completion or forced failure for it was
processed. When nothing is unfinished the count is zero and no lock is held. -/
theorem ledger_exact (c : WorkManagerConfig) {s : WorkManager κ π}
    (h : (workMachine κ π c).ReachableBy HarmlessPoll s) :
    s.currentInFlightCount = (unfinished s.log).length ∧
    Counted s.keyInFlightCounts s.keysInFlight (keyHolders c (unfinished s.log)) ∧
    Counted s.partitionInFlightCounts s.partitionsInFlight (partitionHolders c (unfinished s.log)) ∧
    s.totalQueuedMessages = s.queueTopology.totalSize ∧
    (∀ newer lease older, s.log = newer ++ .handed lease :: older →
      ∀ x ∈ lease, Untouched x.id older) ∧
    (unfinished s.log = [] →
      s.currentInFlightCount = 0 ∧ s.keysInFlight = [] ∧ s.partitionsInFlight = []) := by
  have hinv := accounted_reachable h
  have hcount : s.currentInFlightCount = (unfinished s.log).length := hinv.exact.count
  have hkeys : Counted s.keyInFlightCounts s.keysInFlight (keyHolders c (unfinished s.log)) :=
    hinv.exact.locks.keys
  have hparts : Counted s.partitionInFlightCounts s.partitionsInFlight
      (partitionHolders c (unfinished s.log)) := hinv.exact.locks.partitions
  refine ⟨hcount, hkeys, hparts, hinv.queues.total, ?_, ?_⟩
  · intro newer lease older hlog
    have huntouched : HandedUntouched s.log := hinv.handedUntouched
    rw [hlog] at huntouched
    exact handedUntouched_split newer huntouched
  · intro hnil
    refine ⟨by rw [hcount, hnil]; rfl, ?_, ?_⟩
    · refine List.eq_nil_iff_forall_not_mem.mpr fun k hk => ?_
      have := (hkeys.mem_iff k).mp hk
      rw [hnil] at this
      simp [keyHolders] at this
    · refine List.eq_nil_iff_forall_not_mem.mpr fun tp htp => ?_
      have := (hparts.mem_iff tp).mp htp
      rw [hnil] at this
      simp [partitionHolders] at this

section Examples

def keyHashConfig : WorkManagerConfig :=
  { orderingMode := .keyHash, routeBatchSize_pos := Nat.one_pos }

/-- The completion of the `n`-th item, at offset `n` of the partition. -/
def completionOf (n : Nat) : CompletionEvent :=
  { id := .uuid n, tp := ⟨"t", 0⟩, offset := n, epoch := 0, status := .success, error := none
    attempt := 1 }

/-- Assign, submit one message, hand it over and poll its completion. -/
def dispatchOne : List (WorkAction Nat Unit) :=
  [.assign [(⟨"t", 0⟩, .offset 0)], .submit [((⟨"t", 0⟩, 7), [⟨0, 0, (), none⟩])],
   .schedule (acceptingEnv Nat Unit)]

theorem ledger_exact_dispatchOne :
    let M := workMachine Nat Unit keyHashConfig
    let s := M.run (.new none) (dispatchOne ++ [.poll (acceptingEnv Nat Unit) [completionOf 0] true])
    (handedItems s.log).length = 1 ∧ unfinished s.log = [] ∧ s.currentInFlightCount = 0 ∧
      s.keysInFlight = [] := by
  intro M s
  have hpoll : HarmlessPoll (M.run (.new none) dispatchOne) (.poll (acceptingEnv Nat Unit) [completionOf 0] true) := by
    intro e he x hx
    have hqueue : (M.run (.new none) dispatchOne).completionQueue = [] := by decide
    rw [hqueue, List.nil_append, List.mem_singleton] at he
    subst he
    have hget : (M.run (.new none) dispatchOne).view.ledger.get? (completionOf 0).id =
        some ⟨.uuid 0, ⟨"t", 0⟩, 0, 0, 7, (), 0, some 7⟩ := by decide
    rw [hget] at hx
    cases hx
    exact ⟨by decide, fun _ => ⟨some 0, by decide, .inl rfl⟩⟩
  have hreach : M.ReachableBy HarmlessPoll s :=
    M.reachableBy_run _ (.start ⟨none, rfl⟩) ⟨⟨by decide, by decide⟩, trivial, trivial, trivial,
      acceptsPrefix_acceptingEnv, trivial, acceptsPrefix_acceptingEnv, hpoll, trivial⟩
  have hnil : unfinished s.log = [] := by decide
  have hexact := (ledger_exact keyHashConfig hreach).2.2.2.2.2 hnil
  exact ⟨by decide, hnil, hexact.1, hexact.2.1⟩

/-- `force_fail` on a queued message, a poll that processes it, and the completion from the engine. -/
def forceFailQueued : List (WorkAction Nat Unit) :=
  [.assign [(⟨"t", 0⟩, .offset 0)], .submit [((⟨"t", 0⟩, 7), [⟨0, 0, (), none⟩])],
   .forceFail ⟨"t", 0⟩ 0 0 "blocked" 3, .poll (acceptingEnv Nat Unit) [] true,
   .poll (acceptingEnv Nat Unit) [completionOf 0] true]

/-- **The leak.** The forced failure of a queued item is processed, the item is then handed over, and
after its completion the in-flight count is one and its key is locked with nothing unfinished. -/
theorem ledger_leaks_after_forceFail :
    ∃ s : WorkManager Nat Unit, (workMachine Nat Unit keyHashConfig).Reachable s ∧
      unfinished s.log = [] ∧ s.currentInFlightCount = 1 ∧ s.keysInFlight = [(⟨"t", 0⟩, 7)] ∧
      ∃ newer lease older, s.log = newer ++ .handed lease :: older ∧
        ∃ x ∈ lease, ¬ Untouched x.id older := by
  let M := workMachine Nat Unit keyHashConfig
  refine ⟨M.run (.new none) forceFailQueued, ?_, by decide, by decide, by decide,
    [.processed (completionOf 0)], [⟨.uuid 0, ⟨"t", 0⟩, 0, 0, 7, (), 0, some 7⟩],
    [.processed ⟨.uuid 0, ⟨"t", 0⟩, 0, 0, .failure, some "blocked", 3⟩,
      .enqueued ⟨.uuid 0, ⟨"t", 0⟩, 0, 0, 7, (), 0, some 7⟩, .assigned ⟨"t", 0⟩],
    by decide, _, List.mem_singleton_self _, fun h => h.1 rfl⟩
  refine M.reachableBy_run _ (.start ⟨none, rfl⟩) ?_
  exact ⟨⟨by decide, by decide⟩, trivial, trivial, trivial, trivial, trivial,
    acceptsPrefix_acceptingEnv, trivial, acceptsPrefix_acceptingEnv, trivial, trivial⟩

end Examples

end PyrallelConsumer
