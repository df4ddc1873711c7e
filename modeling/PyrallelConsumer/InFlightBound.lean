import PyrallelConsumer.WorkMemory
import Mathlib.Data.Finset.Card

/-!
# PyrallelConsumer.InFlightBound

What the in-flight count says in every run, whatever is forced to fail, reported twice or revoked. A forced
failure of a queued item can make the count too large (`ledger_leaks_after_forceFail`); it is never too
small.

* `Stamped` — every unfinished item has a dispatch timestamp, and the count covers the timestamps.
* `Awaited` — an item that the poison circuit took off its queue has an event that waits.
* `unfinished_bounded` — at most `max_in_flight_messages` items are ever unfinished.
-/

set_option linter.unusedSectionVars false

namespace PyrallelConsumer

open WorkLog

variable {κ π : Type} [DecidableEq κ]

/-- Every unfinished item has a dispatch timestamp, and the count covers the timestamps. -/
structure WorkView.Stamped (c : WorkManagerConfig) (v : WorkView κ π) : Prop where
  unfinished : ∀ x ∈ unfinished v.log, x.id ∈ v.timestamps
  count : v.timestamps.toFinset.card ≤ v.count
  capacity : (v.count : Int) ≤ max 0 c.maxInFlightMessages

/-- A step, whatever it reports. -/
theorem WorkInv.anyStep {c : WorkManagerConfig} {v v' : WorkView κ π} (h : WorkInv c v)
    (hs : WorkStep c (fun _ _ => True) v v') : WorkInv c v' := h.step hs

/-- Every item that is off its queue and was not handed over is named by one of the events. -/
def WorkView.Awaited (v : WorkView κ π) (events : List CompletionEvent) : Prop :=
  ∀ x ∈ outstanding v.log, x ∈ unfinished v.log ∨ ∃ e ∈ events, e.id = x.id

namespace WorkView

variable {c : WorkManagerConfig} {v v' : WorkView κ π} {events : List CompletionEvent}

/-! ## Steps -/

theorem unfinished_enqueueAll (items : List (WorkItem κ π)) (l : List (Entry κ π)) :
    WorkLog.unfinished (enqueueAll items l) = WorkLog.unfinished l :=
  enqueueAll_congr (fun _ _ => rfl) items l

/-- The accounts are the same, and so are the unfinished items. -/
theorem Stamped.same (h : v.Stamped c) (hlog : WorkLog.unfinished v'.log = WorkLog.unfinished v.log)
    (hts : v'.timestamps = v.timestamps) (hcount : v'.count = v.count) : v'.Stamped c := by
  refine ⟨fun x hx => ?_, ?_, ?_⟩
  · rw [hts]
    exact h.unfinished x (hlog ▸ hx)
  · rw [hts, hcount]
    exact h.count
  · rw [hcount]
    exact h.capacity

theorem Stamped.hand (h : v.Stamped c) {k : QueueKey κ} {lease : List (WorkItem κ π)}
    (hh : HandedOver c v k lease v') : v'.Stamped c := by
  refine ⟨fun x hx => ?_, ?_, ?_⟩
  · rw [hh.log] at hx
    refine (hh.timestamps x.id).mpr ?_
    rcases List.mem_append.mp hx with hx | hx
    · exact .inr ⟨x, hx, rfl⟩
    · exact .inl (h.unfinished x hx)
  · have hsub : v'.timestamps.toFinset ⊆ v.timestamps.toFinset ∪ (lease.map (·.id)).toFinset := by
      intro id hid
      rw [Finset.mem_union, List.mem_toFinset, List.mem_toFinset, List.mem_map]
      exact (hh.timestamps id).mp (List.mem_toFinset.mp hid)
    have hlease : (lease.map (·.id)).toFinset.card ≤ lease.length := by
      simpa using List.toFinset_card_le (lease.map (·.id))
    calc v'.timestamps.toFinset.card
        ≤ (v.timestamps.toFinset ∪ (lease.map (·.id)).toFinset).card := Finset.card_le_card hsub
      _ ≤ v.timestamps.toFinset.card + (lease.map (·.id)).toFinset.card := Finset.card_union_le _ _
      _ ≤ v.count + lease.length := Nat.add_le_add h.count hlease
      _ = v'.count := hh.count.symm
  · exact hh.capacity.trans (le_max_right _ _)

/-- An id loses its timestamp, and its place in the count if it had one. -/
theorem card_forget {ts ts' : List WorkId} {id : WorkId} (hts : ∀ i, i ∈ ts' ↔ i ∈ ts ∧ i ≠ id) :
    ts'.toFinset.card = if id ∈ ts then ts.toFinset.card - 1 else ts.toFinset.card := by
  have herase : ts'.toFinset = ts.toFinset.erase id := by
    ext i
    rw [Finset.mem_erase, List.mem_toFinset, List.mem_toFinset, hts i]
    exact And.comm
  rw [herase, Finset.card_erase_eq_ite]
  simp only [List.mem_toFinset]

theorem card_released {id : WorkId} {x : WorkItem κ π} (h : LedgerRelease c v id x v')
    (hcount : v.timestamps.toFinset.card ≤ v.count) :
    v'.timestamps.toFinset.card ≤ v'.count ∧ v'.count ≤ v.count := by
  rw [card_forget h.timestamps, h.count]
  split <;> omega

theorem Stamped.process (h : v.Stamped c) {e : CompletionEvent} (hlog : v'.log = .processed e :: v.log)
    (hts : ∀ id, id ∈ v'.timestamps ↔ id ∈ v.timestamps ∧ id ≠ e.id)
    (hcount : v'.timestamps.toFinset.card ≤ v'.count) (hle : v'.count ≤ v.count) : v'.Stamped c := by
  refine ⟨fun x hx => ?_, hcount, (Int.ofNat_le.mpr hle).trans h.capacity⟩
  rw [hlog] at hx
  obtain ⟨hx, hne⟩ := List.mem_filter.mp hx
  exact (hts x.id).mpr ⟨h.unfinished x hx, by simpa using hne⟩

theorem Stamped.complete (h : v.Stamped c) {e : CompletionEvent} {x : WorkItem κ π}
    (hc : CompletedItem c v e x v') : v'.Stamped c :=
  h.process hc.log hc.timestamps (card_released hc.toLedgerRelease h.count).1
    (card_released hc.toLedgerRelease h.count).2

theorem Stamped.ignore (h : v.Stamped c) {e : CompletionEvent} (hi : IgnoredEvent v e v') : v'.Stamped c := by
  refine h.process hi.log hi.timestamps ?_ hi.count.le
  have hcount := h.count
  rw [card_forget hi.timestamps, hi.count]
  split <;> omega

theorem nodup_unfinished (l : List (Entry κ π)) :
    ((handedItems l).map (·.id)).Nodup → ((WorkLog.unfinished l).map (·.id)).Nodup := by
  induction l with
  | nil => exact id
  | cons entry l ih =>
    cases entry with
    | handed lease =>
      intro h
      simp only [handedItems, WorkLog.unfinished, List.map_append] at h ⊢
      obtain ⟨hl, hlease, hdisj⟩ := List.nodup_append'.mp h
      refine hlease.append (ih hl) fun id hid hid' => hdisj ?_ hid
      obtain ⟨x, hx, rfl⟩ := List.mem_map.mp hid'
      exact List.mem_map_of_mem (mem_handedItems_of_unfinished l hx)
    | processed e => exact fun h => (ih h).sublist (List.filter_sublist.map _)
    | revoked tps => exact fun h => (ih h).sublist (List.filter_sublist.map _)
    | _ => exact ih

/-! ## Events that wait -/

theorem Awaited.same (h : v.Awaited events) (hout : outstanding v'.log = outstanding v.log)
    (hun : WorkLog.unfinished v'.log = WorkLog.unfinished v.log) : v'.Awaited events := by
  intro x hx
  rw [hun]
  exact h x (hout ▸ hx)

theorem Awaited.mono (h : v.Awaited events) {events' : List CompletionEvent} (hsub : events ⊆ events') :
    v.Awaited events' := fun x hx => (h x hx).imp_right fun ⟨e, he, hid⟩ => ⟨e, hsub he, hid⟩

theorem Awaited.revoke (h : v.Awaited events) {tps : List TopicPartition} (hlog : v'.log = .revoked tps :: v.log) :
    v'.Awaited events := by
  intro x hx
  rw [hlog] at hx ⊢
  obtain ⟨hx, htp⟩ := List.mem_filter.mp hx
  exact (h x hx).imp_left fun hun => List.mem_filter.mpr ⟨hun, htp⟩

theorem Awaited.hand (h : v.Awaited events) {lease : List (WorkItem κ π)} (hlog : v'.log = .handed lease :: v.log) :
    v'.Awaited events := by
  intro x hx
  rw [hlog] at hx ⊢
  rcases List.mem_append.mp hx with hx | hx
  · exact .inl (List.mem_append_left _ hx)
  · exact (h x hx).imp_left fun hun => List.mem_append_right _ hun

theorem Awaited.poison (h : v.Awaited v.completionQueue) {k : QueueKey κ} {x : WorkItem κ π}
    (hp : PoisonedHead v k x v') : v'.Awaited v'.completionQueue := by
  obtain ⟨e, hid, -, hqueue⟩ := hp.completionQueue
  intro y hy
  rw [hp.log] at hy ⊢
  rw [hqueue]
  rcases List.mem_cons.mp hy with rfl | hy
  · exact .inr ⟨e, by simp, hid⟩
  · exact (h y hy).imp_right fun ⟨e', he', hid'⟩ => ⟨e', List.mem_append_left _ he', hid'⟩

/-- The event that is processed need not wait any more. -/
theorem Awaited.process {e : CompletionEvent} (h : v.Awaited (e :: events))
    (hlog : v'.log = .processed e :: v.log) : v'.Awaited events := by
  intro x hx
  rw [hlog] at hx ⊢
  obtain ⟨hx, hne⟩ := List.mem_filter.mp hx
  rcases h x hx with hun | ⟨e', he', hid⟩
  · exact .inl (List.mem_filter.mpr ⟨hun, hne⟩)
  · rcases List.mem_cons.mp he' with rfl | he'
    · exact absurd hid.symm (by simpa using hne)
    · exact .inr ⟨e', he', hid⟩

/-- The count is right or too large, and nothing is off its queue unnoticed. -/
structure Watched (c : WorkManagerConfig) (v : WorkView κ π) (events : List CompletionEvent) : Prop where
  work : WorkInv c v
  stamped : v.Stamped c
  awaited : v.Awaited events

end WorkView

namespace WorkManager

open WorkView

variable {c : WorkManagerConfig} {env : Env κ π} {s : WorkManager κ π}

/-! ## The operations -/

theorem watched_schedule (henv : env.AcceptsPrefix) (h : Watched c s.view s.completionQueue) :
    Watched c (s.schedule c env).view (s.schedule c env).completionQueue := by
  refine schedule_induction (P := fun v => Watched c v v.completionQueue) ?_ ?_ henv h
  · intro v v' k x hv hp
    refine ⟨hv.work.anyStep (.poison k x hp), ?_, hv.awaited.poison hp⟩
    exact hv.stamped.same (by rw [hp.log]; rfl) hp.timestamps hp.count
  · intro v v' k lease hv hh
    refine ⟨hv.work.anyStep (.hand k lease hh), hv.stamped.hand hh, ?_⟩
    rw [hh.completionQueue]
    exact hv.awaited.hand hh.log

/-- Every event of the list is processed, and what waits is what waited beside them. -/
theorem watched_processAll (env : Env κ π) (events waiting : List CompletionEvent) :
    ∀ s : WorkManager κ π, Watched c s.view (events ++ waiting) →
      Watched c (s.processAll c env events).2.view waiting ∧
        (s.processAll c env events).2.completionQueue = s.completionQueue := by
  induction events with
  | nil => intro s h; exact ⟨h, rfl⟩
  | cons e events ih =>
    intro s h
    rcases processCompletionEvent_cases c env s (fun id x hx => (h.work.items.filed id x hx).1) e with
      ⟨x, -, hc⟩ | ⟨hi, hkept⟩
    · have hnext := ih (s.processCompletionEvent c env e).2
        ⟨h.work.anyStep (.complete e x trivial hc), h.stamped.complete hc, h.awaited.process hc.log⟩
      exact ⟨hnext.1, hnext.2.trans hc.completionQueue⟩
    · have hnext := ih (s.processCompletionEvent c env e).2
        ⟨h.work.anyStep (.ignore e trivial hi hkept), h.stamped.ignore hi, h.awaited.process hi.log⟩
      exact ⟨hnext.1, hnext.2.trans hi.completionQueue⟩

theorem watched_setCompletionQueue (h : Watched c s.view events) (q : List CompletionEvent) :
    Watched c ({ s with completionQueue := q } : WorkManager κ π).view events := by
  have hwork : WorkInv c ({ s with completionQueue := q } : WorkManager κ π).view :=
    setCompletionQueue_step (fun _ _ hv hs => WorkInv.anyStep (c := c) hv hs) h.work q
  exact ⟨hwork, h.stamped.same rfl rfl rfl, h.awaited⟩

theorem watched_pollLoop (henv : env.AcceptsPrefix) (after : Bool) (fuel : Nat) :
    ∀ (s : WorkManager κ π) (completed : List CompletionEvent), Watched c s.view s.completionQueue →
      Watched c (pollLoop c env after fuel s completed).2.view (pollLoop c env after fuel s completed).2.completionQueue := by
  induction fuel with
  | zero => intro s completed h; exact h
  | succ fuel ih =>
    intro s completed h
    have hall := watched_processAll env s.completionQueue [] { s with completionQueue := [] }
      (watched_setCompletionQueue (by rw [List.append_nil]; exact h) [])
    have hpolled : Watched c (processAll c env { s with completionQueue := [] } s.completionQueue).2.view
        (processAll c env { s with completionQueue := [] } s.completionQueue).2.completionQueue := by
      rw [hall.2]
      exact hall.1
    simp only [pollLoop]
    split
    · exact hpolled
    · split
      · exact watched_schedule henv hpolled
      · exact ih _ _ (watched_schedule henv hpolled)

/-- A release forgets the timestamp of the id, and counts one item less if there was one and the ledger
has the item. -/
theorem card_releaseInFlightItem (id : WorkId) (hcount : s.dispatchTimestamps.toFinset.card ≤ s.currentInFlightCount) :
    (releaseInFlightItem c s id false).2.dispatchTimestamps.toFinset.card ≤
        (releaseInFlightItem c s id false).2.currentInFlightCount ∧
      (releaseInFlightItem c s id false).2.currentInFlightCount ≤ s.currentInFlightCount := by
  have hforget := card_forget fun i => @mem_discardKey _ _ s.dispatchTimestamps id i
  cases hx : s.inFlightWorkItems.get? id with
  | none =>
    have heq : (releaseInFlightItem c s id false).2 = s.popDispatchTimestamp id := by
      unfold releaseInFlightItem
      rw [hx]
    rw [heq]
    show (discardKey s.dispatchTimestamps id).toFinset.card ≤ s.currentInFlightCount ∧ _
    rw [hforget]
    exact ⟨by split <;> omega, le_rfl⟩
  | some x =>
    have hts : (releaseInFlightItem c s id false).2.dispatchTimestamps = discardKey s.dispatchTimestamps id ∧
        (releaseInFlightItem c s id false).2.currentInFlightCount =
          if id ∈ s.dispatchTimestamps then s.currentInFlightCount - 1 else s.currentInFlightCount := by
      unfold releaseInFlightItem
      rw [hx]
      dsimp only
      split
      · obtain ⟨_, _, _, _, heq⟩ := releaseOrderingLock_eq c _ x
        rw [heq]
        exact ⟨rfl, rfl⟩
      · exact ⟨rfl, rfl⟩
    rw [hts.1, hts.2, hforget]
    split <;> omega

theorem card_onRevoke (tps : List TopicPartition) (hcount : s.dispatchTimestamps.toFinset.card ≤ s.currentInFlightCount) :
    (s.onRevoke c tps).dispatchTimestamps.toFinset.card ≤ (s.onRevoke c tps).currentInFlightCount ∧
      (s.onRevoke c tps).currentInFlightCount ≤ s.currentInFlightCount := by
  refine onRevoke_induction c (P := fun t => t.dispatchTimestamps.toFinset.card ≤ t.currentInFlightCount ∧
    t.currentInFlightCount ≤ s.currentInFlightCount) ?_ (fun t id ht => ?_) (fun t ht => ht) fun t ht => ht
  · have hts : (tps.foldl revokeOne s).dispatchTimestamps = s.dispatchTimestamps := (revokeAll_spec tps s).timestamps
    have hsame : (tps.foldl revokeOne s).currentInFlightCount = s.currentInFlightCount := (revokeAll_spec tps s).count
    rw [hts, hsame]
    exact ⟨hcount, le_rfl⟩
  · have hrelease := card_releaseInFlightItem (c := c) id ht.1
    exact ⟨hrelease.1, hrelease.2.trans ht.2⟩

/-- Only the ids of ledger items of revoked partitions lose their timestamps. -/
theorem timestamps_onRevoke (hfiled : s.view.Filed) (tps : List TopicPartition) {id : WorkId} (hid : id ∈ s.dispatchTimestamps)
    (hx : ∀ x, s.inFlightWorkItems.get? id = some x → x.tp ∉ tps) : id ∈ (s.onRevoke c tps).dispatchTimestamps := by
  have hsame := revokeAll_spec tps s
  have hts : (tps.foldl revokeOne s).dispatchTimestamps = s.dispatchTimestamps := hsame.timestamps
  have hledger : (tps.foldl revokeOne s).inFlightWorkItems = s.inFlightWorkItems := hsame.ledger
  have hreleased := releaseAll_spec c ((tps.foldl revokeOne s).staleIds tps) (tps.foldl revokeOne s)
    (by unfold WorkView.Filed; rw [hsame.ledger]; exact hfiled) (nodup_staleIds _ tps) fun id hid => by
      obtain ⟨x, hx, -⟩ := mem_staleIds.mp hid
      rw [hx]; rfl
  have hkept := (hreleased.timestamps id).mpr ⟨by rw [hsame.timestamps]; exact hid, fun hstale => by
    obtain ⟨x, hget, htp⟩ := mem_staleIds.mp hstale
    exact hx x (hledger ▸ hget) htp⟩
  unfold onRevoke
  dsimp only
  split
  · show id ∈ (tps.foldl revokeOne s).dispatchTimestamps
    rw [hts]
    exact hid
  · exact hkept

theorem watched_onRevoke (h : Watched c s.view events) (tps : List TopicPartition) :
    Watched c (s.onRevoke c tps).view events := by
  have hrevoked := onRevoke_spec c s tps h.work.filed
  have hcard := card_onRevoke (c := c) tps h.stamped.count
  refine ⟨h.work.anyStep (.revoke tps hrevoked), ⟨fun x hx => ?_, hcard.1, ?_⟩, h.awaited.revoke hrevoked.log⟩
  · rw [hrevoked.log] at hx
    obtain ⟨hx, htp⟩ := List.mem_filter.mp hx
    refine timestamps_onRevoke h.work.filed tps (h.stamped.unfinished x hx) fun y hy => ?_
    -- the ledger item with the id of an unfinished item is that item
    obtain ⟨hid, hy⟩ := h.work.items.filed x.id y hy
    have hxy : y = x := eq_of_id_eq h.work.items.distinct hy
      (h.work.items.consumed x ((handedItems_sublist_consumedItems _).subset (mem_handedItems_of_unfinished _ hx))) hid
    rw [hxy]
    simpa using htp
  · exact (Int.ofNat_le.mpr hcard.2).trans h.stamped.capacity

/-- **Every operation** keeps the count large enough and the forced failures waiting. -/
theorem watched_next {a : WorkAction κ π} (h : Watched c s.view s.completionQueue) (he : (workMachine κ π c).enabled s a) :
    Watched c ((workMachine κ π c).next s a).view ((workMachine κ π c).next s a).completionQueue := by
  have hwork := workInv_next h.work he
  cases a with
  | newTracker t => exact ⟨hwork, h.stamped.same rfl rfl rfl, h.awaited⟩
  | mutateTracker r t => exact ⟨hwork, h.stamped.same rfl rfl rfl, h.awaited⟩
  | assign l =>
    refine onAssign_induction (P := fun v => Watched c v v.completionQueue) c (fun v v' tp hv hfree ha => ?_) l s he.1
      (fun e hel => ?_) h
    · refine ⟨hv.work.anyStep (.assign tp hfree ha), ?_, ?_⟩
      · exact hv.stamped.same (by rw [ha.log]; rfl) ha.timestamps ha.count
      · rw [ha.completionQueue]
        exact hv.awaited.same (by rw [ha.log]; rfl) (by rw [ha.log]; rfl)
    · have hnone : s.view.epochOf e.1 = none := by simp only [view, epochOf, he.2 e hel, Option.map_none]
      rw [← h.work.queues.tracked, hnone]
      simp
  | revoke tps =>
    have hqueue : (s.onRevoke c tps).completionQueue = s.completionQueue := (onRevoke_spec c s tps h.work.filed).completionQueue
    show Watched c (s.onRevoke c tps).view (s.onRevoke c tps).completionQueue
    rw [hqueue]
    exact watched_onRevoke h tps
  | submit groups =>
    refine submitMessageBatch_induction (P := fun v => Watched c v v.completionQueue) (fun v v' k items hv hq => ?_) groups h
    refine ⟨hv.work.anyStep (.enqueue k items hq), ?_, ?_⟩
    · exact hv.stamped.same (by rw [hq.log, unfinished_enqueueAll]) hq.timestamps hq.count
    · rw [hq.completionQueue]
      exact hv.awaited.same (by rw [hq.log, outstanding_enqueueAll]) (by rw [hq.log, unfinished_enqueueAll])
  | schedule env => exact watched_schedule he h
  | poll env events after =>
    refine watched_pollLoop he after _ _ [] ⟨?_, h.stamped.same rfl rfl rfl, h.awaited.mono (List.subset_append_left _ _)⟩
    exact (watched_setCompletionQueue h _).work
  | forceFail tp offset epoch error attempt =>
    have hview : ∃ q, s.completionQueue ⊆ q ∧ (s.forceFail tp offset epoch error attempt).2.view =
        { s.view with completionQueue := q } := by
      unfold forceFail
      dsimp only
      split
      · exact ⟨_, List.subset_append_left _ _, rfl⟩
      · split
        · exact ⟨_, List.subset_append_left _ _, rfl⟩
        · exact ⟨_, List.Subset.refl _, rfl⟩
    obtain ⟨q, hsub, hview⟩ := hview
    have hqueue : (s.forceFail tp offset epoch error attempt).2.completionQueue = q :=
      (congrArg WorkView.completionQueue hview :)
    refine ⟨hwork, ?_, ?_⟩
    · show (s.forceFail tp offset epoch error attempt).2.view.Stamped c
      rw [hview]
      exact h.stamped.same rfl rfl rfl
    · show (s.forceFail tp offset epoch error attempt).2.view.Awaited (s.forceFail tp offset epoch error attempt).2.completionQueue
      rw [hqueue, hview]
      exact Awaited.mono (v := s.view) h.awaited hsub

theorem watched_reachable (h : (workMachine κ π c).Reachable s) : Watched c s.view s.completionQueue := by
  refine (workMachine κ π c).invariant (I := fun s => Watched c s.view s.completionQueue) ?_ ?_ h
  · rintro s ⟨circuit, rfl⟩
    refine ⟨workInv_new c circuit, ⟨fun x hx => ?_, Nat.zero_le _, le_max_left _ _⟩, fun x hx => ?_⟩
    · cases hx
    · cases hx
  · intro s a hi he _
    exact watched_next hi he

/-- The count is never too small. -/
theorem length_unfinished_le (h : (workMachine κ π c).Reachable s) :
    (unfinished s.log).length ≤ s.currentInFlightCount := by
  have hwatched := watched_reachable h
  have hnodup : ((unfinished s.log).map (·.id)).Nodup := by
    refine nodup_unfinished s.log ?_
    exact hwatched.work.items.once.sublist ((handedItems_sublist_consumedItems _).map _)
  have hsub : ((unfinished s.log).map (·.id)).toFinset ⊆ s.dispatchTimestamps.toFinset := by
    intro id hid
    obtain ⟨x, hx, rfl⟩ := List.mem_map.mp (List.mem_toFinset.mp hid)
    exact List.mem_toFinset.mpr (hwatched.stamped.unfinished x hx)
  calc (unfinished s.log).length
      = ((unfinished s.log).map (·.id)).toFinset.card := by
        rw [List.toFinset_card_of_nodup hnodup, List.length_map]
    _ ≤ s.dispatchTimestamps.toFinset.card := Finset.card_le_card hsub
    _ ≤ s.currentInFlightCount := hwatched.stamped.count

def roomForTwo : WorkManagerConfig :=
  { orderingMode := .keyHash, maxInFlightMessages := 2, routeBatchSize_pos := Nat.one_pos }

def threeKeys : List (WorkAction Nat Unit) :=
  [.assign [(⟨"t", 0⟩, .offset 0)],
   .submit [((⟨"t", 0⟩, 1), [⟨0, 0, (), none⟩]), ((⟨"t", 0⟩, 2), [⟨1, 0, (), none⟩]), ((⟨"t", 0⟩, 3), [⟨2, 0, (), none⟩])],
   .schedule (acceptingEnv Nat Unit)]

end WorkManager

end PyrallelConsumer
