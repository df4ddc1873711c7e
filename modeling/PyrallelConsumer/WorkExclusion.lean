import PyrallelConsumer.WorkInvariant

/-!
# PyrallelConsumer.WorkExclusion

Order and exclusion of the leases of the work manager, in every run: any engine answers, duplicate
and unknown completions, forced failures, the poison circuit and rebalances.

* `LeaseInv` — the lock tables have a holder for every unfinished item.
* `leases_ordered_and_exclusive` — items leave a virtual queue in order and once, a lease never
  overlaps unfinished work of its route, and what is outstanding for a route is one lease.
-/

set_option linter.unusedSectionVars false

namespace PyrallelConsumer

open WorkLog

variable {κ π : Type} [DecidableEq κ]

/-- Every lease was handed over when no item of its routes was unfinished. -/
def LeasesExclude (c : WorkManagerConfig) : List (Entry κ π) → Prop
  | [] => True
  | .handed lease :: l =>
    (∀ x ∈ lease, ∀ y ∈ unfinished l, ¬ SameRoute c x y) ∧ LeasesExclude c l
  | _ :: l => LeasesExclude c l

theorem leasesExclude_split {c : WorkManagerConfig} {lease : List (WorkItem κ π)}
    {older : List (Entry κ π)} (newer : List (Entry κ π))
    (h : LeasesExclude c (newer ++ .handed lease :: older)) :
    ∀ x ∈ lease, ∀ y ∈ unfinished older, ¬ SameRoute c x y := by
  induction newer with
  | nil => exact h.1
  | cons e newer ih =>
    cases e with
    | handed lease' => exact ih h.2
    | _ => exact ih h

/-- The unfinished items of one virtual queue. -/
def outstandingOf (tp : TopicPartition) (key : κ) (l : List (Entry κ π)) : List (WorkItem κ π) :=
  (unfinished l).filter fun x => x.tp = tp ∧ x.key = key

/-- What is outstanding for a virtual queue is what is left of one contiguous lease. -/
def OneLease (c : WorkManagerConfig) (tp : TopicPartition) (key : κ) (l : List (Entry κ π))
    (items : List (WorkItem κ π)) : Prop :=
  ∃ lease, (lease = [] ∨ .handed lease ∈ l) ∧ lease <:+: items ∧
    (outstandingOf tp key l).Sublist lease ∧
    (c.supportsOrderedRouteBatch = false → lease.length ≤ 1)

structure LeaseInv (c : WorkManagerConfig) (v : WorkView κ π) : Prop where
  assigned : ∀ x ∈ unfinished v.log, v.assigned x.tp
  stamped : ∀ id ∈ v.timestamps, ∃ x ∈ consumedItems v.log, x.id = id
  held : ∃ held, Held c v held ∧ (∀ x ∈ unfinished v.log, x ∈ held) ∧
    ∀ x ∈ held, x ∈ consumedItems v.log
  exclude : LeasesExclude c v.log
  oneLease : c.orderingMode = .keyHash →
    ∀ tp key, OneLease c tp key v.log (consumedOf tp key v.log)
  oneItem : c.orderingMode = .partition →
    ∀ tp, ((unfinished v.log).filter fun x => x.tp = tp).length ≤ 1

theorem OneLease.of_nil {c : WorkManagerConfig} {tp : TopicPartition} {key : κ}
    {l : List (Entry κ π)} {items : List (WorkItem κ π)} (h : outstandingOf tp key l = []) :
    OneLease c tp key l items :=
  ⟨[], .inl rfl, ⟨[], items, rfl⟩, by rw [h], fun _ => Nat.zero_le 1⟩

/-- A longer history in which no more is outstanding for the queue. -/
theorem OneLease.mono {c : WorkManagerConfig} {tp : TopicPartition} {key : κ}
    {l l' : List (Entry κ π)} {items items' : List (WorkItem κ π)} (h : OneLease c tp key l items)
    (hlog : ∀ e ∈ l, e ∈ l') (hout : (outstandingOf tp key l').Sublist (outstandingOf tp key l))
    (hitems : items <+: items') : OneLease c tp key l' items' := by
  obtain ⟨lease, hmem, hinfix, hsub, hone⟩ := h
  exact ⟨lease, hmem.imp_right (hlog _), hinfix.trans hitems.isInfix, hout.trans hsub, hone⟩

namespace LeaseInv

variable {c : WorkManagerConfig} {ok : WorkView κ π → CompletionEvent → Prop} {v v' : WorkView κ π}

/-- A step that hands nothing over and takes nothing off a queue. -/
theorem settle (h : LeaseInv c v) (hlog : ∀ e ∈ v.log, e ∈ v'.log)
    (hsub : (unfinished v'.log).Sublist (unfinished v.log))
    (hassigned : ∀ x ∈ unfinished v'.log, v.assigned x.tp → v'.assigned x.tp)
    (hcon : consumedItems v'.log = consumedItems v.log)
    (hts : ∀ id ∈ v'.timestamps, id ∈ v.timestamps)
    (hexcl : LeasesExclude c v'.log = LeasesExclude c v.log)
    (hof : ∀ tp key, consumedOf tp key v'.log = consumedOf tp key v.log ∨
      outstandingOf tp key v'.log = [])
    (hheld : ∀ held, Held c v held → ∃ held', Held c v' held' ∧ (∀ x ∈ held', x ∈ held) ∧
      ∀ x ∈ unfinished v'.log, x ∈ held → x ∈ held') : LeaseInv c v' := by
  refine ⟨?_, ?_, ?_, hexcl ▸ h.exclude, ?_, ?_⟩
  · exact fun x hx => hassigned x hx (h.assigned x (hsub.subset hx))
  · rw [hcon]; exact fun id hid => h.stamped id (hts id hid)
  · obtain ⟨held, hh, hun, hc⟩ := h.held
    obtain ⟨held', hh', hsub', hkeep⟩ := hheld held hh
    refine ⟨held', hh', fun x hx => hkeep x hx (hun x (hsub.subset hx)), fun x hx => ?_⟩
    rw [hcon]
    exact hc x (hsub' x hx)
  · intro hm tp key
    rcases hof tp key with heq | hnil
    · rw [heq]
      exact (h.oneLease hm tp key).mono hlog (hsub.filter _) List.prefix_rfl
    · exact .of_nil hnil
  · intro hm tp
    exact le_trans (hsub.filter _).length_le (h.oneItem hm tp)

theorem quiet (h : LeaseInv c v) (hq : QuietStep v v') : LeaseInv c v' := by
  refine h.settle ?_ ?_ ?_ ?_ ?_ ?_ ?_ ?_
  · rw [hq.log]; exact fun _ he => he
  · rw [hq.log]
  · rw [hq.assigned]; exact fun _ _ hx => hx
  · rw [hq.log]
  · rw [hq.timestamps]; exact fun _ hid => hid
  · rw [hq.log]
  · intro tp key; rw [hq.log]; exact .inl rfl
  · exact fun held hh => ⟨held, hh.same hq.toSameAccounts, fun _ hx => hx, fun _ _ hx => hx⟩

theorem assign (h : LeaseInv c v) {tp : TopicPartition} (hfree : ¬ v.assigned tp)
    (ha : AssignedPartition v tp v') : LeaseInv c v' := by
  refine h.settle ?_ ?_ ?_ ?_ ?_ ?_ ?_ ?_
  · rw [ha.log]; exact fun _ he => List.mem_cons_of_mem _ he
  · rw [ha.log]; exact List.Sublist.refl _
  · exact fun x _ hx => (ha.assigned x.tp).mpr (.inr hx)
  · rw [ha.log]; rfl
  · rw [ha.timestamps]; exact fun _ hid => hid
  · rw [ha.log]; rfl
  · -- a partition that was not assigned has nothing outstanding
    intro tp' key
    by_cases heq : tp = tp'
    · right
      rw [ha.log]
      refine List.filter_eq_nil_iff.mpr fun x hx hroute => hfree ?_
      rw [heq, ← (of_decide_eq_true hroute).1]
      exact h.assigned x hx
    · left
      rw [ha.log]
      simp only [consumedOf, if_neg heq]
  · exact fun held hh => ⟨held, hh.same ha.toSameAccounts, fun _ hx => hx, fun _ _ hx => hx⟩

theorem revoke (h : LeaseInv c v) {tps : List TopicPartition} (hr : RevokedPartitions c v tps v') :
    LeaseInv c v' := by
  have hun : unfinished v'.log = (unfinished v.log).filter fun x => x.tp ∉ tps := by
    rw [hr.log]; rfl
  have hkept : ∀ x ∈ unfinished v'.log, x.tp ∉ tps := by
    intro x hx
    rw [hun] at hx
    exact of_decide_eq_true (List.mem_filter.mp hx).2
  refine h.settle ?_ ?_ ?_ ?_ hr.timestamps ?_ ?_ ?_
  · rw [hr.log]; exact fun _ he => List.mem_cons_of_mem _ he
  · rw [hun]; exact List.filter_sublist
  · exact fun x hx hax => (hr.assigned x.tp).mpr ⟨hkept x hx, hax⟩
  · rw [hr.log]; rfl
  · rw [hr.log]; rfl
  · intro tp key
    by_cases hm : tp ∈ tps
    · right
      refine List.filter_eq_nil_iff.mpr fun x hx hroute => hkept x hx ?_
      rw [(of_decide_eq_true hroute).1]
      exact hm
    · left
      rw [hr.log]
      simp only [consumedOf, if_neg hm]
  · intro held hh
    refine ⟨_, hr.held held hh, fun x hx => List.mem_of_mem_filter hx, fun x hx hxh => ?_⟩
    exact List.mem_filter.mpr ⟨hxh, decide_eq_true (hkept x hx)⟩

theorem enqueue (h : LeaseInv c v) (hi : ItemInv v) {k : QueueKey κ} {items : List (WorkItem κ π)}
    (he : EnqueuedItems v k items v') : LeaseInv c v' := by
  have hun : unfinished v'.log = unfinished v.log := by
    rw [he.log]; exact enqueueAll_congr (fun _ _ => rfl) items v.log
  refine h.settle ?_ (by rw [hun]) ?_ ?_ ?_ ?_ ?_ ?_
  · rw [he.log]
    intro e hel
    have : ∀ (items : List (WorkItem κ π)) (l : List (Entry κ π)), e ∈ l → e ∈ enqueueAll items l := by
      intro items
      induction items with
      | nil => intro l hl; exact hl
      | cons x items ih => intro l hl; exact ih _ (List.mem_cons_of_mem _ hl)
    exact this items v.log hel
  · rw [he.assigned]; exact fun _ _ hx => hx
  · rw [he.log]; exact enqueueAll_congr (fun _ _ => rfl) items v.log
  · rw [he.timestamps]; exact fun _ hid => hid
  · rw [he.log]; exact enqueueAll_congr (fun _ _ => rfl) items v.log
  · intro tp key
    left
    rw [he.log]
    exact enqueueAll_congr (fun _ _ => rfl) items v.log
  · -- no timestamp is of a fresh item
    intro held hh
    have hold : ∀ id ∈ v.timestamps, ∀ y ∈ items, y.id ≠ id := by
      intro id hid
      obtain ⟨x, hx, rfl⟩ := h.stamped id hid
      obtain ⟨n, hn, hxn⟩ := hi.drawn x (hi.consumed x hx)
      rw [hxn]
      exact WorkManager.uuid_ne_of_mem_range' he.ids hn
    refine ⟨held, ⟨?_, ?_, hh.distinct, ?_⟩, fun _ hx => hx, fun _ _ hx => hx⟩
    · intro id x hx
      exact ((hi.enqueue he).filed id x hx).1
    · exact hh.locks.congr he.keys he.keyCounts he.partitions he.partitionCounts fun _ => rfl
    · intro id hid x hx
      rw [he.timestamps] at hid
      rw [he.others id (hold id hid)] at hx
      exact hh.dispatched id hid x hx

theorem processed (h : LeaseInv c v) {e : CompletionEvent} (hs : SameWork v v')
    (hlog : v'.log = .processed e :: v.log) (hts : ∀ id ∈ v'.timestamps, id ∈ v.timestamps)
    (hheld : ∀ held, Held c v held → ∃ held', Held c v' held' ∧ (∀ x ∈ held', x ∈ held) ∧
      ∀ x ∈ held, x.id ≠ e.id → x ∈ held') : LeaseInv c v' := by
  have hun : unfinished v'.log = (unfinished v.log).filter fun x => x.id ≠ e.id := by
    rw [hlog]; rfl
  refine h.settle ?_ ?_ ?_ ?_ hts ?_ ?_ ?_
  · rw [hlog]; exact fun _ he => List.mem_cons_of_mem _ he
  · rw [hun]; exact List.filter_sublist
  · rw [hs.assigned]; exact fun _ _ hx => hx
  · rw [hlog]; rfl
  · rw [hlog]; rfl
  · intro tp key; rw [hlog]; exact .inl rfl
  · intro held hh
    obtain ⟨held', hh', hsub, hkeep⟩ := hheld held hh
    refine ⟨held', hh', hsub, fun x hx hxh => hkeep x hxh ?_⟩
    rw [hun] at hx
    exact of_decide_eq_true (List.mem_filter.mp hx).2

theorem complete (h : LeaseInv c v) {e : CompletionEvent} {x : WorkItem κ π}
    (hc : CompletedItem c v e x v') : LeaseInv c v' := by
  refine h.processed hc.toSameWork hc.log (fun id hid => ((hc.timestamps id).mp hid).1) ?_
  intro held hh
  refine ⟨_, hh.released hc.toLedgerRelease, fun y hy => List.mem_of_mem_filter hy, ?_⟩
  intro y hy hne
  exact List.mem_filter.mpr ⟨hy, decide_eq_true fun hid => hne hid.1⟩

theorem ignore (h : LeaseInv c v) {e : CompletionEvent} (hi : IgnoredEvent v e v') :
    LeaseInv c v' :=
  h.processed hi.toSameWork hi.log (fun id hid => ((hi.timestamps id).mp hid).1)
    fun held hh => ⟨held, hh.ignored hi, fun _ hx => hx, fun _ hx _ => hx⟩

theorem poison (h : LeaseInv c v) {k : QueueKey κ} {x : WorkItem κ π} (hp : PoisonedHead v k x v') :
    LeaseInv c v' := by
  have hun : unfinished v'.log = unfinished v.log := by rw [hp.log]; rfl
  have hcon : ∀ y ∈ consumedItems v.log, y ∈ consumedItems v'.log := by
    rw [hp.log]; exact fun y hy => List.mem_append_left _ hy
  refine ⟨?_, ?_, ?_, ?_, ?_, ?_⟩
  · rw [hun, hp.assigned]; exact h.assigned
  · intro id hid
    rw [hp.timestamps] at hid
    obtain ⟨y, hy, hid⟩ := h.stamped id hid
    exact ⟨y, hcon y hy, hid⟩
  · obtain ⟨held, hh, hsub, hheld⟩ := h.held
    refine ⟨held, hh.same ⟨hp.timestamps, hp.ledger, hp.count, hp.keys, hp.keyCounts, hp.partitions,
      hp.partitionCounts⟩, by rw [hun]; exact hsub, fun y hy => hcon y (hheld y hy)⟩
  · rw [hp.log]; exact h.exclude
  · intro hm tp key
    refine (h.oneLease hm tp key).mono ?_ ?_ ?_
    · rw [hp.log]; exact fun _ he => List.mem_cons_of_mem _ he
    · unfold outstandingOf; rw [hun]
    · rw [hp.log]
      simp only [consumedOf]
      split
      · exact List.prefix_append _ _
      · exact List.prefix_rfl
  · rw [hun]; exact h.oneItem

theorem hand (h : LeaseInv c v) (hq : QueueInv v) (hi : ItemInv v) {k : QueueKey κ}
    {lease : List (WorkItem κ π)} (hh : HandedOver c v k lease v') : LeaseInv c v' := by
  have hun : unfinished v'.log = lease ++ unfinished v.log := by rw [hh.log]; rfl
  have hcon : consumedItems v'.log = consumedItems v.log ++ lease := by rw [hh.log]; rfl
  have hmem : ∀ x ∈ lease, x ∈ v.queueOf k.1 k.2 := fun x hx => hh.isPrefix.subset hx
  have hroute : ∀ x ∈ lease, x.tp = k.1 ∧ x.key = k.2 := fun x hx => hq.route (hmem x hx)
  obtain ⟨x0, hx0⟩ := List.exists_mem_of_ne_nil lease hh.ne_nil
  obtain ⟨held, hheld, hsub, hheldcon⟩ := h.held
  have hexcl : ∀ x ∈ lease, ∀ y ∈ unfinished v.log, ¬ SameRoute c x y := fun x hx y hy =>
    hheld.locks.not_sameRoute hh.free (hroute x hx) (hsub y hy)
  refine ⟨?_, ?_, ⟨lease ++ held, ⟨?_, ?_, ?_, ?_⟩, ?_, ?_⟩, ?_, ?_, ?_⟩
  · intro x hx
    rw [hun] at hx
    rw [hh.assigned]
    rcases List.mem_append.mp hx with hx | hx
    · rw [(hroute x hx).1]; exact hq.assigned_of_mem (hmem x hx)
    · exact h.assigned x hx
  · intro id hid
    rw [hcon]
    rcases (hh.timestamps id).mp hid with hid | ⟨x, hx, hid⟩
    · obtain ⟨x, hx, hid⟩ := h.stamped id hid
      exact ⟨x, List.mem_append_left _ hx, hid⟩
    · exact ⟨x, List.mem_append_right _ hx, hid⟩
  · unfold WorkView.Filed; rw [hh.ledger]; exact hheld.filed
  · exact hh.locks held hheld.locks
  · rw [List.map_append]
    refine List.Nodup.append ?_ hheld.distinct ?_
    · exact (hi.queue_distinct hq k.1 k.2).sublist (hh.isPrefix.sublist.map _)
    · intro id hx hy
      obtain ⟨x, hxl, hxid⟩ := List.mem_map.mp hx
      obtain ⟨y, hyh, hyid⟩ := List.mem_map.mp hy
      exact hi.id_ne_consumed hq (hmem x hxl) (hheldcon y hyh) (hxid.trans hyid.symm)
  · intro id hid y hy
    rw [hh.ledger] at hy
    rcases (hh.timestamps id).mp hid with hid | ⟨x, hx, hid⟩
    · exact List.mem_append_right _ (hheld.dispatched id hid y hy)
    · -- the ledger item with the id of a leased item is that item
      obtain ⟨hyid, hyenq⟩ := hi.filed id y hy
      have : y = x := eq_of_id_eq hi.distinct hyenq (hq.mem_enqueuedItems (hmem x hx))
        (hyid.trans hid.symm)
      exact List.mem_append_left _ (this ▸ hx)
  · intro x hx
    rw [hun] at hx
    rcases List.mem_append.mp hx with hx | hx
    · exact List.mem_append_left _ hx
    · exact List.mem_append_right _ (hsub x hx)
  · intro x hx
    rw [hcon]
    rcases List.mem_append.mp hx with hx | hx
    · exact List.mem_append_right _ hx
    · exact List.mem_append_left _ (hheldcon x hx)
  · rw [hh.log]; exact ⟨hexcl, h.exclude⟩
  · intro hm tp key
    have hof : consumedOf tp key v'.log =
        consumedOf tp key v.log ++ if k.1 = tp ∧ k.2 = key then lease else [] := by
      rw [hh.log]
      simp only [consumedOf, filter_route tp key hroute]
    have hout : outstandingOf tp key v'.log =
        (if k.1 = tp ∧ k.2 = key then lease else []) ++ outstandingOf tp key v.log := by
      unfold outstandingOf
      rw [hun, List.filter_append, filter_route tp key hroute]
    by_cases hk : k.1 = tp ∧ k.2 = key
    · -- the served queue: nothing else of it is outstanding
      have hnil : outstandingOf tp key v.log = [] := by
        refine List.filter_eq_nil_iff.mpr fun y hy hyr => hexcl x0 hx0 y hy ?_
        have hyr := of_decide_eq_true hyr
        rw [SameRoute, hm]
        exact ⟨(hroute x0 hx0).1.trans (hk.1.trans hyr.1.symm),
          (hroute x0 hx0).2.trans (hk.2.trans hyr.2.symm)⟩
      rw [if_pos hk] at hof hout
      refine ⟨lease, .inr (by rw [hh.log]; exact List.mem_cons_self), ?_, ?_, ?_⟩
      · rw [hof]; exact (List.suffix_append _ _).isInfix
      · rw [hout, hnil, List.append_nil]
      · exact fun hs => hh.single (.inr ⟨hm, hs⟩)
    · rw [if_neg hk] at hof hout
      rw [List.append_nil] at hof
      rw [hof]
      refine (h.oneLease hm tp key).mono ?_ ?_ List.prefix_rfl
      · rw [hh.log]; exact fun _ he => List.mem_cons_of_mem _ he
      · rw [hout]; exact List.Sublist.refl _
  · intro hm tp
    rw [hun, List.filter_append, List.length_append]
    by_cases htp : k.1 = tp
    · have hnil : ((unfinished v.log).filter fun x => x.tp = tp) = [] := by
        refine List.filter_eq_nil_iff.mpr fun y hy hyr => hexcl x0 hx0 y hy ?_
        rw [SameRoute, hm]
        exact (hroute x0 hx0).1.trans (htp.trans (of_decide_eq_true hyr).symm)
      rw [hnil, List.length_nil, Nat.add_zero]
      exact le_trans (List.length_filter_le _ _) (hh.single (.inl hm))
    · have hnil : (lease.filter fun x => x.tp = tp) = [] :=
        List.filter_eq_nil_iff.mpr fun y hy hyr =>
          htp ((hroute y hy).1.symm.trans (of_decide_eq_true hyr))
      rw [hnil, List.length_nil, Nat.zero_add]
      exact h.oneItem hm tp

theorem step (h : LeaseInv c v) (hq : QueueInv v) (hi : ItemInv v) (hs : WorkStep c ok v v') :
    LeaseInv c v' := by
  cases hs with
  | quiet hs => exact h.quiet hs
  | assign tp hfree ha => exact h.assign hfree ha
  | revoke tps hr => exact h.revoke hr
  | enqueue k items he => exact h.enqueue hi he
  | poison k x hp => exact h.poison hp
  | hand k lease hh => exact h.hand hq hi hh
  | complete e x hok hc => exact h.complete hc
  | ignore e hok hg hkept => exact h.ignore hg

end LeaseInv

/-! ## Every run -/

structure WorkInv (c : WorkManagerConfig) (v : WorkView κ π) : Prop where
  queues : QueueInv v
  items : ItemInv v
  leases : LeaseInv c v

theorem queueInv_new (circuit : Option (PoisonMessageCircuitBreaker κ)) :
    QueueInv (WorkManager.new (π := π) circuit).view :=
  { total := rfl
    tracked := fun _ => Iff.rfl
    unassigned := fun _ _ _ => rfl
    fifo := fun _ _ => rfl }

theorem workInv_new (c : WorkManagerConfig) (circuit : Option (PoisonMessageCircuitBreaker κ)) :
    WorkInv c (WorkManager.new (π := π) circuit).view := by
  refine ⟨queueInv_new circuit, ⟨?_, List.nodup_nil, List.nodup_nil, ?_, ?_, ?_⟩, ?_⟩
  · intro x hx; cases hx
  · intro x hx; cases hx
  · intro tp key x _ hx; cases hx
  · intro id x hx; cases hx
  · refine ⟨?_, ?_, ⟨[], ⟨?_, ⟨?_, ?_⟩, List.nodup_nil, ?_⟩, ?_, ?_⟩, trivial, ?_, ?_⟩
    · intro x hx; cases hx
    · intro id hid; cases hid
    · intro id x hx; cases hx
    · exact Counted.zero.congr fun k => by simp [keyHolders]
    · exact Counted.zero.congr fun tp => by simp [partitionHolders]
    · intro id hid; cases hid
    · intro x hx; cases hx
    · intro x hx; cases hx
    · intro _ tp key; exact .of_nil rfl
    · intro _ tp; exact Nat.zero_le 1

theorem WorkInv.step {c : WorkManagerConfig} {ok : WorkView κ π → CompletionEvent → Prop}
    {v v' : WorkView κ π} (h : WorkInv c v)
    (hs : WorkStep c ok v v') : WorkInv c v' :=
  ⟨h.queues.step hs, h.items.step h.queues hs, h.leases.step h.queues h.items hs⟩

theorem WorkInv.filed {c : WorkManagerConfig} {v : WorkView κ π} (h : WorkInv c v) : v.Filed :=
  fun id x hx => (h.items.filed id x hx).1

theorem workInv_reachable {c : WorkManagerConfig} {s : WorkManager κ π}
    (h : (workMachine κ π c).Reachable s) : WorkInv c s.view := by
  refine (workMachine κ π c).invariant (I := fun s => WorkInv c s.view) ?_ ?_ h
  · rintro s ⟨circuit, rfl⟩; exact workInv_new c circuit
  · intro s a hi he _
    exact WorkManager.next_induction (fun _ _ hv hs => hv.step hs) (Reports.all c _)
      (fun _ hv => hv.filed) (fun _ hv => hv.queues.tracked) hi he
      fun _ _ _ _ _ _ => trivial

/-- **Order and exclusion.** In every reachable state, and for the current assignment of every
partition: the items of a virtual queue were handed over in enqueue order and each at most once; a
lease was handed over only when no item of its routes was unfinished; in key-hash mode the unfinished
items of a key are what is left of one contiguous lease, of one item without ordered route batches;
in partition mode a partition has at most one unfinished item. -/
theorem leases_ordered_and_exclusive (c : WorkManagerConfig) {s : WorkManager κ π}
    (h : (workMachine κ π c).Reachable s) :
    (∀ tp key, (handedOf tp key s.log).Sublist (enqueuedOf tp key s.log)) ∧
    ((handedItems s.log).map (·.id)).Nodup ∧
    (∀ newer lease older, s.log = newer ++ .handed lease :: older →
      ∀ x ∈ lease, ∀ y ∈ unfinished older, ¬ SameRoute c x y) ∧
    (c.orderingMode = .keyHash →
      ∀ tp key, OneLease c tp key s.log (enqueuedOf tp key s.log)) ∧
    (c.orderingMode = .partition →
      ∀ tp, ((unfinished s.log).filter fun x => x.tp = tp).length ≤ 1) := by
  have hinv := workInv_reachable h
  have hpre : ∀ tp key, consumedOf tp key s.log <+: enqueuedOf tp key s.log := fun tp key => by
    have hfifo : enqueuedOf tp key s.log = consumedOf tp key s.log ++ s.view.queueOf tp key :=
      hinv.queues.fifo tp key
    rw [hfifo]
    exact List.prefix_append _ _
  refine ⟨?_, ?_, ?_, ?_, hinv.leases.oneItem⟩
  · exact fun tp key => (handedOf_sublist_consumedOf tp key s.log).trans (hpre tp key).sublist
  · exact hinv.items.once.sublist ((handedItems_sublist_consumedItems s.log).map _)
  · intro newer lease older hlog
    have hexcl : LeasesExclude c s.log := hinv.leases.exclude
    rw [hlog] at hexcl
    exact leasesExclude_split newer hexcl
  · intro hm tp key
    exact (hinv.leases.oneLease hm tp key).mono (fun _ he => he) (List.Sublist.refl _)
      (hpre tp key)

/-- Three messages of one key, of which the first two make a lease. -/
def twoOfThree : List (WorkAction Nat Unit) :=
  [.assign [(⟨"t", 0⟩, .offset 0)],
   .submit [((⟨"t", 0⟩, 7), [⟨0, 0, (), none⟩, ⟨1, 0, (), none⟩, ⟨2, 0, (), none⟩])],
   .schedule (acceptingEnv Nat Unit)]

theorem leases_ordered_and_exclusive_twoOfThree :
    let c : WorkManagerConfig :=
      { orderingMode := .keyHash, routeBatchSize := 2, supportsOrderedRouteBatch := true }
    let s := (workMachine Nat Unit c).run (.new none) twoOfThree
    (handedItems s.log).length = 2 ∧ (enqueuedOf ⟨"t", 0⟩ 7 s.log).length = 3 ∧
      OneLease c ⟨"t", 0⟩ 7 s.log (enqueuedOf ⟨"t", 0⟩ 7 s.log) := by
  intro c s
  refine ⟨by decide, by decide, ?_⟩
  refine (leases_ordered_and_exclusive c (s := s) ?_).2.2.2.1 rfl ⟨"t", 0⟩ 7
  refine (workMachine Nat Unit c).reachableBy_run _ (.start ⟨none, rfl⟩) ?_
  refine ⟨⟨by decide, by decide⟩, trivial, trivial, trivial, acceptsPrefix_acceptingEnv, trivial, trivial⟩

end PyrallelConsumer
