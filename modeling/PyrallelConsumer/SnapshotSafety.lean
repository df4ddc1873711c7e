import PyrallelConsumer.CommitSafety

/-!
# PyrallelConsumer.SnapshotSafety

The metadata that a poller commits with a position names handled offsets only, and a tracker starts with
what the lookup of its assignment says.

* `log_next` — what a step adds to the history: trackers of an assignment, commits of positions that were
  on their way.
* `positions_next` — a position sets out with the snapshot of an installed tracker.
* `snapshots_reachable` — in every run the snapshots on their way and in the history are of handled
  offsets.
-/

set_option linter.unusedSectionVars false

namespace PyrallelConsumer

variable {κ π : Type} [DecidableEq κ]

/-- The core of a tracker that `build_assignments` makes for the partitions from this lookup. -/
def BuiltFor (c : PollerConfig) (committed : Option (List KafkaTopicPartition))
    (partitions : List KafkaTopicPartition) (core : OffsetTracker.Core) : Prop :=
  ∃ q ∈ partitions, ∃ t,
    RebalanceSupport.Installed c.strategy q ((RebalanceSupport.committedOffsets committed).get? q.toDto) t ∧
      core = t.core

namespace Poller

variable {c : PollerConfig} {s s' : Poller κ π}

/-- The positions on their way to `consumer.commit`. -/
def positions (s : Poller κ π) : List KafkaTopicPartition :=
  s.direct.tracked.map (·.position) ++ s.worker.tracked.map (·.position) ++
    (s.revoke.toList.flatMap fun pc => pc.offsetsToCommit.map Prod.snd)

theorem mem_positions_direct {e : Captured} (h : e ∈ s.direct.tracked) : e.position ∈ s.positions :=
  List.mem_append_left _ (List.mem_append_left _ (List.mem_map_of_mem h))

theorem mem_positions_worker {e : Tracked} (h : e ∈ s.worker.tracked) : e.position ∈ s.positions :=
  List.mem_append_left _ (List.mem_append_right _ (List.mem_map_of_mem h))

theorem mem_positions_revoke {pc : RevokePc} (hpc : s.revoke = some pc) {e : TrackerRef × KafkaTopicPartition}
    (h : e ∈ pc.offsetsToCommit) : e.2 ∈ s.positions := by
  refine List.mem_append_right _ (List.mem_flatMap.mpr ⟨pc, ?_, List.mem_map_of_mem h⟩)
  rw [hpc]
  exact List.mem_singleton_self _

theorem mem_positions {q : KafkaTopicPartition} (h : q ∈ s.positions) :
    (∃ e ∈ s.direct.tracked, e.position = q) ∨ (∃ e ∈ s.worker.tracked, e.position = q) ∨
      ∃ pc, s.revoke = some pc ∧ ∃ e ∈ pc.offsetsToCommit, e.2 = q := by
  rcases List.mem_append.mp h with h | h
  · rcases List.mem_append.mp h with h | h
    · exact .inl (List.mem_map.mp h)
    · exact .inr (.inl (List.mem_map.mp h))
  · obtain ⟨pc, hpc, hq⟩ := List.mem_flatMap.mp h
    exact .inr (.inr ⟨pc, Option.mem_toList.mp hpc, List.mem_map.mp hq⟩)

/-! ## What a step adds to the history -/

/-- A step may add the entry: a tracker of its assignment, the commit of a position that was on its way,
or an entry of another kind. -/
def Adds (c : PollerConfig) (s : Poller κ π) (a : PollerAction κ π) : PollerEntry κ π → Prop
  | .installed _ core => ∃ committed partitions, a = .assign committed partitions ∧ BuiltFor c committed partitions core
  | .committed _ _ q => q ∈ s.positions
  | _ => True

/-- The history is the old one with such entries before it. -/
def Extends (c : PollerConfig) (s : Poller κ π) (a : PollerAction κ π) (log : List (PollerEntry κ π)) : Prop :=
  ∃ entries, log = entries ++ s.log ∧ ∀ e ∈ entries, Adds c s a e

theorem extends_same (a : PollerAction κ π) {log : List (PollerEntry κ π)} (h : log = s.log) : Extends c s a log :=
  ⟨[], h, by simp⟩

theorem mem_installedEntries {assignments : List (TopicPartition × OffsetTracker)}
    {refs : List (TopicPartition × TrackerRef)} {e : PollerEntry κ π} (he : e ∈ installedEntries assignments refs) :
    ∃ a ∈ assignments, ∃ r, e = .installed r a.2.core := by
  obtain ⟨k, hk, hzip⟩ := List.mem_iff_getElem.mp he
  simp only [installedEntries, List.length_zipWith, Nat.lt_min] at hk
  simp only [installedEntries, List.getElem_zipWith] at hzip
  exact ⟨_, List.getElem_mem hk.1, _, hzip.symm⟩

theorem extends_assign (committed : Option (List KafkaTopicPartition)) (partitions : List KafkaTopicPartition) :
    Extends c s (.assign committed partitions) (s.assign c committed partitions).log := by
  obtain ⟨d, hd, -, hfrom⟩ := RebalanceSupport.buildAssignments_ok committed c.strategy c.maxRevokeGraceMs partitions
  refine ⟨_, by rw [assign, hd]; rfl, fun e he => ?_⟩
  obtain ⟨⟨tp, t⟩, hmem, id, rfl⟩ := mem_installedEntries (List.mem_reverse.mp he)
  obtain ⟨q, hq, htp, hbuilt⟩ := hfrom tp t ((Dict.mem_entries_iff d).mp hmem)
  obtain ⟨t', ht', hinstalled⟩ := RebalanceSupport.buildTracker_eq c.strategy c.maxRevokeGraceMs q
    ((RebalanceSupport.committedOffsets committed).get? tp)
  rw [hbuilt] at ht'
  cases ht'
  exact ⟨committed, partitions, rfl, q, hq, t, htp ▸ hinstalled, rfl⟩

/-- Processing events adds entries about these events only. -/
theorem extends_drain (hs : s.wm.AllShared) (i : DrainInput κ π) : Extends c s (.drain i) (s.drain c i).log := by
  have hrun := trackerRun_drain (V := fun _ _ => False) (E := fun _ => True) c s hs i fun _ _ => trivial
  refine TrackerRun.invariant (I := fun v => Extends c s (.drain i) v.log) hrun (extends_same _ rfl) ?_
  intro u w _ hu hstep
  have hcons : ∀ e : PollerEntry κ π, Adds c s (.drain i) e → Extends c s (.drain i) (e :: u.log) := by
    intro e he
    obtain ⟨entries, heq, hall⟩ := hu
    exact ⟨e :: entries, by rw [heq]; rfl, List.forall_mem_cons.mpr ⟨he, hall⟩⟩
  cases hstep with
  | installed core _ _ hE => exact absurd trivial (hE ⟨.uuid 0, ⟨"", 0⟩, 0, 0, .success, none, 0⟩)
  | forgot => exact hu
  | submitted r x => exact hcons _ trivial
  | published r e outcome => exact hcons _ trivial
  | pended r e => exact hcons _ trivial
  | marked r e changed => exact hcons _ trivial
  | advanced => exact hu
  | committed path r position hV => exact hV.elim

/-- A position that `prepare_revoke_sync` prepares is of an installed tracker as its loop finds it. -/
def Prepared (c : PollerConfig) (s : Poller κ π) (e : TrackerRef × KafkaTopicPartition) : Prop :=
  ∃ u : Poller κ π, TrackerRun c.dlq (fun _ _ => False) (fun _ => True) s.trackers u.trackers ∧
    u.log = s.log ∧ ∃ tp t safeOffset, u.tracker? tp = some (e.1, t) ∧ 0 ≤ safeOffset ∧
      e.2 = c.planner.offsetToCommit c.strategy tp t.advanceHighWaterMark safeOffset

/-- The loop of `prepare_revoke_sync` changes trackers only. -/
theorem foldl_prepareRevokeOne (candidates : Dict TopicPartition CommitCandidate) (tps : List TopicPartition) :
    ∀ a : Poller κ π × List (TrackerRef × KafkaTopicPartition),
      (∀ e ∈ a.2, Prepared c s e) → a.1.log = s.log →
      TrackerRun c.dlq (fun _ _ => False) (fun _ => True) s.trackers a.1.trackers →
      (∀ e ∈ (tps.foldl (prepareRevokeOne c candidates) a).2, Prepared c s e) ∧
      ∃ heap, (tps.foldl (prepareRevokeOne c candidates) a).1 = { a.1 with wm := { a.1.wm with heap := heap } } := by
  induction tps with
  | nil => exact fun a ha _ _ => ⟨ha, a.1.wm.heap, rfl⟩
  | cons tp tps ih =>
    intro a ha hlog hrun
    have hstep := trackerRun_prepareRevokeOne (V := fun _ _ => False) (E := fun _ => True) c candidates a tp
    have hone : (∀ e ∈ (prepareRevokeOne c candidates a tp).2, Prepared c s e) ∧
        ∃ heap, (prepareRevokeOne c candidates a tp).1 = { a.1 with wm := { a.1.wm with heap := heap } } := by
      unfold prepareRevokeOne
      split
      · exact ⟨ha, a.1.wm.heap, rfl⟩
      · rename_i r t htracker
        dsimp only
        split
        · exact ⟨ha, _, rfl⟩
        · rename_i hneg
          refine ⟨fun e he => ?_, _, rfl⟩
          rcases List.mem_append.mp he with he | he
          · exact ha e he
          · cases List.mem_singleton.mp he
            exact ⟨a.1, hrun, hlog, tp, t, _, htracker, not_lt.mp hneg, rfl⟩
    obtain ⟨hprepared, heap, hheap⟩ := hone
    obtain ⟨hall, heap', hheap'⟩ := ih _ hprepared (by rw [hheap]; exact hlog) (hrun.trans hstep)
    exact ⟨hall, heap', by rw [List.foldl_cons, hheap', hheap]⟩

theorem prepareRevokeSync_eq (tps : List TopicPartition) :
    ∃ heap offsets, s.prepareRevokeSync c tps =
        { s.stopRevoked c tps with
          wm := { s.wm.onRevoke c.workManager tps with heap := heap }
          revoke := some ⟨tps, offsets⟩ } ∧
      ∀ e ∈ offsets, Prepared c s e := by
  have hstop : (s.stopRevoked c tps).trackers = s.trackers := trackers_stopRevoked c s tps
  obtain ⟨hall, heap, hheap⟩ := foldl_prepareRevokeOne (s := s)
    (if c.coordinatorEnabled then s.coordinator.remainingCandidates tps else .empty) tps
    (s.stopRevoked c tps, []) (by simp) rfl (by rw [hstop])
  refine ⟨heap, _, ?_, hall⟩
  unfold prepareRevokeSync
  dsimp only
  rw [hheap]
  rfl

/-- **What a step adds to the history.** -/
theorem log_next (hs : s.wm.AllShared) (a : PollerAction κ π) :
    Extends c s a ((pollerMachine κ π c).next s a).log := by
  have hquiet : ∀ {s' : Poller κ π}, Quiet s s' → Extends c s a s'.log := fun h => extends_same a h.log
  cases a with
  | consumeBegin => exact extends_same _ rfl
  | consumeEnd => exact extends_same _ rfl
  | assign committed partitions => exact extends_assign committed partitions
  | prepareRevoke tps =>
    obtain ⟨heap, offsets, heq, -⟩ := prepareRevokeSync_eq (c := c) (s := s) tps
    show Extends c s _ (s.prepareRevokeSync c tps).log
    rw [heq]
    exact extends_same _ rfl
  | revokeCommit =>
    show Extends c s _ s.revokeCommit.log
    unfold revokeCommit
    split
    · rename_i tps r position rest hrevoke
      refine ⟨[.committed .revoke r position], rfl, fun e he => ?_⟩
      cases List.mem_singleton.mp he
      exact mem_positions_revoke hrevoke List.mem_cons_self
    · exact extends_same _ rfl
  | cleanupRevoke =>
    show Extends c s _ s.cleanupRevokeSync.log
    unfold cleanupRevokeSync
    split <;> exact extends_same _ rfl
  | dispatch messages =>
    refine ⟨_, rfl, fun e he => ?_⟩
    obtain ⟨x, -, hx⟩ := List.mem_filterMap.mp (List.mem_reverse.mp he)
    obtain ⟨r, -, rfl⟩ := Option.map_eq_some_iff.mp hx
    trivial
  | schedule env => exact extends_same _ rfl
  | drain i => exact extends_drain hs i
  | scan force => exact extends_same _ rfl
  | route => exact hquiet (quiet_route c s)
  | capture => exact hquiet (quiet_capture c s)
  | directCommit outcome =>
    show Extends c s _ (s.directCommit outcome).log
    unfold directCommit
    split
    · rename_i commits tracked attempt hd
      refine ⟨_, rfl, fun e he => ?_⟩
      obtain ⟨x, hx, rfl⟩ := List.mem_map.mp he
      obtain ⟨y, hy, rfl⟩ := List.mem_map.mp hx
      exact mem_positions_direct (by rw [hd]; exact hy)
    · exact extends_same _ rfl
  | directSettle =>
    show Extends c s _ s.directSettle.log
    unfold directSettle
    split
    · rename_i commits tracked _
      exact extends_same _ (settles_commitTrackers tracked s).log
    · exact extends_same _ rfl
  | workerStart => exact extends_same _ rfl
  | workerPrepare => exact hquiet (quiet_workerPrepare c s)
  | workerCheck => exact hquiet (quiet_workerCheck s)
  | workerCommit outcome =>
    show Extends c s _ (s.workerCommit outcome).log
    unfold workerCommit
    split
    · rename_i batch tracked hw
      refine ⟨_, rfl, fun e he => ?_⟩
      obtain ⟨x, hx, rfl⟩ := List.mem_map.mp he
      obtain ⟨y, hy, rfl⟩ := List.mem_map.mp hx
      exact mem_positions_worker (by rw [hw]; exact hy)
    · exact extends_same _ rfl
  | workerResume => exact hquiet (quiet_workerResume s)
  | workerSettle =>
    show Extends c s _ s.workerSettle.log
    unfold workerSettle
    split
    · rename_i settlements _
      exact extends_same _ (settles_settleAll settlements (s, [])).log
    · exact extends_same _ rfl
  | workerRetain => exact hquiet (quiet_workerRetain s)

/-! ## Offsets in circulation are not negative -/

/-- What is in circulation after a step was in circulation before, was found by its scan, or is that of a
prepared revoke. -/
theorem holds_next_of {V : TopicPartition → Int → Prop} (h : s.Holds V) (a : PollerAction κ π)
    (hscan : ∀ force, ∀ e ∈ s.commitsToMake force, V e.1 e.2)
    (hrevoke : ∀ e, Prepared c s e → V e.2.toDto (e.2.offset - 1)) :
    ((pollerMachine κ π c).next s a).Holds V := by
  cases a with
  | consumeBegin => exact h.of_same rfl rfl rfl rfl
  | consumeEnd => exact h.of_same rfl rfl rfl rfl
  | assign committed partitions =>
    show (s.assign c committed partitions).Holds V
    unfold assign
    split
    · exact h
    · refine ⟨h.direct, ?_, h.worker, h.revoke⟩
      unfold assignSync
      dsimp only
      split
      · exact h.coordinator.of_fields rfl rfl
      · exact h.coordinator
  | prepareRevoke tps =>
    obtain ⟨heap, offsets, heq, hprepared⟩ := prepareRevokeSync_eq (c := c) (s := s) tps
    show (s.prepareRevokeSync c tps).Holds V
    rw [heq]
    refine ⟨h.direct, ?_, h.worker, fun pc hpc e he => ?_⟩
    · unfold stopRevoked
      dsimp only
      split
      · exact h.coordinator.stopAcceptingPartitions tps
      · exact h.coordinator
    · cases hpc
      exact hrevoke e (hprepared e he)
  | revokeCommit =>
    show s.revokeCommit.Holds V
    unfold revokeCommit
    split
    · rename_i tps r position rest hpc
      refine ⟨h.direct, h.coordinator, h.worker, fun pc heq e he => ?_⟩
      cases heq
      exact h.revoke _ hpc e (List.mem_cons_of_mem _ he)
    · exact h
  | cleanupRevoke =>
    show s.cleanupRevokeSync.Holds V
    unfold cleanupRevokeSync
    split
    · exact h
    · exact ⟨h.direct, h.coordinator, h.worker, fun pc hpc => by cases hpc⟩
  | dispatch messages => exact h.of_same rfl rfl rfl rfl
  | schedule env => exact h.of_same rfl rfl rfl rfl
  | drain i =>
    show (s.drain c i).Holds V
    rcases drain_cases c s i with heq | heq | ⟨s', hs', heq⟩
    · rw [heq]; exact h.of_same rfl rfl rfl rfl
    · rw [heq]; exact h.of_same rfl rfl rfl rfl
    · rw [heq, hs']; exact h.of_same rfl rfl rfl rfl
  | scan force =>
    refine ⟨?_, h.coordinator, h.worker, h.revoke⟩
    show (DirectPc.Holds V (if _ then _ else _))
    split
    · exact directPc_holds_idle
    · exact ⟨hscan force, by simp [DirectPc.tracked]⟩
  | route => exact holds_route c h
  | capture => exact holds_capture c h
  | directCommit outcome => exact holds_directCommit h outcome
  | directSettle => exact holds_directSettle h
  | workerStart => exact holds_workerStart h
  | workerPrepare => exact holds_workerPrepare c h
  | workerCheck => exact holds_workerCheck h
  | workerCommit outcome => exact holds_workerCommit h outcome
  | workerResume => exact holds_workerResume h
  | workerSettle => exact holds_workerSettle h
  | workerRetain => exact holds_workerRetain h

/-! ## Positions on their way -/

/-- The position of a candidate that `V` holds of, with the snapshot of its tracker. -/
def Issued (c : PollerConfig) (s : Poller κ π) (V : TopicPartition → Int → Prop) (q : KafkaTopicPartition) :
    Prop :=
  ∃ tp r t safeOffset, s.tracker? tp = some (r, t) ∧ V tp safeOffset ∧
    q = c.planner.offsetToCommit c.strategy tp t safeOffset

/-- A position that a step sends on its way. -/
def Fresh (c : PollerConfig) (s : Poller κ π) (V : TopicPartition → Int → Prop) (q : KafkaTopicPartition) : Prop :=
  Issued c s V q ∨ ∃ r, Prepared c s (r, q)

/-- Where the positions of the next state come from, one kind at a time. -/
theorem positions_of {P : KafkaTopicPartition → Prop}
    (hd : ∀ e ∈ s'.direct.tracked, e ∈ s.direct.tracked ∨ P e.position)
    (hw : ∀ e ∈ s'.worker.tracked, e ∈ s.worker.tracked ∨ P e.position)
    (hr : ∀ pc, s'.revoke = some pc → ∀ e ∈ pc.offsetsToCommit,
      (∃ pc', s.revoke = some pc' ∧ e ∈ pc'.offsetsToCommit) ∨ P e.2) :
    ∀ q ∈ s'.positions, q ∈ s.positions ∨ P q := by
  intro q hq
  rcases mem_positions hq with ⟨e, he, rfl⟩ | ⟨e, he, rfl⟩ | ⟨pc, hpc, e, he, rfl⟩
  · exact (hd e he).imp_left mem_positions_direct
  · exact (hw e he).imp_left mem_positions_worker
  · exact (hr pc hpc e he).imp_left fun ⟨pc', hpc', he'⟩ => mem_positions_revoke hpc' he'

/-- **A position sets out with the snapshot of an installed tracker.** -/
theorem positions_next {V : TopicPartition → Int → Prop} (h : s.Holds V) (a : PollerAction κ π) :
    ∀ q ∈ ((pollerMachine κ π c).next s a).positions, q ∈ s.positions ∨ Fresh c s V q := by
  have hr0 : ∀ {s' : Poller κ π} {P : KafkaTopicPartition → Prop}, s'.revoke = s.revoke → ∀ pc, s'.revoke = some pc →
      ∀ e ∈ pc.offsetsToCommit, (∃ pc', s.revoke = some pc' ∧ e ∈ pc'.offsetsToCommit) ∨ P e.2 :=
    fun heq pc hpc e he => .inl ⟨pc, heq ▸ hpc, he⟩
  have hsame : ∀ {s' : Poller κ π}, s'.direct.tracked ⊆ s.direct.tracked → s'.worker.tracked ⊆ s.worker.tracked →
      s'.revoke = s.revoke → ∀ q ∈ s'.positions, q ∈ s.positions ∨ Fresh c s V q :=
    fun hd hw hr => positions_of (fun e he => .inl (hd he)) (fun e he => .inl (hw he)) (hr0 hr)
  have hnil : ∀ {α : Type} (l : List α), [] ⊆ l := fun l => List.nil_subset l
  cases a with
  | consumeBegin => exact hsame (List.Subset.refl _) (List.Subset.refl _) rfl
  | consumeEnd => exact hsame (List.Subset.refl _) (List.Subset.refl _) rfl
  | assign committed partitions =>
    show ∀ q ∈ (s.assign c committed partitions).positions, _
    unfold assign
    split <;> exact hsame (List.Subset.refl _) (List.Subset.refl _) rfl
  | prepareRevoke tps =>
    obtain ⟨heap, offsets, heq, hprepared⟩ := prepareRevokeSync_eq (c := c) (s := s) tps
    show ∀ q ∈ (s.prepareRevokeSync c tps).positions, _
    rw [heq]
    refine positions_of (fun e he => .inl he) (fun e he => .inl he) fun pc hpc e he => ?_
    cases hpc
    exact .inr (.inr ⟨e.1, hprepared e he⟩)
  | revokeCommit =>
    show ∀ q ∈ s.revokeCommit.positions, _
    unfold revokeCommit
    split
    · rename_i tps r position rest hrevoke
      refine positions_of (fun e he => .inl he) (fun e he => .inl he) fun pc hpc e he => ?_
      cases hpc
      exact .inl ⟨_, hrevoke, List.mem_cons_of_mem _ he⟩
    · exact hsame (List.Subset.refl _) (List.Subset.refl _) rfl
  | cleanupRevoke =>
    show ∀ q ∈ s.cleanupRevokeSync.positions, _
    unfold cleanupRevokeSync
    split
    · exact hsame (List.Subset.refl _) (List.Subset.refl _) rfl
    · exact positions_of (fun e he => .inl he) (fun e he => .inl he) fun pc hpc => by cases hpc
  | dispatch messages => exact hsame (List.Subset.refl _) (List.Subset.refl _) rfl
  | schedule env => exact hsame (List.Subset.refl _) (List.Subset.refl _) rfl
  | drain i =>
    show ∀ q ∈ (s.drain c i).positions, _
    rcases drain_cases c s i with heq | heq | ⟨s', hs', heq⟩
    · rw [heq]; exact hsame (List.Subset.refl _) (List.Subset.refl _) rfl
    · rw [heq]; exact hsame (List.Subset.refl _) (List.Subset.refl _) rfl
    · rw [heq, hs']; exact hsame (List.Subset.refl _) (List.Subset.refl _) rfl
  | scan force =>
    refine hsame ?_ (List.Subset.refl _) rfl
    show DirectPc.tracked (if _ then _ else _) ⊆ _
    split <;> exact hnil _
  | route =>
    show ∀ q ∈ (s.route c).positions, _
    unfold route
    split
    · split
      · dsimp only
        split
        · exact hsame (hnil _) (List.Subset.refl _) rfl
        · split <;> exact hsame (hnil _) (List.Subset.refl _) rfl
      · exact hsame (hnil _) (List.Subset.refl _) rfl
    · exact hsame (List.Subset.refl _) (List.Subset.refl _) rfl
  | capture =>
    show ∀ q ∈ (s.capture c).positions, _
    unfold capture
    split
    · rename_i commits hd
      dsimp only
      split
      · exact hsame (hnil _) (List.Subset.refl _) rfl
      · refine positions_of (fun e he => .inr (.inl ?_)) (fun e he => .inl he) (hr0 rfl)
        obtain ⟨x, hx, hsome⟩ := List.mem_filterMap.mp he
        obtain ⟨⟨r, t⟩, htracker, rfl⟩ := Option.map_eq_some_iff.mp hsome
        exact ⟨x.1, r, t, x.2, htracker, h.direct.commits x (by rw [hd]; exact hx), rfl⟩
    · exact hsame (List.Subset.refl _) (List.Subset.refl _) rfl
  | directCommit outcome =>
    show ∀ q ∈ (s.directCommit outcome).positions, _
    unfold directCommit
    split
    · rename_i commits tracked attempt hd
      refine hsame ?_ (List.Subset.refl _) rfl
      rw [hd]
      cases outcome with
      | ok => exact List.Subset.refl _
      | kafkaException =>
        dsimp only
        split
        · exact List.Subset.refl _
        · exact hnil _
      | crash => exact hnil _
    · exact hsame (List.Subset.refl _) (List.Subset.refl _) rfl
  | directSettle =>
    show ∀ q ∈ s.directSettle.positions, _
    unfold directSettle
    split
    · rename_i commits tracked _
      have hs := settles_commitTrackers tracked s
      exact hsame (hnil _) (fun e he => hs.worker ▸ he) hs.revoke
    · exact hsame (List.Subset.refl _) (List.Subset.refl _) rfl
  | workerStart => exact hsame (List.Subset.refl _) (hnil _) rfl
  | workerPrepare =>
    show ∀ q ∈ (s.workerPrepare c).positions, _
    unfold workerPrepare
    split
    · rename_i batch hw
      refine positions_of (fun e he => .inl he) (fun e he => .inr (.inl ?_)) (hr0 rfl)
      dsimp only at he
      split at he
      · cases he
      · obtain ⟨b, hb, hsome⟩ := List.mem_filterMap.mp he
        obtain ⟨⟨r, t⟩, htracker, rfl⟩ := Option.map_eq_some_iff.mp hsome
        refine ⟨b.tp, r, t, b.safeOffset, htracker, h.worker.candidates b ?_, rfl⟩
        rw [hw]
        exact (List.mem_filter.mp hb).1
    · exact hsame (List.Subset.refl _) (List.Subset.refl _) rfl
  | workerCheck =>
    show ∀ q ∈ s.workerCheck.positions, _
    unfold workerCheck
    split
    · rename_i batch tracked hw
      split
      · exact hsame (List.Subset.refl _) (by rw [hw]; exact List.Subset.refl _) rfl
      · exact hsame (List.Subset.refl _) (hnil _) rfl
    · exact hsame (List.Subset.refl _) (List.Subset.refl _) rfl
  | workerCommit outcome =>
    show ∀ q ∈ (s.workerCommit outcome).positions, _
    unfold workerCommit
    split
    · exact hsame (List.Subset.refl _) (hnil _) rfl
    · exact hsame (List.Subset.refl _) (List.Subset.refl _) rfl
  | workerResume =>
    show ∀ q ∈ s.workerResume.positions, _
    unfold workerResume
    split
    · dsimp only
      split <;> exact hsame (List.Subset.refl _) (hnil _) rfl
    · exact hsame (List.Subset.refl _) (hnil _) rfl
    · exact hsame (List.Subset.refl _) (hnil _) rfl
    · exact hsame (List.Subset.refl _) (hnil _) rfl
    · exact hsame (List.Subset.refl _) (List.Subset.refl _) rfl
  | workerSettle =>
    show ∀ q ∈ s.workerSettle.positions, _
    unfold workerSettle
    split
    · rename_i settlements _
      have hs := settles_settleAll settlements (s, [])
      exact hsame (fun e he => hs.direct ▸ he) (hnil _) hs.revoke
    · exact hsame (List.Subset.refl _) (List.Subset.refl _) rfl
  | workerRetain =>
    show ∀ q ∈ s.workerRetain.positions, _
    unfold workerRetain
    split
    · exact hsame (List.Subset.refl _) (hnil _) rfl
    · exact hsame (List.Subset.refl _) (List.Subset.refl _) rfl

end Poller

/-! ## Floors -/

theorem neg_one_le_of_builtFor {c : PollerConfig} {committed : Option (List KafkaTopicPartition)}
    {partitions : List KafkaTopicPartition} {core : OffsetTracker.Core}
    (h : BuiltFor c committed partitions core) : -1 ≤ core.lastCommittedOffset := by
  obtain ⟨q, -, t, hinstalled, rfl⟩ := h
  have hassigned : -1 ≤ RebalanceSupport.assignmentOffset q := by
    unfold RebalanceSupport.assignmentOffset; split <;> omega
  show -1 ≤ t.lastCommittedOffset
  rw [hinstalled.lastCommittedOffset]
  unfold RebalanceSupport.lastCommitted
  split
  · split
    · omega
    · exact hassigned
  · exact hassigned

/-- Every tracker starts from an installed one and never falls behind it. -/
def TrackerView.Floored (v : TrackerView κ π) : Prop :=
  ∀ core ∈ v.cores, ∃ r core0, PollerEntry.installed r core0 ∈ v.log ∧
    core0.lastCommittedOffset ≤ core.lastCommittedOffset

theorem TrackerView.Floored.step {c : DlqConfig} {V : TopicPartition → Int → Prop} {E : CompletionEvent → Prop}
    {v v' : TrackerView κ π} (h : v.Floored) (hstep : TrackerStep c V E v v') : v'.Floored := by
  have hold : ∀ entries, ∀ core ∈ v.cores, ∃ r core0, PollerEntry.installed r core0 ∈ entries ++ v.log ∧
      core0.lastCommittedOffset ≤ core.lastCommittedOffset := by
    intro entries core hcore
    obtain ⟨r, core0, hmem, hle⟩ := h core hcore
    exact ⟨r, core0, List.mem_append_right _ hmem, hle⟩
  have hmodify : ∀ entries (i : TrackerRef) (f : OffsetTracker.Core → OffsetTracker.Core),
      (∀ core : OffsetTracker.Core, core.lastCommittedOffset ≤ (f core).lastCommittedOffset) →
      ∀ core ∈ v.cores.modify i f, ∃ r core0, PollerEntry.installed r core0 ∈ entries ++ v.log ∧
        core0.lastCommittedOffset ≤ core.lastCommittedOffset := by
    intro entries i f hf core hcore
    obtain ⟨k, hk⟩ := List.mem_iff_getElem?.mp hcore
    rcases getElem?_modify_cases hk with hk | ⟨-, core1, hcore1, rfl⟩
    · exact hold entries core (List.mem_of_getElem? hk)
    · obtain ⟨r, core0, hmem, hle⟩ := hold entries core1 (List.mem_of_getElem? hcore1)
      exact ⟨r, core0, hmem, le_trans hle (hf core1)⟩
  cases hstep with
  | installed core hwf hepoch hE =>
    intro core' hcore'
    rcases List.mem_append.mp hcore' with hcore' | hcore'
    · exact hold [_] core' hcore'
    · cases List.mem_singleton.mp hcore'
      exact ⟨_, core, List.mem_cons_self, le_refl _⟩
  | forgot tps hE => exact h
  | submitted r x hr hE => exact hold [_]
  | published r e outcome core hcur hneeds hE => exact hold [_]
  | pended r e core hcur hneeds hE => exact hold [_]
  | marked r e changed core hcur hE hgate hchanged => exact hmodify [_] r _ fun core => le_refl _
  | advanced tp r core o hr hcore ho =>
    refine hmodify [] r _ fun core => ?_
    rw [OffsetTracker.Core.commitThrough_lastCommittedOffset]
    exact le_max_left _ _
  | committed path r position hV => exact hold [_]

/-! ## Whole runs -/

/-- The metadata of the position names handled offsets only. -/
def NamesHandled (c : DlqConfig) (log : List (PollerEntry κ π)) (q : KafkaTopicPartition) : Prop :=
  ∀ o ∈ MetadataEncoder.decodeMetadata (q.metadata.getD []), Handled c log q.toDto o

theorem NamesHandled.of_suffix {c : DlqConfig} {log log' : List (PollerEntry κ π)} {q : KafkaTopicPartition}
    (hlog : log <:+ log') (h : NamesHandled c log q) : NamesHandled c log' q :=
  fun o ho => handled_of_suffix hlog (h o ho)

/-- A snapshot names covered offsets of the tracker. -/
theorem covers_of_mem_snapshot {p : BrokerCommitPlanner} {strategy : RebalanceStrategy} {tp : TopicPartition}
    {t : OffsetTracker} {safeOffset o : Int} (hsafe : -1 ≤ safeOffset)
    (h : o ∈ MetadataEncoder.decodeMetadata ((p.offsetToCommit strategy tp t safeOffset).metadata.getD [])) :
    t.core.Covers o := by
  have hmetadata : o ∈ MetadataEncoder.decodeMetadata (p.encodeRevokeMetadata strategy t (safeOffset + 1)) := h
  cases strategy with
  | contiguousOnly => exact absurd hmetadata (SortedSet.not_mem_empty o)
  | metadataSnapshot =>
    rw [BrokerCommitPlanner.decode_encodeRevokeMetadata p t (by omega)] at hmetadata
    split at hmetadata
    · exact absurd hmetadata (SortedSet.not_mem_empty o)
    · exact .inr (BrokerCommitPlanner.mem_getCommitMetadataOffsets hmetadata).1

theorem TrackerView.Safe.namesHandled {d : DlqConfig} {s : Poller κ π} (h : s.trackers.Safe d)
    {p : BrokerCommitPlanner} {strategy : RebalanceStrategy} {tp : TopicPartition} {r : TrackerRef}
    {t t' : OffsetTracker} {safeOffset : Int} (ht : s.tracker? tp = some (r, t)) (hsafe : -1 ≤ safeOffset)
    (hcovers : ∀ o, t'.core.Covers o → t.core.Covers o) :
    NamesHandled d s.log (p.offsetToCommit strategy tp t' safeOffset) := by
  intro o ho
  obtain ⟨hr, ht⟩ := Poller.tracker?_eq_some.mp ht
  have hcore := Poller.cores_eq_of_trackerAt ht
  obtain ⟨core, hcore', htp⟩ := h.owner tp r hr
  have heq : core = t.core := Option.some.inj (hcore'.symm.trans hcore)
  have hhandled := h.handled r t.core o hcore (hcovers o (covers_of_mem_snapshot hsafe ho))
  rw [← heq, htp] at hhandled
  exact hhandled

/-- What the snapshots of a run rest on. -/
structure SnapshotInv (c : PollerConfig) (s : Poller κ π) : Prop where
  safety : SafetyInv c.dlq s
  floored : s.trackers.Floored
  installed : ∀ r core, PollerEntry.installed r core ∈ s.log → -1 ≤ core.lastCommittedOffset
  holds : s.Holds fun _ o => -1 ≤ o
  positions : ∀ q ∈ s.positions, NamesHandled c.dlq s.log q
  committed : ∀ path r q, PollerEntry.committed path r q ∈ s.log → NamesHandled c.dlq s.log q

namespace SnapshotInv

variable {c : PollerConfig} {s : Poller κ π}

theorem neg_one_le (h : SnapshotInv c s) {r : TrackerRef} {t : OffsetTracker} (ht : s.wm.trackerAt r = some t) :
    -1 ≤ t.lastCommittedOffset := by
  obtain ⟨r0, core0, hmem, hle⟩ := h.floored t.core (List.mem_of_getElem? (Poller.cores_eq_of_trackerAt ht))
  exact le_trans (h.installed r0 core0 hmem) hle

theorem namesHandled_fresh (h : SnapshotInv c s) {q : KafkaTopicPartition}
    (hq : Poller.Fresh c s (fun _ o => -1 ≤ o) q) : NamesHandled c.dlq s.log q := by
  rcases hq with ⟨tp, r, t, safeOffset, ht, hsafe, rfl⟩ | ⟨r, u, hrun, hlog, tp, t, safeOffset, ht, hsafe, rfl⟩
  · exact h.safety.safe.namesHandled ht hsafe fun o ho => ho
  · have husafe : u.trackers.Safe c.dlq :=
      TrackerRun.invariant (I := TrackerView.Safe c.dlq) hrun h.safety.safe fun v w _ hv hstep =>
        hv.step (fun _ _ hV => hV.elim) hstep
    rw [← hlog]
    refine husafe.namesHandled ht (by omega) fun o ho => ?_
    rw [OffsetTracker.core_advanceHighWaterMark] at ho
    exact (OffsetTracker.Core.covers_commitThrough.mp ho).elim id (t.core.coversUpTo_mark o)

theorem next (h : SnapshotInv c s) (a : PollerAction κ π) : SnapshotInv c ((pollerMachine κ π c).next s a) := by
  have hrun := Poller.trackerRun_next c s h.safety.shared h.holds a
  have hlog := hrun.grows.log
  obtain ⟨entries, hentries, hadds⟩ := Poller.log_next (c := c) h.safety.shared a
  have hpositions : ∀ q ∈ s.positions, NamesHandled c.dlq ((pollerMachine κ π c).next s a).log q :=
    fun q hq => (h.positions q hq).of_suffix hlog
  refine ⟨safetyInv_next h.safety a, ?_, ?_, ?_, fun q hq => ?_, ?_⟩
  · exact TrackerRun.invariant (I := TrackerView.Floored) hrun h.floored fun _ _ _ hv hstep => hv.step hstep
  · intro r core hmem
    rw [hentries] at hmem
    rcases List.mem_append.mp hmem with hnew | hold
    · obtain ⟨committed, partitions, -, hbuilt⟩ := hadds _ hnew
      exact neg_one_le_of_builtFor hbuilt
    · exact h.installed r core hold
  · refine Poller.holds_next_of h.holds a (fun force e he => ?_) fun e he => ?_
    · obtain ⟨r, t, -, ht, -, hlt⟩ := DispatchSupport.mem_buildCommitCandidates.mp (Poller.mem_commitsToMake he)
      exact le_of_lt (lt_of_le_of_lt (h.neg_one_le ht) hlt)
    · obtain ⟨u, -, -, tp, t, safeOffset, -, hsafe, heq⟩ := he
      rw [heq]
      show -1 ≤ safeOffset + 1 - 1
      omega
  · rcases Poller.positions_next h.holds a q hq with hold | hfresh
    · exact hpositions q hold
    · exact (h.namesHandled_fresh hfresh).of_suffix hlog
  · intro path r q hmem
    have hmem' := hmem
    rw [hentries] at hmem'
    rcases List.mem_append.mp hmem' with hnew | hold
    · exact hpositions q (hadds _ hnew)
    · exact (h.committed path r q hold).of_suffix hlog

end SnapshotInv

/-- **Snapshots.** In every run the metadata of every position, on its way or committed, names handled
offsets only. -/
theorem snapshotInv_reachable {c : PollerConfig} {s : Poller κ π} {p : Poller κ π → PollerAction κ π → Prop}
    (h : (pollerMachine κ π c).ReachableBy p s) : SnapshotInv c s := by
  refine (pollerMachine κ π c).invariant (I := SnapshotInv c) ?_ (fun s a hs _ _ => hs.next a) h
  rintro s ⟨circuit, rfl⟩
  have hsafety : SafetyInv c.dlq (Poller.new circuit : Poller κ π) :=
    safetyInv_reachable (c := c) (Machine.ReachableBy.start (c := fun _ _ => True) ⟨circuit, rfl⟩)
  have hk : (Poller.new circuit : Poller κ π).coordinator.Holds fun _ o => -1 ≤ o :=
    ⟨fun tp b hb => (by cases hb), fun tp b hb => (by cases hb)⟩
  refine ⟨hsafety, ?_, ?_, ⟨directPc_holds_idle, hk, workerPc_holds_idle, fun pc hpc => (by cases hpc)⟩, ?_, ?_⟩
  · intro core hcore; cases hcore
  · intro r core hmem; cases hmem
  · intro q hq; cases hq
  · intro path r q hmem; cases hmem

end PyrallelConsumer
