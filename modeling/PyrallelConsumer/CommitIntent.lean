import PyrallelConsumer.CommitPaths
import PyrallelConsumer.CompletionLoop

/-!
# PyrallelConsumer.CommitIntent

The set of dirty partitions against the candidates that a scan would find. A partition is marked dirty
when completions are recorded, kept while its tracker has completed offsets left, and dropped with its
tracker.

* `awaits_of_candidate` — a partition with a candidate has completed the offset after its last
  committed one.
* `intent_assign`, `intent_drain` — the two steps that can leave such a partition out of the set, and
  what they need to keep it in.
* `commit_intent_kept` — along every run whose steps all do so, every candidate is of a dirty partition.
-/

set_option linter.unusedSectionVars false

namespace PyrallelConsumer

variable {κ π : Type} [DecidableEq κ]

/-- The installed tracker of the partition has completed the offset after the last committed one. -/
def TrackerView.Awaits (v : TrackerView κ π) (tp : TopicPartition) : Prop :=
  ∃ r core, v.installed.get? tp = some r ∧ v.cores[r]? = some core ∧
    core.lastCommittedOffset + 1 ∈ core.completedOffsets

/-- Only the cores and the installed trackers matter. -/
theorem TrackerView.Awaits.of_same {v v' : TrackerView κ π} {tp : TopicPartition} (h : v'.Awaits tp)
    (hcores : v'.cores = v.cores) (hinstalled : v'.installed = v.installed) : v.Awaits tp := by
  obtain ⟨r, core, hr, hcore, hmem⟩ := h
  exact ⟨r, core, hinstalled ▸ hr, hcores ▸ hcore, hmem⟩

/-- Another tracker than the partition's has changed. -/
theorem TrackerView.Awaits.of_modify {cores : List OffsetTracker.Core}
    {installed : Dict TopicPartition TrackerRef} {log log' : List (PollerEntry κ π)}
    {tp : TopicPartition} {r : TrackerRef} {f : OffsetTracker.Core → OffsetTracker.Core}
    (h : (⟨cores.modify r f, installed, log'⟩ : TrackerView κ π).Awaits tp)
    (hother : installed.get? tp ≠ some r) : (⟨cores, installed, log⟩ : TrackerView κ π).Awaits tp := by
  obtain ⟨i, core, hi, hcore, hmem⟩ := h
  rcases getElem?_modify_cases hcore with hcore | ⟨rfl, -⟩
  · exact ⟨i, core, hi, hcore, hmem⟩
  · exact absurd hi hother

/-- A tracker that walks to its contiguous mark had something to walk to. -/
theorem TrackerView.Awaits.of_advance {cores : List OffsetTracker.Core}
    {installed : Dict TopicPartition TrackerRef} {log : List (PollerEntry κ π)}
    {tp : TopicPartition} {r : TrackerRef}
    (h : (⟨cores.modify r fun core => core.commitThrough core.mark, installed, log⟩ :
      TrackerView κ π).Awaits tp) : (⟨cores, installed, log⟩ : TrackerView κ π).Awaits tp := by
  obtain ⟨i, core, hi, hcore, hmem⟩ := h
  rcases getElem?_modify_cases hcore with hcore | ⟨rfl, core0, hcore0, rfl⟩
  · exact ⟨i, core, hi, hcore, hmem⟩
  · refine ⟨i, core0, hi, hcore0, ?_⟩
    by_cases hle : core0.mark ≤ core0.lastCommittedOffset
    · unfold OffsetTracker.Core.commitThrough at hmem
      rw [if_pos hle] at hmem
      exact hmem
    · exact OffsetTracker.mem_of_le_contiguousEnd _ _ _ (Int.lt_succ _) (Int.not_le.mp hle)

/-- The captured commits are commits of the scan. -/
def DirectPc.TracksCommits (pc : DirectPc) : Prop := ∀ e ∈ pc.tracked, e.tp ∈ pc.commits.map Prod.fst

namespace Poller

variable {c : PollerConfig} {s s' : Poller κ π}

/-- Every partition with something to commit is dirty. -/
def Intent (s : Poller κ π) : Prop := ∀ tp, s.trackers.Awaits tp → tp ∈ s.dirtyCommitPartitions

theorem awaits_of_candidate {tp : TopicPartition} {o : Int}
    (h : (tp, o) ∈ DispatchSupport.buildCommitCandidates s.offsetTrackers s.wm) :
    s.trackers.Awaits tp := by
  obtain ⟨r, t, hr, ht, rfl, hlt⟩ := DispatchSupport.mem_buildCommitCandidates.mp h
  refine ⟨r, t.core, hr, cores_eq_of_trackerAt ht, ?_⟩
  have hle := t.getCommittableHighWaterMark_le_mark (s.wm.getMinInFlightOffset tp)
  exact OffsetTracker.mem_of_le_contiguousEnd _ _ _ (Int.lt_succ _) (Int.lt_of_lt_of_le hlt hle)

/-- Nothing new waits, and no partition leaves the set. -/
theorem Intent.mono (h : s.Intent) (hawaits : ∀ tp, s'.trackers.Awaits tp → s.trackers.Awaits tp)
    (hdirty : ∀ tp ∈ s.dirtyCommitPartitions, tp ∈ s'.dirtyCommitPartitions) : s'.Intent :=
  fun tp htp => hdirty tp (h tp (hawaits tp htp))

theorem Intent.of_frame (h : s.Intent) (hcores : s'.trackers.cores = s.trackers.cores)
    (hinstalled : s'.offsetTrackers = s.offsetTrackers)
    (hdirty : s'.dirtyCommitPartitions = s.dirtyCommitPartitions) : s'.Intent :=
  h.mono (fun _ htp => htp.of_same hcores hinstalled) (fun _ htp => hdirty ▸ htp)

theorem Intent.quiet (h : s.Intent) (hq : Quiet s s')
    (hdirty : s'.dirtyCommitPartitions = s.dirtyCommitPartitions) : s'.Intent :=
  h.of_frame (congrArg TrackerView.cores hq.trackers) hq.offsetTrackers hdirty

/-! ## Clearing -/

/-- The partition has a tracker with completed offsets left. -/
def HasCompleted (s : Poller κ π) (tp : TopicPartition) : Prop :=
  ∃ r t, s.tracker? tp = some (r, t) ∧ t.completedOffsets.size > 0

theorem hasCompleted_of_awaits {tp : TopicPartition} (h : s.trackers.Awaits tp) : s.HasCompleted tp := by
  obtain ⟨r, core, hr, hcore, hmem⟩ := h
  change (s.wm.heap.map (·.core))[r]? = some core at hcore
  rw [List.getElem?_map] at hcore
  obtain ⟨t, ht, rfl⟩ := Option.map_eq_some_iff.mp hcore
  exact ⟨r, t, tracker?_eq_some.mpr ⟨hr, ht⟩, List.length_pos_of_mem hmem⟩

/-- `clear_committed_dirty_partitions` keeps what has completed offsets left. -/
theorem mem_clearDirty (tps : List TopicPartition) {tp : TopicPartition} (h : s.HasCompleted tp)
    (hmem : tp ∈ tps ∨ tp ∈ s.dirtyCommitPartitions) : tp ∈ s.clearDirty tps := by
  -- the marks of one partition more are those that the rest of the list starts from
  induction tps generalizing s with
  | nil => exact hmem.resolve_left (by simp)
  | cons a l ih =>
    show tp ∈ ({ s with dirtyCommitPartitions := s.clearDirty [a] } : Poller κ π).clearDirty l
    refine ih h ?_
    show tp ∈ l ∨ tp ∈ s.clearDirty [a]
    unfold clearDirty
    rw [List.foldl_cons, List.foldl_nil]
    by_cases ha : tp = a
    · subst ha
      obtain ⟨r, t, ht, hsize⟩ := h
      rw [ht]
      dsimp only
      rw [if_pos hsize]
      exact .inr (mem_appendKey.mpr (.inr rfl))
    · have hd : tp ∈ l ∨ tp ∈ s.dirtyCommitPartitions :=
        hmem.imp_left fun hmem => (List.mem_cons.mp hmem).resolve_left ha
      refine hd.imp_right fun hmem => ?_
      split
      · split
        · exact mem_appendKey.mpr (.inl hmem)
        · exact mem_discardKey.mpr ⟨hmem, ha⟩
      · exact mem_discardKey.mpr ⟨hmem, ha⟩

/-! ## Commits that settle -/

/-- A tracker belongs to one partition. -/
def OwnTrackers (s : Poller κ π) : Prop :=
  ∀ tp tp' r, s.offsetTrackers.get? tp = some r → s.offsetTrackers.get? tp' = some r → tp = tp'

theorem awaits_commitTracker (hown : s.OwnTrackers) {tp tp' : TopicPartition} {o : Int}
    (h : (s.commitTracker tp o).trackers.Awaits tp') (hne : tp' ≠ tp) : s.trackers.Awaits tp' := by
  unfold commitTracker at h
  split at h
  · exact h
  · rename_i r hr
    have hcores : (s.wm.modifyTracker r (·.commitThrough o)).heap.map (·.core) =
        (s.wm.heap.map (·.core)).modify r (·.commitThrough o) :=
      map_core_modify _ _ fun t => t.core_commitThrough o
    unfold trackers at h
    dsimp only at h
    rw [hcores] at h
    exact h.of_modify fun hr' => hne (hown tp' tp r hr' hr)

theorem dirty_commitTracker (s : Poller κ π) (tp : TopicPartition) (o : Int) :
    (s.commitTracker tp o).dirtyCommitPartitions = s.dirtyCommitPartitions := by
  unfold commitTracker
  split
  · rfl
  · rfl

theorem OwnTrackers.commitTracker (h : s.OwnTrackers) (tp : TopicPartition) (o : Int) :
    (s.commitTracker tp o).OwnTrackers := by
  unfold OwnTrackers
  rw [(settles_commitTracker s tp o).offsetTrackers]
  exact h

theorem awaits_commitTrackers (l : List Captured) {tp : TopicPartition} (hnot : ∀ e ∈ l, e.tp ≠ tp) :
    ∀ s : Poller κ π, s.OwnTrackers →
      (l.foldl (fun s e => s.commitTracker e.tp e.safeOffset) s).trackers.Awaits tp →
      s.trackers.Awaits tp := by
  induction l with
  | nil => intro s _ h; exact h
  | cons e l ih =>
    intro s hown h
    have hrest := ih (fun e he => hnot e (List.mem_cons_of_mem _ he)) _
      (hown.commitTracker e.tp e.safeOffset) h
    exact awaits_commitTracker hown hrest (hnot e List.mem_cons_self).symm

theorem dirty_commitTrackers (l : List Captured) :
    ∀ s : Poller κ π, (l.foldl (fun s e => s.commitTracker e.tp e.safeOffset) s).dirtyCommitPartitions =
      s.dirtyCommitPartitions := by
  induction l with
  | nil => intro s; rfl
  | cons e l ih => intro s; exact (ih _).trans (dirty_commitTracker s e.tp e.safeOffset)

theorem intent_directSettle (h : s.Intent) (hown : s.OwnTrackers) (hpc : s.direct.TracksCommits) :
    s.directSettle.Intent := by
  unfold directSettle
  split
  · rename_i commits tracked hd
    rw [hd] at hpc
    intro tp htp
    refine mem_clearDirty _ (hasCompleted_of_awaits htp) ?_
    by_cases hmem : tp ∈ commits.map Prod.fst
    · exact .inl hmem
    · have hnot : ∀ e ∈ tracked, e.tp ≠ tp := fun e he heq => hmem (heq ▸ hpc e he)
      rw [dirty_commitTrackers]
      exact .inr (h tp (awaits_commitTrackers tracked hnot s hown htp))
  · exact h

theorem settleOne_commits (a : Poller κ π × List TopicPartition) (e : CommitCandidate) :
    settleOne a e = a ∨ settleOne a e = (a.1.commitTracker e.tp e.safeOffset, a.2 ++ [e.tp]) := by
  unfold settleOne
  split
  · exact .inl rfl
  · split
    · exact .inl rfl
    · split
      · exact .inl rfl
      · split
        · exact .inl rfl
        · exact .inr rfl

/-- Settling lists every partition that it makes wait. -/
theorem awaits_settleAll (tp : TopicPartition) (l : List CommitCandidate) :
    ∀ a : Poller κ π × List TopicPartition, a.1.OwnTrackers →
      (tp ∈ a.2 → tp ∈ (l.foldl settleOne a).2) ∧
      ((l.foldl settleOne a).1.trackers.Awaits tp → tp ∈ (l.foldl settleOne a).2 ∨ a.1.trackers.Awaits tp) ∧
      (l.foldl settleOne a).1.dirtyCommitPartitions = a.1.dirtyCommitPartitions := by
  induction l with
  | nil => intro a _; exact ⟨fun h => h, .inr, rfl⟩
  | cons e l ih =>
    intro a hown
    rw [List.foldl_cons]
    rcases settleOne_commits a e with heq | heq
    · rw [heq]; exact ih a hown
    · rw [heq]
      obtain ⟨hmem, hawaits, hdirty⟩ := ih (a.1.commitTracker e.tp e.safeOffset, a.2 ++ [e.tp])
        (hown.commitTracker e.tp e.safeOffset)
      refine ⟨fun h => hmem (List.mem_append_left _ h), fun h => ?_,
        hdirty.trans (dirty_commitTracker a.1 e.tp e.safeOffset)⟩
      rcases hawaits h with h | h
      · exact .inl h
      · by_cases htp : tp = e.tp
        · exact .inl (hmem (List.mem_append_right _ (htp ▸ List.mem_singleton_self _)))
        · exact .inr (awaits_commitTracker hown h htp)

theorem intent_workerSettle (h : s.Intent) (hown : s.OwnTrackers) : s.workerSettle.Intent := by
  unfold workerSettle
  split
  · rename_i settlements hw
    intro tp htp
    obtain ⟨-, hawaits, hdirty⟩ := awaits_settleAll tp settlements (s, []) hown
    refine mem_clearDirty _ (hasCompleted_of_awaits htp) ?_
    rw [hdirty]
    exact (hawaits htp).imp_right (h tp)
  · exact h

theorem intent_capture (h : s.Intent) : (s.capture c).Intent := by
  have hq := quiet_capture c s
  unfold capture at hq ⊢
  split
  · rename_i commits hd
    rw [hd] at hq
    dsimp only at hq ⊢
    split
    · rename_i hnil
      intro tp htp
      exact mem_clearDirty _ (hasCompleted_of_awaits (s := s) htp) (.inr (h tp htp))
    · exact h
  · exact h

theorem mem_markDirty (tps : List TopicPartition) :
    ∀ {dirty : List TopicPartition} {tp : TopicPartition}, tp ∈ dirty ∨ tp ∈ tps →
      tp ∈ markDirty dirty tps := by
  induction tps with
  | nil => intro dirty tp h; exact h.resolve_right (by simp)
  | cons a tps ih =>
    intro dirty tp h
    refine ih (h.elim (fun h => .inl (mem_appendKey.mpr (.inl h))) fun h => ?_)
    rcases List.mem_cons.mp h with rfl | h
    · exact .inl (mem_appendKey.mpr (.inr rfl))
    · exact .inr h

theorem intent_workerRetain (h : s.Intent) : s.workerRetain.Intent := by
  unfold workerRetain
  split
  · rename_i batch settlements retry hw
    exact h.mono (fun _ htp => htp) fun _ htp => mem_markDirty _ (.inl htp)
  · exact h

/-! ## Rebalance -/

theorem awaits_prepareRevokeOne (candidates : Dict TopicPartition CommitCandidate)
    (a : Poller κ π × List (TrackerRef × KafkaTopicPartition)) (tp : TopicPartition)
    {tp' : TopicPartition} (h : (prepareRevokeOne c candidates a tp).1.trackers.Awaits tp') :
    a.1.trackers.Awaits tp' := by
  rcases prepareRevokeOne_cases c candidates a tp with ⟨-, heq⟩ | ⟨r, t, -, heq, -⟩
  · rw [heq] at h; exact h
  · rw [heq] at h
    have hcores : (a.1.wm.modifyTracker r (·.advanceHighWaterMark)).heap.map (·.core) =
        (a.1.wm.heap.map (·.core)).modify r fun core => core.commitThrough core.mark :=
      map_core_modify _ _ fun t => t.core_advanceHighWaterMark
    unfold trackers at h
    dsimp only at h
    rw [hcores] at h
    exact h.of_advance

theorem intent_prepareRevoke (h : s.Intent) (tps : List TopicPartition) :
    (s.prepareRevokeSync c tps).Intent := by
  have hfold : ∀ (candidates : Dict TopicPartition CommitCandidate) (l : List TopicPartition)
      (a : Poller κ π × List (TrackerRef × KafkaTopicPartition)),
      (∀ tp, (l.foldl (prepareRevokeOne c candidates) a).1.trackers.Awaits tp → a.1.trackers.Awaits tp) ∧
      (l.foldl (prepareRevokeOne c candidates) a).1.dirtyCommitPartitions = a.1.dirtyCommitPartitions := by
    intro candidates l
    induction l with
    | nil => intro a; exact ⟨fun _ h => h, rfl⟩
    | cons tp l ih =>
      intro a
      obtain ⟨hawaits, hdirty⟩ := ih (prepareRevokeOne c candidates a tp)
      refine ⟨fun tp' h => awaits_prepareRevokeOne candidates a tp (hawaits tp' h), hdirty.trans ?_⟩
      rcases prepareRevokeOne_cases c candidates a tp with ⟨-, heq⟩ | ⟨r, t, -, heq, -⟩
      · rw [heq]
      · rw [heq]
  have hstopped : (s.stopRevoked c tps).Intent :=
    h.of_frame (congrArg TrackerView.cores (trackers_stopRevoked c s tps)) rfl rfl
  obtain ⟨hawaits, hdirty⟩ := hfold
    (if c.coordinatorEnabled then s.coordinator.remainingCandidates tps else .empty) tps
    (s.stopRevoked c tps, [])
  intro tp htp
  show tp ∈ (tps.foldl (prepareRevokeOne c _) (s.stopRevoked c tps, [])).1.dirtyCommitPartitions
  rw [hdirty]
  exact hstopped tp (hawaits tp htp)

theorem intent_cleanupRevoke (h : s.Intent) : s.cleanupRevokeSync.Intent := by
  unfold cleanupRevokeSync
  split
  · exact h
  · rename_i pc hpc
    rintro tp ⟨r, core, hr, hcore, hmem⟩
    change (pc.revokedTps.foldl Dict.erase s.offsetTrackers).get? tp = some r at hr
    rw [Dict.get?_eraseAll] at hr
    split at hr
    · cases hr
    · rename_i hnot
      exact List.mem_filter.mpr ⟨h tp ⟨r, core, hr, hcore, hmem⟩, by simpa using hnot⟩

theorem allocTrackers_spec (l : List (TopicPartition × OffsetTracker)) :
    ∀ wm : WorkManager (SubmitKey κ) π,
      (∀ e ∈ (allocTrackers wm l).1, ∃ t, (e.1, t) ∈ l ∧ (allocTrackers wm l).2.heap[e.2]? = some t) ∧
      ∀ (r : TrackerRef) t, wm.heap[r]? = some t → (allocTrackers wm l).2.heap[r]? = some t := by
  induction l with
  | nil => intro wm; exact ⟨fun _ he => (by cases he), fun _ _ h => h⟩
  | cons a l ih =>
    intro wm
    obtain ⟨hnew, hold⟩ := ih (wm.allocTracker a.2).2
    have hlast : (wm.allocTracker a.2).2.heap[wm.heap.length]? = some a.2 := by
      simp [WorkManager.allocTracker]
    refine ⟨fun e he => ?_, fun r t hr => hold r t ?_⟩
    · rcases List.mem_cons.mp he with rfl | he
      · exact ⟨a.2, List.mem_cons_self, hold _ _ hlast⟩
      · obtain ⟨t, ht, hheap⟩ := hnew e he
        exact ⟨t, List.mem_cons_of_mem _ ht, hheap⟩
    · have hlt := (List.getElem?_eq_some_iff.mp hr).choose
      show (wm.heap ++ [a.2])[r]? = some t
      rw [List.getElem?_append_left hlt]
      exact hr

/-- A partition of the assignment starts with the offset after its committed position completed. -/
def RestoresNext (c : PollerConfig) (committed : Option (List KafkaTopicPartition))
    (partition : KafkaTopicPartition) : Prop :=
  let committedPartition := (RebalanceSupport.committedOffsets committed).get? partition.toDto
  let last := RebalanceSupport.lastCommitted partition committedPartition
  last + 1 ∈ RebalanceSupport.decodeAssignmentCompletedOffsets c.strategy partition committedPartition last

theorem intent_assign (h : s.Intent) (hsafe : s.trackers.Safe c.dlq)
    {committed : Option (List KafkaTopicPartition)} {partitions : List KafkaTopicPartition}
    (hrestored : ∀ p ∈ partitions, RestoresNext c committed p → p.toDto ∈ s.dirtyCommitPartitions) :
    (s.assign c committed partitions).Intent := by
  obtain ⟨d, hd, -, hfrom⟩ := RebalanceSupport.buildAssignments_ok committed c.strategy
    c.maxRevokeGraceMs partitions
  unfold assign
  rw [hd]
  obtain ⟨hnew, hold⟩ := allocTrackers_spec d.entries s.wm
  have hheap := heap_onAssign c (allocTrackers s.wm d.entries).1 (allocTrackers s.wm d.entries).2
  rintro tp ⟨r, core, hr, hcore, hmem⟩
  change (((allocTrackers s.wm d.entries).2.onAssign c.workManager
    ((allocTrackers s.wm d.entries).1.map fun e => (e.1, .tracker e.2))).heap.map (·.core))[r]? =
      some core at hcore
  rw [hheap, List.getElem?_map] at hcore
  obtain ⟨t, ht, rfl⟩ := Option.map_eq_some_iff.mp hcore
  change (s.offsetTrackers.update (allocTrackers s.wm d.entries).1).get? tp = some r at hr
  show tp ∈ s.dirtyCommitPartitions
  rcases Dict.get?_update (allocTrackers s.wm d.entries).1 s.offsetTrackers tp with
    ⟨r', hin, hget⟩ | ⟨-, hget⟩
  · -- a new tracker of the assignment
    rw [hget] at hr
    cases hr
    obtain ⟨t', ht', hheap'⟩ := hnew (tp, r) hin
    rw [ht] at hheap'
    cases hheap'
    obtain ⟨p, hp, rfl, hbuild⟩ := hfrom tp t ((Dict.mem_entries_iff d).mp ht')
    obtain ⟨t'', ht'', hinst⟩ := RebalanceSupport.buildTracker_eq c.strategy c.maxRevokeGraceMs p
      ((RebalanceSupport.committedOffsets committed).get? p.toDto)
    rw [hbuild] at ht''
    cases ht''
    refine hrestored p hp ?_
    unfold RestoresNext
    dsimp only
    rw [← hinst.completedOffsets, ← hinst.lastCommittedOffset]
    exact hmem
  · rw [hget] at hr
    obtain ⟨core, hcore', -⟩ := hsafe.owner tp r hr
    change (s.wm.heap.map (·.core))[r]? = some core at hcore'
    rw [List.getElem?_map] at hcore'
    obtain ⟨t', ht', rfl⟩ := Option.map_eq_some_iff.mp hcore'
    have hsame := hold r t' ht'
    rw [ht] at hsame
    cases hsame
    exact h tp ⟨r, t.core, hr, cores_eq_of_trackerAt ht', hmem⟩

/-! ## Completions -/

/-- A completion that does not change the size of the completed set changes nothing. -/
theorem core_markComplete_of_size {t : OffsetTracker} {o : Int}
    (h : (t.markComplete o).completedOffsets.size = t.completedOffsets.size) :
    (t.markComplete o).core = t.core := by
  rw [t.core_markComplete]
  unfold OffsetTracker.Core.markComplete
  rw [OffsetTracker.markComplete_completedOffsets] at h
  split
  · rename_i hgt
    have hgt' : o > t.lastCommittedOffset := hgt
    rw [if_pos hgt'] at h
    have hmem : o ∈ t.completedOffsets := by
      by_contra hnot
      exact SortedSet.size_add_ne_iff.mpr hnot h
    have hadd : t.core.completedOffsets.add o = t.core.completedOffsets := SortedSet.add_of_mem hmem
    rw [hadd]
  · rfl

/-- The trackers of a call of `process_completed_events`. -/
def processingView (offsetTrackers : Dict TopicPartition TrackerRef)
    (p : CompletionSupport.Processing κ π) : TrackerView κ π :=
  ⟨p.wm.heap.map (·.core), offsetTrackers, p.log⟩

open CompletionSupport in
theorem awaits_complete {offsetTrackers : Dict TopicPartition TrackerRef} {p : Processing κ π}
    {x : Sourced} {r : TrackerRef} {t : OffsetTracker} (hcur : Current offsetTrackers p x.event r t)
    {tp : TopicPartition} (h : (processingView offsetTrackers (complete p x r t)).Awaits tp)
    (hown : ∀ tp', offsetTrackers.get? tp' = some r → tp' = x.event.tp) :
    (processingView offsetTrackers p).Awaits tp ∨ tp ∈ (complete p x r t).completedOffsets.keys := by
  have hcores : (p.wm.modifyTracker r (·.markComplete x.event.offset)).heap.map (·.core) =
      (p.wm.heap.map (·.core)).modify r (·.markComplete x.event.offset) :=
    map_core_modify _ _ fun t => t.core_markComplete _
  have h' : (⟨(p.wm.heap.map (·.core)).modify r (·.markComplete x.event.offset), offsetTrackers,
      (complete p x r t).log⟩ : TrackerView κ π).Awaits tp := hcores ▸ h
  by_cases htp : offsetTrackers.get? tp = some r
  · by_cases hchanged : (t.markComplete x.event.offset).completedOffsets.size = t.completedOffsets.size
    · -- nothing changed
      refine .inl ?_
      obtain ⟨i, core, hi, hcore, hmem⟩ := h'
      rcases getElem?_modify_cases hcore with hcore | ⟨rfl, core0, hcore0, rfl⟩
      · exact ⟨i, core, hi, hcore, hmem⟩
      · have ht := cores_eq_of_trackerAt hcur.tracker
        rw [ht] at hcore0
        cases hcore0
        rw [← t.core_markComplete, core_markComplete_of_size hchanged] at hmem
        exact ⟨i, t.core, hi, ht, hmem⟩
    · refine .inr ?_
      rw [hown tp htp, Dict.mem_keys_iff]
      unfold complete
      dsimp only
      rw [if_pos (by simpa using hchanged), Dict.get?_set_self]
      rfl
  · exact .inl (h'.of_modify htp)

open CompletionSupport in
theorem mem_keys_complete {p : Processing κ π} (x : Sourced) (r : TrackerRef) (t : OffsetTracker)
    {tp : TopicPartition} (h : tp ∈ p.completedOffsets.keys) :
    tp ∈ (complete p x r t).completedOffsets.keys := by
  unfold complete
  dsimp only
  split
  · rw [Dict.mem_keys_iff, Dict.get?_set]
    split
    · rfl
    · exact (Dict.mem_keys_iff _).mp h
  · exact h

open CompletionSupport in
/-- A partition that waits after a call was dirty before it or has a newly completed offset. -/
theorem awaits_processEvents {config : DlqConfig} {offsetTrackers : Dict TopicPartition TrackerRef}
    {publish : Nat → PublishOutcome} {dirty : List TopicPartition}
    (hown : ∀ tp tp' r, offsetTrackers.get? tp = some r → offsetTrackers.get? tp' = some r → tp = tp')
    (xs : List Sourced) (p : Processing κ π)
    (h : ∀ tp, (processingView offsetTrackers p).Awaits tp → tp ∈ dirty) {tp : TopicPartition}
    (htp : (processingView offsetTrackers (processEvents config offsetTrackers publish p xs).2).Awaits tp) :
    tp ∈ dirty ∨ tp ∈ (processEvents config offsetTrackers publish p xs).2.completedOffsets.keys := by
  have hstart : ∀ tp, (processingView offsetTrackers p).Awaits tp →
      tp ∈ dirty ∨ tp ∈ p.completedOffsets.keys := fun tp htp => .inl (h tp htp)
  refine processEvents_invariant (P := fun q => ∀ tp, (processingView offsetTrackers q).Awaits tp →
    tp ∈ dirty ∨ tp ∈ q.completedOffsets.keys) xs ?_ p hstart tp htp
  intro q x ok q' _ hq hstep tp htp
  have hcomplete : ∀ (q1 : Processing κ π) {r t}, q1.wm = q.wm → q1.completedOffsets = q.completedOffsets →
      Current offsetTrackers q1 x.event r t →
      (processingView offsetTrackers (complete q1 x r t)).Awaits tp →
      tp ∈ dirty ∨ tp ∈ (complete q1 x r t).completedOffsets.keys := by
    intro q1 r t hwm hkeys hcur htp
    rcases awaits_complete hcur htp (fun tp' hr => hown tp' _ r hr hcur.installed) with hbefore | hnew
    · have hbefore : (processingView offsetTrackers q).Awaits tp :=
        hbefore.of_same (by unfold processingView; rw [hwm]) rfl
      exact (hq tp hbefore).imp_right fun hmem => mem_keys_complete x r t (hkeys ▸ hmem)
    · exact .inr hnew
  have hdrop : (drop q x).wm = q.wm ∧ (drop q x).completedOffsets = q.completedOffsets := by
    unfold drop
    split
    · exact ⟨rfl, rfl⟩
    · exact ⟨rfl, rfl⟩
  cases hstep with
  | ignored _ => exact hq tp htp
  | untracked _ _ =>
    rw [hdrop.2]
    exact hq tp (htp.of_same (by unfold processingView; rw [hdrop.1]) rfl)
  | stale _ _ _ _ _ _ =>
    rw [hdrop.2]
    exact hq tp (htp.of_same (by unfold processingView; rw [hdrop.1]) rfl)
  | raised _ _ _ _ _ _ => exact hq tp (htp.of_same rfl rfl)
  | failed _ _ _ _ _ _ => exact hq tp (htp.of_same rfl rfl)
  | delivered _ r t hcur _ _ => exact hcomplete _ rfl rfl ⟨hcur.installed, hcur.tracker, hcur.epoch⟩ htp
  | completed _ r t hcur _ => exact hcomplete q rfl rfl hcur htp

/-- The call of `process_completed_events` of a drain. -/
def processed (c : PollerConfig) (s : Poller κ π) (i : DrainInput κ π) :
    Bool × CompletionSupport.Processing κ π :=
  CompletionSupport.processCompletedEvents c.dlq s.offsetTrackers i.publish (s.polled c i).wm
    s.pendingDlqEvents s.log (s.drainedEvents c i).1

theorem intent_drain (h : s.Intent) (hown : s.OwnTrackers) (hshared : s.wm.AllShared) {i : DrainInput κ π}
    (hraised : (s.processed c i).1 = false →
      ∀ tp ∈ (s.processed c i).2.completedOffsets.keys, tp ∈ s.dirtyCommitPartitions) :
    (s.drain c i).Intent := by
  have hpolled : (s.polled c i).Intent :=
    h.of_frame (congrArg TrackerView.cores (trackers_polled c s hshared i)) rfl rfl
  have hafter : ∀ tp, (processingView s.offsetTrackers (s.processed c i).2).Awaits tp →
      tp ∈ s.dirtyCommitPartitions ∨ tp ∈ (s.processed c i).2.completedOffsets.keys := fun tp htp =>
    awaits_processEvents hown (CompletionSupport.eventsToProcess s.pendingDlqEvents (s.drainedEvents c i).1)
      ⟨(s.polled c i).wm, s.pendingDlqEvents, [], 0, .empty, s.log⟩
      (fun tp htp => hpolled tp (htp.of_same rfl rfl)) htp
  have hprocessed : ((s.polled c i).processCompleted c i.publish (s.drainedEvents c i).1).2.Intent := by
    intro tp htp
    show tp ∈ if (s.processed c i).1 ∧ (s.processed c i).2.completedOffsets.entries ≠ [] then
      markDirty s.dirtyCommitPartitions ((s.processed c i).2.completedOffsets.keys ++ _)
      else s.dirtyCommitPartitions
    have htp := hafter tp (htp.of_same rfl rfl)
    split
    · exact mem_markDirty _ (htp.imp_right fun h => List.mem_append_left _ h)
    · rename_i hnot
      refine htp.elim id fun hkey => ?_
      rcases Bool.eq_false_or_eq_true (s.processed c i).1 with hok | hok
      · -- no offset was marked
        have hnil : (s.processed c i).2.completedOffsets.entries = [] := by
          by_contra hne
          exact hnot ⟨hok, hne⟩
        rw [Dict.keys, hnil] at hkey
        cases hkey
      · exact hraised hok tp hkey
  have hshared' : ((s.polled c i).processCompleted c i.publish (s.drainedEvents c i).1).2.wm.AllShared :=
    allShared_processCompleted c _ ((trackerFrame_drainedEvents c s hshared i).allShared hshared) _ _
  rcases drain_cases c s i with heq | heq | ⟨s', hs', heq⟩
  · rw [heq]; exact hpolled
  · rw [heq]; exact hprocessed
  · rw [heq]
    rw [← hs'] at hprocessed hshared'
    have hframe : ({ s' with wm := s'.wm.schedule c.workManager i.env } : Poller κ π).trackers =
        s'.trackers := trackers_of_frame (WorkManager.trackerFrame_schedule s'.wm hshared') rfl rfl
    exact hprocessed.of_frame (congrArg TrackerView.cores hframe) rfl rfl

/-! ## Every run -/

/-- What the step needs to keep every partition with a candidate dirty: an assignment restores no
completed offset right after the committed position, and an exception out of `process_completed_events`
comes only when the partitions of the offsets marked before it are dirty already. -/
def KeepsIntent (c : PollerConfig) (s : Poller κ π) : PollerAction κ π → Prop
  | .assign committed partitions =>
    ∀ p ∈ partitions, RestoresNext c committed p → p.toDto ∈ s.dirtyCommitPartitions
  | .drain i => (s.processed c i).1 = false →
    ∀ tp ∈ (s.processed c i).2.completedOffsets.keys, tp ∈ s.dirtyCommitPartitions
  | _ => True

theorem tracksCommits_idle : DirectPc.idle.TracksCommits := fun _ he => by cases he

theorem direct_prepareRevokeSync (s : Poller κ π) (tps : List TopicPartition) :
    (s.prepareRevokeSync c tps).direct = s.direct := by
  have hfold : ∀ (candidates : Dict TopicPartition CommitCandidate) (l : List TopicPartition)
      (a : Poller κ π × List (TrackerRef × KafkaTopicPartition)),
      (l.foldl (prepareRevokeOne c candidates) a).1.direct = a.1.direct := by
    intro candidates l
    induction l with
    | nil => intro a; rfl
    | cons tp l ih =>
      intro a
      refine (ih _).trans ?_
      rcases prepareRevokeOne_cases c candidates a tp with ⟨-, heq⟩ | ⟨r, t, -, heq, -⟩
      · rw [heq]
      · rw [heq]
  exact hfold _ tps (s.stopRevoked c tps, [])

theorem tracksCommits_route (h : s.direct.TracksCommits) : (s.route c).direct.TracksCommits := by
  unfold route
  split
  · split
    · dsimp only
      split
      · exact tracksCommits_idle
      · split
        · exact tracksCommits_idle
        · exact fun _ he => by cases he
    · exact fun _ he => by cases he
  · exact h

theorem tracksCommits_capture (h : s.direct.TracksCommits) : (s.capture c).direct.TracksCommits := by
  unfold capture
  split
  · dsimp only
    split
    · exact tracksCommits_idle
    · intro e he
      obtain ⟨x, hx, hsome⟩ := List.mem_filterMap.mp he
      obtain ⟨t, -, rfl⟩ := Option.map_eq_some_iff.mp hsome
      exact List.mem_map.mpr ⟨x, hx, rfl⟩
  · exact h

theorem tracksCommits_directCommit (h : s.direct.TracksCommits) (outcome : CommitOutcome) :
    (s.directCommit outcome).direct.TracksCommits := by
  unfold directCommit
  split
  · rename_i commits tracked attempt hd
    rw [hd] at h
    cases outcome with
    | ok => exact h
    | kafkaException =>
      dsimp only
      split
      · exact h
      · exact tracksCommits_idle
    | crash => exact tracksCommits_idle
  · exact h

theorem tracksCommits_next (h : s.direct.TracksCommits) (a : PollerAction κ π) :
    ((pollerMachine κ π c).next s a).direct.TracksCommits := by
  have hsame : ∀ s' : Poller κ π, s'.direct = s.direct → s'.direct.TracksCommits := fun _ heq => heq ▸ h
  cases a with
  | consumeBegin => exact h
  | consumeEnd => exact h
  | assign committed partitions =>
    refine hsame _ ?_
    show (s.assign c committed partitions).direct = s.direct
    unfold assign
    split
    · rfl
    · rfl
  | prepareRevoke tps => exact hsame _ (direct_prepareRevokeSync s tps)
  | revokeCommit =>
    refine hsame _ ?_
    show s.revokeCommit.direct = s.direct
    unfold revokeCommit
    split
    · rfl
    · rfl
  | cleanupRevoke =>
    refine hsame _ ?_
    show s.cleanupRevokeSync.direct = s.direct
    unfold cleanupRevokeSync
    split
    · rfl
    · rfl
  | dispatch messages => exact h
  | schedule env => exact h
  | drain i => exact hsame _ (offsetTrackers_drain s i).2.2.1
  | scan force =>
    show DirectPc.TracksCommits (if _ then _ else _)
    split
    · exact tracksCommits_idle
    · exact fun _ he => by cases he
  | route => exact tracksCommits_route h
  | capture => exact tracksCommits_capture h
  | directCommit outcome => exact tracksCommits_directCommit h outcome
  | directSettle =>
    show s.directSettle.direct.TracksCommits
    unfold directSettle
    split
    · exact tracksCommits_idle
    · exact h
  | workerStart => exact h
  | workerPrepare =>
    refine hsame _ ?_
    show (s.workerPrepare c).direct = s.direct
    unfold workerPrepare
    split
    · rfl
    · rfl
  | workerCheck =>
    refine hsame _ ?_
    show s.workerCheck.direct = s.direct
    unfold workerCheck
    split
    · split
      · rfl
      · rfl
    · rfl
  | workerCommit outcome =>
    refine hsame _ ?_
    show (s.workerCommit outcome).direct = s.direct
    unfold workerCommit
    split
    · rfl
    · rfl
  | workerResume =>
    refine hsame _ ?_
    show s.workerResume.direct = s.direct
    unfold workerResume
    split
    · dsimp only
      split
      · rfl
      · rfl
    all_goals rfl
  | workerSettle =>
    refine hsame _ ?_
    show s.workerSettle.direct = s.direct
    unfold workerSettle
    split
    · rename_i settlements _
      exact (settles_settleAll settlements (s, [])).direct
    · rfl
  | workerRetain =>
    refine hsame _ ?_
    show s.workerRetain.direct = s.direct
    unfold workerRetain
    split
    · rfl
    · rfl

/-- **One step** of the poller keeps every partition with something to commit dirty. -/
theorem intent_next (h : s.Intent) (hsafety : SafetyInv c.dlq s) (hpc : s.direct.TracksCommits)
    {a : PollerAction κ π} (ha : s.KeepsIntent c a) : ((pollerMachine κ π c).next s a).Intent := by
  have hown : s.OwnTrackers := fun tp tp' r hr hr' => installed_inj hsafety.safe hr hr'
  cases a with
  | consumeBegin => exact h
  | consumeEnd => exact h
  | assign committed partitions => exact intent_assign h hsafety.safe ha
  | prepareRevoke tps => exact intent_prepareRevoke h tps
  | revokeCommit =>
    show s.revokeCommit.Intent
    unfold revokeCommit
    split
    · exact h.of_frame rfl rfl rfl
    · exact h
  | cleanupRevoke => exact intent_cleanupRevoke h
  | dispatch messages =>
    have hframe := @DispatchSupport.trackerFrame_dispatchMessages κ π _ c.workManager.orderingMode
      s.offsetTrackers s.wm messages
    refine h.of_frame ?_ rfl rfl
    show (s.dispatch c messages).wm.heap.map (·.core) = s.wm.heap.map (·.core)
    exact hframe.heap
  | schedule env =>
    exact h.of_frame (WorkManager.trackerFrame_schedule s.wm hsafety.shared).heap rfl rfl
  | drain i => exact intent_drain h hown hsafety.shared ha
  | scan force => exact h
  | route =>
    refine h.quiet (quiet_route c s) ?_
    show (s.route c).dirtyCommitPartitions = s.dirtyCommitPartitions
    unfold route
    split
    · split
      · dsimp only
        split
        · rfl
        · split
          · rfl
          · rfl
      · rfl
    · rfl
  | capture => exact intent_capture h
  | directCommit outcome =>
    show (s.directCommit outcome).Intent
    unfold directCommit
    split
    · exact h.of_frame rfl rfl rfl
    · exact h
  | directSettle => exact intent_directSettle h hown hpc
  | workerStart => exact h
  | workerPrepare =>
    refine h.quiet (quiet_workerPrepare c s) ?_
    show (s.workerPrepare c).dirtyCommitPartitions = s.dirtyCommitPartitions
    unfold workerPrepare
    split
    · rfl
    · rfl
  | workerCheck =>
    refine h.quiet (quiet_workerCheck s) ?_
    show s.workerCheck.dirtyCommitPartitions = s.dirtyCommitPartitions
    unfold workerCheck
    split
    · split
      · rfl
      · rfl
    · rfl
  | workerCommit outcome =>
    show (s.workerCommit outcome).Intent
    unfold workerCommit
    split
    · exact h.of_frame rfl rfl rfl
    · exact h
  | workerResume =>
    refine h.quiet (quiet_workerResume s) ?_
    show s.workerResume.dirtyCommitPartitions = s.dirtyCommitPartitions
    unfold workerResume
    split
    · dsimp only
      split
      · rfl
      · rfl
    all_goals rfl
  | workerSettle => exact intent_workerSettle h hown
  | workerRetain => exact intent_workerRetain h

end Poller

/-- **Commit intent.** In every state of a run whose steps keep the intent, every candidate that
`build_commit_candidates` returns is of a dirty partition, so a scan that is not forced finds it too. -/
theorem commit_intent_kept {c : PollerConfig} {s : Poller κ π}
    (h : (pollerMachine κ π c).ReachableBy (Poller.KeepsIntent c) s) {tp : TopicPartition} {o : Int}
    (hcandidate : (tp, o) ∈ DispatchSupport.buildCommitCandidates s.offsetTrackers s.wm) :
    tp ∈ s.dirtyCommitPartitions ∧ (tp, o) ∈ s.commitsToMake false := by
  have hinv : SafetyInv c.dlq s ∧ s.direct.TracksCommits ∧ s.Intent := by
    refine (pollerMachine κ π c).invariant
      (I := fun s => SafetyInv c.dlq s ∧ s.direct.TracksCommits ∧ s.Intent) ?_ ?_ h
    · rintro s ⟨circuit, rfl⟩
      refine ⟨safetyInv_reachable (c := c) (p := fun _ _ => True) (.start ⟨circuit, rfl⟩),
        Poller.tracksCommits_idle, fun tp htp => ?_⟩
      obtain ⟨r, core, hr, -⟩ := htp
      cases hr
    · intro s a hs _ ha
      exact ⟨safetyInv_next hs.1 a, Poller.tracksCommits_next hs.2.1 a,
        Poller.intent_next hs.2.2 hs.1 hs.2.1 ha⟩
  have hdirty := hinv.2.2 tp (Poller.awaits_of_candidate hcandidate)
  refine ⟨hdirty, ?_⟩
  show (tp, o) ∈ (DispatchSupport.buildCommitCandidates s.offsetTrackers s.wm).filter _
  exact List.mem_filter.mpr ⟨hcandidate, by simpa using hdirty⟩

section Examples

/-- One message is processed. -/
def processFive : List (PollerAction Nat Unit) :=
  sampleAssign 5 ++ sampleDispatch [5] ++ [sampleDrain [sampleSuccess 0 5]]

theorem commit_intent_kept_processFive :
    let s := (pollerMachine Nat Unit (sampleConfig false)).run (.new none) processFive
    (⟨"t", 0⟩, 5) ∈ DispatchSupport.buildCommitCandidates s.offsetTrackers s.wm ∧
    ⟨"t", 0⟩ ∈ s.dirtyCommitPartitions ∧ (⟨"t", 0⟩, 5) ∈ s.commitsToMake false := by
  intro s
  have hreach : (pollerMachine Nat Unit (sampleConfig false)).ReachableBy
      (Poller.KeepsIntent (sampleConfig false)) s := by
    refine (pollerMachine Nat Unit (sampleConfig false)).reachableBy_run processFive
      (.start ⟨none, rfl⟩) ⟨⟨rfl, trivial⟩, trivial, ⟨by decide, trivial⟩, ?_, ⟨by decide, trivial⟩, trivial,
        ⟨rfl, trivial⟩, trivial, ⟨rfl, acceptsPrefix_acceptingEnv⟩, trivial,
        ⟨rfl, acceptsPrefix_acceptingEnv⟩, ?_, trivial⟩
    · -- without snapshots no completed offset is restored
      exact fun p _ hrestored => absurd hrestored (SortedSet.not_mem_empty _)
    · intro hraised
      exact absurd hraised (by decide)
  have hcandidate : (⟨"t", 0⟩, 5) ∈ DispatchSupport.buildCommitCandidates s.offsetTrackers s.wm := by decide
  exact ⟨hcandidate, commit_intent_kept hreach hcandidate⟩

def snapshotConfig : PollerConfig := { sampleConfig false with strategy := .metadataSnapshot }

/-- The committed position is 5, and the snapshot that was committed with it has offset 5. -/
def restoreFive : List (PollerAction Nat Unit) :=
  [.consumeBegin, .assign (some [⟨"t", 0, 5, some ['R', '5']⟩]) [⟨"t", 0, -1001, none⟩], .consumeEnd]

theorem restored_candidate_not_dirty :
    let s := (pollerMachine Nat Unit snapshotConfig).run (.new none) restoreFive
    (pollerMachine Nat Unit snapshotConfig).Reachable s ∧
    (⟨"t", 0⟩, 5) ∈ DispatchSupport.buildCommitCandidates s.offsetTrackers s.wm ∧
    ⟨"t", 0⟩ ∉ s.dirtyCommitPartitions ∧ s.commitsToMake false = [] := by
  intro s
  refine ⟨reachable_of_readyRun (by decide) ?_, by decide, by decide, by decide⟩
  intro a ha
  simp only [restoreFive, List.mem_cons, List.not_mem_nil, or_false] at ha
  rcases ha with rfl | rfl | rfl
  · trivial
  · trivial
  · trivial

end Examples

end PyrallelConsumer
