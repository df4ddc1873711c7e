import PyrallelConsumer.SnapshotSafety
import PyrallelConsumer.WorkLedger
import PyrallelConsumer.Lib.Refinement

/-!
# PyrallelConsumer.PollerWork

The work manager inside the poller runs as `workMachine` says, so that what holds along the runs of a
work manager holds in the poller. The poller makes tracker objects, changes them, and calls the work
manager's operations; a rebalance assigns partitions that the poller does not hold.

* `workSteps_next` — every action of the poller is a sequence of operations.
* `work_reachable` — the refinement. What is asked of polls is asked of the polls of a drain.
-/

set_option linter.unusedSectionVars false

namespace PyrallelConsumer

variable {κ π : Type} [DecidableEq κ]

/-- A sequence of operations of the work manager that meet `q`. -/
abbrev WorkSteps (c : PollerConfig) (q : WorkManager (SubmitKey κ) π → WorkAction (SubmitKey κ) π → Prop) :
    WorkManager (SubmitKey κ) π → WorkManager (SubmitKey κ) π → Prop :=
  Machine.Steps (workMachine (SubmitKey κ) π c.workManager) q

/-- The condition lets trackers be changed. -/
def AllowsMutation (q : WorkManager (SubmitKey κ) π → WorkAction (SubmitKey κ) π → Prop) : Prop :=
  ∀ wm r t, q wm (.mutateTracker r t)

/-- Nothing but trackers is changed. -/
def Mutates (_ : WorkManager (SubmitKey κ) π) (a : WorkAction (SubmitKey κ) π) : Prop :=
  ∃ r t, a = .mutateTracker r t

theorem allowsMutation_mutates : AllowsMutation (Mutates : WorkManager (SubmitKey κ) π → _ → Prop) :=
  fun _ r t => ⟨r, t, rfl⟩

theorem WorkSteps.heap_only {c : PollerConfig} {wm wm' : WorkManager (SubmitKey κ) π}
    (h : WorkSteps c Mutates wm wm') : ∃ heap, wm' = { wm with heap := heap } := by
  refine Machine.Steps.invariant (I := fun u => ∃ heap, u = { wm with heap := heap }) h ⟨wm.heap, rfl⟩ ?_
  rintro u b ⟨heap, rfl⟩ - ⟨r, t, rfl⟩
  exact ⟨_, rfl⟩

/-- The condition restricts polls only. -/
def RestrictsPolls (q : WorkManager (SubmitKey κ) π → WorkAction (SubmitKey κ) π → Prop) : Prop :=
  ∀ wm a, (∀ env events after, a ≠ .poll env events after) → q wm a

theorem RestrictsPolls.allowsMutation {q : WorkManager (SubmitKey κ) π → WorkAction (SubmitKey κ) π → Prop}
    (h : RestrictsPolls q) : AllowsMutation q := fun wm r t => h wm (.mutateTracker r t) (by simp)

theorem restrictsPolls_true :
    RestrictsPolls (fun (_ : WorkManager (SubmitKey κ) π) (_ : WorkAction (SubmitKey κ) π) => True) :=
  fun _ _ _ => trivial

/-- A rebalance assigns partitions that the poller does not hold. -/
def FreshAssign (s : Poller κ π) : PollerAction κ π → Prop
  | .assign _ partitions => ∀ p ∈ partitions, s.offsetTrackers.get? p.toDto = none
  | _ => True

namespace Poller

variable (c : PollerConfig)

/-- The work manager between the polls of a drain. -/
def forcedWork (s : Poller κ π) (i : DrainInput κ π) : WorkManager (SubmitKey κ) π :=
  (s.forceTimedOut c (s.wm.pollCompletedEvents c.workManager i.env i.engineEvents true).2 i.timedOut).2

end Poller

/-- The polls of the step meet `q`. -/
def PollsMeet (c : PollerConfig) (q : WorkManager (SubmitKey κ) π → WorkAction (SubmitKey κ) π → Prop)
    (s : Poller κ π) : PollerAction κ π → Prop
  | .drain i => q s.wm (.poll i.env i.engineEvents true) ∧
      q (s.forcedWork c i) (.poll i.env i.lateEvents true)
  | _ => True

namespace Poller

variable {c : PollerConfig} {q : WorkManager (SubmitKey κ) π → WorkAction (SubmitKey κ) π → Prop}

theorem workSteps_one {wm : WorkManager (SubmitKey κ) π} (b : WorkAction (SubmitKey κ) π)
    (henabled : (workMachine (SubmitKey κ) π c.workManager).enabled wm b) (hb : q wm b) :
    WorkSteps c q wm ((workMachine (SubmitKey κ) π c.workManager).next wm b) := .single henabled hb

/-! ## Trackers -/

theorem workSteps_modifyTracker (hq : AllowsMutation q) (wm : WorkManager (SubmitKey κ) π) (r : TrackerRef)
    (f : OffsetTracker → OffsetTracker) : WorkSteps c q wm (wm.modifyTracker r f) := by
  cases ht : wm.trackerAt r with
  | none =>
    have hsame : wm.modifyTracker r f = wm := by
      unfold WorkManager.modifyTracker
      rw [List.modify_eq_self (List.getElem?_eq_none_iff.mp ht)]
    rw [hsame]
    exact .refl
  | some t =>
    have hsame : wm.modifyTracker r f = wm.modifyTracker r fun _ => f t := by
      unfold WorkManager.modifyTracker
      congr 1
      refine List.ext_getElem? fun i => ?_
      rw [List.getElem?_modify, List.getElem?_modify]
      by_cases hri : r = i
      · subst hri
        have ht' : wm.heap[r]? = some t := ht
        simp [ht']
      · simp [hri]
    rw [hsame]
    exact workSteps_one (.mutateTracker r (f t)) trivial (hq _ _ _)

theorem workSteps_allocTrackers (hq : RestrictsPolls q) (l : List (TopicPartition × OffsetTracker)) :
    ∀ wm : WorkManager (SubmitKey κ) π, WorkSteps c q wm (allocTrackers wm l).2 := by
  induction l with
  | nil => intro wm; exact .refl
  | cons e l ih =>
    intro wm
    exact (workSteps_one (.newTracker e.2) trivial (hq _ _ (by simp))).trans (ih _)

theorem offsetTrackers_allocTrackers (l : List (TopicPartition × OffsetTracker)) :
    ∀ wm : WorkManager (SubmitKey κ) π, (allocTrackers wm l).2.offsetTrackers = wm.offsetTrackers := by
  induction l with
  | nil => intro wm; rfl
  | cons e l ih => intro wm; exact ih _

theorem map_fst_allocTrackers (l : List (TopicPartition × OffsetTracker)) :
    ∀ wm : WorkManager (SubmitKey κ) π, (allocTrackers wm l).1.map Prod.fst = l.map Prod.fst := by
  induction l with
  | nil => intro wm; rfl
  | cons e l ih => intro wm; exact congrArg (e.1 :: ·) (ih _)

/-! ## The actions -/

theorem workSteps_assign (hq : RestrictsPolls q) {s : Poller κ π} {committed : Option (List KafkaTopicPartition)}
    {partitions : List KafkaTopicPartition}
    (hfree : ∀ p ∈ partitions, s.wm.offsetTrackers.get? p.toDto = none) :
    WorkSteps c q s.wm (s.assign c committed partitions).wm := by
  obtain ⟨d, hd, -, hfrom⟩ := RebalanceSupport.buildAssignments_ok committed c.strategy
    c.maxRevokeGraceMs partitions
  unfold assign
  rw [hd]
  refine .trans (workSteps_allocTrackers hq d.entries s.wm) ?_
  refine workSteps_one (.assign _) ⟨?_, fun e he => ?_⟩ (hq _ _ (by simp))
  · rw [List.map_map]
    show ((allocTrackers s.wm d.entries).1.map Prod.fst).Nodup
    rw [map_fst_allocTrackers]
    exact d.nodup
  · obtain ⟨e', he', rfl⟩ := List.mem_map.mp he
    rw [offsetTrackers_allocTrackers]
    have hkey : e'.1 ∈ d.entries.map Prod.fst := by
      rw [← map_fst_allocTrackers d.entries s.wm]
      exact List.mem_map_of_mem he'
    obtain ⟨⟨tp, t⟩, hmem, htp⟩ := List.mem_map.mp hkey
    obtain ⟨p, hp, hptp, -⟩ := hfrom tp t ((Dict.mem_entries_iff d).mp hmem)
    show s.wm.offsetTrackers.get? e'.1 = none
    rw [← htp, ← hptp]
    exact hfree p hp

theorem workSteps_prepareRevoke (hq : RestrictsPolls q) (s : Poller κ π) (tps : List TopicPartition) :
    WorkSteps c q s.wm (s.prepareRevokeSync c tps).wm := by
  have hfold : ∀ (candidates : Dict TopicPartition CommitCandidate) (l : List TopicPartition)
      (a : Poller κ π × List (TrackerRef × KafkaTopicPartition)),
      WorkSteps c q a.1.wm (l.foldl (prepareRevokeOne c candidates) a).1.wm := by
    intro candidates l
    induction l with
    | nil => intro a; exact .refl
    | cons tp l ih =>
      intro a
      refine .trans ?_ (ih _)
      rcases prepareRevokeOne_cases c candidates a tp with ⟨-, heq⟩ | ⟨r, t, -, heq, -⟩
      · rw [heq]; exact .refl
      · rw [heq]; exact workSteps_modifyTracker hq.allowsMutation _ _ _
  refine (workSteps_one (.revoke tps) trivial (hq _ _ (by simp))).trans ?_
  exact hfold _ tps (s.stopRevoked c tps, [])

theorem workSteps_dispatch (hq : RestrictsPolls q) (s : Poller κ π) (messages : List (Message κ π)) :
    WorkSteps c q s.wm (s.dispatch c messages).wm := by
  have hsubmit : ∀ (wm : WorkManager (SubmitKey κ) π) groups,
      WorkSteps c q wm (wm.submitMessageBatch groups).1 := fun wm groups =>
    workSteps_one (.submit groups) trivial (hq _ _ (by simp))
  have hone : ∀ (l : DispatchSupport.Loop κ π) (m : Message κ π), WorkSteps c q l.wm
      (DispatchSupport.dispatchOne c.workManager.orderingMode s.offsetTrackers l m).1.wm := by
    intro l m
    unfold DispatchSupport.dispatchOne
    split
    · exact .refl
    · split
      · exact .refl
      · split
        · exact .refl
        · split
          · exact hsubmit _ _
          · exact .refl
  have hloop : ∀ (ms : List (Message κ π)) (l : DispatchSupport.Loop κ π), WorkSteps c q l.wm
      (DispatchSupport.dispatchLoop c.workManager.orderingMode s.offsetTrackers l ms).1.wm := by
    intro ms
    induction ms with
    | nil => intro l; exact .refl
    | cons m ms ih =>
      intro l
      have h := hone l m
      simp only [DispatchSupport.dispatchLoop]
      split
      · rename_i l1 err heq; rw [heq] at h; exact h
      · rename_i l1 heq; rw [heq] at h; exact h.trans (ih l1)
  have h := hloop messages ⟨s.wm, .empty, []⟩
  show WorkSteps c q s.wm (DispatchSupport.dispatchMessages c.workManager.orderingMode s.offsetTrackers s.wm messages).1
  unfold DispatchSupport.dispatchMessages
  split
  · rename_i l e heq; rw [heq] at h; exact h
  · rename_i l heq
    rw [heq] at h
    split
    · exact h
    · exact h.trans (hsubmit _ _)

theorem workSteps_forceTimedOut (hq : RestrictsPolls q) (s : Poller κ π)
    (l : List (TopicPartition × Int × String)) :
    ∀ wm, WorkSteps c q wm (s.forceTimedOut c wm l).2 := by
  induction l with
  | nil => intro wm; exact .refl
  | cons e l ih =>
    intro wm
    obtain ⟨tp, offset, error⟩ := e
    simp only [forceTimedOut]
    split
    · exact ih wm
    · rename_i t _
      exact (workSteps_one (.forceFail tp offset t.epoch error c.dlq.maxRetries) trivial (hq _ _ (by simp))).trans (ih _)

theorem workSteps_drainedEvents (hq : RestrictsPolls q) {s : Poller κ π} {i : DrainInput κ π}
    (hlaw : i.env.AcceptsPrefix) (hpolls : PollsMeet c q s (.drain i)) :
    WorkSteps c q s.wm (s.drainedEvents c i).2 := by
  have h1 : WorkSteps c q s.wm (s.wm.pollCompletedEvents c.workManager i.env i.engineEvents true).2 :=
    workSteps_one (.poll i.env i.engineEvents true) hlaw hpolls.1
  have h2 := h1.trans (workSteps_forceTimedOut hq s i.timedOut _)
  unfold drainedEvents
  dsimp only
  split
  · exact h2.trans (workSteps_one (.poll i.env i.lateEvents true) hlaw hpolls.2)
  · exact h2

theorem workSteps_processCompleted (hq : AllowsMutation q) (s : Poller κ π) (publish : Nat → PublishOutcome)
    (events : List CompletionEvent) : WorkSteps c q s.wm (s.processCompleted c publish events).2.wm := by
  refine CompletionSupport.process_induction (P := fun p => WorkSteps c q s.wm p.wm)
    (CompletionSupport.eventsToProcess s.pendingDlqEvents events) ?_
    ⟨s.wm, s.pendingDlqEvents, [], 0, .empty, s.log⟩ .refl
  intro p p' x _ hp hdisp
  cases hdisp with
  | dropped h => exact h.wm ▸ hp
  | raised r t hcur hneeds => exact hp
  | retained r t hcur hneeds => exact hp
  | published r t hcur hneeds => exact hp.trans (workSteps_modifyTracker hq _ _ _)
  | completed r t hcur hpass => exact hp.trans (workSteps_modifyTracker hq _ _ _)

theorem workSteps_drain (hq : RestrictsPolls q) {s : Poller κ π} {i : DrainInput κ π}
    (hlaw : i.env.AcceptsPrefix) (hpolls : PollsMeet c q s (.drain i)) : WorkSteps c q s.wm (s.drain c i).wm := by
  have hpolled : WorkSteps c q s.wm (s.polled c i).wm := workSteps_drainedEvents hq hlaw hpolls
  have hprocessed := hpolled.trans (workSteps_processCompleted hq.allowsMutation (s.polled c i) i.publish (s.drainedEvents c i).1)
  rcases drain_cases c s i with heq | heq | ⟨s', hs', heq⟩
  · rw [heq]; exact hpolled
  · rw [heq]; exact hprocessed
  · rw [heq]
    rw [← hs'] at hprocessed
    exact hprocessed.trans (workSteps_one (.schedule i.env) hlaw (hq _ _ (by simp)))

theorem workSteps_commitTracker (hq : AllowsMutation q) (s : Poller κ π) (tp : TopicPartition) (o : Int) :
    WorkSteps c q s.wm (s.commitTracker tp o).wm := by
  unfold commitTracker
  split
  · exact .refl
  · exact workSteps_modifyTracker hq _ _ _

theorem workSteps_directSettle (hq : AllowsMutation q) (s : Poller κ π) : WorkSteps c q s.wm s.directSettle.wm := by
  have hfold : ∀ (l : List Captured) (s : Poller κ π), WorkSteps c q s.wm
      (l.foldl (fun s e => s.commitTracker e.tp e.safeOffset) s).wm := by
    intro l
    induction l with
    | nil => intro s; exact .refl
    | cons e l ih => intro s; exact (workSteps_commitTracker hq s e.tp e.safeOffset).trans (ih _)
  unfold directSettle
  split
  · exact hfold _ s
  · exact .refl

theorem workSteps_workerSettle (hq : AllowsMutation q) (s : Poller κ π) : WorkSteps c q s.wm s.workerSettle.wm := by
  have hone : ∀ (a : Poller κ π × List TopicPartition) (e : CommitCandidate),
      WorkSteps c q a.1.wm (settleOne a e).1.wm := by
    intro a e
    unfold settleOne
    split
    · exact .refl
    · split
      · exact .refl
      · split
        · exact .refl
        · split
          · exact .refl
          · exact workSteps_commitTracker hq a.1 e.tp e.safeOffset
  have hfold : ∀ (l : List CommitCandidate) (a : Poller κ π × List TopicPartition),
      WorkSteps c q a.1.wm (l.foldl settleOne a).1.wm := by
    intro l
    induction l with
    | nil => intro a; exact .refl
    | cons e l ih => intro a; exact (hone a e).trans (ih _)
  unfold workerSettle
  split
  · exact hfold _ (s, [])
  · exact .refl

/-- **Every action of the poller is a sequence of operations of its work manager.** -/
theorem workSteps_next (hq : RestrictsPolls q) {s : Poller κ π} {a : PollerAction κ π} (hlaw : a.Lawful)
    (hpolls : PollsMeet c q s a)
    (hfree : ∀ committed partitions, a = .assign committed partitions →
      ∀ p ∈ partitions, s.wm.offsetTrackers.get? p.toDto = none) :
    WorkSteps c q s.wm ((pollerMachine κ π c).next s a).wm := by
  have hquiet : ∀ {s' : Poller κ π}, Quiet s s' → WorkSteps c q s.wm s'.wm := fun h => h.wm ▸ .refl
  cases a with
  | consumeBegin => exact .refl
  | consumeEnd => exact .refl
  | assign committed partitions => exact workSteps_assign hq (hfree committed partitions rfl)
  | prepareRevoke tps => exact workSteps_prepareRevoke hq s tps
  | revokeCommit =>
    show WorkSteps c q s.wm s.revokeCommit.wm
    unfold revokeCommit
    split <;> exact .refl
  | cleanupRevoke =>
    show WorkSteps c q s.wm s.cleanupRevokeSync.wm
    unfold cleanupRevokeSync
    split <;> exact .refl
  | dispatch messages => exact workSteps_dispatch hq s messages
  | schedule env => exact workSteps_one (.schedule env) hlaw (hq _ _ (by simp))
  | drain i => exact workSteps_drain hq hlaw hpolls
  | scan force => exact .refl
  | route => exact hquiet (quiet_route c s)
  | capture => exact hquiet (quiet_capture c s)
  | directCommit outcome =>
    show WorkSteps c q s.wm (s.directCommit outcome).wm
    unfold directCommit
    split <;> exact .refl
  | directSettle => exact workSteps_directSettle hq.allowsMutation s
  | workerStart => exact .refl
  | workerPrepare => exact hquiet (quiet_workerPrepare c s)
  | workerCheck => exact hquiet (quiet_workerCheck s)
  | workerCommit outcome =>
    show WorkSteps c q s.wm (s.workerCommit outcome).wm
    unfold workerCommit
    split <;> exact .refl
  | workerResume => exact hquiet (quiet_workerResume s)
  | workerSettle => exact workSteps_workerSettle hq.allowsMutation s
  | workerRetain => exact hquiet (quiet_workerRetain s)

/-! ## Who holds which partition -/

/-- The work manager holds partitions of the poller only, with the same trackers, and none that is being
revoked. -/
structure Agree (s : Poller κ π) : Prop where
  trackers : ∀ tp r, s.wm.offsetTrackers.get? tp = some r → s.offsetTrackers.get? tp = some r
  revoking : ∀ pc, s.revoke = some pc → ∀ tp ∈ pc.revokedTps, s.wm.offsetTrackers.get? tp = none

/-- Nothing about holding partitions changes. -/
theorem Agree.of_same {s s' : Poller κ π} (h : s.Agree) (hwm : s'.wm.offsetTrackers = s.wm.offsetTrackers)
    (hmap : s'.offsetTrackers = s.offsetTrackers)
    (hrevoke : ∀ pc, s'.revoke = some pc → ∃ pc', s.revoke = some pc' ∧ pc.revokedTps = pc'.revokedTps) :
    s'.Agree := by
  refine ⟨fun tp r hr => ?_, fun pc hpc tp htp => ?_⟩
  · rw [hmap]
    exact h.trackers tp r (hwm ▸ hr)
  · obtain ⟨pc', hpc', heq⟩ := hrevoke pc hpc
    rw [hwm]
    exact h.revoking pc' hpc' tp (heq ▸ htp)

theorem offsetTrackers_onAssign (l : List (TopicPartition × TrackerRef)) (wm : WorkManager (SubmitKey κ) π) :
    (wm.onAssign c.workManager (l.map fun e => (e.1, .tracker e.2))).offsetTrackers = wm.offsetTrackers.update l := by
  have hfold : ∀ (l : List (TopicPartition × TrackerRef)) (wm : WorkManager (SubmitKey κ) π),
      ((l.map fun e => (e.1, TrackerOrOffset.tracker e.2)).foldl
        (WorkManager.assignOne c.workManager) wm).offsetTrackers = wm.offsetTrackers.update l := by
    intro l
    induction l with
    | nil => intro wm; rfl
    | cons e l ih => intro wm; exact ih _
  exact hfold l wm

/-- Two dictionaries that agree on a value still do after the same update. -/
theorem get?_update_mono {d d' : Dict TopicPartition TrackerRef} {tp : TopicPartition} {r : TrackerRef}
    (l : List (TopicPartition × TrackerRef)) (h : d.get? tp = some r → d'.get? tp = some r) :
    (d.update l).get? tp = some r → (d'.update l).get? tp = some r := by
  induction l generalizing d d' with
  | nil => exact h
  | cons e l ih =>
    refine ih fun hset => ?_
    rw [Dict.get?_set] at hset ⊢
    by_cases hkey : e.1 = tp
    · rw [if_pos hkey] at hset ⊢
      exact hset
    · rw [if_neg hkey] at hset ⊢
      exact h hset

theorem agree_assign {s : Poller κ π} (h : s.Agree) (hrevoke : s.revoke = none)
    (committed : Option (List KafkaTopicPartition)) (partitions : List KafkaTopicPartition) :
    (s.assign c committed partitions).Agree := by
  unfold assign
  split
  · exact h
  · rename_i d _
    refine ⟨fun tp r hr => ?_, fun pc hpc => ?_⟩
    · unfold assignSync at hr ⊢
      dsimp only at hr ⊢
      rw [offsetTrackers_onAssign, offsetTrackers_allocTrackers] at hr
      exact get?_update_mono _ (h.trackers tp r) hr
    · exact absurd (hrevoke.symm.trans hpc) (by simp)

theorem offsetTrackers_drain {s : Poller κ π} (hs : s.wm.AllShared) (i : DrainInput κ π) :
    (s.drain c i).wm.offsetTrackers = s.wm.offsetTrackers := by
  have hpolled := trackerFrame_drainedEvents c s hs i
  have hmaps := (processCompleted_maps c (s.polled c i) i.publish (s.drainedEvents c i).1).1.trans
    hpolled.offsetTrackers
  rcases drain_cases c s i with heq | heq | ⟨s', hs', heq⟩
  · rw [heq]; exact hpolled.offsetTrackers
  · rw [heq]; exact hmaps
  · have hshared : s'.wm.AllShared :=
      hs' ▸ allShared_processCompleted c (s.polled c i) (hpolled.allShared hs) _ _
    rw [heq]
    exact (WorkManager.trackerFrame_schedule s'.wm hshared).offsetTrackers.trans (hs' ▸ hmaps)

theorem agree_next {s : Poller κ π} (h : s.Agree) (hs : s.wm.AllShared) {a : PollerAction κ π}
    (hready : s.ready c a = true) : ((pollerMachine κ π c).next s a).Agree := by
  have hkept : ∀ {s' : Poller κ π}, s'.wm.offsetTrackers = s.wm.offsetTrackers →
      s'.offsetTrackers = s.offsetTrackers → s'.revoke = s.revoke → s'.Agree :=
    fun hwm hmap hrevoke => h.of_same hwm hmap fun pc hpc => ⟨pc, hrevoke ▸ hpc, rfl⟩
  have hheap : ∀ {wm : WorkManager (SubmitKey κ) π}, WorkSteps c Mutates s.wm wm →
      wm.offsetTrackers = s.wm.offsetTrackers := by
    intro wm hsteps
    obtain ⟨heap, rfl⟩ := hsteps.heap_only
    rfl
  cases a with
  | consumeBegin => exact hkept rfl rfl rfl
  | consumeEnd => exact hkept rfl rfl rfl
  | assign committed partitions =>
    obtain ⟨-, hrevoke⟩ := Bool.and_eq_true_iff.mp hready
    exact agree_assign h (of_decide_eq_true hrevoke) committed partitions
  | prepareRevoke tps =>
    obtain ⟨heap, offsets, heq, -⟩ := prepareRevokeSync_eq (c := c) (s := s) tps
    show (s.prepareRevokeSync c tps).Agree
    rw [heq]
    have herased : (s.wm.onRevoke c.workManager tps).offsetTrackers = tps.foldl Dict.erase s.wm.offsetTrackers :=
      (WorkManager.onRevoke_trackers c.workManager s.wm tps).2.1
    refine ⟨fun tp r hr => ?_, fun pc hpc tp htp => ?_⟩
    · replace hr : (s.wm.onRevoke c.workManager tps).offsetTrackers.get? tp = some r := hr
      rw [herased, Dict.get?_eraseAll] at hr
      split at hr
      · cases hr
      · exact h.trackers tp r hr
    · cases hpc
      show (s.wm.onRevoke c.workManager tps).offsetTrackers.get? tp = none
      rw [herased, Dict.get?_eraseAll, if_pos htp]
  | revokeCommit =>
    show s.revokeCommit.Agree
    unfold revokeCommit
    split
    · rename_i tps r position rest hrevoke
      refine h.of_same rfl rfl fun pc hpc => ?_
      cases hpc
      exact ⟨_, hrevoke, rfl⟩
    · exact h
  | cleanupRevoke =>
    show s.cleanupRevokeSync.Agree
    unfold cleanupRevokeSync
    split
    · exact h
    · rename_i pc hrevoke
      refine ⟨fun tp r hr => ?_, fun pc hpc => by cases hpc⟩
      show (pc.revokedTps.foldl Dict.erase s.offsetTrackers).get? tp = some r
      rw [Dict.get?_eraseAll, if_neg ?_]
      · exact h.trackers tp r hr
      · intro htp
        exact absurd ((h.revoking pc hrevoke tp htp).symm.trans hr) (by simp)
  | dispatch messages =>
    exact hkept (DispatchSupport.trackerFrame_dispatchMessages s.wm messages).offsetTrackers rfl rfl
  | schedule env => exact hkept (WorkManager.trackerFrame_schedule s.wm hs).offsetTrackers rfl rfl
  | drain i =>
    have hwm := offsetTrackers_drain (c := c) hs i
    show (s.drain c i).Agree
    rcases drain_cases c s i with heq | heq | ⟨s', hs', heq⟩
    · rw [heq] at hwm ⊢; exact hkept hwm rfl rfl
    · rw [heq] at hwm ⊢; exact hkept hwm rfl rfl
    · rw [heq] at hwm ⊢
      exact hkept hwm (by rw [hs']; rfl) (by rw [hs']; rfl)
  | scan force => exact hkept rfl rfl rfl
  | route =>
    show (s.route c).Agree
    unfold route
    split
    · split
      · dsimp only
        split
        · exact hkept rfl rfl rfl
        · split <;> exact hkept rfl rfl rfl
      · exact hkept rfl rfl rfl
    · exact h
  | capture =>
    show (s.capture c).Agree
    unfold capture
    split
    · dsimp only
      split <;> exact hkept rfl rfl rfl
    · exact h
  | directCommit outcome =>
    show (s.directCommit outcome).Agree
    unfold directCommit
    split
    · exact hkept rfl rfl rfl
    · exact h
  | directSettle =>
    have hwm := hheap (workSteps_directSettle (c := c) allowsMutation_mutates s)
    show s.directSettle.Agree
    unfold directSettle at hwm ⊢
    split
    · rename_i commits tracked hd
      rw [hd] at hwm
      have hsettles := settles_commitTrackers tracked s
      exact hkept hwm hsettles.offsetTrackers hsettles.revoke
    · exact h
  | workerStart => exact hkept rfl rfl rfl
  | workerPrepare =>
    show (s.workerPrepare c).Agree
    unfold workerPrepare
    split
    · exact hkept rfl rfl rfl
    · exact h
  | workerCheck =>
    show s.workerCheck.Agree
    unfold workerCheck
    split
    · split <;> exact hkept rfl rfl rfl
    · exact h
  | workerCommit outcome =>
    show (s.workerCommit outcome).Agree
    unfold workerCommit
    split
    · exact hkept rfl rfl rfl
    · exact h
  | workerResume =>
    show s.workerResume.Agree
    unfold workerResume
    split
    · dsimp only
      split <;> exact hkept rfl rfl rfl
    · exact hkept rfl rfl rfl
    · exact hkept rfl rfl rfl
    · exact hkept rfl rfl rfl
    · exact h
  | workerSettle =>
    have hwm := hheap (workSteps_workerSettle (c := c) allowsMutation_mutates s)
    show s.workerSettle.Agree
    unfold workerSettle at hwm ⊢
    split
    · rename_i settlements hw
      rw [hw] at hwm
      have hsettles := settles_settleAll settlements (s, [])
      exact hkept hwm hsettles.offsetTrackers hsettles.revoke
    · exact h
  | workerRetain =>
    show s.workerRetain.Agree
    unfold workerRetain
    split
    · exact hkept rfl rfl rfl
    · exact h

end Poller

/-! ## The refinement -/

/-- What is asked of a step: fresh assignments, and polls that meet `q`. -/
def WorkStepOk (c : PollerConfig) (q : WorkManager (SubmitKey κ) π → WorkAction (SubmitKey κ) π → Prop)
    (s : Poller κ π) (a : PollerAction κ π) : Prop := FreshAssign s a ∧ PollsMeet c q s a

theorem agree_reachable {c : PollerConfig} {s : Poller κ π} {p : Poller κ π → PollerAction κ π → Prop}
    (h : (pollerMachine κ π c).ReachableBy p s) : s.Agree := by
  have hboth : s.wm.AllShared ∧ s.Agree := by
    refine (pollerMachine κ π c).invariant (I := fun s => s.wm.AllShared ∧ s.Agree) ?_ ?_ h
    · rintro s ⟨circuit, rfl⟩
      exact ⟨fun tp htp => (by cases htp), ⟨fun tp r hr => (by cases hr), fun pc hpc => (by cases hpc)⟩⟩
    · rintro s a ⟨hs, hagree⟩ ⟨hready, -⟩ -
      exact ⟨Poller.allShared_next c s hs a, Poller.agree_next hagree hs hready⟩
  exact hboth.2

/-- **Refinement.** The work manager of a poller runs as a work manager does. -/
theorem work_reachable {c : PollerConfig} {s : Poller κ π}
    {q : WorkManager (SubmitKey κ) π → WorkAction (SubmitKey κ) π → Prop} (hq : RestrictsPolls q)
    (h : (pollerMachine κ π c).ReachableBy (WorkStepOk c q) s) :
    (workMachine (SubmitKey κ) π c.workManager).ReachableBy q s.wm := by
  refine Machine.reachable_of_refines (fun s : Poller κ π => s.wm) ?_ ?_ h
  · rintro s ⟨circuit, rfl⟩
    exact ⟨circuit, rfl⟩
  · rintro s a hreach ⟨-, hlaw⟩ ⟨hfresh, hpolls⟩
    refine Poller.workSteps_next hq hlaw hpolls ?_
    rintro committed partitions rfl p hp
    by_contra hsome
    obtain ⟨r, hr⟩ := Option.ne_none_iff_exists'.mp hsome
    have hheld := (agree_reachable hreach).trackers _ r hr
    exact absurd (hheld.symm.trans (hfresh p hp)) (by simp)

end PyrallelConsumer
