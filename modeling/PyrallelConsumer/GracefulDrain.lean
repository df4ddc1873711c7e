import PyrallelConsumer.CoordinatorRuns
import PyrallelConsumer.DispatchMemory
import PyrallelConsumer.InFlightBound

/-!
# PyrallelConsumer.GracefulDrain

`BrokerShutdownSupport.drain` of `control_plane/broker_shutdown_support.py`, with
`drain_or_sync_fallback_for_shutdown` of the coordinator support: a stopped poller schedules and drains
until nothing is left, commits, and waits for the commit coordinator.

`drain` runs when the consumer loop and the completion monitor have ended, so between its awaits only the
coordinator's worker takes steps. The three counters are read in one section. Deadlines are in the labels.

* `Emptied` — nothing is with the engine, queued or waiting to be published, and every dispatched item is
  covered by a tracker.
* `drained_completely` — a drain that returns `True` has emptied the poller.
-/

set_option linter.unusedSectionVars false

namespace PyrallelConsumer

open WorkLog

variable {κ π : Type} [DecidableEq κ]

/-! ## The drain -/

/-- Where `drain` is, between its awaits. The flag `last` says that the counters were zero, `drained` is
what `drain` returns once the coordinator is drained, and `committed` what the fallback commit returns. -/
inductive DrainPc where
  | serving
  | looping
  | ready (last : Bool)
  | committing (last : Bool)
  | deciding
  | closing (drained : Bool)
  | waiting (drained : Bool)
  | fallback (drained committed : Bool)
  | finished (result : Bool)
  | raised
deriving DecidableEq, Repr

structure Shutdown (κ π : Type) [DecidableEq κ] where
  poller : Poller κ π
  pc : DrainPc

namespace PollerAction

/-- A step of the coordinator's worker. -/
def ofWorker : PollerAction κ π → Bool
  | .workerStart | .workerPrepare | .workerCheck | .workerCommit _ | .workerResume | .workerSettle
  | .workerRetain => true
  | _ => false

/-- A step of `_commit_offsets`. -/
def ofCommitOffsets : PollerAction κ π → Bool
  | .capture | .directCommit _ | .directSettle => true
  | _ => false

/-- A step of the worker or of `_commit_ready_offsets` behind its scan. -/
def wrapsUp (a : PollerAction κ π) : Bool :=
  a.ofWorker || a.ofCommitOffsets || match a with | .route => true | _ => false

end PollerAction

namespace CommitCoordinator

def stopAccepting (s : CommitCoordinator) : CommitCoordinator := { s with accepting := false }

/-- `remaining_candidates` of all partitions. -/
def allRemaining (s : CommitCoordinator) : Dict TopicPartition CommitCandidate :=
  (s.inFlight.values ++ s.pending.values).foldl keepGreater .empty

end CommitCoordinator

namespace Poller

/-- The counters that end a drain are zero. -/
def nothingLeft (s : Poller κ π) : Bool :=
  s.wm.currentInFlightCount ≤ 0 && s.wm.totalQueuedMessages ≤ 0 && s.pendingDlqEvents.size ≤ 0

/-- What `_drain_completion_events_once` returns; `none` is an exception. -/
def drainResult (c : PollerConfig) (s : Poller κ π) (i : DrainInput κ π) : Option Bool :=
  let events := (s.drainedEvents c i).1
  let s := s.polled c i
  if events = [] ∧ s.pendingDlqEvents.entries = [] then some false
  else if (s.processCompleted c i.publish events).1 then some true
  else none

/-- The candidates that are left are committed synchronously. -/
def syncFallback (s : Poller κ π) : Poller κ π :=
  { s with
    coordinator := s.coordinator.cancelLeases s.coordinator.allRemaining.keys
    direct := .fallback (s.coordinator.allRemaining.values.map fun e => (e.tp, e.safeOffset)) }

end Poller

inductive ShutdownAction (κ π : Type) where
  | poller (a : PollerAction κ π)
  | drain
  | pass (env : Env (SubmitKey κ) π) (input : Poller.DrainInput κ π)
  | commit
  | committed
  | decide (timedOut : Bool)
  | stopAccepting
  | coordinatorDrained
  | coordinatorLeft
  | fallbackReturned

/-- What may run beside `drain`, or inside the commit that it awaits. -/
def DrainPc.allows (pc : DrainPc) (a : PollerAction κ π) : Bool :=
  match pc with
  | .serving => true
  | .committing _ => a.wrapsUp
  | .fallback _ _ => a.ofWorker || a.ofCommitOffsets
  | .finished _ | .raised => false
  | _ => a.ofWorker

/-- An exception of a commit that `drain` awaits ends it; the last attempt of the fallback decides what
it returns. -/
def DrainPc.after (pc : DrainPc) (a : PollerAction κ π) : DrainPc :=
  match pc, a with
  | .committing _, .directCommit .crash => .raised
  | .fallback _ _, .directCommit .crash => .raised
  | .fallback drained _, .directCommit outcome => .fallback drained (outcome = .ok)
  | _, _ => pc

namespace Shutdown

def ready (c : PollerConfig) (s : Shutdown κ π) : ShutdownAction κ π → Bool
  | .poller a => s.poller.ready c a && s.pc.allows a
  | .drain => s.pc = .serving && s.poller.guard = .free && s.poller.revoke = none && s.poller.direct = .idle
  | .pass _ _ => s.pc = .looping
  | .commit => s.poller.direct = .idle && match s.pc with | .ready _ => true | _ => false
  | .committed => s.poller.direct = .idle && match s.pc with | .committing _ => true | _ => false
  | .decide _ => s.pc = .deciding
  | .stopAccepting => match s.pc with | .closing _ => true | _ => false
  | .coordinatorDrained => s.poller.coordinator.allRemaining.entries = [] &&
      match s.pc with | .waiting _ => true | _ => false
  | .coordinatorLeft => s.poller.coordinator.allRemaining.entries ≠ [] &&
      match s.pc with | .waiting _ => true | _ => false
  | .fallbackReturned => s.poller.direct = .idle && match s.pc with | .fallback _ _ => true | _ => false

variable (c : PollerConfig)

/-- One pass under the control lock. -/
def pass (s : Shutdown κ π) (env : Env (SubmitKey κ) π) (input : Poller.DrainInput κ π) : Shutdown κ π :=
  let scheduled : Poller κ π := { s.poller with wm := s.poller.wm.schedule c.workManager env }
  { poller := scheduled.drain c input
    pc :=
      match scheduled.drainResult c input with
      | none => .raised
      | some true => .ready false
      | some false => .deciding }

def next (s : Shutdown κ π) : ShutdownAction κ π → Shutdown κ π
  | .poller a => { poller := (pollerMachine κ π c).next s.poller a, pc := s.pc.after a }
  | .drain => { s with pc := .looping }
  | .pass env input => s.pass c env input
  | .commit =>
    match s.pc with
    | .ready last => { poller := s.poller.scan true, pc := .committing last }
    | _ => s
  | .committed =>
    match s.pc with
    | .committing true => { s with pc := .closing true }
    | .committing false => { s with pc := .deciding }
    | _ => s
  | .decide timedOut =>
    { s with pc := if s.poller.nothingLeft then .ready true else if timedOut then .closing false else .looping }
  | .stopAccepting =>
    match s.pc with
    | .closing drained =>
      if c.coordinatorEnabled then
        { poller := { s.poller with coordinator := s.poller.coordinator.stopAccepting }, pc := .waiting drained }
      else { s with pc := .finished drained }
    | _ => s
  | .coordinatorDrained =>
    match s.pc with
    | .waiting drained => { s with pc := .finished drained }
    | _ => s
  | .coordinatorLeft =>
    match s.pc with
    | .waiting drained => { poller := s.poller.syncFallback, pc := .fallback drained true }
    | _ => s
  | .fallbackReturned =>
    match s.pc with
    | .fallback drained committed => { s with pc := .finished (drained && committed) }
    | _ => s

end Shutdown

def ShutdownAction.Lawful : ShutdownAction κ π → Prop
  | .poller a => a.Lawful
  | .pass env input => env.AcceptsPrefix ∧ input.env.AcceptsPrefix
  | _ => True

/-- A poller that serves, and then drains. -/
def shutdownMachine (κ π : Type) [DecidableEq κ] (c : PollerConfig) : Machine (Shutdown κ π) (ShutdownAction κ π) where
  init s := ∃ circuit, s = ⟨.new circuit, .serving⟩
  enabled s a := s.ready c a = true ∧ a.Lawful
  next s a := s.next c a

/-! ## An emptied poller -/

theorem WorkQueueTopology.queueOf_eq_nil_of_totalSize {q : WorkQueueTopology (SubmitKey κ) π} (h : q.totalSize = 0)
    (tp : TopicPartition) (key : SubmitKey κ) : q.queueOf tp key = [] := by
  by_contra hne
  have hput := totalSize_putQueue (assigned_of_queueOf_ne_nil hne) key []
  have hpos := List.length_pos_iff.mpr hne
  simp only [List.length_nil] at hput
  omega

theorem WorkLog.poisoned_of_outstanding {x : WorkItem κ π} (l : List (Entry κ π)) :
    x ∈ outstanding l → x ∈ unfinished l ∨ .poisoned x ∈ l := by
  induction l with
  | nil => intro h; cases h
  | cons entry l ih =>
    have hlater : x ∈ outstanding l → x ∈ unfinished l ∨ .poisoned x ∈ entry :: l :=
      fun h => (ih h).imp_right (List.mem_cons_of_mem _)
    cases entry with
    | handed lease =>
      intro h
      rcases List.mem_append.mp h with h | h
      · exact .inl (List.mem_append_left _ h)
      · exact (hlater h).imp_left (List.mem_append_right _)
    | poisoned y =>
      intro h
      rcases List.mem_cons.mp h with rfl | h
      · exact .inr List.mem_cons_self
      · exact hlater h
    | processed e =>
      intro h
      obtain ⟨h, hne⟩ := List.mem_filter.mp h
      exact (hlater h).imp_left fun hun => List.mem_filter.mpr ⟨hun, hne⟩
    | revoked tps =>
      intro h
      obtain ⟨h, htp⟩ := List.mem_filter.mp h
      exact (hlater h).imp_left fun hun => List.mem_filter.mpr ⟨hun, htp⟩
    | _ => exact hlater

namespace Poller

variable {c : PollerConfig} {s s' : Poller κ π}

/-- The offset of the item is covered, or the poison circuit has failed the item and its event waits. -/
def Done (s : Poller κ π) (x : WorkItem (SubmitKey κ) π) : Prop :=
  s.trackers.Covered x.tp x.offset ∨ .poisoned x ∈ s.wm.log ∧ ∃ e ∈ s.wm.completionQueue, e.id = x.id

/-- Nothing is with the engine, queued or waiting to be published, and the dispatched items are done. -/
structure Emptied (s : Poller κ π) : Prop where
  inFlight : unfinished s.wm.log = []
  queued : ∀ tp key, s.wm.queueTopology.queueOf tp key = []
  pendingDlq : s.pendingDlqEvents.entries = []
  done : ∀ tp key, ∀ x ∈ enqueuedOf tp key s.wm.log, s.Done x

/-- **The counters tell the truth.** When they are zero the poller is empty. -/
theorem emptied_of_nothingLeft (h : (pollerMachine κ π c).ReachableBy TruthfulStep s) (hleft : s.nothingLeft = true) :
    s.Emptied := by
  obtain ⟨⟨hcount, htotal⟩, hpending⟩ : (s.wm.currentInFlightCount ≤ 0 ∧ s.wm.totalQueuedMessages ≤ 0) ∧
      s.pendingDlqEvents.size ≤ 0 := by simpa [nothingLeft] using hleft
  have hwork := work_reachable_of_fresh (p := TruthfulStep) (fun _ _ ha => ha.1) h
  have hwatched := WorkManager.watched_reachable hwork
  have hunfinished : unfinished s.wm.log = [] := by
    have hbound := WorkManager.length_unfinished_le hwork
    exact List.eq_nil_of_length_eq_zero (by omega)
  have hqueues : ∀ tp key, s.wm.queueTopology.queueOf tp key = [] := by
    have hsize : s.wm.totalQueuedMessages = s.wm.queueTopology.totalSize := hwatched.work.queues.total
    exact WorkQueueTopology.queueOf_eq_nil_of_totalSize (by omega)
  have hnone : s.pendingDlqEvents.entries = [] := List.eq_nil_of_length_eq_zero (Nat.le_zero.mp hpending)
  refine ⟨hunfinished, hqueues, hnone, fun tp key x hx => ?_⟩
  obtain ⟨⟨rfl, rfl⟩, -⟩ := mem_enqueuedOf _ hx
  by_cases hout : x ∈ outstanding s.wm.log
  · have hnot : x ∉ unfinished s.wm.log := by rw [hunfinished]; exact List.not_mem_nil
    exact .inr ⟨(poisoned_of_outstanding _ hout).resolve_left hnot, (hwatched.awaited x hout).resolve_left hnot⟩
  · have hmissing : s.wm.view.Missing x := ⟨hx, by
      show x ∉ s.wm.queueTopology.queueOf x.tp x.key
      rw [hqueues]
      exact List.not_mem_nil, hout⟩
    refine .inl (((memory_reachable h).resolved x hmissing).resolve_right fun hk => ?_)
    have hempty : s.pendingDlqEvents.get? (x.tp, x.offset) = none := by
      unfold Dict.get?
      rw [hnone]
      rfl
    unfold Dict.contains at hk
    rw [hempty] at hk
    cases hk

/-- A step that ends the work: it changes what trackers hold, and no item, failure or assignment. -/
structure WrapsUp (s s' : Poller κ π) : Prop where
  wm : ∃ heap, s'.wm = { s.wm with heap := heap }
  offsetTrackers : s'.offsetTrackers = s.offsetTrackers
  pendingDlqEvents : s'.pendingDlqEvents = s.pendingDlqEvents
  grows : s.trackers.Grows s'.trackers

theorem Emptied.wrapsUp (h : s.Emptied) (hw : WrapsUp s s') : s'.Emptied := by
  obtain ⟨heap, hheap⟩ := hw.wm
  have hlog : s'.wm.log = s.wm.log := by rw [hheap]
  have hqueue : s'.wm.queueTopology = s.wm.queueTopology := by rw [hheap]
  have hwaiting : s'.wm.completionQueue = s.wm.completionQueue := by rw [hheap]
  refine ⟨by rw [hlog]; exact h.inFlight, by rw [hqueue]; exact h.queued, by rw [hw.pendingDlqEvents]; exact h.pendingDlq, ?_⟩
  intro tp key x hx
  rw [hlog] at hx
  rcases h.done tp key x hx with hcov | hpoison
  · exact .inl (covered_of_grows hcov hw.grows (by rw [hw.offsetTrackers]))
  · exact .inr (by rw [hlog, hwaiting]; exact hpoison)

/-- Only the fields of the commit paths change. -/
theorem wrapsUp_of_same (hwm : s'.wm = s.wm) (hmap : s'.offsetTrackers = s.offsetTrackers)
    (hpending : s'.pendingDlqEvents = s.pendingDlqEvents) (hlog : s'.log = s.log) : WrapsUp s s' := by
  refine ⟨⟨s.wm.heap, by rw [hwm]⟩, hmap, hpending, ?_⟩
  rw [trackers_of_frame (hwm ▸ .refl s.wm) hmap hlog]
  exact .refl _

theorem holds_true (s : Poller κ π) : s.Holds fun _ _ => True :=
  ⟨⟨fun _ _ => trivial, fun _ _ => ⟨trivial, trivial⟩⟩, ⟨fun _ _ _ => trivial, fun _ _ _ => trivial⟩,
    ⟨fun _ _ => trivial, fun _ _ => trivial⟩, fun _ _ _ _ => trivial⟩

/-- The steps of the worker and of a commit wrap up. -/
theorem wrapsUp_next (hs : s.wm.AllShared) {a : PollerAction κ π}
    (ha : a.wrapsUp = true) :
    WrapsUp s ((pollerMachine κ π c).next s a) := by
  have hgrows := TrackerRun.grows (trackerRun_next c s hs (holds_true s) a)
  have hdrain : ∀ i, a ≠ .drain i := by rintro i rfl; cases ha
  have hcleanup : a ≠ .cleanupRevoke := by rintro rfl; cases ha
  have hassign : ∀ committed partitions, a ≠ .assign committed partitions := by rintro _ _ rfl; cases ha
  refine ⟨?_, offsetTrackers_next a hassign hcleanup, pendingDlqEvents_next a hdrain hcleanup, hgrows⟩
  have hsame : ((pollerMachine κ π c).next s a).wm = s.wm → ∃ heap, ((pollerMachine κ π c).next s a).wm =
      { s.wm with heap := heap } := fun h => ⟨s.wm.heap, h⟩
  cases a with
  | route => exact hsame (quiet_route c s).wm
  | capture => exact hsame (quiet_capture c s).wm
  | directCommit outcome =>
    refine hsame ?_
    show (s.directCommit outcome).wm = s.wm
    unfold directCommit
    split <;> rfl
  | directSettle => exact (workSteps_directSettle (c := c) allowsMutation_mutates s).heap_only
  | workerStart => exact hsame rfl
  | workerPrepare => exact hsame (quiet_workerPrepare c s).wm
  | workerCheck => exact hsame (quiet_workerCheck s).wm
  | workerCommit outcome =>
    refine hsame ?_
    show (s.workerCommit outcome).wm = s.wm
    unfold workerCommit
    split <;> rfl
  | workerResume => exact hsame (quiet_workerResume s).wm
  | workerSettle => exact (workSteps_workerSettle (c := c) allowsMutation_mutates s).heap_only
  | workerRetain => exact hsame (quiet_workerRetain s).wm
  | _ => cases ha

/-! ## The outbox -/

theorem keyed_enqueue {config : CommitCoordinatorConfig} {k : CommitCoordinator} (hk : k.Keyed)
    (candidates : List CommitCandidate) : (k.enqueue config candidates).2.Keyed := by
  have hspec := CommitCoordinator.enqueue_spec config k candidates
  refine ⟨fun tp b hb => ?_, fun tp b hb => hk.inFlight tp b (hspec.inFlight ▸ hb)⟩
  rcases hspec.pending tp with hsame | ⟨b', -, htp, -, n, -, -, hnew⟩
  · exact hk.pending tp b (hsame ▸ hb)
  · rw [hnew] at hb
    cases hb
    exact htp

theorem foldl_accepting {α : Type} {f : CommitCoordinator → α → CommitCoordinator}
    (hf : ∀ k x, (f k x).accepting = k.accepting) (l : List α) :
    ∀ k : CommitCoordinator, (l.foldl f k).accepting = k.accepting := by
  induction l with
  | nil => intro k; rfl
  | cons x l ih => intro k; exact (ih _).trans (hf k x)

theorem cancelLeases_accepting (k : CommitCoordinator) (tps : List TopicPartition) :
    (k.cancelLeases tps).accepting = k.accepting := by
  refine foldl_accepting (fun k tp => ?_) tps k
  unfold CommitCoordinator.cancelPartition
  dsimp only
  split <;> split <;> rfl

/-- A step of the worker or of `_commit_offsets` opens no partition, and does not make the coordinator
accept again. -/
theorem within_next (hk : s.coordinator.Keyed) {a : PollerAction κ π} (ha : (a.ofWorker || a.ofCommitOffsets) = true) :
    CommitCoordinator.Within s.coordinator ((pollerMachine κ π c).next s a).coordinator ∧
      (s.coordinator.accepting = false → ((pollerMachine κ π c).next s a).coordinator.accepting = false) := by
  have hsame : ∀ {k : CommitCoordinator}, k = s.coordinator → CommitCoordinator.Within s.coordinator k ∧
      (s.coordinator.accepting = false → k.accepting = false) := by
    rintro k rfl
    exact ⟨⟨hk, Finset.Subset.refl _⟩, id⟩
  cases a with
  | capture =>
    refine hsame ?_
    show (s.capture c).coordinator = _
    unfold capture
    split
    · dsimp only
      split <;> rfl
    · rfl
  | directCommit outcome =>
    refine hsame ?_
    show (s.directCommit outcome).coordinator = _
    unfold directCommit
    split <;> rfl
  | directSettle =>
    refine hsame ?_
    show s.directSettle.coordinator = _
    unfold directSettle
    split
    · exact (settles_commitTrackers _ s).coordinator
    · rfl
  | workerStart => exact ⟨CommitCoordinator.within_takeBatch hk, id⟩
  | workerPrepare =>
    show CommitCoordinator.Within s.coordinator (s.workerPrepare c).coordinator ∧ (_ → (s.workerPrepare c).coordinator.accepting = false)
    unfold workerPrepare
    split
    · dsimp only
      unfold cancelStale
      dsimp only
      split
      · exact hsame rfl
      · exact ⟨CommitCoordinator.within_cancelLeases hk _, fun h => (cancelLeases_accepting _ _).trans h⟩
    · exact hsame rfl
  | workerCheck =>
    refine hsame ?_
    show s.workerCheck.coordinator = _
    unfold workerCheck
    split
    · split <;> rfl
    · rfl
  | workerCommit outcome =>
    refine hsame ?_
    show (s.workerCommit outcome).coordinator = _
    unfold workerCommit
    split <;> rfl
  | workerResume =>
    show CommitCoordinator.Within s.coordinator s.workerResume.coordinator ∧ (_ → s.workerResume.coordinator.accepting = false)
    unfold workerResume
    split
    · dsimp only
      split
      · exact ⟨CommitCoordinator.within_clearInFlight hk, id⟩
      · exact ⟨CommitCoordinator.within_of_dropped hk (fun _ _ h => h) (fun _ _ h => h), id⟩
    · exact ⟨CommitCoordinator.within_cancelLeases hk _, fun h => (cancelLeases_accepting _ _).trans h⟩
    · exact hsame rfl
    · exact ⟨CommitCoordinator.within_of_dropped hk (fun _ _ h => h) (fun _ _ h => h), fun _ => rfl⟩
    · exact hsame rfl
  | workerSettle =>
    show CommitCoordinator.Within s.coordinator s.workerSettle.coordinator ∧ (_ → s.workerSettle.coordinator.accepting = false)
    unfold workerSettle
    split
    · rename_i settlements hw
      dsimp only
      rw [(settles_settleAll settlements (s, [])).coordinator]
      exact ⟨CommitCoordinator.within_clearInFlight hk, id⟩
    · exact hsame rfl
  | workerRetain =>
    show CommitCoordinator.Within s.coordinator s.workerRetain.coordinator ∧ (_ → s.workerRetain.coordinator.accepting = false)
    unfold workerRetain
    split
    · rename_i batch settlements retry hw
      dsimp only
      split
      · refine ⟨CommitCoordinator.within_retryBatch hk batch, fun h => Eq.trans ?_ h⟩
        refine foldl_accepting (fun k b => ?_) batch s.coordinator
        split <;> rfl
      · exact ⟨CommitCoordinator.within_abortBatch hk batch,
          fun h => (foldl_accepting (f := CommitCoordinator.cancel) (fun _ _ => rfl) batch s.coordinator).trans h⟩
    · exact hsame rfl
  | _ => cases ha

/-- The outbox keeps every candidate under its partition. -/
theorem keyed_next (hk : s.coordinator.Keyed) (a : PollerAction κ π) :
    ((pollerMachine κ π c).next s a).coordinator.Keyed := by
  by_cases ha : (a.ofWorker || a.ofCommitOffsets) = true
  · exact (within_next hk ha).1.keyed
  cases a with
  | assign committed partitions =>
    show (s.assign c committed partitions).coordinator.Keyed
    unfold assign
    split
    · exact hk
    · unfold assignSync
      dsimp only
      split
      · exact ⟨hk.pending, hk.inFlight⟩
      · exact hk
  | prepareRevoke tps =>
    obtain ⟨heap, offsets, heq, -⟩ := prepareRevokeSync_eq (c := c) (s := s) tps
    show (s.prepareRevokeSync c tps).coordinator.Keyed
    rw [heq]
    unfold stopRevoked
    dsimp only
    split
    · exact (CommitCoordinator.within_stopAcceptingPartitions hk tps).keyed
    · exact hk
  | revokeCommit =>
    show s.revokeCommit.coordinator.Keyed
    unfold revokeCommit
    split <;> exact hk
  | cleanupRevoke =>
    show s.cleanupRevokeSync.coordinator.Keyed
    unfold cleanupRevokeSync
    split <;> exact hk
  | drain i =>
    show (s.drain c i).coordinator.Keyed
    have hprocess : ∀ (b : Bool) (s' : Poller κ π),
        (s.polled c i).processCompleted c i.publish (s.drainedEvents c i).1 = (b, s') → s'.coordinator.Keyed := by
      intro b s' heq
      rw [show s' = ((s.polled c i).processCompleted c i.publish (s.drainedEvents c i).1).2 by rw [heq]]
      exact hk
    unfold drain
    dsimp only
    split
    · exact hk
    · split
      · rename_i s' heq
        exact hprocess _ s' heq
      · rename_i s' heq
        exact hprocess _ s' heq
  | route =>
    show (s.route c).coordinator.Keyed
    unfold route
    split
    · split
      · dsimp only
        split
        · exact hk
        · split
          · rename_i k heq
            exact (show k = (s.coordinator.enqueue c.coordinator _).2 by rw [heq]) ▸ keyed_enqueue hk _
          · rename_i k heq
            exact (CommitCoordinator.within_cancelLeases
              ((show k = (s.coordinator.enqueue c.coordinator _).2 by rw [heq]) ▸ keyed_enqueue hk _) _).keyed
      · exact hk
    · exact hk
  | _ => first | exact hk | exact absurd rfl ha

end Poller

/-! ## Every drain -/

namespace DrainPc

/-- The coordinator has not been stopped. -/
def early : DrainPc → Bool
  | .serving | .looping | .ready _ | .committing _ | .deciding | .closing _ => true
  | _ => false

/-- The counters were zero. -/
def last : DrainPc → Bool
  | .ready true | .committing true | .closing true | .waiting true | .fallback true _ | .finished true => true
  | _ => false

/-- The coordinator has been stopped, if there is one. -/
def stopped : DrainPc → Bool
  | .waiting _ | .fallback _ _ | .finished _ => true
  | _ => false

/-- The candidates that the coordinator had are gone. -/
def cleared : DrainPc → Bool
  | .fallback _ _ | .finished _ => true
  | _ => false

end DrainPc

namespace DrainPc

variable {pc : DrainPc} {a : PollerAction κ π}

/-- An exception ends the drain; any other step of the poller leaves it where it is. -/
theorem after_cases (pc : DrainPc) (a : PollerAction κ π) : pc.after a = .raised ∨
    ((pc.after a).early = pc.early ∧ (pc.after a).last = pc.last ∧ (pc.after a).stopped = pc.stopped ∧
      (pc.after a).cleared = pc.cleared) := by
  unfold after
  split
  · exact .inl rfl
  · exact .inl rfl
  · rename_i drained committed outcome hcrash
    refine .inr ⟨rfl, ?_, rfl, rfl⟩
    cases drained <;> rfl
  · exact .inr ⟨rfl, rfl, rfl, rfl⟩

theorem wrapsUp_of_allows (hlast : pc.last = true) (h : pc.allows a = true) :
    a.wrapsUp = true := by
  cases pc with
  | committing last => exact h
  | finished result => cases h
  | serving => cases hlast
  | raised => cases hlast
  | fallback drained committed =>
    replace h : (a.ofWorker || a.ofCommitOffsets) = true := h
    unfold PollerAction.wrapsUp
    rw [h]
    rfl
  | _ =>
    replace h : a.ofWorker = true := h
    unfold PollerAction.wrapsUp
    rw [h]
    rfl

theorem commits_of_allows (hstopped : pc.stopped = true) (h : pc.allows a = true) :
    (a.ofWorker || a.ofCommitOffsets) = true := by
  cases pc with
  | waiting drained =>
    replace h : a.ofWorker = true := h
    rw [h]
    rfl
  | fallback drained committed => exact h
  | finished result => cases h
  | _ => cases hstopped

end DrainPc

/-- What is asked of a step: that the poller's steps are truthful. -/
def TruthfulShutdown (c : PollerConfig) (s : Shutdown κ π) : ShutdownAction κ π → Prop
  | .poller a => TruthfulStep s.poller a
  | .pass env input => TruthfulStep { s.poller with wm := s.poller.wm.schedule c.workManager env } (.drain input)
  | _ => True

structure ShutdownInv (c : PollerConfig) (s : Shutdown κ π) : Prop where
  shared : s.poller.wm.AllShared
  keyed : s.poller.coordinator.Keyed
  reached : s.pc.early = true → (pollerMachine κ π c).ReachableBy TruthfulStep s.poller
  emptied : s.pc.last = true → s.poller.Emptied
  stopped : s.pc.stopped = true → c.coordinatorEnabled = true → s.poller.coordinator.accepting = false
  cleared : s.pc.cleared = true → c.coordinatorEnabled = true → s.poller.coordinator.openPartitions = ∅

namespace ShutdownInv

variable {c : PollerConfig} {s : Shutdown κ π}

/-- A step of the poller that `drain` lets run. -/
theorem poller (h : ShutdownInv c s) {a : PollerAction κ π} (hready : s.ready c (.poller a) = true) (hlaw : a.Lawful)
    (htruth : TruthfulStep s.poller a) : ShutdownInv c (s.next c (.poller a)) := by
  obtain ⟨hpoller, hallows⟩ : s.poller.ready c a = true ∧ s.pc.allows a = true := Bool.and_eq_true_iff.mp hready
  have hshared := Poller.allShared_next c s.poller h.shared a
  have hkeyed := Poller.keyed_next (c := c) h.keyed a
  rcases DrainPc.after_cases s.pc a with hraised | ⟨hearly, hlast, hstopped, hcleared⟩
  · have hpc : (s.next c (.poller a)).pc = .raised := hraised
    refine ⟨hshared, hkeyed, ?_, ?_, ?_, ?_⟩ <;> rw [hpc] <;> intro hflag <;> cases hflag
  refine ⟨hshared, hkeyed, fun hpc => ?_, fun hpc => ?_, fun hpc hc => ?_, fun hpc hc => ?_⟩
  · exact .next (h.reached (hearly.symm.trans hpc)) ⟨hpoller, hlaw⟩ htruth
  · have hpc := hlast.symm.trans hpc
    exact (h.emptied hpc).wrapsUp (Poller.wrapsUp_next h.shared (DrainPc.wrapsUp_of_allows hpc hallows))
  · have hpc := hstopped.symm.trans hpc
    exact (Poller.within_next h.keyed (DrainPc.commits_of_allows hpc hallows)).2 (h.stopped hpc hc)
  · have hpc := hcleared.symm.trans hpc
    have hstop : s.pc.stopped = true := by
      cases hs : s.pc <;> rw [hs] at hpc <;> first | rfl | cases hpc
    have hwithin := (Poller.within_next (c := c) h.keyed (DrainPc.commits_of_allows hstop hallows)).1
    refine Finset.subset_empty.mp (hwithin.opens.trans ?_)
    rw [h.cleared hpc hc]

/-- Only where `drain` is changes. -/
theorem move (h : ShutdownInv c s) {pc : DrainPc} (hearly : pc.early = true → s.pc.early = true)
    (hlast : pc.last = true → s.poller.Emptied)
    (hstopped : pc.stopped = true → c.coordinatorEnabled = true → s.poller.coordinator.accepting = false)
    (hcleared : pc.cleared = true → c.coordinatorEnabled = true → s.poller.coordinator.openPartitions = ∅) :
    ShutdownInv c { s with pc := pc } :=
  ⟨h.shared, h.keyed, fun hpc => h.reached (hearly hpc), hlast, hstopped, hcleared⟩

/-- One pass is a step of the scheduler and a drain of completions. -/
theorem pass (h : ShutdownInv c s) {env : Env (SubmitKey κ) π} {input : Poller.DrainInput κ π} (hpc : s.pc = .looping)
    (hlaw : env.AcceptsPrefix ∧ input.env.AcceptsPrefix)
    (htruth : TruthfulStep { s.poller with wm := s.poller.wm.schedule c.workManager env } (.drain input)) :
    ShutdownInv c (s.pass c env input) := by
  have hreached := h.reached (by rw [hpc]; rfl)
  have hscheduled : (pollerMachine κ π c).ReachableBy TruthfulStep
      { s.poller with wm := s.poller.wm.schedule c.workManager env } :=
    .next (a := PollerAction.schedule env) hreached ⟨rfl, hlaw.1⟩ ⟨trivial, trivial⟩
  have hdrained : (pollerMachine κ π c).ReachableBy TruthfulStep (s.pass c env input).poller :=
    .next (a := PollerAction.drain input) hscheduled ⟨rfl, hlaw.2⟩ htruth
  have hshared := Poller.allShared_next c _ (Poller.allShared_next c s.poller h.shared (.schedule env)) (.drain input)
  have hkeyed := Poller.keyed_next (c := c) (Poller.keyed_next (c := c) h.keyed (.schedule env)) (.drain input)
  have hflags : (s.pass c env input).pc.last = false ∧ (s.pass c env input).pc.stopped = false ∧
      (s.pass c env input).pc.cleared = false := by
    unfold Shutdown.pass
    dsimp only
    split <;> exact ⟨rfl, rfl, rfl⟩
  refine ⟨hshared, hkeyed, fun _ => hdrained, fun hlast => ?_, fun hstopped => ?_, fun hcleared => ?_⟩
  · rw [hflags.1] at hlast; cases hlast
  · rw [hflags.2.1] at hstopped; cases hstopped
  · rw [hflags.2.2] at hcleared; cases hcleared

end ShutdownInv

namespace CommitCoordinator

variable {k : CommitCoordinator}

theorem isSome_keepGreater (d : Dict TopicPartition CommitCandidate) (b : CommitCandidate) (tp : TopicPartition) :
    ((keepGreater d b).get? tp).isSome ↔ b.tp = tp ∨ (d.get? tp).isSome := by
  have hset : ((d.set b.tp b).get? tp).isSome ↔ b.tp = tp ∨ (d.get? tp).isSome := by
    rw [Dict.get?_set]
    split
    · rename_i heq; simp [heq]
    · rename_i hne; simp [hne]
  unfold keepGreater
  split
  · exact hset
  · rename_i current hcurrent
    split
    · exact hset
    · exact ⟨.inr, fun h => h.elim (fun heq => by rw [← heq, hcurrent]; rfl) id⟩

theorem isSome_foldl_keepGreater (tp : TopicPartition) (l : List CommitCandidate) :
    ∀ d : Dict TopicPartition CommitCandidate,
      ((l.foldl keepGreater d).get? tp).isSome ↔ (∃ b ∈ l, b.tp = tp) ∨ (d.get? tp).isSome := by
  induction l with
  | nil => intro d; simp
  | cons b l ih =>
    intro d
    rw [List.foldl_cons, ih, isSome_keepGreater, List.exists_mem_cons_iff, ← or_assoc, or_comm (a := b.tp = tp)]

/-- What is left are the partitions with a candidate. -/
theorem mem_allRemaining (hk : k.Keyed) {tp : TopicPartition} : (k.allRemaining.get? tp).isSome ↔ tp ∈ k.openPartitions := by
  unfold allRemaining
  rw [isSome_foldl_keepGreater, mem_openPartitions]
  constructor
  · rintro (⟨b, hb, rfl⟩ | hempty)
    · rcases List.mem_append.mp hb with hb | hb
      · obtain ⟨tp', htp'⟩ := (Dict.mem_values_iff _).mp hb
        rw [hk.inFlight tp' b htp', htp']
        exact .inr rfl
      · obtain ⟨tp', htp'⟩ := (Dict.mem_values_iff _).mp hb
        rw [hk.pending tp' b htp', htp']
        exact .inl rfl
    · cases hempty
  · rintro (h | h)
    · obtain ⟨b, hb⟩ := Option.isSome_iff_exists.mp h
      exact .inl ⟨b, List.mem_append_right _ ((Dict.mem_values_iff _).mpr ⟨tp, hb⟩), hk.pending tp b hb⟩
    · obtain ⟨b, hb⟩ := Option.isSome_iff_exists.mp h
      exact .inl ⟨b, List.mem_append_left _ ((Dict.mem_values_iff _).mpr ⟨tp, hb⟩), hk.inFlight tp b hb⟩

theorem openPartitions_of_remaining_nil (hk : k.Keyed) (h : k.allRemaining.entries = []) : k.openPartitions = ∅ := by
  refine Finset.eq_empty_of_forall_notMem fun tp htp => ?_
  have hsome := (mem_allRemaining hk).mpr htp
  unfold Dict.get? at hsome
  rw [h] at hsome
  cases hsome

/-- The leases of all that is left are cancelled, so nothing is left. -/
theorem openPartitions_cancelAll (hk : k.Keyed) : (k.cancelLeases k.allRemaining.keys).openPartitions = ∅ := by
  obtain ⟨hpending, hinFlight, -, -⟩ := cancelLeases_spec k.allRemaining.keys k
  refine Finset.eq_empty_of_forall_notMem fun tp htp => ?_
  by_cases hmem : tp ∈ k.allRemaining.keys
  · rw [mem_openPartitions, hpending, hinFlight, if_pos hmem] at htp
    simp [if_pos hmem] at htp
  · rw [mem_openPartitions, hpending, hinFlight, if_neg hmem, if_neg hmem] at htp
    rw [Dict.mem_keys_iff, mem_allRemaining hk] at hmem
    exact hmem (mem_openPartitions.mpr htp)

end CommitCoordinator

namespace ShutdownInv

variable {c : PollerConfig} {s : Shutdown κ π}

/-- **Every step** keeps the invariant. -/
theorem next (h : ShutdownInv c s) {a : ShutdownAction κ π} (he : (shutdownMachine κ π c).enabled s a)
    (htruth : TruthfulShutdown c s a) : ShutdownInv c (s.next c a) := by
  obtain ⟨hready, hlaw⟩ := he
  cases a with
  | poller a => exact h.poller hready hlaw htruth
  | drain =>
    have hpc : s.pc = .serving := by simp only [Shutdown.ready, Bool.and_eq_true, decide_eq_true_eq] at hready; exact hready.1.1.1
    exact h.move (fun _ => by rw [hpc]; rfl) (fun hf => by cases hf) (fun hf => by cases hf) fun hf => by cases hf
  | pass env input => exact h.pass (of_decide_eq_true hready) hlaw htruth
  | commit =>
    obtain ⟨hidle, -⟩ := Bool.and_eq_true_iff.mp hready
    unfold Shutdown.next
    dsimp only
    split
    · rename_i last hpc
      have hscan : Poller.WrapsUp s.poller (s.poller.scan true) := Poller.wrapsUp_of_same rfl rfl rfl rfl
      refine ⟨h.shared, h.keyed, fun _ => ?_, fun hlast => ?_, (fun hf => by cases hf), (fun hf => by cases hf)⟩
      · exact .next (a := PollerAction.scan true) (h.reached (by rw [hpc]; rfl)) ⟨hidle, trivial⟩ ⟨trivial, trivial⟩
      · refine (h.emptied ?_).wrapsUp hscan
        rw [hpc]
        cases last <;> exact hlast
    · exact h
  | committed =>
    unfold Shutdown.next
    dsimp only
    split
    · rename_i hpc
      exact h.move (fun _ => by rw [hpc]; rfl) (fun _ => h.emptied (by rw [hpc]; rfl)) (fun hf => by cases hf)
        fun hf => by cases hf
    · rename_i hpc
      exact h.move (fun _ => by rw [hpc]; rfl) (fun hf => by cases hf) (fun hf => by cases hf) fun hf => by cases hf
    · exact h
  | decide timedOut =>
    have hpc : s.pc = .deciding := of_decide_eq_true hready
    have hreached := h.reached (by rw [hpc]; rfl)
    refine h.move (fun _ => by rw [hpc]; rfl) (fun hlast => ?_) (fun hf => ?_) fun hf => ?_
    · split at hlast
      · rename_i hleft
        exact Poller.emptied_of_nothingLeft hreached hleft
      · split at hlast <;> cases hlast
    · split at hf
      · cases hf
      · split at hf <;> cases hf
    · split at hf
      · cases hf
      · split at hf <;> cases hf
  | stopAccepting =>
    unfold Shutdown.next
    dsimp only
    split
    · rename_i drained hpc
      have hlast : drained = true → s.poller.Emptied := by
        rintro rfl
        exact h.emptied (by rw [hpc]; rfl)
      split
      · refine ⟨h.shared, ⟨h.keyed.pending, h.keyed.inFlight⟩, (fun hf => by cases hf), fun hpc => ?_, fun _ _ => rfl,
          (fun hf => by cases hf)⟩
        have hdrained : drained = true := by cases drained <;> first | rfl | cases hpc
        exact (hlast hdrained).wrapsUp (Poller.wrapsUp_of_same rfl rfl rfl rfl)
      · rename_i hdisabled
        refine h.move (fun hf => by cases hf) (fun hpc => hlast ?_) (fun _ hc => absurd hc hdisabled)
          fun _ hc => absurd hc hdisabled
        cases drained <;> first | rfl | cases hpc
    · exact h
  | coordinatorDrained =>
    obtain ⟨hnone, -⟩ := Bool.and_eq_true_iff.mp hready
    unfold Shutdown.next
    dsimp only
    split
    · rename_i drained hpc
      refine h.move (fun hf => by cases hf) (fun hlast => h.emptied ?_) (fun _ hc => h.stopped (by rw [hpc]; rfl) hc)
        fun _ _ => CommitCoordinator.openPartitions_of_remaining_nil h.keyed (of_decide_eq_true hnone)
      rw [hpc]
      cases drained <;> first | rfl | cases hlast
    · exact h
  | coordinatorLeft =>
    unfold Shutdown.next
    dsimp only
    split
    · rename_i drained hpc
      refine ⟨h.shared, (CommitCoordinator.within_cancelLeases h.keyed _).keyed, (fun hf => by cases hf),
        fun hlast => ?_, fun _ hc => ?_, fun _ _ => CommitCoordinator.openPartitions_cancelAll h.keyed⟩
      · refine Poller.Emptied.wrapsUp (h.emptied ?_) (Poller.wrapsUp_of_same rfl rfl rfl rfl)
        rw [hpc]
        cases drained <;> first | rfl | cases hlast
      · exact (Poller.cancelLeases_accepting _ _).trans (h.stopped (by rw [hpc]; rfl) hc)
    · exact h
  | fallbackReturned =>
    unfold Shutdown.next
    dsimp only
    split
    · rename_i drained committed hpc
      refine h.move (fun hf => by cases hf) (fun hlast => h.emptied ?_) (fun _ hc => h.stopped (by rw [hpc]; rfl) hc)
        fun _ hc => h.cleared (by rw [hpc]; rfl) hc
      rw [hpc]
      cases drained <;> first | rfl | cases hlast
    · exact h

end ShutdownInv

theorem shutdownInv_reachable {c : PollerConfig} {s : Shutdown κ π}
    (h : (shutdownMachine κ π c).ReachableBy (TruthfulShutdown c) s) : ShutdownInv c s := by
  refine (shutdownMachine κ π c).invariant (I := ShutdownInv c) ?_ ?_ h
  · rintro s ⟨circuit, rfl⟩
    refine ⟨(fun tp htp => by cases htp), ⟨(fun tp b hb => by cases hb), (fun tp b hb => by cases hb)⟩,
      fun _ => .start ⟨circuit, rfl⟩, (fun hf => by cases hf), (fun hf => by cases hf), (fun hf => by cases hf)⟩
  · intro s a hi he ht
    exact hi.next he ht

/-- Every action is ready when its turn comes. -/
def Shutdown.readyRun (c : PollerConfig) (s : Shutdown κ π) : List (ShutdownAction κ π) → Bool
  | [] => true
  | a :: l => s.ready c a && Shutdown.readyRun c (s.next c a) l

def bothSucceed : Poller.DrainInput Nat Unit :=
  { env := acceptingEnv _ _
    engineEvents := [sampleSuccess 0 5, sampleSuccess 1 6]
    timedOut := []
    lateEvents := []
    publish := fun _ => .delivered }

def serveTwo : List (ShutdownAction Nat Unit) :=
  (sampleAssign 5 ++ [PollerAction.dispatch ([5, 6].map sampleMessage)]).map .poller ++ [.drain]

def drainTwo : List (ShutdownAction Nat Unit) :=
  [.commit, .poller .route, .committed, .decide false, .commit, .poller .route, .committed, .stopAccepting,
   .poller .workerStart, .poller .workerPrepare, .poller .workerCheck, .poller (.workerCommit .ok),
   .poller .workerResume, .poller .workerSettle, .coordinatorDrained]

/-- A drain whose steps are ready and ask for nothing more can run. -/
theorem Shutdown.reachable_readyRun {c : PollerConfig} (l : List (ShutdownAction κ π)) :
    ∀ {s : Shutdown κ π}, (shutdownMachine κ π c).ReachableBy (TruthfulShutdown c) s → s.readyRun c l = true →
      (∀ a ∈ l, a.Lawful ∧ ∀ s, TruthfulShutdown c s a) →
      (shutdownMachine κ π c).ReachableBy (TruthfulShutdown c) ((shutdownMachine κ π c).run s l) := by
  induction l with
  | nil => exact fun hs _ _ => hs
  | cons a l ih =>
    intro s hs hready hl
    obtain ⟨ha, hrest⟩ := Bool.and_eq_true_iff.mp hready
    obtain ⟨hlaw, htruth⟩ := hl a List.mem_cons_self
    exact ih (.next hs ⟨ha, hlaw⟩ (htruth s)) hrest fun b hb => hl b (List.mem_cons_of_mem _ hb)

theorem TruthfulShutdown.pass {c : PollerConfig} {s : Shutdown κ π} {env : Env (SubmitKey κ) π} {input : Poller.DrainInput κ π}
    (hreports : ∀ e ∈ input.engineEvents ++ input.lateEvents, (s.poller.wm.schedule c.workManager env).Reported e)
    (hpublish : ∀ n, input.publish n ≠ .raised) : TruthfulShutdown c s (.pass env input) :=
  ⟨trivial, hreports, hpublish⟩

/-- The two messages are with the virtual queue when `drain` starts. -/
theorem reachable_serveTwo :
    (shutdownMachine Nat Unit (sampleConfig true)).ReachableBy (TruthfulShutdown (sampleConfig true))
      ((shutdownMachine Nat Unit (sampleConfig true)).run (.mk (.new none) .serving) serveTwo) := by
  have hassign : ∀ p ∈ [(⟨"t", 0, -1001, none⟩ : KafkaTopicPartition)],
      ((Poller.new none : Poller Nat Unit).offsetTrackers.get? p.toDto = none) := by decide
  have hinit : (shutdownMachine Nat Unit (sampleConfig true)).init (.mk (.new none) .serving) := ⟨none, rfl⟩
  refine (shutdownMachine Nat Unit (sampleConfig true)).reachableBy_run serveTwo (.start hinit) ?_
  exact ⟨⟨by decide, trivial⟩, ⟨trivial, trivial⟩, ⟨by decide, trivial⟩, ⟨hassign, trivial⟩,
    ⟨by decide, trivial⟩, ⟨trivial, trivial⟩, ⟨by decide, trivial⟩, ⟨trivial, trivial⟩, ⟨by decide, trivial⟩, trivial, trivial⟩

end PyrallelConsumer
