import PyrallelConsumer.Completion
import PyrallelConsumer.CommitCoordinator
import PyrallelConsumer.RebalanceSupport
import PyrallelConsumer.WorkView
import PyrallelConsumer.Lib.Machine

/-!
# PyrallelConsumer.Poller

`BrokerPoller` of `control_plane/broker_poller.py` with its rebalance orchestration, its commit
coordinator adapter and the worker task of the coordinator, as one transition system.

Sections under the control lock are atomic. Three locks decide what else can interleave:

* the commit lock is held from a scan for candidates until the direct commit is settled, so there is
  one `DirectPc`;
* the operation guard is held by `consume`, inside which the rebalance callbacks run, by a direct
  commit for the call itself, and by the coordinator's worker from its lease check to its call;
* the worker task runs alone, so there is one `WorkerPc`.

A commit reaches the broker client whatever the client answers, and is recorded in the history then.
What is real time in the code is in the labels: which blocking offsets have timed out, and how
publications, commits and engine calls end.
-/

set_option linter.unusedSectionVars false

namespace PyrallelConsumer

structure PollerConfig where
  workManager : WorkManagerConfig
  dlq : DlqConfig
  strategy : RebalanceStrategy
  planner : BrokerCommitPlanner
  maxRevokeGraceMs : Int
  coordinatorEnabled : Bool
  coordinator : CommitCoordinatorConfig

/-- A commit candidate bound to the tracker that it was captured with. -/
structure Captured where
  r : TrackerRef
  tp : TopicPartition
  safeOffset : Int
  position : KafkaTopicPartition
deriving DecidableEq, Repr

/-- How `consumer.commit` ends: `KafkaException` is retried, any other exception is not. -/
inductive CommitOutcome where
  | ok
  | kafkaException
  | crash
deriving DecidableEq, Repr

/-- `_commit_ready_offsets` and `_commit_offsets`, between their awaits. -/
inductive DirectPc where
  | idle
  | scanned (commits : List (TopicPartition × Int))
  | fallback (commits : List (TopicPartition × Int))
  | captured (commits : List (TopicPartition × Int)) (tracked : List Captured) (attempt : Nat)
  | acked (commits : List (TopicPartition × Int)) (tracked : List Captured)
deriving DecidableEq, Repr

/-- A candidate of a coordinator batch whose tracker was found. -/
structure Tracked where
  candidate : CommitCandidate
  r : TrackerRef
  position : KafkaTopicPartition
deriving DecidableEq, Repr

/-- How `commit_sync` ends for a batch: `inactive` is `CommitBatchAborted`, with the partitions whose
leases it cancels. -/
inductive BatchOutcome where
  | ok
  | inactive (tps : List TopicPartition)
  | kafkaException
  | crash
deriving DecidableEq, Repr

/-- `_run_worker` and `commit_sync`, between their awaits. -/
inductive WorkerPc where
  | idle
  | started (batch : List CommitCandidate)
  | prepared (batch : List CommitCandidate) (tracked : List Tracked)
  | guarded (batch : List CommitCandidate) (tracked : List Tracked)
  | returned (batch : List CommitCandidate) (outcome : BatchOutcome)
  | settling (settlements : List CommitCandidate)
  | retaining (batch settlements : List CommitCandidate) (retry : Bool)
deriving DecidableEq, Repr

inductive Guard where
  | free
  | consume
  | worker
deriving DecidableEq, Repr

/-- A revoke callback between its phases, with the offsets still to be committed. -/
structure RevokePc where
  revokedTps : List TopicPartition
  offsetsToCommit : List (TrackerRef × KafkaTopicPartition)
deriving DecidableEq, Repr

structure Poller (κ π : Type) [DecidableEq κ] where
  wm : WorkManager (SubmitKey κ) π
  offsetTrackers : Dict TopicPartition TrackerRef
  pendingDlqEvents : Dict (TopicPartition × Int) CompletionEvent
  dirtyCommitPartitions : List TopicPartition
  coordinator : CommitCoordinator
  direct : DirectPc
  worker : WorkerPc
  revoke : Option RevokePc
  guard : Guard
  log : List (PollerEntry κ π)

namespace Poller

variable {κ π : Type} [DecidableEq κ]

def new (circuit : Option (PoisonMessageCircuitBreaker (SubmitKey κ))) : Poller κ π :=
  { wm := .new circuit
    offsetTrackers := .empty
    pendingDlqEvents := .empty
    dirtyCommitPartitions := []
    coordinator := {}
    direct := .idle
    worker := .idle
    revoke := none
    guard := .free
    log := [] }

/-- The installed tracker of a partition. -/
def tracker? (s : Poller κ π) (tp : TopicPartition) : Option (TrackerRef × OffsetTracker) :=
  (s.offsetTrackers.get? tp).bind fun r => (s.wm.trackerAt r).map fun t => (r, t)

/-! ## Rebalance -/

/-- New tracker objects, one for each entry. -/
def allocTrackers (wm : WorkManager (SubmitKey κ) π) :
    List (TopicPartition × OffsetTracker) →
    List (TopicPartition × TrackerRef) × WorkManager (SubmitKey κ) π
  | [] => ([], wm)
  | (tp, t) :: l =>
    let (r, wm) := wm.allocTracker t
    let (refs, wm) := allocTrackers wm l
    ((tp, r) :: refs, wm)

def installedEntries (assignments : List (TopicPartition × OffsetTracker))
    (refs : List (TopicPartition × TrackerRef)) : List (PollerEntry κ π) :=
  List.zipWith (fun a r => .installed r.2 a.2.core) assignments refs

section

variable (c : PollerConfig)

/-- `assign_sync` with the trackers of `build_assignments`. -/
def assignSync (s : Poller κ π) (assignments : List (TopicPartition × OffsetTracker)) : Poller κ π :=
  let (refs, wm) := allocTrackers s.wm assignments
  { s with
    coordinator :=
      if c.coordinatorEnabled then s.coordinator.startAcceptingPartitions (refs.map Prod.fst)
      else s.coordinator
    offsetTrackers := s.offsetTrackers.update refs
    wm := wm.onAssign c.workManager (refs.map fun e => (e.1, .tracker e.2))
    log := (installedEntries assignments refs).reverse ++ s.log }

def assign (s : Poller κ π) (committed : Option (List KafkaTopicPartition))
    (partitions : List KafkaTopicPartition) : Poller κ π :=
  match RebalanceSupport.buildAssignments committed partitions c.strategy c.maxRevokeGraceMs with
  | .error _ => s
  | .ok assignments => s.assignSync c assignments.entries

/-- The offset to commit for a revoked partition whose tracker has advanced to `t`. -/
def revokeSafeOffset (candidates : Dict TopicPartition CommitCandidate) (tp : TopicPartition)
    (t : OffsetTracker) : Int :=
  match candidates.get? tp with
  | some candidate =>
    if candidate.assignmentEpoch = t.epoch then max t.lastCommittedOffset candidate.safeOffset
    else t.lastCommittedOffset
  | none => t.lastCommittedOffset

/-- The loop body of `prepare_revoke_sync`. -/
def prepareRevokeOne (candidates : Dict TopicPartition CommitCandidate)
    (a : Poller κ π × List (TrackerRef × KafkaTopicPartition)) (tp : TopicPartition) :
    Poller κ π × List (TrackerRef × KafkaTopicPartition) :=
  match a.1.tracker? tp with
  | none => a
  | some (r, t) =>
    let t := t.advanceHighWaterMark
    let s := { a.1 with wm := a.1.wm.modifyTracker r (·.advanceHighWaterMark) }
    let safeOffset := revokeSafeOffset candidates tp t
    if safeOffset < 0 then (s, a.2)
    else (s, a.2 ++ [(r, c.planner.offsetToCommit c.strategy tp t safeOffset)])

/-- `prepare_revoke_sync` up to its loop. -/
def stopRevoked (s : Poller κ π) (tps : List TopicPartition) : Poller κ π :=
  { s with
    coordinator :=
      if c.coordinatorEnabled then s.coordinator.stopAcceptingPartitions tps else s.coordinator
    wm := s.wm.onRevoke c.workManager tps }

def prepareRevokeSync (s : Poller κ π) (tps : List TopicPartition) : Poller κ π :=
  let candidates := if c.coordinatorEnabled then s.coordinator.remainingCandidates tps else .empty
  let (s, offsets) := tps.foldl (prepareRevokeOne c candidates) (s.stopRevoked c tps, [])
  { s with revoke := some ⟨tps, offsets⟩ }

end

/-- `commit_prepared_revoke_offsets` for the next offset. -/
def revokeCommit (s : Poller κ π) : Poller κ π :=
  match s.revoke with
  | some ⟨tps, (r, position) :: rest⟩ =>
    { s with revoke := some ⟨tps, rest⟩, log := .committed .revoke r position :: s.log }
  | _ => s

/-- `cleanup_revoke_sync`. -/
def cleanupRevokeSync (s : Poller κ π) : Poller κ π :=
  match s.revoke with
  | none => s
  | some pc =>
    { s with
      dirtyCommitPartitions := s.dirtyCommitPartitions.filter fun tp => tp ∉ pc.revokedTps
      offsetTrackers := pc.revokedTps.foldl Dict.erase s.offsetTrackers
      pendingDlqEvents := s.pendingDlqEvents.filter fun k _ => k.1 ∉ pc.revokedTps
      revoke := none }

/-! ## Dispatch and completion -/

section

variable (c : PollerConfig)

/-- The work items that a dispatch created, with the trackers of their partitions. -/
def submittedEntries (s : Poller κ π) (wm : WorkManager (SubmitKey κ) π) : List (PollerEntry κ π) :=
  let items := (WorkLog.enqueuedItems wm.log).drop (WorkLog.enqueuedItems s.wm.log).length
  (items.filterMap fun x => (s.offsetTrackers.get? x.tp).map (.submitted · x)).reverse

def dispatch (s : Poller κ π) (messages : List (Message κ π)) : Poller κ π :=
  let wm := (DispatchSupport.dispatchMessages c.workManager.orderingMode s.offsetTrackers s.wm messages).1
  { s with wm := wm, log := s.submittedEntries wm ++ s.log }

/-- What `_drain_completion_events_once` meets outside: engine answers and events, the blocking
offsets that have timed out with their error texts, and publication outcomes. -/
structure DrainInput (κ π : Type) where
  env : Env (SubmitKey κ) π
  engineEvents : List CompletionEvent
  timedOut : List (TopicPartition × Int × String)
  lateEvents : List CompletionEvent
  publish : Nat → PublishOutcome

/-- The `force_fail` calls of `handle_blocking_timeouts`; the result says whether one succeeded. -/
def forceTimedOut (s : Poller κ π) (wm : WorkManager (SubmitKey κ) π) :
    List (TopicPartition × Int × String) → Bool × WorkManager (SubmitKey κ) π
  | [] => (false, wm)
  | (tp, offset, error) :: l =>
    match (s.offsetTrackers.get? tp).bind wm.trackerAt with
    | none => s.forceTimedOut wm l
    | some t =>
      let (success, wm) := wm.forceFail tp offset t.epoch error c.dlq.maxRetries
      let (rest, wm) := s.forceTimedOut wm l
      (success || rest, wm)

/-- The completion events of a drain, and the work manager after polling them. -/
def drainedEvents (s : Poller κ π) (i : DrainInput κ π) :
    List CompletionEvent × WorkManager (SubmitKey κ) π :=
  let (events, wm) := s.wm.pollCompletedEvents c.workManager i.env i.engineEvents true
  let (forced, wm) := s.forceTimedOut c wm i.timedOut
  if forced then
    let (late, wm) := wm.pollCompletedEvents c.workManager i.env i.lateEvents true
    (events ++ late, wm)
  else (events, wm)

/-- The partitions with pending dead letters that are managed. -/
def pendingRetryPartitions (s : Poller κ π) : List TopicPartition :=
  (s.pendingDlqEvents.keys.map Prod.fst).filter fun tp => s.offsetTrackers.contains tp

def markDirty (dirty tps : List TopicPartition) : List TopicPartition := tps.foldl appendKey dirty

/-- `_process_completed_events`. -/
def processCompleted (s : Poller κ π) (publish : Nat → PublishOutcome)
    (events : List CompletionEvent) : Bool × Poller κ π :=
  let retryPartitions := s.pendingRetryPartitions
  let (ok, p) := CompletionSupport.processCompletedEvents c.dlq s.offsetTrackers publish s.wm
    s.pendingDlqEvents s.log events
  (ok, { s with
    wm := p.wm
    pendingDlqEvents := p.pendingDlqEvents
    dirtyCommitPartitions :=
      if ok ∧ p.completedOffsets.entries ≠ [] then
        markDirty s.dirtyCommitPartitions (p.completedOffsets.keys ++ retryPartitions)
      else s.dirtyCommitPartitions
    log := p.log })

/-- The poller after polling, before it processes anything. -/
def polled (s : Poller κ π) (i : DrainInput κ π) : Poller κ π := { s with wm := (s.drainedEvents c i).2 }

/-- `_drain_completion_events_once`. -/
def drain (s : Poller κ π) (i : DrainInput κ π) : Poller κ π :=
  let events := (s.drainedEvents c i).1
  let s := s.polled c i
  if events = [] ∧ s.pendingDlqEvents.entries = [] then s
  else
    match s.processCompleted c i.publish events with
    | (false, s) => s
    | (true, s) => { s with wm := s.wm.schedule c.workManager i.env }

/-! ## Direct commits -/

/-- `commits_to_make`. -/
def commitsToMake (s : Poller κ π) (force : Bool) : List (TopicPartition × Int) :=
  let candidates := DispatchSupport.buildCommitCandidates s.offsetTrackers s.wm
  if force then candidates else candidates.filter fun e => e.1 ∈ s.dirtyCommitPartitions

/-- The first control section of `_commit_ready_offsets`. -/
def scan (s : Poller κ π) (force : Bool) : Poller κ π :=
  { s with direct := if s.commitsToMake force = [] then .idle else .scanned (s.commitsToMake force) }

/-- `build_candidates`. -/
def buildCandidates (s : Poller κ π) (commits : List (TopicPartition × Int)) : List CommitCandidate :=
  commits.filterMap fun (tp, safeOffset) =>
    (s.tracker? tp).map fun (_, t) => ⟨tp, safeOffset, t.epoch, 0⟩

/-- Hand the candidates to the coordinator, or fall back to a synchronous commit. -/
def route (s : Poller κ π) : Poller κ π :=
  match s.direct with
  | .scanned commits =>
    if c.coordinatorEnabled then
      let candidates := s.buildCandidates commits
      if candidates = [] then { s with direct := .idle }
      else
        match s.coordinator.enqueue c.coordinator candidates with
        | (true, coordinator) => { s with coordinator := coordinator, direct := .idle }
        | (false, coordinator) =>
          { s with
            coordinator := coordinator.cancelLeases (candidates.map (·.tp))
            direct := .fallback commits }
    else { s with direct := .fallback commits }
  | _ => s

/-- `clear_committed_dirty_partitions`. -/
def clearDirty (s : Poller κ π) (tps : List TopicPartition) : List TopicPartition :=
  tps.foldl
    (fun dirty tp =>
      match s.tracker? tp with
      | some (_, t) =>
        if t.completedOffsets.size > 0 then appendKey dirty tp else discardKey dirty tp
      | none => discardKey dirty tp)
    s.dirtyCommitPartitions

/-- The first control section of `_commit_offsets` and `build_offsets_to_commit`. -/
def capture (s : Poller κ π) : Poller κ π :=
  match s.direct with
  | .fallback commits =>
    let tracked := commits.filterMap fun (tp, safeOffset) =>
      (s.tracker? tp).map fun (r, t) =>
        ⟨r, tp, safeOffset, c.planner.offsetToCommit c.strategy tp t safeOffset⟩
    if tracked = [] then
      { s with direct := .idle, dirtyCommitPartitions := s.clearDirty (commits.map Prod.fst) }
    else { s with direct := .captured commits tracked 0 }
  | _ => s

def committedEntries (path : CommitPath) (l : List (TrackerRef × KafkaTopicPartition)) :
    List (PollerEntry κ π) :=
  l.map fun e => .committed path e.1 e.2

/-- The guarded call of `_commit_offsets`; a `KafkaException` is retried once. -/
def directCommit (s : Poller κ π) (outcome : CommitOutcome) : Poller κ π :=
  match s.direct with
  | .captured commits tracked attempt =>
    { s with
      log := committedEntries .direct (tracked.map fun e => (e.r, e.position)) ++ s.log
      direct :=
        match outcome with
        | .ok => .acked commits tracked
        | .kafkaException => if attempt = 0 then .captured commits tracked 1 else .idle
        | .crash => .idle }
  | _ => s

/-- `commit_through` on the installed tracker of a partition. -/
def commitTracker (s : Poller κ π) (tp : TopicPartition) (safeOffset : Int) : Poller κ π :=
  match s.offsetTrackers.get? tp with
  | none => s
  | some r => { s with wm := s.wm.modifyTracker r (·.commitThrough safeOffset) }

/-- The last control section of `_commit_offsets`. -/
def directSettle (s : Poller κ π) : Poller κ π :=
  match s.direct with
  | .acked commits tracked =>
    let s := tracked.foldl (fun s e => s.commitTracker e.tp e.safeOffset) s
    { s with direct := .idle, dirtyCommitPartitions := s.clearDirty (commits.map Prod.fst) }
  | _ => s

/-! ## The coordinator's worker -/

def workerStart (s : Poller κ π) : Poller κ π :=
  let (batch, coordinator) := s.coordinator.takeBatch
  { s with coordinator := coordinator, worker := .started batch }

/-- The candidate is stale: its tracker is gone or has another epoch. -/
def stale (s : Poller κ π) (candidate : CommitCandidate) : Bool :=
  match s.tracker? candidate.tp with
  | none => true
  | some (_, t) => t.epoch ≠ candidate.assignmentEpoch

/-- The tracked candidates of a batch with `build_offsets_to_commit`. -/
def trackBatch (s : Poller κ π) (batch : List CommitCandidate) : List Tracked :=
  (batch.filter fun b => !s.stale b).filterMap fun b =>
    (s.tracker? b.tp).map fun (r, t) =>
      ⟨b, r, c.planner.offsetToCommit c.strategy b.tp t b.safeOffset⟩

/-- The leases of stale candidates are cancelled. -/
def cancelStale (s : Poller κ π) (batch : List CommitCandidate) : CommitCoordinator :=
  let staleTps := (batch.filter s.stale).map (·.tp)
  if staleTps = [] then s.coordinator else s.coordinator.cancelLeases staleTps

/-- The control section of `commit_sync`. -/
def workerPrepare (s : Poller κ π) : Poller κ π :=
  match s.worker with
  | .started batch =>
    let tracked := s.trackBatch c batch
    { s with
      coordinator := s.cancelStale batch
      worker := if tracked = [] then .returned batch .ok else .prepared batch tracked }
  | _ => s

/-- `commit_if_active` takes the guard and checks every lease. -/
def workerCheck (s : Poller κ π) : Poller κ π :=
  match s.worker with
  | .prepared batch tracked =>
    if tracked.all fun e => CommitCoordinator.CommitCandidate.activeIn s.coordinator e.candidate then
      { s with guard := .worker, worker := .guarded batch tracked }
    else { s with worker := .returned batch (.inactive (tracked.map (·.candidate.tp))) }
  | _ => s

def workerCommit (s : Poller κ π) (outcome : CommitOutcome) : Poller κ π :=
  match s.worker with
  | .guarded batch tracked =>
    { s with
      log := committedEntries .coordinator (tracked.map fun e => (e.r, e.position)) ++ s.log
      guard := .free
      worker := .returned batch
        (match outcome with
        | .ok => .ok
        | .kafkaException => .kafkaException
        | .crash => .crash) }
  | _ => s

/-- The event loop resumes the worker after `commit_sync`. -/
def workerResume (s : Poller κ π) : Poller κ π :=
  match s.worker with
  | .returned batch .ok =>
    let settlements := s.coordinator.activeOf batch
    if settlements = [] then
      { s with coordinator := s.coordinator.clearInFlight, worker := .idle }
    else
      { s with coordinator := s.coordinator.recordSettled settlements, worker := .settling settlements }
  | .returned batch (.inactive tps) =>
    let coordinator := s.coordinator.cancelLeases tps
    { s with
      coordinator := coordinator
      worker := .retaining batch (coordinator.activeOf batch) false }
  | .returned batch .kafkaException =>
    { s with worker := .retaining batch (s.coordinator.activeOf batch) true }
  | .returned batch .crash =>
    let coordinator := s.coordinator.crash
    { s with
      coordinator := coordinator
      worker := .retaining batch (coordinator.activeOf batch) false }
  | _ => s

/-- The loop body of `settle_committed_offsets`; the list is of the partitions to clear. -/
def settleOne (a : Poller κ π × List TopicPartition) (e : CommitCandidate) :
    Poller κ π × List TopicPartition :=
  match a.1.tracker? e.tp with
  | none => a
  | some (_, t) =>
    if t.epoch ≠ e.assignmentEpoch then a
    else if !CommitCoordinator.CommitCandidate.activeIn a.1.coordinator e then a
    else if e.safeOffset ≤ t.lastCommittedOffset then a
    else (a.1.commitTracker e.tp e.safeOffset, a.2 ++ [e.tp])

/-- `settle_committed_offsets` and the end of the worker's round. -/
def workerSettle (s : Poller κ π) : Poller κ π :=
  match s.worker with
  | .settling settlements =>
    let (s, tps) := settlements.foldl settleOne (s, [])
    { s with
      dirtyCommitPartitions := s.clearDirty tps
      coordinator := s.coordinator.clearInFlight
      worker := .idle }
  | _ => s

/-- `retain_failed_commit_offsets` and the end of the worker's round. -/
def workerRetain (s : Poller κ π) : Poller κ π :=
  match s.worker with
  | .retaining batch settlements retry =>
    { s with
      dirtyCommitPartitions := markDirty s.dirtyCommitPartitions
        ((settlements.filter (CommitCoordinator.CommitCandidate.activeIn s.coordinator)).map (·.tp))
      coordinator :=
        if retry then s.coordinator.retryBatch batch else s.coordinator.abortBatch batch
      worker := .idle }
  | _ => s

end

end Poller

/-! ## The transition system -/

inductive PollerAction (κ π : Type) where
  | consumeBegin
  | consumeEnd
  | assign (committed : Option (List KafkaTopicPartition)) (partitions : List KafkaTopicPartition)
  | prepareRevoke (tps : List TopicPartition)
  | revokeCommit
  | cleanupRevoke
  | dispatch (messages : List (Message κ π))
  | schedule (env : Env (SubmitKey κ) π)
  | drain (input : Poller.DrainInput κ π)
  | scan (force : Bool)
  | route
  | capture
  | directCommit (outcome : CommitOutcome)
  | directSettle
  | workerStart
  | workerPrepare
  | workerCheck
  | workerCommit (outcome : CommitOutcome)
  | workerResume
  | workerSettle
  | workerRetain

/-- The step can be taken now. -/
def Poller.ready {κ π : Type} [DecidableEq κ] (c : PollerConfig) (s : Poller κ π) :
    PollerAction κ π → Bool
  | .consumeBegin => s.guard = .free
  | .consumeEnd => s.guard = .consume && s.revoke = none
  | .assign _ _ => s.guard = .consume && s.revoke = none
  | .prepareRevoke _ => s.guard = .consume && s.revoke = none
  | .revokeCommit => match s.revoke with | some ⟨_, _ :: _⟩ => true | _ => false
  | .cleanupRevoke => match s.revoke with | some ⟨_, []⟩ => true | _ => false
  | .dispatch _ => true
  | .schedule _ => true
  | .drain _ => true
  | .scan _ => s.direct = .idle
  | .route => match s.direct with | .scanned _ => true | _ => false
  | .capture => match s.direct with | .fallback _ => true | _ => false
  | .directCommit _ => s.guard = .free && match s.direct with | .captured _ _ _ => true | _ => false
  | .directSettle => match s.direct with | .acked _ _ => true | _ => false
  | .workerStart => c.coordinatorEnabled && s.worker = .idle && s.coordinator.healthy &&
      s.coordinator.pending.entries ≠ []
  | .workerPrepare => match s.worker with | .started _ => true | _ => false
  | .workerCheck => s.guard = .free && match s.worker with | .prepared _ _ => true | _ => false
  | .workerCommit _ => match s.worker with | .guarded _ _ => true | _ => false
  | .workerResume => match s.worker with | .returned _ _ => true | _ => false
  | .workerSettle => match s.worker with | .settling _ => true | _ => false
  | .workerRetain => match s.worker with | .retaining _ _ _ => true | _ => false

/-- The engine keeps its contract for partial acceptance. -/
def PollerAction.Lawful {κ π : Type} : PollerAction κ π → Prop
  | .schedule env => env.AcceptsPrefix
  | .drain input => input.env.AcceptsPrefix
  | _ => True

open Poller in
/-- The poller. The rebalance callbacks run inside `consume`. -/
def pollerMachine (κ π : Type) [DecidableEq κ] (c : PollerConfig) :
    Machine (Poller κ π) (PollerAction κ π) where
  init s := ∃ circuit, s = .new circuit
  enabled s a := s.ready c a = true ∧ a.Lawful
  next s a :=
    match a with
    | .consumeBegin => { s with guard := .consume }
    | .consumeEnd => { s with guard := .free }
    | .assign committed partitions => s.assign c committed partitions
    | .prepareRevoke tps => s.prepareRevokeSync c tps
    | .revokeCommit => s.revokeCommit
    | .cleanupRevoke => s.cleanupRevokeSync
    | .dispatch messages => s.dispatch c messages
    | .schedule env => { s with wm := s.wm.schedule c.workManager env }
    | .drain input => s.drain c input
    | .scan force => s.scan force
    | .route => s.route c
    | .capture => s.capture c
    | .directCommit outcome => s.directCommit outcome
    | .directSettle => s.directSettle
    | .workerStart => s.workerStart
    | .workerPrepare => s.workerPrepare c
    | .workerCheck => s.workerCheck
    | .workerCommit outcome => s.workerCommit outcome
    | .workerResume => s.workerResume
    | .workerSettle => s.workerSettle
    | .workerRetain => s.workerRetain

/-! ## Explicit runs -/

/-- Every action is ready when its turn comes. -/
def Poller.readyRun {κ π : Type} [DecidableEq κ] (c : PollerConfig) (s : Poller κ π) :
    List (PollerAction κ π) → Bool
  | [] => true
  | a :: l => s.ready c a && Poller.readyRun c ((pollerMachine κ π c).next s a) l

theorem allowed_of_readyRun {κ π : Type} [DecidableEq κ] {c : PollerConfig}
    {p : Poller κ π → PollerAction κ π → Prop} (l : List (PollerAction κ π)) :
    ∀ {s : Poller κ π}, s.readyRun c l = true → (∀ a ∈ l, a.Lawful) →
      (∀ newer a older, l = older ++ a :: newer → p ((pollerMachine κ π c).run s older) a) →
      (pollerMachine κ π c).Allowed p s l := by
  induction l with
  | nil => intro s _ _ _; trivial
  | cons a l ih =>
    intro s h hlaw hp
    obtain ⟨h1, h2⟩ := Bool.and_eq_true_iff.mp h
    refine ⟨⟨h1, hlaw a List.mem_cons_self⟩, hp l a [] rfl, ?_⟩
    refine ih h2 (fun b hb => hlaw b (List.mem_cons_of_mem _ hb)) fun newer b older heq => ?_
    exact hp newer b (a :: older) (by rw [heq]; rfl)

theorem reachable_of_readyRun {κ π : Type} [DecidableEq κ] {c : PollerConfig}
    {circuit : Option (PoisonMessageCircuitBreaker (SubmitKey κ))} {l : List (PollerAction κ π)}
    (h : (Poller.new circuit).readyRun c l = true) (hlaw : ∀ a ∈ l, a.Lawful) :
    (pollerMachine κ π c).Reachable ((pollerMachine κ π c).run (.new circuit) l) :=
  (pollerMachine κ π c).reachableBy_run l (.start ⟨circuit, rfl⟩)
    (allowed_of_readyRun l h hlaw fun _ _ _ _ => trivial)

/-! ## Small runs

One partition, unordered delivery and dead letters after one failed attempt. -/

def sampleConfig (coordinatorEnabled : Bool) : PollerConfig :=
  { workManager := {}
    dlq := { dlqEnabled := true, maxRetries := 1 }
    strategy := .contiguousOnly
    planner := ⟨⟨4000⟩, 2048⟩
    maxRevokeGraceMs := 500
    coordinatorEnabled := coordinatorEnabled
    coordinator := ⟨100⟩ }

def sampleMessage (offset : Int) : Message Nat Unit :=
  { topic := some "t", partition := some 0, offset := some offset, key := 7, value := () }

/-- The work item of a sample message that is the first to be dispatched. -/
def firstItem (offset : Int) : WorkItem (SubmitKey Nat) Unit :=
  { id := .uuid 0, tp := ⟨"t", 0⟩, offset := offset, epoch := 1, key := .message 7, payload := ()
    poisonKey := some (.message 7) }

/-- The success of the `n`-th work item, at an offset. -/
def sampleSuccess (n : Nat) (offset : Int) : CompletionEvent :=
  { id := .uuid n, tp := ⟨"t", 0⟩, offset := offset, epoch := 1, status := .success, error := none
    attempt := 1 }

def sampleDrain (events : List CompletionEvent) : PollerAction Nat Unit :=
  .drain
    { env := acceptingEnv _ _, engineEvents := events, timedOut := [], lateEvents := []
      publish := fun _ => .delivered }

/-- Take the partition over at a committed position. -/
def sampleAssign (position : Int) : List (PollerAction Nat Unit) :=
  [.consumeBegin, .assign (some [⟨"t", 0, position, none⟩]) [⟨"t", 0, -1001, none⟩], .consumeEnd]

/-- Dispatch messages and hand them to the engine. -/
def sampleDispatch (offsets : List Int) : List (PollerAction Nat Unit) :=
  [.dispatch (offsets.map sampleMessage), .schedule (acceptingEnv _ _)]

end PyrallelConsumer
