import Mathlib.Data.Finset.Card
import Mathlib.Logic.Relation
import PyrallelConsumer.CommitCoordinator
import PyrallelConsumer.Lib.Machine

/-!
# PyrallelConsumer.CoordinatorRuns

The commit coordinator on its own: `enqueue` with its snapshots, and the runs of the coordinator with
its worker, which calls of `enqueue`, `cancel_leases` and the like interleave at every await. What
`commit_sync` and the callbacks do is in the labels, and the run keeps a log of what became of the
candidates.

* `enqueueCall_eq` — putting the snapshots back undoes the whole call, so `enqueueCall` is `enqueue`.
* `enqueueCall_induction` — what every accepted candidate keeps, a call of `enqueue` keeps.
* `steps_step` — the parts a step of a run is made of, from which every invariant follows.
* `capacity_bounded_and_rejection_atomic` — the outbox stays within its bound, and a call refused
  with `queue_full` changes nothing.
-/

namespace PyrallelConsumer

/-- The failure reasons the coordinator itself reports. -/
inductive CommitFailureReason where
  | kafkaException
  | queueFull
  | workerCrash
  | staleLease
deriving DecidableEq, Repr

/-- What becomes of a candidate. `committed` is the normal return of `commit_sync` for a batch. -/
inductive CoordinatorEvent where
  | accepted (c : CommitCandidate)
  | coalesced (c : CommitCandidate)
  | cancelled (c : CommitCandidate)
  | committed (batch : List CommitCandidate)
  | settled (c : CommitCandidate)
deriving DecidableEq, Repr

namespace CommitCoordinator

/-! ## `enqueue` -/

/-- The return value of `enqueue`, the failure it records, and what it leaves behind. -/
structure EnqueueResult where
  returned : Bool
  failure : Option CommitFailureReason
  coordinator : CommitCoordinator
  events : List CoordinatorEvent
deriving DecidableEq, Repr

/-- `pending_snapshot` and the other three snapshots are put back. -/
def restore (self snapshot : CommitCoordinator) : CommitCoordinator :=
  { self with
    pending := snapshot.pending
    cancelledLeases := snapshot.cancelledLeases
    leaseCounter := snapshot.leaseCounter
    coalescedCount := snapshot.coalescedCount }

/-- The candidate is not newer than the one there is. -/
def notNewer (candidate : CommitCandidate) (other : Option CommitCandidate) : Bool :=
  other.any fun c => candidate.safeOffset ≤ c.safeOffset

/-- The lease of the pending candidate is cancelled. -/
def cancelPending (s : CommitCoordinator) (tp : TopicPartition) : CommitCoordinator :=
  match s.pending.get? tp with
  | none => s
  | some current => s.cancel current

def accept (s : CommitCoordinator) (candidate : CommitCandidate) : CommitCoordinator :=
  { s with
    leaseCounter := s.leaseCounter + 1
    pending := s.pending.set candidate.tp { candidate with leaseId := s.leaseCounter + 1 }
    }.pruneCancelledLeases

/-- What accepting a candidate does, newest first. -/
def acceptEvents (s : CommitCoordinator) (candidate : CommitCandidate) : List CoordinatorEvent :=
  .accepted { candidate with leaseId := s.leaseCounter + 1 } ::
    match s.pending.get? candidate.tp with
    | none => []
    | some current => [.coalesced current]

/-- The loop of `enqueue` with its local variables; `snapshot` is the coordinator at the call. -/
def enqueueScan (config : CommitCoordinatorConfig) (snapshot self : CommitCoordinator)
    (changed : Bool) (coalescedDelta : Nat) (events : List CoordinatorEvent) :
    List CommitCandidate → EnqueueResult
  | [] =>
    { returned := true
      failure := none
      coordinator :=
        if changed && coalescedDelta ≠ 0 then
          { self with coalescedCount := self.coalescedCount + coalescedDelta }
        else self
      events := events }
  | candidate :: candidates =>
    let tp := candidate.tp
    let current := self.pending.get? tp
    let inFlight := self.inFlight.get? tp
    if tp ∈ self.stoppedPartitions then
      enqueueScan config snapshot self changed coalescedDelta events candidates
    else if candidate.safeOffset ≤ (self.latestSettledOffsets.get? tp).getD (-1) then
      enqueueScan config snapshot self changed coalescedDelta events candidates
    else if notNewer candidate current then
      enqueueScan config snapshot self changed coalescedDelta events candidates
    else if current.isNone && notNewer candidate inFlight then
      enqueueScan config snapshot self changed coalescedDelta events candidates
    else if current.isNone && self.projectedSize tp > config.queueMaxPartitions then
      { returned := false
        failure := some .queueFull
        coordinator := self.restore snapshot
        events := [] }
    else
      enqueueScan config snapshot ((self.cancelPending tp).accept candidate) true
        (if current.isSome then coalescedDelta + 1 else coalescedDelta)
        (self.acceptEvents candidate ++ events) candidates

/-- A call of `enqueue`. -/
def enqueueCall (config : CommitCoordinatorConfig) (s : CommitCoordinator)
    (candidates : List CommitCandidate) : EnqueueResult :=
  if !s.accepting || !s.healthy then
    { returned := false, failure := none, coordinator := s, events := [] }
  else s.enqueueScan config s false 0 [] candidates

/-- The candidate passes every check of the loop. -/
structure Admitted (config : CommitCoordinatorConfig) (s : CommitCoordinator) (c : CommitCandidate) :
    Prop where
  notStopped : c.tp ∉ s.stoppedPartitions
  unsettled : (s.latestSettledOffsets.get? c.tp).getD (-1) < c.safeOffset
  newer : ∀ current, s.pending.get? c.tp = some current → current.safeOffset < c.safeOffset
  newerInFlight : s.pending.get? c.tp = none →
    ∀ f, s.inFlight.get? c.tp = some f → f.safeOffset < c.safeOffset
  room : s.pending.get? c.tp = none → s.projectedSize c.tp ≤ config.queueMaxPartitions

/-- The coordinator with the count `n` of coalesced candidates. -/
def withCoalesced (s : CommitCoordinator) (n : Nat) : CommitCoordinator := { s with coalescedCount := n }

/-- One candidate of the loop: it is skipped, there is no room, or it is accepted. The second part of
each case is the body of the loop as `enqueue` has it, which counts at once. -/
theorem enqueueScan_cases (config : CommitCoordinatorConfig) (snapshot self : CommitCoordinator)
    (changed : Bool) (delta n : Nat) (events : List CoordinatorEvent) (c : CommitCandidate)
    (cs : List CommitCandidate) :
    (enqueueScan config snapshot self changed delta events (c :: cs) =
        enqueueScan config snapshot self changed delta events cs ∧
      (self.withCoalesced n).enqueueOne config c = some (self.withCoalesced n)) ∨
    (enqueueScan config snapshot self changed delta events (c :: cs) =
        ⟨false, some .queueFull, self.restore snapshot, []⟩ ∧
      (self.withCoalesced n).enqueueOne config c = none) ∨
    (Admitted config self c ∧ ∃ k,
      enqueueScan config snapshot self changed delta events (c :: cs) =
        enqueueScan config snapshot ((self.cancelPending c.tp).accept c) true (delta + k)
          (self.acceptEvents c ++ events) cs ∧
      (self.withCoalesced n).enqueueOne config c =
        some (((self.cancelPending c.tp).accept c).withCoalesced (n + k))) := by
  rw [enqueueScan.eq_2]
  unfold enqueueOne
  dsimp only
  by_cases hstop : c.tp ∈ self.stoppedPartitions
  · exact .inl ⟨if_pos hstop, if_pos hstop⟩
  rw [if_neg hstop, if_neg (show c.tp ∉ (self.withCoalesced n).stoppedPartitions from hstop)]
  by_cases hset : c.safeOffset ≤ (self.latestSettledOffsets.get? c.tp).getD (-1)
  · exact .inl ⟨if_pos hset, if_pos hset⟩
  rw [if_neg hset, if_neg (show ¬ c.safeOffset ≤
    ((self.withCoalesced n).latestSettledOffsets.get? c.tp).getD (-1) from hset)]
  cases hcur : self.pending.get? c.tp with
  | some current =>
    have hcur' : (self.withCoalesced n).pending.get? c.tp = some current := hcur
    have hcancel : self.cancelPending c.tp = self.cancel current := by
      unfold cancelPending; rw [hcur]
    rw [hcur']
    by_cases hnew : c.safeOffset ≤ current.safeOffset
    · refine .inl ⟨?_, if_pos hnew⟩
      rw [if_pos (by simpa [notNewer] using hnew)]
    · refine .inr (.inr ⟨⟨hstop, by omega, ?_, ?_, ?_⟩, 1, ?_, ?_⟩)
      · intro d hd; rw [hcur] at hd; cases hd; omega
      · intro hn; rw [hcur] at hn; cases hn
      · intro hn; rw [hcur] at hn; cases hn
      · rw [if_neg (by simpa [notNewer] using hnew)]
        simp
      · rw [hcancel]
        exact if_neg hnew
  | none =>
    have hcur' : (self.withCoalesced n).pending.get? c.tp = none := hcur
    have hcancel : self.cancelPending c.tp = self := by unfold cancelPending; rw [hcur]
    rw [hcur', if_neg (by simp [notNewer]), hcancel]
    have hadmitted : (∀ f, self.inFlight.get? c.tp = some f → f.safeOffset < c.safeOffset) →
        ¬ self.projectedSize c.tp > config.queueMaxPartitions → Admitted config self c := by
      intro hf hroom
      refine ⟨hstop, by omega, fun d hd => ?_, fun _ => hf, fun _ => by omega⟩
      rw [hcur] at hd; cases hd
    cases hf : self.inFlight.get? c.tp with
    | none =>
      have hf' : (self.withCoalesced n).inFlight.get? c.tp = none := hf
      rw [hf', if_neg (by simp [notNewer])]
      by_cases hroom : self.projectedSize c.tp > config.queueMaxPartitions
      · exact .inr (.inl ⟨if_pos (by simpa using hroom), if_pos hroom⟩)
      · refine .inr (.inr ⟨hadmitted (fun f h => ?_) hroom, 0, ?_, if_neg hroom⟩)
        · rw [hf] at h; cases h
        · exact if_neg (by simpa using hroom)
    | some f =>
      have hf' : (self.withCoalesced n).inFlight.get? c.tp = some f := hf
      rw [hf']
      dsimp only
      by_cases hnew : c.safeOffset ≤ f.safeOffset
      · exact .inl ⟨if_pos (by simpa [notNewer] using hnew), if_pos hnew⟩
      rw [if_neg (by simpa [notNewer] using hnew), if_neg hnew]
      by_cases hroom : self.projectedSize c.tp > config.queueMaxPartitions
      · exact .inr (.inl ⟨if_pos (by simpa using hroom), if_pos hroom⟩)
      · refine .inr (.inr ⟨hadmitted (fun g h => ?_) hroom, 0, ?_, if_neg hroom⟩)
        · rw [hf] at h; cases h; omega
        · exact if_neg (by simpa using hroom)

/-- The loop writes only the four fields that have a snapshot. -/
structure SameFrame (s snapshot : CommitCoordinator) : Prop where
  inFlight : s.inFlight = snapshot.inFlight
  stopped : s.stoppedPartitions = snapshot.stoppedPartitions
  settled : s.latestSettledOffsets = snapshot.latestSettledOffsets
  accepting : s.accepting = snapshot.accepting
  healthy : s.healthy = snapshot.healthy

theorem restore_eq {self snapshot : CommitCoordinator} (h : SameFrame self snapshot) :
    self.restore snapshot = snapshot := by
  obtain ⟨h1, h2, h3, h4, h5⟩ := h
  unfold restore
  rw [h1, h2, h3, h4, h5]

theorem cancelPending_cases (s : CommitCoordinator) (tp : TopicPartition) :
    (s.pending.get? tp = none ∧ s.cancelPending tp = s) ∨
      ∃ c, s.pending.get? tp = some c ∧ s.cancelPending tp = s.cancel c := by
  unfold cancelPending
  cases h : s.pending.get? tp with
  | none => exact .inl ⟨rfl, rfl⟩
  | some c => exact .inr ⟨c, rfl, rfl⟩

/-- What accepting a candidate writes. -/
structure Accepts (s : CommitCoordinator) (c : CommitCandidate) (s' : CommitCoordinator) : Prop where
  frame : SameFrame s' s
  pending : s'.pending = s.pending.set c.tp { c with leaseId := s.leaseCounter + 1 }
  leaseCounter : s'.leaseCounter = s.leaseCounter + 1
  coalesced : s'.coalescedCount = s.coalescedCount

theorem accepts_accept (s : CommitCoordinator) (c : CommitCandidate) :
    Accepts s c ((s.cancelPending c.tp).accept c) := by
  rcases cancelPending_cases s c.tp with ⟨-, heq⟩ | ⟨current, -, heq⟩
  · rw [heq]; exact ⟨⟨rfl, rfl, rfl, rfl, rfl⟩, rfl, rfl, rfl⟩
  · rw [heq]; exact ⟨⟨rfl, rfl, rfl, rfl, rfl⟩, rfl, rfl, rfl⟩

theorem SameFrame.trans {s1 s2 s3 : CommitCoordinator} (h : SameFrame s1 s2) (h' : SameFrame s2 s3) :
    SameFrame s1 s3 :=
  ⟨h.inFlight.trans h'.inFlight, h.stopped.trans h'.stopped, h.settled.trans h'.settled,
    h.accepting.trans h'.accepting, h.healthy.trans h'.healthy⟩

/-- The loop ends as `enqueue` does: with the coordinator of its loop, or with the snapshot. -/
theorem enqueueScan_eq (config : CommitCoordinatorConfig) (snapshot : CommitCoordinator)
    (cs : List CommitCandidate) :
    ∀ (self : CommitCoordinator) (changed : Bool) (delta : Nat) (events : List CoordinatorEvent),
      SameFrame self snapshot → (changed = false → delta = 0) →
      match (self.withCoalesced (self.coalescedCount + delta)).enqueueLoop config cs with
      | none => enqueueScan config snapshot self changed delta events cs =
          ⟨false, some .queueFull, snapshot, []⟩
      | some s => (enqueueScan config snapshot self changed delta events cs).returned = true ∧
          (enqueueScan config snapshot self changed delta events cs).failure = none ∧
          (enqueueScan config snapshot self changed delta events cs).coordinator = s := by
  induction cs with
  | nil =>
    intro self changed delta events _ hdelta
    refine ⟨rfl, rfl, ?_⟩
    show (if changed && delta ≠ 0 then { self with coalescedCount := self.coalescedCount + delta }
      else self) = self.withCoalesced (self.coalescedCount + delta)
    split
    · rfl
    · -- nothing was coalesced
      rename_i hno
      have hzero : delta = 0 := by
        cases changed with
        | false => exact hdelta rfl
        | true => simpa using hno
      rw [hzero]
      rfl
  | cons c cs ih =>
    intro self changed delta events hframe hdelta
    unfold enqueueLoop
    rcases enqueueScan_cases config snapshot self changed delta (self.coalescedCount + delta) events c
      cs with ⟨hscan, hone⟩ | ⟨hscan, hone⟩ | ⟨-, k, hscan, hone⟩
    · rw [hone, hscan]
      exact ih self changed delta events hframe hdelta
    · rw [hone, hscan, restore_eq hframe]
      rfl
    · have haccepts := accepts_accept self c
      rw [hone, hscan, Nat.add_assoc, ← haccepts.coalesced]
      exact ih _ true (delta + k) _ (haccepts.frame.trans hframe) (fun h => by cases h)

/-- A call with snapshots is `enqueue`, whose loop counts at once and which drops everything on
`queue_full`. -/
theorem enqueueCall_eq (config : CommitCoordinatorConfig) (s : CommitCoordinator)
    (cs : List CommitCandidate) :
    ((s.enqueueCall config cs).returned, (s.enqueueCall config cs).coordinator) =
      s.enqueue config cs := by
  unfold enqueueCall enqueue
  split
  · rfl
  · have hscan := enqueueScan_eq config s cs s false 0 [] ⟨rfl, rfl, rfl, rfl, rfl⟩ (fun _ => rfl)
    change match s.enqueueLoop config cs with | none => _ | some _ => _ at hscan
    cases hloop : s.enqueueLoop config cs with
    | none =>
      rw [hloop] at hscan
      rw [hscan]
    | some t =>
      rw [hloop] at hscan
      obtain ⟨hret, -, hcoord⟩ := hscan
      rw [hret, hcoord]

theorem enqueueCall_queueFull {config : CommitCoordinatorConfig} {s : CommitCoordinator}
    {cs : List CommitCandidate} (h : (s.enqueueCall config cs).failure = some .queueFull) :
    s.enqueueCall config cs = ⟨false, some .queueFull, s, []⟩ := by
  unfold enqueueCall at h ⊢
  split at h
  · cases h
  · rename_i hgate
    rw [if_neg hgate]
    have hscan := enqueueScan_eq config s cs s false 0 [] ⟨rfl, rfl, rfl, rfl, rfl⟩ (fun _ => rfl)
    split at hscan
    · exact hscan
    · rw [hscan.2.1] at h; cases h

/-- What survives a new count of coalesced candidates and every accepted candidate survives a call of
`enqueue`, or the call changes nothing. -/
theorem enqueueCall_induction {config : CommitCoordinatorConfig}
    {P : CommitCoordinator → List CoordinatorEvent → Prop}
    (hcount : ∀ s n events, P s events → P (s.withCoalesced n) events)
    (haccept : ∀ s c events, P s events → Admitted config s c →
      P ((s.cancelPending c.tp).accept c) (s.acceptEvents c ++ events))
    {s : CommitCoordinator} (h : P s []) (cs : List CommitCandidate) :
    P (s.enqueueCall config cs).coordinator (s.enqueueCall config cs).events := by
  have hscan : ∀ (cs : List CommitCandidate) (self : CommitCoordinator) (changed : Bool) (delta : Nat)
      (events : List CoordinatorEvent), P self events → SameFrame self s →
      P (enqueueScan config s self changed delta events cs).coordinator
        (enqueueScan config s self changed delta events cs).events := by
    intro cs
    induction cs with
    | nil =>
      intro self changed delta events hP _
      show P (if _ then _ else self) events
      split
      · exact hcount _ _ _ hP
      · exact hP
    | cons c cs ih =>
      intro self changed delta events hP hframe
      rcases enqueueScan_cases config s self changed delta 0 events c cs with
        ⟨heq, -⟩ | ⟨heq, -⟩ | ⟨hadm, k, heq, -⟩
      · rw [heq]; exact ih self changed delta events hP hframe
      · rw [heq, restore_eq hframe]; exact h
      · rw [heq]
        exact ih _ _ _ _ (haccept self c events hP hadm) ((accepts_accept self c).frame.trans hframe)
  unfold enqueueCall
  split
  · exact h
  · exact hscan cs s false 0 [] h ⟨rfl, rfl, rfl, rfl, rfl⟩

end CommitCoordinator

/-! ## Runs -/

/-- How the await of `commit_sync` ends. -/
inductive CommitSyncOutcome where
  | returned
  | kafkaException
  | commitBatchAborted
  | exception
deriving DecidableEq, Repr

/-- The awaits of `_run_worker`. `idle` is the head of its loop, with the backoff and the times when
no worker task runs. -/
inductive CoordinatorPc where
  | idle
  | committing (batch : List CommitCandidate)
  | settling (batch settlements : List CommitCandidate)
  | failing (batch settlements : List CommitCandidate) (reason : CommitFailureReason)
deriving DecidableEq, Repr

namespace CoordinatorPc

def batch : CoordinatorPc → List CommitCandidate
  | .idle => []
  | .committing batch => batch
  | .settling batch _ => batch
  | .failing batch _ _ => batch

/-- The settlements of the batch are recorded. -/
def isSettling : CoordinatorPc → Bool
  | .settling _ _ => true
  | _ => false

end CoordinatorPc

/-- The coordinator, its worker, and what became of the candidates so far, newest first. -/
structure CoordinatorRun where
  coordinator : CommitCoordinator := {}
  worker : CoordinatorPc := .idle
  log : List CoordinatorEvent := []
deriving DecidableEq, Repr

inductive CoordinatorAction where
  | enqueue (candidates : List CommitCandidate)
  | stopAccepting
  | stopAcceptingPartitions (tps : List TopicPartition)
  | startAcceptingPartitions (tps : List TopicPartition)
  | cancelLeases (tps : List TopicPartition)
  | takeBatch
  | commitSync (outcome : CommitSyncOutcome)
  | callback (raised : Bool)
deriving DecidableEq, Repr

namespace CoordinatorRun

open CommitCoordinator

def enqueue (config : CommitCoordinatorConfig) (r : CoordinatorRun)
    (candidates : List CommitCandidate) : CoordinatorRun :=
  let result := r.coordinator.enqueueCall config candidates
  { r with coordinator := result.coordinator, log := result.events ++ r.log }

def stopAcceptingPartitions (r : CoordinatorRun) (tps : List TopicPartition) : CoordinatorRun :=
  { r with
    coordinator := r.coordinator.stopAcceptingPartitions tps
    log := (r.coordinator.pending.values.filter (·.tp ∈ tps)).map .cancelled ++ r.log }

def cancelLeases (r : CoordinatorRun) (tps : List TopicPartition) : CoordinatorRun :=
  { r with
    coordinator := r.coordinator.cancelLeases tps
    log := ((r.coordinator.pending.values ++ r.coordinator.inFlight.values).filter (·.tp ∈ tps)).map
      .cancelled ++ r.log }

def takeBatch (r : CoordinatorRun) : CoordinatorRun :=
  { r with
    coordinator := r.coordinator.takeBatch.2
    worker := .committing r.coordinator.takeBatch.1 }

/-- The end of a failed batch: it is retried after a `KafkaException` and cancelled otherwise. -/
def endBatch (r : CoordinatorRun) (batch : List CommitCandidate) (reason : CommitFailureReason) :
    CoordinatorRun :=
  if reason = .kafkaException then
    { r with coordinator := r.coordinator.retryBatch batch, worker := .idle }
  else
    { coordinator := r.coordinator.abortBatch batch
      worker := .idle
      log := batch.map .cancelled ++ r.log }

/-- The failure settlements go to the failure callback, which is awaited unless there are none. -/
def failBatch (r : CoordinatorRun) (batch : List CommitCandidate) (reason : CommitFailureReason) :
    CoordinatorRun :=
  let settlements := r.coordinator.activeOf batch
  if settlements = [] then r.endBatch batch reason
  else { r with worker := .failing batch settlements reason }

/-- `commit_sync` returned: the success settlements are recorded and go to the success callback. -/
def settleBatch (r : CoordinatorRun) (batch : List CommitCandidate) : CoordinatorRun :=
  let settlements := r.coordinator.activeOf batch
  let log := settlements.reverse.map .settled ++ .committed batch :: r.log
  if settlements = [] then
    { coordinator := r.coordinator.clearInFlight, worker := .idle, log := log }
  else
    { coordinator := r.coordinator.recordSettled settlements
      worker := .settling batch settlements
      log := log }

/-- The worker resumes after `commit_sync`. -/
def commitSync (r : CoordinatorRun) (outcome : CommitSyncOutcome) : CoordinatorRun :=
  match r.worker with
  | .committing batch =>
    match outcome with
    | .returned => r.settleBatch batch
    | .kafkaException => r.failBatch batch .kafkaException
    | .commitBatchAborted => r.failBatch batch .staleLease
    | .exception => { r with coordinator := r.coordinator.crash }.failBatch batch .workerCrash
  | _ => r

/-- The worker resumes after a callback; one that raises stops the coordinator. -/
def callback (r : CoordinatorRun) (raised : Bool) : CoordinatorRun :=
  let r := if raised then { r with coordinator := r.coordinator.crash } else r
  match r.worker with
  | .settling _ _ => { r with coordinator := r.coordinator.clearInFlight, worker := .idle }
  | .failing batch _ reason => r.endBatch batch reason
  | _ => r

/-- The step can be taken now. -/
def ready (r : CoordinatorRun) : CoordinatorAction → Bool
  | .takeBatch => r.worker = .idle && r.coordinator.healthy && r.coordinator.pending.entries ≠ []
  | .commitSync _ => match r.worker with | .committing _ => true | _ => false
  | .callback _ => match r.worker with | .settling _ _ => true | .failing _ _ _ => true | _ => false
  | _ => true

def step (config : CommitCoordinatorConfig) (r : CoordinatorRun) : CoordinatorAction → CoordinatorRun
  | .enqueue candidates => r.enqueue config candidates
  | .stopAccepting => { r with coordinator := { r.coordinator with accepting := false } }
  | .stopAcceptingPartitions tps => r.stopAcceptingPartitions tps
  | .startAcceptingPartitions tps =>
    { r with coordinator := r.coordinator.startAcceptingPartitions tps }
  | .cancelLeases tps => r.cancelLeases tps
  | .takeBatch => r.takeBatch
  | .commitSync outcome => r.commitSync outcome
  | .callback raised => r.callback raised

end CoordinatorRun

/-- The coordinator with its worker, from an empty outbox. -/
def coordinatorMachine (config : CommitCoordinatorConfig) :
    Machine CoordinatorRun CoordinatorAction where
  init r := r = {}
  enabled r a := r.ready a = true
  next r a := r.step config a

/-! ## What a step can do -/

/-- The parts of a step. -/
inductive CoordinatorStep (config : CommitCoordinatorConfig) : CoordinatorRun → CoordinatorRun → Prop where
  | enqueue (r : CoordinatorRun) (candidates : List CommitCandidate) :
    CoordinatorStep config r (r.enqueue config candidates)
  | flags (r : CoordinatorRun) (stopped : List TopicPartition) (accepting healthy : Bool) :
    CoordinatorStep config r { r with coordinator := { r.coordinator with
      stoppedPartitions := stopped, accepting := accepting, healthy := healthy } }
  | stop (r : CoordinatorRun) (tps : List TopicPartition) :
    CoordinatorStep config r (r.stopAcceptingPartitions tps)
  | cancel (r : CoordinatorRun) (tps : List TopicPartition) :
    CoordinatorStep config r (r.cancelLeases tps)
  | take (r : CoordinatorRun) : r.worker = .idle → CoordinatorStep config r r.takeBatch
  | settle (r : CoordinatorRun) (batch : List CommitCandidate) : r.worker = .committing batch →
    CoordinatorStep config r
      { coordinator := r.coordinator.recordSettled (r.coordinator.activeOf batch)
        worker := .settling batch (r.coordinator.activeOf batch)
        log := (r.coordinator.activeOf batch).reverse.map .settled ++ .committed batch :: r.log }
  | wait (r : CoordinatorRun) (batch settlements : List CommitCandidate) (reason : CommitFailureReason) :
    r.worker = .committing batch →
    CoordinatorStep config r { r with worker := .failing batch settlements reason }
  | clear (r : CoordinatorRun) : r.worker.isSettling = true →
    CoordinatorStep config r { r with coordinator := r.coordinator.clearInFlight, worker := .idle }
  | retry (r : CoordinatorRun) : r.worker.isSettling = false →
    CoordinatorStep config r
      { r with coordinator := r.coordinator.retryBatch r.worker.batch, worker := .idle }
  | abort (r : CoordinatorRun) :
    CoordinatorStep config r
      { coordinator := r.coordinator.abortBatch r.worker.batch
        worker := .idle
        log := r.worker.batch.map .cancelled ++ r.log }

namespace CoordinatorRun

open CommitCoordinator Relation

variable {config : CommitCoordinatorConfig} {r : CoordinatorRun}

theorem step_endBatch {batch : List CommitCandidate} (reason : CommitFailureReason)
    (hb : r.worker.batch = batch) (hw : r.worker.isSettling = false) :
    CoordinatorStep config r (r.endBatch batch reason) := by
  subst hb
  unfold endBatch
  split
  · exact .retry r hw
  · exact .abort r

theorem step_failBatch {batch : List CommitCandidate} (reason : CommitFailureReason)
    (hw : r.worker = .committing batch) : CoordinatorStep config r (r.failBatch batch reason) := by
  unfold failBatch
  dsimp only
  split
  · exact step_endBatch reason (by rw [hw]; rfl) (by rw [hw]; rfl)
  · exact .wait r batch _ reason hw

theorem steps_commitSync (outcome : CommitSyncOutcome) :
    ReflTransGen (CoordinatorStep config) r (r.commitSync outcome) := by
  unfold commitSync
  split
  · rename_i batch hw
    cases outcome with
    | returned =>
      have hsettle : CoordinatorStep config r _ := .settle r batch hw
      dsimp only [settleBatch]
      split
      · -- nothing to settle: the batch is cleared at once
        rename_i hnil
        rw [hnil] at hsettle ⊢
        exact (ReflTransGen.single hsettle).tail (.clear _ rfl)
      · exact .single hsettle
    | kafkaException => exact .single (step_failBatch _ hw)
    | commitBatchAborted => exact .single (step_failBatch _ hw)
    | exception =>
      refine (ReflTransGen.single (.flags r r.coordinator.stoppedPartitions false false)).tail ?_
      exact step_failBatch _ hw
  · exact .refl

theorem steps_callback (raised : Bool) :
    ReflTransGen (CoordinatorStep config) r (r.callback raised) := by
  have hraised : ReflTransGen (CoordinatorStep config) r
      (if raised then { r with coordinator := r.coordinator.crash } else r) := by
    split
    · exact .single (.flags r r.coordinator.stoppedPartitions false false)
    · exact .refl
  unfold callback
  dsimp only
  split
  · rename_i hw; exact hraised.tail (.clear _ (by rw [hw]; rfl))
  · rename_i hw; exact hraised.tail (step_endBatch _ (by rw [hw]; rfl) (by rw [hw]; rfl))
  · exact hraised

/-- A step of a run is made of these parts. -/
theorem steps_step {a : CoordinatorAction} (h : r.ready a = true) :
    ReflTransGen (CoordinatorStep config) r (r.step config a) := by
  cases a with
  | enqueue candidates => exact .single (.enqueue r candidates)
  | stopAccepting =>
    exact .single (.flags r r.coordinator.stoppedPartitions false r.coordinator.healthy)
  | stopAcceptingPartitions tps => exact .single (.stop r tps)
  | startAcceptingPartitions tps =>
    exact .single (.flags r _ r.coordinator.accepting r.coordinator.healthy)
  | cancelLeases tps => exact .single (.cancel r tps)
  | takeBatch =>
    simp only [ready, Bool.and_eq_true, decide_eq_true_eq] at h
    exact .single (.take r h.1.1)
  | commitSync outcome => exact steps_commitSync outcome
  | callback raised => exact steps_callback raised

/-- What every part of a step keeps, a step keeps. -/
theorem invariant_step {I : CoordinatorRun → Prop}
    (hs : ∀ r r', I r → CoordinatorStep config r r' → I r') (h : I r) {a : CoordinatorAction}
    (ha : r.ready a = true) : I (r.step config a) := by
  have hall : ∀ r', ReflTransGen (CoordinatorStep config) r r' → I r' := by
    intro r' hsteps
    induction hsteps with
    | refl => exact h
    | tail _ hstep ih => exact hs _ _ ih hstep
  exact hall _ (steps_step ha)

/-- What holds at the start and is kept by every part of a step holds along every run. -/
theorem invariant_of_steps {I : CoordinatorRun → Prop} (h0 : I {})
    (hs : ∀ r r', I r → CoordinatorStep config r r' → I r')
    (h : (coordinatorMachine config).Reachable r) : I r := by
  refine (coordinatorMachine config).invariant (fun r hr => ?_)
    (fun r a hI he _ => invariant_step hs hI he) h
  rw [show r = {} from hr]
  exact h0

end CoordinatorRun

namespace CommitCoordinator

/-! ## What stopping and cancelling leave -/

theorem pending_of_stopAcceptingPartitions {s : CommitCoordinator} {tps : List TopicPartition}
    {tp : TopicPartition} {c : CommitCandidate}
    (h : (s.stopAcceptingPartitions tps).pending.get? tp = some c) :
    tp ∉ tps ∧ s.pending.get? tp = some c := by
  rw [(stopAcceptingPartitions_spec tps s).1] at h
  split at h
  · cases h
  · rename_i hnot; exact ⟨hnot, h⟩

theorem pending_of_cancelLeases {s : CommitCoordinator} {tps : List TopicPartition}
    {tp : TopicPartition} {c : CommitCandidate} (h : (s.cancelLeases tps).pending.get? tp = some c) :
    tp ∉ tps ∧ s.pending.get? tp = some c := by
  rw [(cancelLeases_spec tps s).1] at h
  split at h
  · cases h
  · rename_i hnot; exact ⟨hnot, h⟩

theorem inFlight_of_cancelLeases {s : CommitCoordinator} {tps : List TopicPartition}
    {tp : TopicPartition} {c : CommitCandidate} (h : (s.cancelLeases tps).inFlight.get? tp = some c) :
    tp ∉ tps ∧ s.inFlight.get? tp = some c := by
  rw [(cancelLeases_spec tps s).2.1] at h
  split at h
  · cases h
  · rename_i hnot; exact ⟨hnot, h⟩

theorem latest_stopAcceptingPartitions (s : CommitCoordinator) (tps : List TopicPartition) :
    (s.stopAcceptingPartitions tps).latestSettledOffsets = s.latestSettledOffsets := by
  show (tps.foldl stopPartition s).latestSettledOffsets = s.latestSettledOffsets
  induction tps generalizing s with
  | nil => rfl
  | cons tp tps ih =>
    refine (ih (s.stopPartition tp)).trans ?_
    unfold stopPartition
    dsimp only
    split <;> rfl

theorem latest_cancelLeases (s : CommitCoordinator) (tps : List TopicPartition) :
    (s.cancelLeases tps).latestSettledOffsets = s.latestSettledOffsets := by
  show (tps.foldl cancelPartition s).latestSettledOffsets = s.latestSettledOffsets
  induction tps generalizing s with
  | nil => rfl
  | cons tp tps ih =>
    refine (ih (s.cancelPartition tp)).trans ?_
    unfold cancelPartition
    dsimp only
    cases s.pending.get? tp with
    | none => dsimp only; split <;> rfl
    | some p => dsimp only; split <;> rfl

theorem latest_abortBatch (s : CommitCoordinator) (batch : List CommitCandidate) :
    (s.abortBatch batch).latestSettledOffsets = s.latestSettledOffsets := by
  show (batch.foldl cancel s).latestSettledOffsets = s.latestSettledOffsets
  induction batch generalizing s with
  | nil => rfl
  | cons c batch ih => exact ih (s.cancel c)

/-! ## The bound of the outbox -/

/-- The partitions that have a candidate pending or in flight. -/
def openPartitions (s : CommitCoordinator) : Finset TopicPartition :=
  s.pending.keys.toFinset ∪ s.inFlight.keys.toFinset

theorem mem_openPartitions {s : CommitCoordinator} {tp : TopicPartition} :
    tp ∈ s.openPartitions ↔ (s.pending.get? tp).isSome ∨ (s.inFlight.get? tp).isSome := by
  rw [openPartitions, Finset.mem_union, List.mem_toFinset, List.mem_toFinset, Dict.mem_keys_iff,
    Dict.mem_keys_iff]

theorem card_openPartitions_le (s : CommitCoordinator) :
    s.openPartitions.card ≤ s.pending.size + s.inFlight.size := by
  have hkeys : ∀ d : Dict TopicPartition CommitCandidate, d.keys.toFinset.card ≤ d.size := by
    intro d
    refine (List.toFinset_card_le _).trans ?_
    rw [Dict.keys, List.length_map]
    rfl
  exact (Finset.card_union_le _ _).trans (Nat.add_le_add (hkeys _) (hkeys _))

/-- Candidates are kept under their partition. -/
structure Keyed (s : CommitCoordinator) : Prop where
  pending : ∀ tp c, s.pending.get? tp = some c → c.tp = tp
  inFlight : ∀ tp c, s.inFlight.get? tp = some c → c.tp = tp

/-- The step opens no partition. -/
structure Within (s s' : CommitCoordinator) : Prop where
  keyed : s'.Keyed
  opens : s'.openPartitions ⊆ s.openPartitions

/-- The outbox keeps some of what it held. -/
theorem within_of_dropped {s s' : CommitCoordinator} (hs : s.Keyed)
    (hp : ∀ tp c, s'.pending.get? tp = some c → s.pending.get? tp = some c)
    (hf : ∀ tp c, s'.inFlight.get? tp = some c → s.inFlight.get? tp = some c) : Within s s' := by
  refine ⟨⟨fun tp c h => hs.pending tp c (hp tp c h), fun tp c h => hs.inFlight tp c (hf tp c h)⟩, ?_⟩
  intro tp htp
  rw [mem_openPartitions] at htp ⊢
  rcases htp with h | h
  · obtain ⟨c, hc⟩ := Option.isSome_iff_exists.mp h
    exact .inl (Option.isSome_iff_exists.mpr ⟨c, hp tp c hc⟩)
  · obtain ⟨c, hc⟩ := Option.isSome_iff_exists.mp h
    exact .inr (Option.isSome_iff_exists.mpr ⟨c, hf tp c hc⟩)

theorem within_stopAcceptingPartitions {s : CommitCoordinator} (hs : s.Keyed)
    (tps : List TopicPartition) : Within s (s.stopAcceptingPartitions tps) := by
  have hf := (stopAcceptingPartitions_spec tps s).2.1
  exact within_of_dropped hs (fun _ _ h => (pending_of_stopAcceptingPartitions h).2)
    (fun _ _ h => hf ▸ h)

theorem within_cancelLeases {s : CommitCoordinator} (hs : s.Keyed) (tps : List TopicPartition) :
    Within s (s.cancelLeases tps) :=
  within_of_dropped hs (fun _ _ h => (pending_of_cancelLeases h).2)
    (fun _ _ h => (inFlight_of_cancelLeases h).2)

theorem within_takeBatch {s : CommitCoordinator} (hs : s.Keyed) : Within s s.takeBatch.2 := by
  refine ⟨⟨fun tp c h => (by cases h), fun tp c h => (takeBatch_inFlight h).2⟩, fun tp htp => ?_⟩
  rw [mem_openPartitions] at htp ⊢
  rcases htp with h | h
  · cases h
  · obtain ⟨c, hc⟩ := Option.isSome_iff_exists.mp h
    obtain ⟨hmem, htp⟩ := takeBatch_inFlight hc
    obtain ⟨tp', htp'⟩ := mem_takeBatch.mp hmem
    have hkey := hs.pending tp' c htp'
    rw [← htp, hkey, htp']
    exact .inl rfl

theorem within_clearInFlight {s : CommitCoordinator} (hs : s.Keyed) : Within s s.clearInFlight :=
  within_of_dropped hs (fun _ _ h => h) (fun _ _ h => by cases h)

theorem Within.trans {s1 s2 s3 : CommitCoordinator} (h : Within s1 s2) (h' : Within s2 s3) :
    Within s1 s3 := ⟨h'.keyed, fun _ htp => h.opens (h'.opens htp)⟩

theorem within_retryBatch {s : CommitCoordinator} (hs : s.Keyed) (batch : List CommitCandidate) :
    Within s (s.retryBatch batch) := by
  have hfold : ∀ (l : List CommitCandidate) (t : CommitCoordinator), t.Keyed → Within t
      (l.foldl (fun s c => if CommitCandidate.activeIn s c then
        { s with pending := s.pending.set c.tp c } else s) t) := by
    intro l
    induction l with
    | nil => intro t ht; exact within_of_dropped ht (fun _ _ h => h) (fun _ _ h => h)
    | cons c l ih =>
      intro t ht
      rw [List.foldl_cons]
      split
      · rename_i hactive
        have hone : Within t { t with pending := t.pending.set c.tp c } := by
          refine ⟨⟨fun tp d h => ?_, ht.inFlight⟩, fun tp htp => ?_⟩
          · rw [Dict.get?_set] at h
            split at h
            · rename_i heq; cases h; exact heq
            · exact ht.pending tp d h
          · rw [mem_openPartitions] at htp ⊢
            -- an active lease is that of a candidate of the partition
            obtain ⟨d, hd, -⟩ := exists_of_activeIn hactive
            rw [Dict.get?_set] at htp
            split at htp
            · rename_i heq
              rw [← heq]
              rcases hd with hd | hd
              · rw [hd]; exact .inl rfl
              · rw [hd]; exact .inr rfl
            · exact htp
        exact hone.trans (ih _ hone.keyed)
      · exact ih t ht
  have hall := hfold batch s hs
  exact hall.trans (within_clearInFlight hall.keyed)

theorem within_abortBatch {s : CommitCoordinator} (hs : s.Keyed) (batch : List CommitCandidate) :
    Within s (s.abortBatch batch) := by
  obtain ⟨hp, hf, -, -⟩ := abortBatch_fields s batch
  exact within_of_dropped hs (fun _ _ h => hp ▸ h) (fun tp c h => by rw [hf] at h; cases h)

/-- The outbox is within its bound. -/
structure Bounded (config : CommitCoordinatorConfig) (s : CommitCoordinator) : Prop where
  keyed : s.Keyed
  bound : s.openPartitions.card ≤ config.queueMaxPartitions

theorem Bounded.within {config : CommitCoordinatorConfig} {s s' : CommitCoordinator}
    (h : Bounded config s) (hw : Within s s') : Bounded config s' :=
  ⟨hw.keyed, (Finset.card_le_card hw.opens).trans h.bound⟩

theorem openPartitions_accept {s s' : CommitCoordinator} {c : CommitCandidate} (h : Accepts s c s') :
    s'.openPartitions ⊆ insert c.tp s.openPartitions := by
  intro tp htp
  rw [mem_openPartitions, h.pending, Dict.get?_set, h.frame.inFlight] at htp
  rw [Finset.mem_insert, mem_openPartitions]
  split at htp
  · rename_i heq; exact .inl heq.symm
  · exact .inr htp

theorem keyed_accept {s s' : CommitCoordinator} {c : CommitCandidate} (hs : s.Keyed)
    (h : Accepts s c s') : s'.Keyed := by
  refine ⟨fun tp d hd => ?_, fun tp d hd => hs.inFlight tp d (h.frame.inFlight ▸ hd)⟩
  rw [h.pending, Dict.get?_set] at hd
  split at hd
  · rename_i heq; cases hd; exact heq
  · exact hs.pending tp d hd

theorem bounded_accept {config : CommitCoordinatorConfig} {s s' : CommitCoordinator}
    {c : CommitCandidate} (hb : Bounded config s) (hadm : Admitted config s c) (h : Accepts s c s') :
    Bounded config s' := by
  refine ⟨keyed_accept hb.keyed h, ?_⟩
  have hsub := Finset.card_le_card (openPartitions_accept h)
  by_cases hopen : c.tp ∈ s.openPartitions
  · rw [Finset.insert_eq_of_mem hopen] at hsub
    exact hsub.trans hb.bound
  · -- a new partition: the projected size counts all there is and this one
    have hnot := mt mem_openPartitions.mpr hopen
    rw [not_or, Option.not_isSome_iff_eq_none, Bool.not_eq_true] at hnot
    have hroom := hadm.room hnot.1
    have hle := card_openPartitions_le s
    rw [Finset.card_insert_of_notMem hopen] at hsub
    unfold projectedSize at hroom
    rw [if_neg (by rw [Dict.contains, hnot.2]; exact Bool.false_ne_true)] at hroom
    omega

theorem bounded_enqueueCall {config : CommitCoordinatorConfig} {s : CommitCoordinator}
    (hb : Bounded config s) (cs : List CommitCandidate) :
    Bounded config (s.enqueueCall config cs).coordinator := by
  refine enqueueCall_induction (P := fun s _ => Bounded config s) ?_ ?_ hb cs
  · intro s n _ h
    exact ⟨⟨h.keyed.pending, h.keyed.inFlight⟩, h.bound⟩
  · intro s c _ h hadm
    exact bounded_accept h hadm (accepts_accept s c)

end CommitCoordinator

namespace CoordinatorRun

open CommitCoordinator

theorem bounded_step {config : CommitCoordinatorConfig} {r r' : CoordinatorRun}
    (h : Bounded config r.coordinator) (hstep : CoordinatorStep config r r') :
    Bounded config r'.coordinator := by
  have hsame : ∀ s : CommitCoordinator, s.pending = r.coordinator.pending →
      s.inFlight = r.coordinator.inFlight → Bounded config s := by
    intro s hp hf
    exact h.within (within_of_dropped h.keyed (fun _ _ hc => hp ▸ hc) (fun _ _ hc => hf ▸ hc))
  cases hstep with
  | enqueue candidates => exact bounded_enqueueCall h candidates
  | flags stopped accepting healthy => exact hsame _ rfl rfl
  | stop tps => exact h.within (within_stopAcceptingPartitions h.keyed tps)
  | cancel tps => exact h.within (within_cancelLeases h.keyed tps)
  | take _ => exact h.within (within_takeBatch h.keyed)
  | settle batch _ => exact hsame _ rfl rfl
  | wait batch settlements reason _ => exact h
  | clear _ => exact h.within (within_clearInFlight h.keyed)
  | retry _ => exact h.within (within_retryBatch h.keyed _)
  | abort => exact h.within (within_abortBatch h.keyed _)

theorem bounded_reachable {config : CommitCoordinatorConfig} {r : CoordinatorRun}
    (h : (coordinatorMachine config).Reachable r) : Bounded config r.coordinator :=
  invariant_of_steps (I := fun r => Bounded config r.coordinator)
    ⟨⟨fun _ _ h => (by cases h), fun _ _ h => (by cases h)⟩, Nat.zero_le _⟩
    (fun _ _ hb hstep => bounded_step hb hstep) h

/-- **Capacity and rejection.** Along every run of the coordinator the partitions with a candidate
pending or in flight are within `queue_max_partitions`, and a call of `enqueue` that reports
`queue_full` returns `False` and leaves the whole coordinator as it was. -/
theorem capacity_bounded_and_rejection_atomic (config : CommitCoordinatorConfig) :
    (∀ r, (coordinatorMachine config).Reachable r →
      r.coordinator.openPartitions.card ≤ config.queueMaxPartitions) ∧
    ∀ (s : CommitCoordinator) (candidates : List CommitCandidate),
      (s.enqueueCall config candidates).failure = some .queueFull →
      (s.enqueueCall config candidates).returned = false ∧
      (s.enqueueCall config candidates).coordinator = s := by
  refine ⟨fun r h => (bounded_reachable h).bound, fun s candidates h => ?_⟩
  rw [enqueueCall_queueFull h]
  exact ⟨rfl, rfl⟩

section Examples

/-- A candidate of partition `p` of one topic, before it has a lease. -/
def sampleCandidate (p safeOffset : Int) : CommitCandidate := ⟨⟨"topic", p⟩, safeOffset, 1, 0⟩

def outboxOfTwo : CommitCoordinatorConfig := ⟨2⟩

/-- Two partitions are pending. -/
def twoPending : CoordinatorRun :=
  (coordinatorMachine outboxOfTwo).run {} [.enqueue [sampleCandidate 0 5, sampleCandidate 1 3]]

/-- The first candidate would coalesce a pending one, the second has no room. -/
def tooMany : List CommitCandidate := [sampleCandidate 0 7, sampleCandidate 2 4]

theorem rejection_atomic_tooMany :
    twoPending.coordinator.openPartitions.card ≤ 2 ∧
    (twoPending.coordinator.enqueueCall outboxOfTwo tooMany).failure = some .queueFull ∧
    (twoPending.coordinator.enqueueCall outboxOfTwo tooMany).returned = false ∧
    (twoPending.coordinator.enqueueCall outboxOfTwo tooMany).coordinator =
      twoPending.coordinator := by
  have hfull : (twoPending.coordinator.enqueueCall outboxOfTwo tooMany).failure = some .queueFull :=
    by decide
  have hreach : (coordinatorMachine outboxOfTwo).Reachable twoPending :=
    (coordinatorMachine outboxOfTwo).reachableBy_run _ (.start rfl) ⟨rfl, trivial, trivial⟩
  exact ⟨(capacity_bounded_and_rejection_atomic outboxOfTwo).1 twoPending hreach, hfull,
    (capacity_bounded_and_rejection_atomic outboxOfTwo).2 twoPending.coordinator tooMany hfull⟩

end Examples

end CoordinatorRun

end PyrallelConsumer
