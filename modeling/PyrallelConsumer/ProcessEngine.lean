import PyrallelConsumer.WorkerRuntime
import PyrallelConsumer.Lib.Machine

/-!
# PyrallelConsumer.ProcessEngine

`ProcessExecutionEngine` of `execution_plane/process_engine.py` with the supervision of
`execution_plane/process_worker_supervisor.py`, its transport, its registry and its workers, as one
transition system before shutdown.

A step is a section under one of the parent's locks, the dispatch of one payload, a worker step, the
delivery of one message by the feeder thread of a queue, or the death of a process. A liveness scan keeps
its candidates and the payloads that it still has to dispatch, because dispatching can wait for a queue
slot and start another scan meanwhile; the same holds for the tail of a route batch that was not started.
Which sends, restarts and attempts succeed is in the labels.
-/

set_option linter.unusedSectionVars false

namespace PyrallelConsumer

/-- A liveness scan between two of its steps, with its `to_requeue`. -/
inductive ScanPc (κ π : Type) where
  | idle
  | collected (index : Nat) (payloads : List (WorkItem κ π))
  | publishing (index : Nat) (payloads : List (WorkItem κ π))
deriving DecidableEq, Repr

def ScanPc.payloads {κ π : Type} : ScanPc κ π → List (WorkItem κ π)
  | idle => []
  | collected _ payloads => payloads
  | publishing _ payloads => payloads

/-- `ensure_workers_alive`: the candidates that it has not come to yet. -/
structure Scan (κ π : Type) where
  candidates : List Nat
  pc : ScanPc κ π
deriving DecidableEq, Repr

/-- How `_start_worker` ends. When the process cannot be started, its pipe has replaced the old one. -/
inductive RestartOutcome where
  | started
  | pipeFailed (error : PyStr)
  | processFailed (error : PyStr)
deriving DecidableEq, Repr

/-- How a send ends; the error is the text of the exception. -/
inductive SendOutcome where
  | sent
  | failed (error : PyStr)
deriving DecidableEq, Repr

/-- The text of the exception that a dispatch raises; only the size limit raises before the send. -/
def SendOutcome.errorText : SendOutcome → PyStr
  | sent => .text "payload_too_large"
  | failed error => error

structure ProcessEngine (κ π : Type) where
  transport : WorkerPipesTransport κ π
  registry : InFlightRegistry κ π
  buffer : CompletionBuffer
  completionQueue : List (CompletionMessage κ)
  registryQueue : List (RegistryEvent κ π)
  /-- Every process that was started, by the order of its start. -/
  processes : List (Worker κ π)
  /-- The process of each worker index. -/
  workers : List Nat
  /-- The process that each worker's pipe leads to. -/
  senders : List Nat
  scans : List (Scan κ π)
  /-- Tails of route batches that are still to be dispatched again. -/
  tails : List (List (WorkItem κ π))
  inFlightCount : Int
  /-- The items that were accepted. -/
  accepted : List LogicalWorkIdentity
  /-- The events that were returned by `poll_completed_events`. -/
  returned : List CompletionEvent

namespace ProcessEngine

variable {κ π : Type} (c : ProcessConfig κ π)

def new : ProcessEngine κ π :=
  { transport := .new c.queueSize
    registry := .empty
    buffer := {}
    completionQueue := []
    registryQueue := []
    processes := (List.range c.processCount).map Worker.new
    workers := List.range c.processCount
    senders := List.range c.processCount
    scans := []
    tails := []
    inFlightCount := 0
    accepted := []
    returned := [] }

/-! ## Dispatch -/

/-- The message is appended to the pipe of a worker. -/
def send (s : ProcessEngine κ π) (w : Nat) (m : PipeMessage κ π) : List (Worker κ π) :=
  match s.senders[w]? with
  | none => s.processes
  | some pid => s.processes.modify pid fun p => { p with pipe := p.pipe ++ [m] }

/-- Validation and sending succeed. -/
def canSend (s : ProcessEngine κ π) (w : Nat) (m : PipeMessage κ π) (sent : SendOutcome) : Bool :=
  c.packs m && sent = .sent && decide (w < s.senders.length)

/-- `dispatch_payload`, once a queue slot is free; the first component is false when it raised. -/
def dispatchPayload (s : ProcessEngine κ π) (x : WorkItem κ π) (sent : SendOutcome) :
    Bool × ProcessEngine κ π :=
  let w := c.workerIndex x.routeIdentity
  if s.canSend c w (.workItems [x]) sent then
    (true, { s with
      transport := s.transport.storeItem w x
      processes := s.send w (.workItems [x]) })
  else (false, { s with transport := s.transport.forgetItem c.queueSize w x })

/-- A dispatch is sent and pending, or it is rolled back. -/
theorem dispatchPayload_cases {c : ProcessConfig κ π} (s : ProcessEngine κ π) (x : WorkItem κ π) (sent : SendOutcome) :
    (s.canSend c (c.workerIndex x.routeIdentity) (.workItems [x]) sent = true ∧
      s.dispatchPayload c x sent = (true, { s with
        transport := s.transport.storeItem (c.workerIndex x.routeIdentity) x
        processes := s.send (c.workerIndex x.routeIdentity) (.workItems [x]) })) ∨
    (s.canSend c (c.workerIndex x.routeIdentity) (.workItems [x]) sent = false ∧
      s.dispatchPayload c x sent = (false, { s with
        transport := s.transport.forgetItem c.queueSize (c.workerIndex x.routeIdentity) x })) := by
  unfold dispatchPayload
  dsimp only
  split
  · rename_i h
    exact .inl ⟨h, rfl⟩
  · rename_i h
    exact .inr ⟨Bool.eq_false_iff.mpr h, rfl⟩

/-- `dispatch_route_batch`. -/
def dispatchRouteBatch (s : ProcessEngine κ π) (batchId : Nat) (route : RouteIdentity κ)
    (items : List (WorkItem κ π)) (sent : SendOutcome) : Bool × ProcessEngine κ π :=
  let w := c.workerIndex route
  if s.canSend c w (.routeBatch batchId route items) sent then
    (true, { s with
      transport := s.transport.storeBatch w batchId items
      processes := s.send w (.routeBatch batchId route items) })
  else (false, { s with transport := s.transport.forgetBatch c.queueSize w batchId items })

/-- The dispatch succeeded: the items are accepted and counted. -/
def accept (s : ProcessEngine κ π) (items : List (WorkItem κ π)) : ProcessEngine κ π :=
  { s with
    inFlightCount := s.inFlightCount + items.length
    accepted := s.accepted ++ items.map (·.identity) }

/-- `submit`, after its drain and its scan. -/
def submit (s : ProcessEngine κ π) (x : WorkItem κ π) (sent : SendOutcome) : ProcessEngine κ π :=
  match s.dispatchPayload c x sent with
  | (true, s) => s.accept [x]
  | (false, s) => s

/-- `submit_batch` for items of one route; of several routes it is one `submit` after the other. -/
def submitBatch (s : ProcessEngine κ π) (batchId : Nat) (items : List (WorkItem κ π))
    (sent : SendOutcome) : ProcessEngine κ π :=
  match items with
  | [] => s
  | x :: rest =>
    match s.dispatchRouteBatch c batchId x.routeIdentity (x :: rest) sent with
    | (true, s) => s.accept (x :: rest)
    | (false, s) => s

/-! ## Registry events -/

/-- `_emit_completion_event` for several events; what cannot be packed is logged and dropped. -/
def emit (s : ProcessEngine κ π) (events : List CompletionEvent) : ProcessEngine κ π :=
  { s with
    completionQueue := s.completionQueue ++
      (events.filter fun e => c.encodes (.item e false)).map (.item · false) }

/-- `_apply_registry_event`; the tail of a batch that was not started is dispatched again afterwards. -/
def applyRegistryEvent (s : ProcessEngine κ π) (event : RegistryEvent κ π) : ProcessEngine κ π :=
  match event with
  | .start key payload =>
    { s with
      transport := s.transport.handleStart c.queueSize key payload
      registry := s.registry.apply event }
  | .notStarted batchId payloads =>
    match s.transport.handleNotStarted batchId payloads with
    | (true, transport) => { s with transport := transport, tails := s.tails ++ [payloads] }
    | (false, transport) => { s with transport := transport }
  | event => { s with registry := s.registry.apply event }

def drainRegistry (s : ProcessEngine κ π) : ProcessEngine κ π :=
  match s.registryQueue with
  | [] => s
  | event :: queue => { s with registryQueue := queue }.applyRegistryEvent c event

/-- `_recover_not_started_payloads` for the next payload of a tail; after a failure the rest of the tail
fails too. -/
def requeueTail (s : ProcessEngine κ π) (j : Nat) (sent : SendOutcome) : ProcessEngine κ π :=
  match s.tails[j]? with
  | some (x :: rest) =>
    match s.dispatchPayload c x sent with
    | (true, s) => { s with tails := s.tails.set j rest }
    | (false, s) =>
      { s.emit c ((x :: rest).map (·.recoveryFailure (.text "not_started_requeue_failed: " ++ sent.errorText) c.maxRetries))
        with tails := s.tails.set j [] }
  | _ => s

/-! ## Completions -/

/-- The loop body of `drain_queue`. A message that cannot be decoded raises and is gone. -/
def drainCompletion (s : ProcessEngine κ π) : ProcessEngine κ π :=
  match s.completionQueue with
  | [] => s
  | m :: queue =>
    if c.decodes m then
      let i := m.events.foldl (Intake.prefetchEvent c.maxSeenIdentities) ⟨s.buffer, s.registry, []⟩
      { s with buffer := i.buffer, registry := i.registry, completionQueue := queue }
    else { s with completionQueue := queue }

/-- `poll_completed_events`, after its scan and its drain. When decoding raises, the events that it had
taken are gone. -/
def poll (s : ProcessEngine κ π) (limit : Nat) : ProcessEngine κ π :=
  let taken := s.buffer.prefetchedEvents.take limit
  let buffer := { s.buffer with prefetchedEvents := s.buffer.prefetchedEvents.drop limit }
  let (ok, queue, i) := Intake.pollAvailable c.maxSeenIdentities c.decodes (limit - taken.length)
    s.completionQueue ⟨buffer, s.registry, []⟩
  { s with
    buffer := i.buffer
    registry := i.registry
    completionQueue := queue
    inFlightCount := s.inFlightCount - (taken ++ i.completed).length
    returned := if ok then s.returned ++ (taken ++ i.completed) else s.returned }

/-! ## Supervision -/

/-- `collect_dead_worker_recovery_candidates`. -/
def deadWorkers (s : ProcessEngine κ π) : List Nat :=
  (List.range s.workers.length).filter fun i =>
    match s.workers[i]? with
    | none => false
    | some pid => match s.processes[pid]? with | none => false | some p => !p.alive

def beginScan (s : ProcessEngine κ π) : ProcessEngine κ π :=
  { s with scans := s.scans ++ [⟨s.deadWorkers, .idle⟩] }

/-- `collect_recoverable_worker_payloads` for a worker. -/
def recover (s : ProcessEngine κ π) (index : Nat) : Recovery κ π :=
  (s.registry.recoverDeadWorkerItems c.maxRetries index).1.append
    (.collect (.ofPayload c.maxRetries) (s.transport.recoverPendingDispatches c.queueSize index).1)

/-- The next candidate of a scan. -/
def collect (s : ProcessEngine κ π) (j : Nat) : ProcessEngine κ π :=
  match s.scans[j]? with
  | some ⟨index :: rest, _⟩ =>
    { s.emit c (s.recover c index).failures with
      registry := (s.registry.recoverDeadWorkerItems c.maxRetries index).2
      transport := (s.transport.recoverPendingDispatches c.queueSize index).2
      scans := s.scans.set j ⟨rest, .collected index (s.recover c index).payloads⟩ }
  | _ => s

/-- `emit_worker_restart_failures`. -/
def restartFailed (s : ProcessEngine κ π) (payloads : List (WorkItem κ π)) (error : PyStr) :
    ProcessEngine κ π :=
  s.emit c (payloads.map (·.recoveryFailure (.text "worker_restart_failed: " ++ error) c.maxRetries))

/-- `restart_dead_worker`. -/
def restart (s : ProcessEngine κ π) (j : Nat) (outcome : RestartOutcome) : ProcessEngine κ π :=
  match s.scans[j]? with
  | some ⟨rest, .collected index payloads⟩ =>
    match outcome with
    | .started =>
      { s with
        processes := s.processes ++ [.new index]
        workers := s.workers.set index s.processes.length
        senders := s.senders.set index s.processes.length
        scans := s.scans.set j ⟨rest, .publishing index payloads⟩ }
    | .pipeFailed error => { s.restartFailed c payloads error with scans := s.scans.set j ⟨rest, .idle⟩ }
    | .processFailed error =>
      { s.restartFailed c payloads error with
        processes := s.processes ++ [(Worker.new index).die]
        senders := s.senders.set index s.processes.length
        scans := s.scans.set j ⟨rest, .idle⟩ }
  | _ => s

/-- `publish_recovered_worker_payloads` for the next payload. -/
def publish (s : ProcessEngine κ π) (j : Nat) (sent : SendOutcome) : ProcessEngine κ π :=
  match s.scans[j]? with
  | some ⟨rest, .publishing index (x :: payloads)⟩ =>
    match s.dispatchPayload c x sent with
    | (true, s) => { s with scans := s.scans.set j ⟨rest, .publishing index payloads⟩ }
    | (false, s) =>
      { s.emit c [x.recoveryFailure (.text "worker_requeue_failed: " ++ sent.errorText) c.maxRetries]
        with scans := s.scans.set j ⟨rest, .publishing index payloads⟩ }
  | _ => s

/-! ## Processes -/

def modifyProcess (s : ProcessEngine κ π) (pid : Nat) (f : Worker κ π → Worker κ π) : ProcessEngine κ π :=
  { s with processes := s.processes.modify pid f }

/-- The feeder thread of the completion queue delivers the oldest message of a process. -/
def flushCompletion (s : ProcessEngine κ π) (pid : Nat) : ProcessEngine κ π :=
  match s.processes[pid]? with
  | some p =>
    match p.completions with
    | m :: rest =>
      { s.modifyProcess pid fun p => { p with completions := rest } with
        completionQueue := s.completionQueue ++ [m] }
    | [] => s
  | none => s

def flushRegistry (s : ProcessEngine κ π) (pid : Nat) : ProcessEngine κ π :=
  match s.processes[pid]? with
  | some p =>
    match p.registryEvents with
    | event :: rest =>
      { s.modifyProcess pid fun p => { p with registryEvents := rest } with
        registryQueue := s.registryQueue ++ [event] }
    | [] => s
  | none => s

end ProcessEngine

/-! ## The transition system -/

inductive EngineAction (κ π : Type) where
  | submit (item : WorkItem κ π) (sent : SendOutcome)
  | submitBatch (batchId : Nat) (items : List (WorkItem κ π)) (sent : SendOutcome)
  | receive (pid : Nat)
  | beginItem (pid : Nat)
  | finishItem (pid : Nat) (outcome : Nat → AttemptOutcome)
  | endTask (pid : Nat)
  | flushCompletion (pid : Nat)
  | flushRegistry (pid : Nat)
  | die (pid : Nat)
  | drainRegistry
  | drainCompletion
  | poll (limit : Nat)
  | beginScan
  | collect (scan : Nat)
  | restart (scan : Nat) (outcome : RestartOutcome)
  | publish (scan : Nat) (sent : SendOutcome)
  | requeueTail (tail : Nat) (sent : SendOutcome)

namespace ProcessEngine

variable {κ π : Type}

def processIs (s : ProcessEngine κ π) (pid : Nat) (p : Worker κ π → Bool) : Bool :=
  match s.processes[pid]? with
  | some w => p w
  | none => false

def slotFree (s : ProcessEngine κ π) : Bool := decide (0 < s.transport.slots)

/-- The step can be taken now. -/
def ready [DecidableEq κ] (s : ProcessEngine κ π) : EngineAction κ π → Bool
  | .submit _ _ => s.slotFree
  | .submitBatch _ items _ =>
    s.slotFree && match items with
      | [] => false
      | x :: rest => rest.all fun y => y.routeIdentity = x.routeIdentity
  | .receive pid => s.processIs pid fun w => w.idle && !w.pipe.isEmpty
  | .beginItem pid => s.processIs pid fun w =>
      w.between && match w.task with | some task => !task.rest.isEmpty | none => false
  | .finishItem pid _ => s.processIs pid (·.running)
  | .endTask pid => s.processIs pid fun w =>
      w.between && match w.task with | some task => task.rest.isEmpty | none => false
  | .flushCompletion pid => s.processIs pid fun w => w.alive && !w.completions.isEmpty
  | .flushRegistry pid => s.processIs pid fun w => w.alive && !w.registryEvents.isEmpty
  | .die pid => s.processIs pid (·.alive)
  | .drainRegistry => !s.registryQueue.isEmpty
  | .drainCompletion => !s.completionQueue.isEmpty
  | .poll _ => true
  | .beginScan => true
  | .collect j =>
    match s.scans[j]? with
    | some ⟨_ :: _, .idle⟩ => true
    | some ⟨_ :: _, .publishing _ []⟩ => true
    | _ => false
  | .restart j _ => match s.scans[j]? with | some ⟨_, .collected _ _⟩ => true | _ => false
  | .publish j _ =>
    s.slotFree && match s.scans[j]? with | some ⟨_, .publishing _ (_ :: _)⟩ => true | _ => false
  | .requeueTail j _ => s.slotFree && match s.tails[j]? with | some (_ :: _) => true | _ => false

/-- What callers and `uuid4` promise: an item is handed over once, and a batch id is new. -/
def Fresh (s : ProcessEngine κ π) : EngineAction κ π → Prop
  | .submit x _ => x.identity ∉ s.accepted
  | .submitBatch batchId items _ =>
    (∀ x ∈ items, x.identity ∉ s.accepted) ∧
      ∀ w, s.transport.pendingDispatch.get? (.routeBatch w batchId) = none
  | _ => True

end ProcessEngine

open ProcessEngine in
/-- The process engine with its workers. -/
def engineMachine (κ π : Type) [DecidableEq κ] (c : ProcessConfig κ π) :
    Machine (ProcessEngine κ π) (EngineAction κ π) where
  init s := s = .new c
  enabled s a := s.ready a = true ∧ s.Fresh a
  next s a :=
    match a with
    | .submit x sent => s.submit c x sent
    | .submitBatch batchId items sent => s.submitBatch c batchId items sent
    | .receive pid => s.modifyProcess pid (·.receive c)
    | .beginItem pid => s.modifyProcess pid (·.beginItem)
    | .finishItem pid outcome => s.modifyProcess pid (·.finishItem c outcome)
    | .endTask pid => s.modifyProcess pid (·.endTask c)
    | .flushCompletion pid => s.flushCompletion pid
    | .flushRegistry pid => s.flushRegistry pid
    | .die pid => s.modifyProcess pid (·.die)
    | .drainRegistry => s.drainRegistry c
    | .drainCompletion => s.drainCompletion c
    | .poll limit => s.poll c limit
    | .beginScan => s.beginScan
    | .collect j => s.collect c j
    | .restart j outcome => s.restart c j outcome
    | .publish j sent => s.publish c j sent
    | .requeueTail j sent => s.requeueTail c j sent

/-! ## Explicit runs -/

namespace ProcessEngine

variable {κ π : Type} [DecidableEq κ]

/-- A check that a step without batches is enabled. -/
def admits (s : ProcessEngine κ π) (a : EngineAction κ π) : Bool :=
  s.ready a && match a with
    | .submit x _ => decide (x.identity ∉ s.accepted)
    | .submitBatch _ _ _ => false
    | _ => true

/-- Every step of the list is enabled and passes the test when its turn comes. -/
def admitsRun (c : ProcessConfig κ π) (test : ProcessEngine κ π → EngineAction κ π → Bool)
    (s : ProcessEngine κ π) : List (EngineAction κ π) → Bool
  | [] => true
  | a :: l => s.admits a && test s a && admitsRun c test ((engineMachine κ π c).next s a) l

theorem enabled_of_admits {c : ProcessConfig κ π} {s : ProcessEngine κ π} {a : EngineAction κ π}
    (h : s.admits a = true) : (engineMachine κ π c).enabled s a := by
  obtain ⟨hready, hfresh⟩ := Bool.and_eq_true_iff.mp h
  refine ⟨hready, ?_⟩
  cases a with
  | submit x sent => simpa [Fresh] using hfresh
  | submitBatch batchId items sent => cases hfresh
  | _ => trivial

theorem reachableBy_admitsRun {c : ProcessConfig κ π} {p : ProcessEngine κ π → EngineAction κ π → Prop}
    {test : ProcessEngine κ π → EngineAction κ π → Bool} (hp : ∀ s a, test s a = true → p s a)
    (l : List (EngineAction κ π)) :
    ∀ {s : ProcessEngine κ π}, (engineMachine κ π c).ReachableBy p s → s.admitsRun c test l = true →
      (engineMachine κ π c).ReachableBy p ((engineMachine κ π c).run s l) := by
  induction l with
  | nil => intro s h _; exact h
  | cons a l ih =>
    intro s h hl
    simp only [admitsRun, Bool.and_eq_true] at hl
    exact ih (.next h (enabled_of_admits hl.1.1) (hp s a hl.1.2)) hl.2

end ProcessEngine

/-! ## Small runs

One worker, and keys and payloads of one byte. -/

def engineConfig {κ : Type} (maxRetries : Int) : ProcessConfig κ Unit :=
  { processCount := 1
    queueSize := 4
    maxRetries := maxRetries
    msgpackMaxBytes := 1000000
    digest := fun _ => 0
    keySize := fun _ => some 1
    payloadSize := fun _ => some 1 }

/-- The `n`-th work item of one route, at an offset. -/
def routeItem (n : Nat) (offset : Int) : WorkItem Nat Unit :=
  { id := .uuid n, tp := ⟨"t", 0⟩, offset := offset, epoch := 1, key := 7, payload := () }

end PyrallelConsumer
