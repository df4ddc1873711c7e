import PyrallelConsumer.ProcessCodec

/-!
# PyrallelConsumer.WorkerRuntime

The worker process of `execution_plane/process_worker_runtime.py`, with `max_tasks_per_child = 0` as
`_validate_transport_config` demands. One step of the model ends where the process can be interrupted
by its own user function. What a worker has put on a queue waits in an outbox until the feeder thread of
the queue delivers it, so a crash between two puts is a crash after both with a shorter delivery.

* `processRetry_spec` — where the retry loop stops, and with what.
-/

set_option linter.unusedSectionVars false

namespace PyrallelConsumer

/-! ## Attempts -/

/-- How a call of the user's worker ends. `timeout` is a `TimeoutError`, whether the task timer or the
function raises it; `escape` is an exception that is not an `Exception`. -/
inductive AttemptOutcome where
  | success
  | exception (error : PyStr)
  | timeout (error : PyStr)
  | escape
deriving DecidableEq, Repr

/-- The variables of a retry loop, with the number of calls of the user's worker. -/
structure RetryState where
  status : CompletionStatus
  error : Option PyStr
  attempt : Nat
  calls : Nat
deriving DecidableEq, Repr

/-- How a retry loop is left. -/
inductive RetryEnd where
  | finished
  | timedOut
  | escaped
deriving DecidableEq, Repr

def RetryState.call (s : RetryState) : RetryState := { s with attempt := s.attempt + 1, calls := s.calls + 1 }

/-- The retry loop of `_worker_loop`, with the number of attempts left. The `n`-th call ends with
`outcome n`. -/
def processRetry (outcome : Nat → AttemptOutcome) : Nat → RetryState → RetryEnd × RetryState
  | 0, s => (.finished, s)
  | n + 1, s =>
    match outcome s.call.calls with
    | .success => (.finished, { s.call with status := .success, error := none })
    | .timeout error => (.timedOut, { s.call with status := .failure, error := some error })
    | .escape => (.escaped, s.call)
    | .exception error => processRetry outcome n { s.call with status := .failure, error := some error }

/-- `range(1, max_retries + 1)` from the start of the loop. -/
def runAttempts (maxRetries : Int) (outcome : Nat → AttemptOutcome) : RetryEnd × RetryState :=
  processRetry outcome maxRetries.toNat ⟨.failure, none, 0, 0⟩

def AttemptOutcome.isException : AttemptOutcome → Bool
  | exception _ => true
  | _ => false

/-- How the loop stops after `k` exceptions: `n` attempts were left, or a call ends it. -/
inductive Stops (outcome : Nat → AttemptOutcome) (s : RetryState) (n k : Nat) (r : RetryEnd × RetryState) :
    Prop where
  | exhausted (hk : k = n) (hend : r.1 = .finished)
      (hstatus : r.2.status = if n = 0 then s.status else .failure)
  | success (hk : k < n) (hout : outcome (s.calls + k + 1) = .success) (hend : r.1 = .finished)
      (hstatus : r.2.status = .success)
  | timeout (hk : k < n) (error : PyStr) (hout : outcome (s.calls + k + 1) = .timeout error)
      (hend : r.1 = .timedOut)
  | escape (hk : k < n) (hout : outcome (s.calls + k + 1) = .escape) (hend : r.1 = .escaped)

/-- **The retry loop.** It makes `k` calls that end with exceptions, and at most one more. -/
theorem processRetry_spec (outcome : Nat → AttemptOutcome) (n : Nat) :
    ∀ s : RetryState, ∃ k, (∀ i < k, (outcome (s.calls + i + 1)).isException = true) ∧
      Stops outcome s n k (processRetry outcome n s) ∧
      (processRetry outcome n s).2.calls = s.calls + min n (k + 1) ∧
      (processRetry outcome n s).2.attempt = s.attempt + min n (k + 1) := by
  induction n with
  | zero => intro s; exact ⟨0, fun i hi => by omega, .exhausted rfl rfl rfl, rfl, rfl⟩
  | succ n ih =>
    intro s
    simp only [processRetry]
    split
    · rename_i hout
      refine ⟨0, fun i hi => by omega, .success (Nat.succ_pos n) hout rfl rfl, ?_, ?_⟩
      · simp only [RetryState.call]; omega
      · simp only [RetryState.call]; omega
    · rename_i error hout
      refine ⟨0, fun i hi => by omega, .timeout (Nat.succ_pos n) error hout rfl, ?_, ?_⟩
      · simp only [RetryState.call]; omega
      · simp only [RetryState.call]; omega
    · rename_i hout
      refine ⟨0, fun i hi => by omega, .escape (Nat.succ_pos n) hout rfl, ?_, ?_⟩
      · simp only [RetryState.call]; omega
      · simp only [RetryState.call]; omega
    · rename_i error hout
      obtain ⟨k, hbefore, hstop, hcalls, hattempt⟩ :=
        ih { s.call with status := .failure, error := some error }
      have hshift : ∀ i, s.call.calls + i + 1 = s.calls + (i + 1) + 1 := by
        intro i
        simp only [RetryState.call]
        omega
      refine ⟨k + 1, fun i hi => ?_, ?_, ?_, ?_⟩
      · cases i with
        | zero =>
          rw [show s.calls + 0 + 1 = s.call.calls from rfl, hout]
          rfl
        | succ i =>
          rw [← hshift]
          exact hbefore i (by omega)
      · cases hstop with
        | exhausted hk hend hstatus =>
          refine .exhausted (by omega) hend ?_
          rw [hstatus]
          split <;> rfl
        | success hk hout hend hstatus => exact .success (by omega) (hshift k ▸ hout) hend hstatus
        | timeout hk error hout hend => exact .timeout (by omega) error (hshift k ▸ hout) hend
        | escape hk hout hend => exact .escape (by omega) (hshift k ▸ hout) hend
      · rw [hcalls]
        simp only [RetryState.call]
        omega
      · rw [hattempt]
        simp only [RetryState.call]
        omega

/-- The completion event of a finished item. -/
def WorkItem.completion {κ π : Type} (x : WorkItem κ π) (s : RetryState) : CompletionEvent :=
  { id := x.id
    tp := x.tp
    offset := x.offset
    epoch := x.epoch
    status := s.status
    error := s.error
    attempt := s.attempt }

@[simp] theorem identity_completion {κ π : Type} (x : WorkItem κ π) (s : RetryState) :
    (x.completion s).identity = x.identity := rfl

/-! ## The worker loop -/

/-- A payload that is being worked on. -/
structure Task (κ π : Type) where
  batch : Option (Nat × RouteIdentity κ)
  current : Option (WorkItem κ π)
  rest : List (WorkItem κ π)
  results : List CompletionEvent
  deferredDone : List (InFlightRegistryKey × LogicalWorkIdentity)
deriving DecidableEq, Repr

/-- A worker process. -/
structure Worker (κ π : Type) where
  index : Nat
  pipe : List (PipeMessage κ π)
  task : Option (Task κ π)
  completions : List (CompletionMessage κ)
  registryEvents : List (RegistryEvent κ π)
  alive : Bool
  exiting : Bool
deriving DecidableEq, Repr

/-- The event that reports an undecodable payload. -/
def undecodablePayload : CompletionEvent :=
  { id := .blank
    tp := ⟨"", 0⟩
    offset := -1
    epoch := 0
    status := .failure
    error := some (.text "payload_too_large")
    attempt := 1 }

namespace Worker

variable {κ π : Type} (c : ProcessConfig κ π)

def new (index : Nat) : Worker κ π := ⟨index, [], none, [], [], true, false⟩

/-- Take the next payload from the pipe. -/
def receive (w : Worker κ π) : Worker κ π :=
  match w.pipe with
  | [] => w
  | m :: pipe =>
    if c.packs m then { w with pipe := pipe, task := some ⟨m.batch, none, m.items, [], []⟩ }
    else { w with pipe := pipe, completions := w.completions ++ [.item undecodablePayload false] }

/-- Report the start of the next item. -/
def beginItem (w : Worker κ π) : Worker κ π :=
  match w.task with
  | some task =>
    match task.current, task.rest with
    | none, x :: rest =>
      { w with
        task := some { task with current := some x, rest := rest }
        registryEvents := w.registryEvents ++ [.start (x.registryKey w.index) x] }
    | _, _ => w
  | none => w

/-- `_flush_route_batch_completion`: one message, or one for each event that can be packed. -/
def flushRouteBatch (batchId : Nat) (route : RouteIdentity κ) (results : List CompletionEvent) :
    List (CompletionMessage κ) :=
  if results = [] then []
  else if c.encodes (.batch batchId route results) then [.batch batchId route results]
  else (results.filter fun e => c.encodes (.item e true)).map (.item · true)

def doneEvents (deferred : List (InFlightRegistryKey × LogicalWorkIdentity)) : List (RegistryEvent κ π) :=
  deferred.map fun d => .done d.1 d.2

/-- Flush the results of a route batch with their deferred `done` events. -/
def settleBatch (w : Worker κ π) (task : Task κ π) : Worker κ π :=
  match task.batch with
  | none => w
  | some (batchId, route) =>
    { w with
      completions := w.completions ++ flushRouteBatch c batchId route task.results
      registryEvents := w.registryEvents ++ doneEvents task.deferredDone }

/-- The tail of a route batch after a failure. -/
def notStarted (batchId : Nat) (rest : List (WorkItem κ π)) : List (RegistryEvent κ π) :=
  if rest = [] then [] else [.notStarted batchId rest]

/-- An item of a route batch is finished; after a failure the tail is given back. -/
def finishInBatch (w : Worker κ π) (task : Task κ π) (batchId : Nat) (x : WorkItem κ π) (s : RetryState) :
    Worker κ π :=
  let task := { task with
    current := none
    results := task.results ++ [x.completion s]
    deferredDone := task.deferredDone ++ [(x.registryKey w.index, x.identity)] }
  if s.status = .failure then
    { w with
      registryEvents := w.registryEvents ++ notStarted batchId task.rest
      task := some { task with rest := [] } }
  else { w with task := some task }

/-- A single item is finished. Packing its completion is not guarded, so the process can end here. -/
def finishAlone (w : Worker κ π) (task : Task κ π) (x : WorkItem κ π) (s : RetryState) : Worker κ π :=
  if c.encodes (.item (x.completion s) true) then
    { w with
      completions := w.completions ++ [.item (x.completion s) true]
      registryEvents := w.registryEvents ++ [.done (x.registryKey w.index) x.identity]
      task := some { task with current := none } }
  else { w with exiting := true }

/-- A timeout is reported, the batch so far is flushed, and the process exits. -/
def finishTimedOut (w : Worker κ π) (task : Task κ π) (x : WorkItem κ π) (s : RetryState) : Worker κ π :=
  { settleBatch c
      { w with registryEvents :=
          w.registryEvents ++ [.timeout (x.registryKey w.index) x s.attempt (s.error.getD (.text ""))] }
      task with
    exiting := true }

/-- The current item runs to its end. -/
def finishItem (w : Worker κ π) (outcome : Nat → AttemptOutcome) : Worker κ π :=
  match w.task with
  | some task =>
    match task.current with
    | some x =>
      match runAttempts c.maxRetries outcome with
      | (.finished, s) =>
        match task.batch with
        | none => finishAlone c w task x s
        | some (batchId, _) => finishInBatch w task batchId x s
      | (.timedOut, s) => finishTimedOut c w task x s
      | (.escaped, _) => { w with exiting := true }
    | none => w
  | none => w

/-- The payload is worked off. -/
def endTask (w : Worker κ π) : Worker κ π :=
  match w.task with
  | some task => { settleBatch c w task with task := none }
  | none => w

/-- The process is gone: what was not delivered is lost. -/
def die (w : Worker κ π) : Worker κ π :=
  { w with pipe := [], task := none, completions := [], registryEvents := [], alive := false }

/-- The worker waits in its pipe. -/
def idle (w : Worker κ π) : Bool := w.alive && !w.exiting && w.task.isNone

/-- The worker is between two items of a payload. -/
def between (w : Worker κ π) : Bool :=
  w.alive && !w.exiting && match w.task with | some task => task.current.isNone | none => false

/-- The worker runs an item. -/
def running (w : Worker κ π) : Bool :=
  w.alive && !w.exiting && match w.task with | some task => task.current.isSome | none => false

end Worker

end PyrallelConsumer
