import PyrallelConsumer.WorkerOutbox
import PyrallelConsumer.RetryLoops

/-!
# PyrallelConsumer.CompletionDelivery

A worker process works off one payload, and the parent decodes what it put on the completion queue. The
results of a route batch travel in one message, in single messages when that one cannot be packed, and
not at all where a single one cannot be packed either; the `done` events are put in any case. The parent
refuses a message above `msgpack_max_bytes`, a limit that the worker does not look at.

* `runItems_alone`, `runItems_batch` — what a payload puts on the two queues.
* `done_reported_iff` — when every `done` event has its completion in the parent.
-/

namespace PyrallelConsumer

variable {κ π : Type}

/-! ## A payload from receipt to end -/

namespace Worker

variable (c : ProcessConfig κ π) (outcomes : Nat → Nat → AttemptOutcome)

/-- The item loop of `_worker_loop`, with the number of items that may be left. The item at place `i`
meets the outcomes `outcomes i`. -/
def runItems : Nat → Nat → Worker κ π → Worker κ π
  | 0, _, w => w
  | n + 1, i, w => if w.exiting then w else runItems n (i + 1) (w.beginItem.finishItem c (outcomes i))

/-- The end of a payload, unless the process is on its way out. -/
def endPayload (w : Worker κ π) : Worker κ π := if w.exiting then w else w.endTask c

/-- A fresh worker that finds the message in its pipe and works it off. -/
def runPayload (index : Nat) (m : PipeMessage κ π) : Worker κ π :=
  endPayload c (runItems c outcomes m.items.length 0 (receive c { new index with pipe := [m] }))

end Worker

/-- The parent decodes all messages; `none` when one of them raises. -/
def decodeCompletions (c : ProcessConfig κ π) (messages : List (CompletionMessage κ)) :
    Option (List CompletionEvent) :=
  if messages.all c.decodes then some (messages.flatMap (·.events)) else none

/-- The `done` events are those of the first items, in their order, and each has its completion among
what the parent decodes. -/
def DoneReported (c : ProcessConfig κ π) (outcomes : Nat → Nat → AttemptOutcome) (m : PipeMessage κ π)
    (w : Worker κ π) : Prop :=
  ∀ (k : Nat) (work : LogicalWorkIdentity), (doneIdentities w.registryEvents)[k]? = some work →
    ∃ x, m.items[k]? = some x ∧ x.identity = work ∧
      ∃ s, runAttempts c.maxRetries (outcomes k) = (.finished, s) ∧
        ∃ events, decodeCompletions c w.completions = some events ∧ x.completion s ∈ events

/-! ## What is to be reported -/

section Results

variable (c : ProcessConfig κ π) (outcomes : Nat → Nat → AttemptOutcome)

/-- The completions of items that are sent one by one: up to the first that ends the process. -/
def aloneResults : Nat → List (WorkItem κ π) → List CompletionEvent
  | _, [] => []
  | i, x :: rest =>
    match attemptsResult c.maxRetries (outcomes i) with
    | none => []
    | some s => if c.encodes (.item (x.completion s) true) then x.completion s :: aloneResults (i + 1) rest else []

/-- The results of a route batch: up to the first failure, or before the first item that ends the process. -/
def batchResults : Nat → List (WorkItem κ π) → List CompletionEvent
  | _, [] => []
  | i, x :: rest =>
    match attemptsResult c.maxRetries (outcomes i) with
    | none => []
    | some s => x.completion s :: if s.status = .failure then [] else batchResults (i + 1) rest

/-- An item of the route batch is left by an exception that is not an `Exception`, and the process ends
without a flush. -/
def batchEscapes : Nat → List (WorkItem κ π) → Bool
  | _, [] => false
  | i, _ :: rest =>
    match attemptsResult c.maxRetries (outcomes i) with
    | none => (decisiveAttempt (outcomes i) 0 c.maxRetries.toNat).any fun n => outcomes i n = .escape
    | some s => s.status = .success && batchEscapes (i + 1) rest

end Results

/-! ## What can be packed -/

section Packing

open MsgPack

variable (c : ProcessConfig κ π)

theorem encodes_item (e : CompletionEvent) (timed : Bool) : c.encodes (.item e timed) = e.packable := by
  rw [Bool.eq_iff_iff]
  unfold ProcessConfig.encodes CompletionEvent.packable ProcessConfig.completionSize
  rw [isSome_mapSize_iff, isSome_mapSize_iff]
  have hextra : ∀ f ∈ (if timed then [("completion_enqueued_at", floatSize)] else []),
      (strSize (.text f.1)).isSome = true ∧ f.2.isSome = true := by
    intro f hf
    split at hf
    · rw [List.mem_singleton.mp hf]
      decide
    · cases hf
  have hlength : (e.fields ++ if timed then [("completion_enqueued_at", floatSize)] else []).length < 2 ^ 32 := by
    cases timed <;> simp [CompletionEvent.fields]
  constructor
  · rintro ⟨-, h⟩
    exact ⟨by simp [CompletionEvent.fields], fun f hf => h f (List.mem_append_left _ hf)⟩
  · rintro ⟨-, h⟩
    exact ⟨hlength, fun f hf => (List.mem_append.mp hf).elim (h f) (hextra f)⟩

/-- When the payload could be sent, a route batch completion packs as soon as each of its results does. -/
theorem encodes_batch {batchId : Nat} {route : RouteIdentity κ} {items : List (WorkItem κ π)}
    {results : List CompletionEvent} (hm : c.packs (.routeBatch batchId route items) = true)
    (hlength : results.length ≤ items.length) (hresults : ∀ e ∈ results, e.packable = true) :
    c.encodes (.batch batchId route results) = true := by
  have hsize : (c.pipeMessageSize (.routeBatch batchId route items)).isSome = true := by
    unfold ProcessConfig.packs ProcessConfig.withinLimit at hm
    cases h : c.pipeMessageSize (.routeBatch batchId route items) with
    | none => rw [h] at hm; cases hm
    | some n => rfl
  have hbatch := ((isSome_mapSize_iff _).mp hsize).2 _ (List.mem_cons_of_mem _ List.mem_cons_self)
  dsimp only at hbatch
  have hfields := ((isSome_mapSize_iff _).mp hbatch.2).2
  have hroute := (hfields ("route_identity", c.routeSize route) (by simp)).2
  have hitems := (isSome_arraySize_iff _).mp (hfields ("items", arraySize (items.map c.workItemSize)) (by simp)).2
  have harray : (arraySize (results.map fun e => mapSize e.fields)).isSome = true := by
    refine (isSome_arraySize_iff _).mpr ⟨?_, ?_⟩
    · have := hitems.1
      simp only [List.length_map] at this ⊢
      omega
    · intro s hs
      obtain ⟨e, he, rfl⟩ := List.mem_map.mp hs
      exact hresults e he
  have hcompletion : (mapSize [("batch_id", strSizeOf 32), ("route_identity", c.routeSize route),
      ("results", arraySize (results.map fun e => mapSize e.fields))]).isSome = true := by
    rw [isSome_mapSize_iff]
    refine ⟨by simp, fun f hf => ?_⟩
    rcases List.mem_cons.mp hf with rfl | hf
    · decide
    · rcases List.mem_cons.mp hf with rfl | hf
      · exact ⟨(by decide : (strSize (.text "route_identity")).isSome), hroute⟩
      · rw [List.mem_singleton.mp hf]
        exact ⟨(by decide : (strSize (.text "results")).isSome), harray⟩
  unfold ProcessConfig.encodes ProcessConfig.completionSize
  rw [isSome_mapSize_iff]
  refine ⟨by simp, fun f hf => ?_⟩
  rcases List.mem_cons.mp hf with rfl | hf
  · decide
  · rcases List.mem_cons.mp hf with rfl | hf
    · exact ⟨(by decide : (strSize (.text "completion")).isSome), hcompletion⟩
    · rw [List.mem_singleton.mp hf]
      decide

end Packing

/-! ## What a payload puts -/

namespace Worker

variable {c : ProcessConfig κ π} {outcomes : Nat → Nat → AttemptOutcome} {w : Worker κ π} {task : Task κ π}

/-- Nothing is left of the payload. -/
theorem runItems_of_rest_nil (ht : w.task = some task) (hcur : task.current = none) (hrest : task.rest = []) :
    ∀ n i, runItems c outcomes n i w = w := by
  have hstep : ∀ i, w.beginItem.finishItem c (outcomes i) = w := by
    intro i
    have hbegin : w.beginItem = w := by simp only [beginItem, ht, hcur, hrest]
    rw [hbegin]
    simp only [finishItem, ht, hcur]
  intro n
  induction n with
  | zero => intro i; rfl
  | succ n ih =>
    intro i
    simp only [runItems]
    rw [hstep i, ih]
    split <;> rfl

theorem runItems_of_exiting (h : w.exiting = true) (n i : Nat) : runItems c outcomes n i w = w := by
  cases n with
  | zero => rfl
  | succ n => simp only [runItems, h, if_true]

/-- The worker stands between two items of a payload. -/
structure Stands (w : Worker κ π) (task : Task κ π) (rest : List (WorkItem κ π)) : Prop where
  holds : w.task = some task
  current : task.current = none
  left : task.rest = rest
  running : w.exiting = false

/-- The worker with its next item begun. -/
theorem finishItem_beginItem {x : WorkItem κ π} {rest : List (WorkItem κ π)} (h : Stands w task (x :: rest))
    (outcome : Nat → AttemptOutcome) :
    w.beginItem.finishItem c outcome =
      let begun : Worker κ π := { w with
        task := some { task with current := some x, rest := rest }
        registryEvents := w.registryEvents ++ [.start (x.registryKey w.index) x] }
      match runAttempts c.maxRetries outcome with
      | (.finished, s) =>
        match task.batch with
        | none => finishAlone c begun { task with current := some x, rest := rest } x s
        | some (batchId, _) => finishInBatch begun { task with current := some x, rest := rest } batchId x s
      | (.timedOut, s) => finishTimedOut c begun { task with current := some x, rest := rest } x s
      | (.escaped, _) => { begun with exiting := true } := by
  have hbegin : w.beginItem = { w with
      task := some { task with current := some x, rest := rest }
      registryEvents := w.registryEvents ++ [.start (x.registryKey w.index) x] } := by
    simp only [beginItem, h.holds, h.current, h.left]
  rw [hbegin]
  rfl

@[simp] theorem doneIdentities_start (key : InFlightRegistryKey) (x : WorkItem κ π)
    (events : List (RegistryEvent κ π)) : doneIdentities (.start key x :: events) = doneIdentities events := rfl

@[simp] theorem doneIdentities_notStarted (batchId : Nat) (rest : List (WorkItem κ π)) :
    doneIdentities (notStarted batchId rest) = [] := by
  unfold notStarted
  split <;> rfl

/-- The next item of a route batch is finished. -/
theorem batch_finished {x : WorkItem κ π} {rest : List (WorkItem κ π)} {batchId : Nat} {route : RouteIdentity κ}
    (h : Stands w task (x :: rest)) (hb : task.batch = some (batchId, route)) {outcome : Nat → AttemptOutcome}
    {s : RetryState} (hrun : runAttempts c.maxRetries outcome = (.finished, s)) :
    ∃ task', Stands (w.beginItem.finishItem c outcome) task' (if s.status = .failure then [] else rest) ∧
      task'.batch = some (batchId, route) ∧ task'.results = task.results ++ [x.completion s] ∧
      task'.deferredDone.map Prod.snd = task.deferredDone.map Prod.snd ++ [x.identity] ∧
      (w.beginItem.finishItem c outcome).completions = w.completions ∧
      doneIdentities (w.beginItem.finishItem c outcome).registryEvents = doneIdentities w.registryEvents := by
  rw [finishItem_beginItem h]
  simp only [hrun, hb, finishInBatch]
  split
  · exact ⟨_, ⟨rfl, rfl, rfl, h.running⟩, rfl, rfl, by simp, rfl, by simp⟩
  · exact ⟨_, ⟨rfl, rfl, rfl, h.running⟩, rfl, rfl, by simp, rfl, by simp [doneIdentities]⟩

/-- The next item of a route batch times out. -/
theorem batch_timedOut {x : WorkItem κ π} {rest : List (WorkItem κ π)} {batchId : Nat} {route : RouteIdentity κ}
    (h : Stands w task (x :: rest)) (hb : task.batch = some (batchId, route)) {outcome : Nat → AttemptOutcome}
    {s : RetryState} (hrun : runAttempts c.maxRetries outcome = (.timedOut, s)) :
    (w.beginItem.finishItem c outcome).exiting = true ∧
      (w.beginItem.finishItem c outcome).completions =
        w.completions ++ flushRouteBatch c batchId route task.results ∧
      doneIdentities (w.beginItem.finishItem c outcome).registryEvents =
        doneIdentities w.registryEvents ++ task.deferredDone.map Prod.snd := by
  rw [finishItem_beginItem h]
  simp only [hrun, finishTimedOut, settleBatch, hb]
  refine ⟨trivial, trivial, ?_⟩
  rw [doneIdentities_append, doneIdentities_doneEvents, doneIdentities_append, doneIdentities_append]
  simp [doneIdentities]

/-- An exception that is not an `Exception` ends the process. -/
theorem escaped {x : WorkItem κ π} {rest : List (WorkItem κ π)} (h : Stands w task (x :: rest))
    {outcome : Nat → AttemptOutcome} {s : RetryState} (hrun : runAttempts c.maxRetries outcome = (.escaped, s)) :
    (w.beginItem.finishItem c outcome).exiting = true ∧
      (w.beginItem.finishItem c outcome).completions = w.completions ∧
      doneIdentities (w.beginItem.finishItem c outcome).registryEvents = doneIdentities w.registryEvents := by
  rw [finishItem_beginItem h]
  simp only [hrun]
  exact ⟨trivial, trivial, by simp [doneIdentities]⟩

/-- The next single item is finished. -/
theorem alone_finished {x : WorkItem κ π} {rest : List (WorkItem κ π)} (h : Stands w task (x :: rest))
    (hb : task.batch = none) {outcome : Nat → AttemptOutcome} {s : RetryState}
    (hrun : runAttempts c.maxRetries outcome = (.finished, s))
    (hpacks : c.encodes (.item (x.completion s) true) = true) :
    ∃ task', Stands (w.beginItem.finishItem c outcome) task' rest ∧ task'.batch = none ∧
      (w.beginItem.finishItem c outcome).completions = w.completions ++ [.item (x.completion s) true] ∧
      doneIdentities (w.beginItem.finishItem c outcome).registryEvents =
        doneIdentities w.registryEvents ++ [x.identity] := by
  rw [finishItem_beginItem h]
  simp only [hrun, hb, finishAlone, hpacks, if_true]
  exact ⟨_, ⟨rfl, rfl, rfl, h.running⟩, rfl, trivial, by simp [doneIdentities]⟩

/-- The next single item ends the process: it times out, or its completion cannot be packed. -/
theorem alone_exits {x : WorkItem κ π} {rest : List (WorkItem κ π)} (h : Stands w task (x :: rest))
    (hb : task.batch = none) {outcome : Nat → AttemptOutcome}
    (hout : ∀ s, runAttempts c.maxRetries outcome = (.finished, s) →
      c.encodes (.item (x.completion s) true) = false) :
    (w.beginItem.finishItem c outcome).exiting = true ∧
      (w.beginItem.finishItem c outcome).completions = w.completions ∧
      doneIdentities (w.beginItem.finishItem c outcome).registryEvents = doneIdentities w.registryEvents := by
  rw [finishItem_beginItem h]
  cases hrun : runAttempts c.maxRetries outcome with
  | mk fin s =>
    cases fin with
    | finished =>
      simp only [hb, finishAlone, hout s hrun, Bool.false_eq_true, if_false]
      exact ⟨trivial, trivial, by simp [doneIdentities]⟩
    | timedOut =>
      simp only [finishTimedOut, settleBatch, hb]
      exact ⟨trivial, trivial, by simp [doneIdentities]⟩
    | escaped =>
      simp only
      exact ⟨trivial, trivial, by simp [doneIdentities]⟩

/-- What single items put on the completion queue, and which of them they report as done. -/
theorem runItems_alone (rest : List (WorkItem κ π)) :
    ∀ (i : Nat) (w : Worker κ π) (task : Task κ π), Stands w task rest → task.batch = none →
      let w' := endPayload c (runItems c outcomes rest.length i w)
      w'.completions = w.completions ++ (aloneResults c outcomes i rest).map (.item · true) ∧
        doneIdentities w'.registryEvents =
          doneIdentities w.registryEvents ++ (aloneResults c outcomes i rest).map (·.identity) := by
  induction rest with
  | nil =>
    intro i w task h hb
    simp only [List.length_nil, runItems, endPayload, h.running, endTask, h.holds, settleBatch, hb, aloneResults]
    simp
  | cons x rest ih =>
    intro i w task h hb
    have hstate := finishedState_runAttempts c.maxRetries (outcomes i)
    simp only [List.length_cons, runItems, h.running, Bool.false_eq_true, if_false]
    by_cases hsent : ∃ s, runAttempts c.maxRetries (outcomes i) = (.finished, s) ∧
        c.encodes (.item (x.completion s) true) = true
    · obtain ⟨s, hrun, hpacks⟩ := hsent
      obtain ⟨task', h', hb', hcompletions, hevents⟩ := alone_finished h hb hrun hpacks
      have := ih (i + 1) _ task' h' hb'
      simp only [hcompletions, hevents] at this
      rw [hrun] at hstate
      simp only [finishedState, if_true] at hstate
      simp only [aloneResults, ← hstate, hpacks, if_true]
      simpa using this
    · have hout : ∀ s, runAttempts c.maxRetries (outcomes i) = (.finished, s) →
          c.encodes (.item (x.completion s) true) = false :=
        fun s hrun => Bool.eq_false_of_not_eq_true fun hpacks => hsent ⟨s, hrun, hpacks⟩
      obtain ⟨hexit, hcompletions, hevents⟩ := alone_exits h hb hout
      have hnone : aloneResults c outcomes i (x :: rest) = [] := by
        simp only [aloneResults]
        split
        · rfl
        · rename_i s hs
          rw [hs] at hstate
          rw [hout s ?_]
          · rfl
          · unfold finishedState at hstate
            split at hstate
            · rename_i hfin
              cases hstate
              exact Prod.ext hfin rfl
            · cases hstate
      rw [runItems_of_exiting hexit, hnone]
      simp only [endPayload, hexit, if_true, hcompletions, hevents]
      simp

/-- What a route batch puts on the completion queue, and the items that it reports as done. -/
theorem runItems_batch {batchId : Nat} {route : RouteIdentity κ} (rest : List (WorkItem κ π)) :
    ∀ (i : Nat) (w : Worker κ π) (task : Task κ π), Stands w task rest → task.batch = some (batchId, route) →
      let w' := endPayload c (runItems c outcomes rest.length i w)
      let done := task.deferredDone.map Prod.snd ++ (batchResults c outcomes i rest).map (·.identity)
      let results := task.results ++ batchResults c outcomes i rest
      w'.completions = w.completions ++
          (if batchEscapes c outcomes i rest then [] else flushRouteBatch c batchId route results) ∧
        doneIdentities w'.registryEvents = doneIdentities w.registryEvents ++
          (if batchEscapes c outcomes i rest then [] else done) := by
  induction rest with
  | nil =>
    intro i w task h hb
    simp only [List.length_nil, runItems, endPayload, h.running, endTask, h.holds, settleBatch, hb, batchResults,
      batchEscapes]
    simp [doneIdentities_doneEvents]
  | cons x rest ih =>
    intro i w task h hb
    have hstate := finishedState_runAttempts c.maxRetries (outcomes i)
    have hend := end_processRetry (outcomes i) c.maxRetries.toNat ⟨.failure, none, 0, 0⟩
    change (runAttempts c.maxRetries (outcomes i)).1 = _ at hend
    simp only [List.length_cons, runItems, h.running, Bool.false_eq_true, if_false]
    cases hrun : runAttempts c.maxRetries (outcomes i) with
    | mk fin s =>
      rw [hrun] at hstate hend
      cases fin with
      | finished =>
        obtain ⟨task', h', hb', hresults, hdone, hcompletions, hevents⟩ := batch_finished h hb hrun
        simp only [finishedState, if_true] at hstate
        simp only [batchResults, batchEscapes, ← hstate]
        split at h'
        · -- the tail of the batch is given back
          rename_i hfail
          rw [runItems_of_rest_nil h'.holds h'.current h'.left]
          simp only [endPayload, h'.running, endTask, h'.holds, settleBatch, hb', hfail, hcompletions, hresults]
          simp [doneIdentities_doneEvents, hevents, hdone]
        · rename_i hfail
          have hsuccess : s.status = .success := by
            cases hs : s.status with
            | success => rfl
            | failure => exact absurd hs hfail
          have := ih (i + 1) _ task' h' hb'
          simp only [hcompletions, hevents, hresults, hdone] at this
          simp only [hsuccess, reduceCtorEq, if_false, decide_true, Bool.true_and]
          simpa using this
      | timedOut =>
        obtain ⟨hexit, hcompletions, hevents⟩ := batch_timedOut h hb hrun
        simp only [finishedState, reduceCtorEq, if_false] at hstate
        rw [runItems_of_exiting hexit]
        have hesc : (decisiveAttempt (outcomes i) 0 c.maxRetries.toNat).any
            (fun n => outcomes i n = .escape) = false := by
          cases hd : decisiveAttempt (outcomes i) 0 c.maxRetries.toNat with
          | none => rfl
          | some n =>
            rw [hd] at hend
            simp only [Option.any_some, decide_eq_false_iff_not]
            intro hn
            simp [retryEnd, hn] at hend
        simp only [endPayload, hexit, if_true, batchResults, batchEscapes, ← hstate, hesc, hcompletions, hevents]
        simp
      | escaped =>
        obtain ⟨hexit, hcompletions, hevents⟩ := escaped h hrun
        simp only [finishedState, reduceCtorEq, if_false] at hstate
        rw [runItems_of_exiting hexit]
        have hesc : (decisiveAttempt (outcomes i) 0 c.maxRetries.toNat).any
            (fun n => outcomes i n = .escape) = true := by
          cases hd : decisiveAttempt (outcomes i) 0 c.maxRetries.toNat with
          | none => rw [hd] at hend; cases hend
          | some n =>
            rw [hd] at hend
            simp only [Option.any_some, decide_eq_true_eq]
            cases hn : outcomes i n <;> simp [retryEnd, hn] at hend ⊢
        simp only [endPayload, hexit, if_true, batchResults, batchEscapes, ← hstate, hesc, hcompletions, hevents]
        simp

end Worker

/-! ## The parent's view -/

section Delivery

variable {c : ProcessConfig κ π} {outcomes : Nat → Nat → AttemptOutcome}

theorem runAttempts_of_result {maxRetries : Int} {outcome : Nat → AttemptOutcome} {s : RetryState}
    (h : attemptsResult maxRetries outcome = some s) : runAttempts maxRetries outcome = (.finished, s) := by
  rw [← finishedState_runAttempts] at h
  unfold finishedState at h
  split at h
  · rename_i hfin
    cases h
    exact Prod.ext hfin rfl
  · cases h

/-- The `k`-th result is the completion of the `k`-th item. -/
theorem batchResults_getElem (items : List (WorkItem κ π)) :
    ∀ (i k : Nat) (e : CompletionEvent), (batchResults c outcomes i items)[k]? = some e →
      ∃ x s, items[k]? = some x ∧ runAttempts c.maxRetries (outcomes (i + k)) = (.finished, s) ∧
        e = x.completion s := by
  induction items with
  | nil => intro i k e h; simp [batchResults] at h
  | cons x rest ih =>
    intro i k e h
    simp only [batchResults] at h
    split at h
    · simp at h
    · rename_i s hs
      cases k with
      | zero =>
        simp only [List.getElem?_cons_zero, Option.some.injEq] at h
        exact ⟨x, s, rfl, runAttempts_of_result hs, h.symm⟩
      | succ k =>
        simp only [List.getElem?_cons_succ] at h
        split at h
        · simp at h
        · obtain ⟨y, s', hy, hrun, he⟩ := ih (i + 1) k e h
          exact ⟨y, s', hy, by rwa [show i + (k + 1) = i + 1 + k by omega], he⟩

theorem aloneResults_getElem (items : List (WorkItem κ π)) :
    ∀ (i k : Nat) (e : CompletionEvent), (aloneResults c outcomes i items)[k]? = some e →
      ∃ x s, items[k]? = some x ∧ runAttempts c.maxRetries (outcomes (i + k)) = (.finished, s) ∧
        e = x.completion s := by
  induction items with
  | nil => intro i k e h; simp [aloneResults] at h
  | cons x rest ih =>
    intro i k e h
    simp only [aloneResults] at h
    split at h
    · simp at h
    · rename_i s hs
      split at h
      · cases k with
        | zero =>
          simp only [List.getElem?_cons_zero, Option.some.injEq] at h
          exact ⟨x, s, rfl, runAttempts_of_result hs, h.symm⟩
        | succ k =>
          simp only [List.getElem?_cons_succ] at h
          obtain ⟨y, s', hy, hrun, he⟩ := ih (i + 1) k e h
          exact ⟨y, s', hy, by rwa [show i + (k + 1) = i + 1 + k by omega], he⟩
      · simp at h

theorem length_batchResults (items : List (WorkItem κ π)) :
    ∀ i, (batchResults c outcomes i items).length ≤ items.length := by
  induction items with
  | nil => intro i; exact Nat.le_refl 0
  | cons x rest ih =>
    intro i
    simp only [batchResults]
    split
    · exact Nat.zero_le _
    · split
      · simp
      · have := ih (i + 1)
        simp only [List.length_cons]
        omega

/-- The reported results, as an indexed family, with the completions that a list of messages decodes to. -/
theorem doneReported_iff {m : PipeMessage κ π} {w : Worker κ π} {results : List CompletionEvent}
    (hdone : doneIdentities w.registryEvents = results.map (·.identity))
    (hresults : ∀ k e, results[k]? = some e → ∃ x s, m.items[k]? = some x ∧
      runAttempts c.maxRetries (outcomes k) = (.finished, s) ∧ e = x.completion s) :
    DoneReported c outcomes m w ↔
      ∀ e ∈ results, ∃ events, decodeCompletions c w.completions = some events ∧ e ∈ events := by
  unfold DoneReported
  rw [hdone]
  constructor
  · intro h e he
    obtain ⟨k, hk⟩ := List.mem_iff_getElem?.mp he
    obtain ⟨x, s, hx, hrun, rfl⟩ := hresults k e hk
    obtain ⟨y, hy, -, s', hrun', events, hevents, hmem⟩ := h k _ (by rw [List.getElem?_map, hk]; rfl)
    rw [hx] at hy
    rw [hrun] at hrun'
    cases hy
    cases hrun'
    exact ⟨events, hevents, hmem⟩
  · intro h k work hk
    rw [List.getElem?_map, Option.map_eq_some_iff] at hk
    obtain ⟨e, hk, rfl⟩ := hk
    obtain ⟨x, s, hx, hrun, rfl⟩ := hresults k e hk
    exact ⟨x, hx, rfl, s, hrun, h _ (List.mem_of_getElem? hk)⟩

/-- Every message that the worker puts is accepted by the parent, and a route batch is packed as a whole. -/
def Deliverable (c : ProcessConfig κ π) (outcomes : Nat → Nat → AttemptOutcome) : PipeMessage κ π → Prop
  | .workItems items => ∀ e ∈ aloneResults c outcomes 0 items, c.decodes (.item e true) = true
  | .routeBatch batchId route items =>
    batchEscapes c outcomes 0 items = true ∨ batchResults c outcomes 0 items = [] ∨
      c.decodes (.batch batchId route (batchResults c outcomes 0 items)) = true

/-- What a flush of results means for the parent. -/
theorem flushRouteBatch_delivers_iff {batchId : Nat} {route : RouteIdentity κ} {items : List (WorkItem κ π)}
    {results : List CompletionEvent} (hm : c.packs (.routeBatch batchId route items) = true)
    (hlength : results.length ≤ items.length) :
    (∀ e ∈ results, ∃ events,
        decodeCompletions c (Worker.flushRouteBatch c batchId route results) = some events ∧ e ∈ events) ↔
      results = [] ∨ c.decodes (.batch batchId route results) = true := by
  unfold Worker.flushRouteBatch
  split
  · rename_i hnil
    simp [hnil]
  · rename_i hne
    rw [or_iff_right hne]
    split
    · rename_i hpacks
      constructor
      · intro h
        obtain ⟨e, he⟩ := List.exists_mem_of_ne_nil results hne
        obtain ⟨events, hevents, -⟩ := h e he
        unfold decodeCompletions at hevents
        split at hevents
        · rename_i hall
          simpa using hall
        · cases hevents
      · intro hdecodes e he
        refine ⟨results, ?_, he⟩
        simp [decodeCompletions, hdecodes, CompletionMessage.events]
    · -- some result cannot be packed, and the single messages leave it out
      rename_i hpacks
      constructor
      · intro h
        refine absurd (encodes_batch c hm hlength fun e he => ?_) hpacks
        obtain ⟨events, hevents, hmem⟩ := h e he
        unfold decodeCompletions at hevents
        split at hevents
        · cases hevents
          simp only [List.flatMap_map, List.mem_flatMap, CompletionMessage.events, List.mem_singleton,
            List.mem_filter] at hmem
          obtain ⟨e', ⟨-, hpack⟩, rfl⟩ := hmem
          rwa [encodes_item] at hpack
        · cases hevents
      · intro hdecodes
        exact absurd (c.encodes_of_decodes hdecodes) hpacks

/-- A payload that the worker can decode. -/
theorem stands_receive (index : Nat) {m : PipeMessage κ π} (hm : c.packs m = true) :
    Worker.Stands (Worker.receive c { Worker.new index with pipe := [m] }) ⟨m.batch, none, m.items, [], []⟩ m.items ∧
      (Worker.receive c { Worker.new index with pipe := [m] }).completions = [] ∧
      (Worker.receive c { Worker.new index with pipe := [m] }).registryEvents = [] := by
  simp only [Worker.receive, hm, if_true]
  exact ⟨⟨rfl, rfl, rfl, rfl⟩, rfl, rfl⟩

theorem runPayload_alone (index : Nat) {items : List (WorkItem κ π)} (hm : c.packs (.workItems items) = true) :
    (Worker.runPayload c outcomes index (.workItems items)).completions =
        (aloneResults c outcomes 0 items).map (.item · true) ∧
      doneIdentities (Worker.runPayload c outcomes index (.workItems items)).registryEvents =
        (aloneResults c outcomes 0 items).map (·.identity) := by
  obtain ⟨hstands, hcompletions, hevents⟩ := stands_receive index hm
  obtain ⟨hc, hd⟩ := @Worker.runItems_alone κ π c outcomes items 0 _ _ hstands rfl
  rw [hcompletions] at hc
  rw [hevents] at hd
  exact ⟨hc, hd⟩

theorem runPayload_batch (index : Nat) {batchId : Nat} {route : RouteIdentity κ} {items : List (WorkItem κ π)}
    (hm : c.packs (.routeBatch batchId route items) = true) :
    (Worker.runPayload c outcomes index (.routeBatch batchId route items)).completions =
        (if batchEscapes c outcomes 0 items then []
          else Worker.flushRouteBatch c batchId route (batchResults c outcomes 0 items)) ∧
      doneIdentities (Worker.runPayload c outcomes index (.routeBatch batchId route items)).registryEvents =
        (if batchEscapes c outcomes 0 items then [] else batchResults c outcomes 0 items).map (·.identity) := by
  obtain ⟨hstands, hcompletions, hevents⟩ := stands_receive index hm
  obtain ⟨hc, hd⟩ := @Worker.runItems_batch κ π c outcomes batchId route items 0 _ _ hstands rfl
  rw [hcompletions] at hc
  rw [hevents] at hd
  refine ⟨hc, hd.trans ?_⟩
  split <;> rfl

/-- A payload that the worker cannot decode is given up before any item. -/
theorem doneIdentities_runPayload (index : Nat) {m : PipeMessage κ π} (hm : c.packs m = false) :
    doneIdentities (Worker.runPayload c outcomes index m).registryEvents = [] := by
  let w : Worker κ π := { Worker.new index with completions := [.item undecodablePayload false] }
  have hreceive : Worker.receive c { Worker.new index with pipe := [m] } = w := by
    simp only [Worker.receive, hm, Bool.false_eq_true, if_false]
    rfl
  have hrun : ∀ n i, Worker.runItems c outcomes n i w = w := by
    intro n
    induction n with
    | zero => intro i; rfl
    | succ n ih => intro i; exact ih (i + 1)
  unfold Worker.runPayload
  rw [hreceive, hrun]
  rfl

/-- Single items put their completions one by one. -/
theorem aloneResults_delivers_iff (results : List CompletionEvent) :
    (∀ e ∈ results, ∃ events, decodeCompletions c (results.map (.item · true)) = some events ∧ e ∈ events) ↔
      ∀ e ∈ results, c.decodes (.item e true) = true := by
  constructor
  · intro h e he
    obtain ⟨events, hevents, -⟩ := h e he
    unfold decodeCompletions at hevents
    split at hevents
    · rename_i hall
      exact List.all_eq_true.mp hall _ (List.mem_map.mpr ⟨e, he, rfl⟩)
    · cases hevents
  · intro h e he
    have hall : (results.map fun e => CompletionMessage.item e true).all c.decodes = true := by simpa using h
    exact ⟨_, if_pos hall, by simpa [CompletionMessage.events] using he⟩

/-- **Every `done` event has its completion in the parent** exactly when the parent accepts what the
worker puts, and a route batch that has results packs. A payload that the worker refuses puts none. -/
theorem done_reported_iff (c : ProcessConfig κ π) (outcomes : Nat → Nat → AttemptOutcome) (index : Nat)
    (m : PipeMessage κ π) :
    DoneReported c outcomes m (Worker.runPayload c outcomes index m) ↔
      (c.packs m = true → Deliverable c outcomes m) := by
  by_cases hm : c.packs m = true
  · rw [forall_prop_of_true hm]
    cases m with
    | workItems items =>
      obtain ⟨hc, hd⟩ := @runPayload_alone κ π c outcomes index items hm
      rw [doneReported_iff hd fun k e hk => by
        obtain ⟨x, s, hx, hrun, he⟩ := aloneResults_getElem items 0 k e hk
        exact ⟨x, s, hx, by rwa [Nat.zero_add] at hrun, he⟩]
      rw [hc]
      exact aloneResults_delivers_iff _
    | routeBatch batchId route items =>
      obtain ⟨hc, hd⟩ := @runPayload_batch κ π c outcomes index batchId route items hm
      cases hesc : batchEscapes c outcomes 0 items with
      | true =>
        simp only [hesc, if_true, List.map_nil] at hd
        refine ⟨fun _ => .inl hesc, fun _ k work hk => ?_⟩
        rw [hd] at hk
        simp at hk
      | false =>
        simp only [hesc, Bool.false_eq_true, if_false] at hc hd
        rw [doneReported_iff hd fun k e hk => by
          obtain ⟨x, s, hx, hrun, he⟩ := batchResults_getElem items 0 k e hk
          exact ⟨x, s, hx, by rwa [Nat.zero_add] at hrun, he⟩]
        rw [hc, flushRouteBatch_delivers_iff hm (length_batchResults items 0)]
        simp [Deliverable, hesc]
  · have hdone := @doneIdentities_runPayload κ π c outcomes index m (Bool.eq_false_of_not_eq_true hm)
    refine ⟨fun _ h => absurd h hm, fun _ k work hk => ?_⟩
    rw [hdone] at hk
    simp at hk

section Examples

/-- The message of an exception with a lone surrogate. -/
def surrogateText : PyStr := .broken "boom " 0 []

def surrogateBatch : PipeMessage Nat Unit := .routeBatch 0 (routeItem 0 5).routeIdentity [routeItem 0 5]

/-- **The stranded item**: the single item of a route batch fails with a text that cannot be packed. Its
`done` event is put and its completion is not. -/
theorem done_unreported_surrogate :
    ¬DoneReported (engineConfig 1) (fun _ _ => .exception surrogateText) surrogateBatch
      (Worker.runPayload (engineConfig 1) (fun _ _ => .exception surrogateText) 0 surrogateBatch) := by
  intro h
  obtain ⟨x, -, -, s, -, events, hevents, hmem⟩ := h 0 (routeItem 0 5).identity (by decide)
  cases (show some [] = some events from hevents)
  cases hmem

end Examples

end Delivery

end PyrallelConsumer
