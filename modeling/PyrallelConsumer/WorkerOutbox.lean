import PyrallelConsumer.ProcessEngine

/-!
# PyrallelConsumer.WorkerOutbox

What a worker puts on its two queues. A `done` event is put only together with a completion of the same
item, as long as what it flushes can be packed.

* `reports_finishItem`, `reports_endTask` — a worker step puts no more `done` events than completions.
-/

set_option linter.unusedSectionVars false

namespace PyrallelConsumer

variable {κ π : Type}

/-- The items that a list of registry events reports as done, with repetitions. -/
def doneIdentities (l : List (RegistryEvent κ π)) : List LogicalWorkIdentity :=
  l.filterMap fun
    | .done _ work => some work
    | _ => none

@[simp] theorem doneIdentities_append (l l' : List (RegistryEvent κ π)) :
    doneIdentities (l ++ l') = doneIdentities l ++ doneIdentities l' := List.filterMap_append

@[simp] theorem completionIdentities_append (l l' : List (CompletionMessage κ)) :
    completionIdentities (l ++ l') = completionIdentities l ++ completionIdentities l' := List.flatMap_append

theorem mem_completionIdentities {l : List (CompletionMessage κ)} {work : LogicalWorkIdentity} :
    work ∈ completionIdentities l ↔ ∃ m ∈ l, ∃ e ∈ m.events, e.identity = work := by
  simp [completionIdentities, List.mem_flatMap]

namespace Worker

variable {c : ProcessConfig κ π} {w w' : Worker κ π}

/-- Deferred `done` events belong to the results that wait with them. -/
def Deferred (w : Worker κ π) : Prop :=
  ∀ task, w.task = some task → task.results.map (·.identity) = task.deferredDone.map Prod.snd

/-- The results that a route batch has so far can be packed into one message. -/
def FlushPacks (c : ProcessConfig κ π) (w : Worker κ π) : Prop :=
  ∀ task batchId route, w.task = some task → task.batch = some (batchId, route) →
    task.results = [] ∨ c.encodes (.batch batchId route task.results) = true

/-- A step of the worker puts these messages and events. -/
structure Reports (w w' : Worker κ π) : Prop where
  index : w'.index = w.index
  alive : w'.alive = w.alive
  deferred : w'.Deferred
  puts : ∃ messages events, w'.completions = w.completions ++ messages ∧
    w'.registryEvents = w.registryEvents ++ events ∧
    (∀ work, (doneIdentities events).count work ≤ (completionIdentities messages).count work) ∧
    ∀ event ∈ events, InFlightRegistry.EventKeyed event

/-- Nothing is put. -/
theorem reports_quiet (hi : w'.index = w.index) (ha : w'.alive = w.alive)
    (hc : w'.completions = w.completions) (hr : w'.registryEvents = w.registryEvents) (hd : w'.Deferred) :
    Reports w w' :=
  ⟨hi, ha, hd, [], [], by simp [hc], by simp [hr], fun work => Nat.le_refl _, fun _ h => by cases h⟩

theorem reports_receive (hd : w.Deferred) : Reports w (w.receive c) := by
  unfold receive
  split
  · exact reports_quiet rfl rfl rfl rfl hd
  · split
    · refine reports_quiet rfl rfl rfl rfl fun task ht => ?_
      cases ht
      rfl
    · refine ⟨rfl, rfl, hd, [.item undecodablePayload false], [], rfl, by simp, fun work => ?_,
        fun _ h => by cases h⟩
      exact Nat.zero_le _

theorem reports_beginItem (hd : w.Deferred) : Reports w w.beginItem := by
  unfold beginItem
  split
  · rename_i task ht
    split
    · rename_i x rest _ _
      refine ⟨rfl, rfl, fun task' ht' => ?_, [], [.start (x.registryKey w.index) x], by simp, rfl,
        fun work => Nat.zero_le _, fun event h => ?_⟩
      · cases ht'
        exact hd task ht
      · rw [List.mem_singleton.mp h]
        rfl
    · exact reports_quiet rfl rfl rfl rfl hd
  · exact reports_quiet rfl rfl rfl rfl hd

theorem doneIdentities_doneEvents (l : List (InFlightRegistryKey × LogicalWorkIdentity)) :
    doneIdentities (doneEvents l : List (RegistryEvent κ π)) = l.map Prod.snd := by
  simp [doneIdentities, doneEvents, List.filterMap_map]

theorem completionIdentities_flushRouteBatch {batchId : Nat} {route : RouteIdentity κ}
    {results : List CompletionEvent}
    (h : results = [] ∨ c.encodes (.batch batchId route results) = true) :
    completionIdentities (flushRouteBatch c batchId route results) = results.map (·.identity) := by
  unfold flushRouteBatch
  split
  · rename_i hnil
    rw [hnil]
    rfl
  · rename_i hne
    rw [if_pos (h.resolve_left hne)]
    simp [completionIdentities, CompletionMessage.events]

/-- What `settleBatch` puts: a `done` event for each completion. -/
theorem settleBatch_puts {task : Task κ π} (ht : w.task = some task) (hd : w.Deferred) (hf : w.FlushPacks c)
    (w₁ : Worker κ π) :
    ∃ messages events, (settleBatch c w₁ task).completions = w₁.completions ++ messages ∧
      (settleBatch c w₁ task).registryEvents = w₁.registryEvents ++ events ∧
      (∀ work, (doneIdentities events).count work ≤ (completionIdentities messages).count work) ∧
      (∀ event ∈ events, InFlightRegistry.EventKeyed event) ∧
      (settleBatch c w₁ task).index = w₁.index ∧ (settleBatch c w₁ task).alive = w₁.alive ∧
      (settleBatch c w₁ task).task = w₁.task := by
  unfold settleBatch
  split
  · exact ⟨[], [], by simp, by simp, fun work => Nat.le_refl _, fun _ h => (by cases h), rfl, rfl, rfl⟩
  · rename_i batchId route hb
    refine ⟨_, _, rfl, rfl, fun work => ?_, fun event h => ?_, rfl, rfl, rfl⟩
    · refine Nat.le_of_eq ?_
      rw [doneIdentities_doneEvents, completionIdentities_flushRouteBatch (hf task batchId route ht hb),
        hd task ht]
    · obtain ⟨d, -, rfl⟩ := List.mem_map.mp h
      trivial

theorem reports_endTask (hd : w.Deferred) (hf : w.FlushPacks c) : Reports w (w.endTask c) := by
  unfold endTask
  split
  · rename_i task ht
    obtain ⟨messages, events, hc, hr, hcount, hkeyed, hi, ha, -⟩ := settleBatch_puts ht hd hf w
    exact ⟨hi, ha, fun task' ht' => (by cases ht'), messages, events, hc, hr, hcount, hkeyed⟩
  · exact reports_quiet rfl rfl rfl rfl hd

theorem reports_finishAlone {task : Task κ π} (ht : w.task = some task) (hd : w.Deferred) (x : WorkItem κ π)
    (s : RetryState) : Reports w (finishAlone c w task x s) := by
  unfold finishAlone
  split
  · refine ⟨rfl, rfl, fun task' ht' => ?_, [.item (x.completion s) true],
      [.done (x.registryKey w.index) x.identity], rfl, rfl, fun work => ?_, fun event h => ?_⟩
    · cases ht'
      exact hd task ht
    · simp [doneIdentities, completionIdentities, CompletionMessage.events]
    · rw [List.mem_singleton.mp h]
      trivial
  · exact reports_quiet rfl rfl rfl rfl hd

theorem reports_finishInBatch {task : Task κ π} (ht : w.task = some task) (hd : w.Deferred) (batchId : Nat)
    (x : WorkItem κ π) (s : RetryState) : Reports w (finishInBatch w task batchId x s) := by
  have hresults : (task.results ++ [x.completion s]).map (·.identity) =
      (task.deferredDone ++ [(x.registryKey w.index, x.identity)]).map Prod.snd := by
    simp [hd task ht]
  unfold finishInBatch
  dsimp only
  split
  · refine ⟨rfl, rfl, fun task' ht' => ?_, [], notStarted batchId task.rest, by simp, rfl, fun work => ?_,
      fun event h => ?_⟩
    · cases ht'
      exact hresults
    · unfold notStarted
      split <;> exact Nat.le_refl _
    · unfold notStarted at h
      split at h
      · cases h
      · rw [List.mem_singleton.mp h]
        trivial
  · refine reports_quiet rfl rfl rfl rfl fun task' ht' => ?_
    cases ht'
    exact hresults

theorem reports_finishTimedOut {task : Task κ π} (ht : w.task = some task) (hd : w.Deferred)
    (hf : w.FlushPacks c) (x : WorkItem κ π) (s : RetryState) : Reports w (finishTimedOut c w task x s) := by
  let timeout : RegistryEvent κ π := .timeout (x.registryKey w.index) x s.attempt (s.error.getD (.text ""))
  obtain ⟨messages, events, hc, hr, hcount, hkeyed, hi, ha, htask⟩ := settleBatch_puts ht hd hf
    { w with registryEvents := w.registryEvents ++ [timeout] }
  refine ⟨hi, ha, fun task' ht' => hd task' (htask.symm.trans ht'), messages, timeout :: events, hc, ?_,
    fun work => ?_, fun event h => ?_⟩
  · show (settleBatch c _ task).registryEvents = _
    rw [hr]
    simp
  · simpa [doneIdentities, timeout] using hcount work
  · rcases List.mem_cons.mp h with rfl | h
    · trivial
    · exact hkeyed event h

/-- **A finished item.** -/
theorem reports_finishItem (hd : w.Deferred) (hf : w.FlushPacks c) (outcome : Nat → AttemptOutcome) :
    Reports w (w.finishItem c outcome) := by
  unfold finishItem
  split
  · rename_i task ht
    split
    · rename_i x hx
      split
      · rename_i s _
        split
        · exact reports_finishAlone ht hd x s
        · rename_i batchId _ _
          exact reports_finishInBatch ht hd batchId x s
      · rename_i s _
        exact reports_finishTimedOut ht hd hf x s
      · exact reports_quiet rfl rfl rfl rfl hd
    · exact reports_quiet rfl rfl rfl rfl hd
  · exact reports_quiet rfl rfl rfl rfl hd

end Worker

end PyrallelConsumer
