import PyrallelConsumer.ProcessEngine

/-!
# PyrallelConsumer.EngineFailures

Which failures the process engine can return. A failure is made by the worker's retry loop, by the
recovery of a timed out item, by the recovery of an item that was requeued too often, by a failed restart
or by a failed requeue; everything else hands on what there is.

* `FailureSpec` — what is wanted of failures and of timeouts, which become failures.
* `FailureInv` — everything in circulation is as wanted.
* `Licensed` — so is what a step makes. `FailureInv.next` — one step.
-/

set_option linter.unusedSectionVars false

namespace PyrallelConsumer

/-- What is wanted of failures, and of timeouts with their attempt. -/
structure FailureSpec (κ π : Type) where
  failure : CompletionEvent → Prop
  timeout : LogicalWorkIdentity → Int → Prop
  recovered : ∀ (x : WorkItem κ π) error attempt, timeout x.identity attempt →
    failure (x.recoveryFailure error attempt)

namespace FailureSpec

variable {κ π : Type} (F : FailureSpec κ π)

def Event (e : CompletionEvent) : Prop := e.status = .failure → F.failure e

def RegistryEvent : RegistryEvent κ π → Prop
  | .start key payload => key = payload.registryKey key.workerIndex
  | .timeout _ payload attempt _ => F.timeout payload.identity attempt
  | _ => True

end FailureSpec

variable {κ π : Type} {F : FailureSpec κ π}

/-! ## Workers -/

structure Worker.Obeys (F : FailureSpec κ π) (c : ProcessConfig κ π) (p : Worker κ π) : Prop where
  pipe : ∀ m ∈ p.pipe, c.packs m = true
  completions : ∀ m ∈ p.completions, ∀ e ∈ m.events, F.Event e
  registryEvents : ∀ event ∈ p.registryEvents, F.RegistryEvent event
  results : ∀ task, p.task = some task → ∀ e ∈ task.results, F.Event e

namespace Worker

variable {c : ProcessConfig κ π} {p : Worker κ π}

theorem Obeys.receive (h : p.Obeys F c) : (p.receive c).Obeys F c := by
  unfold Worker.receive
  split
  · exact h
  · rename_i m pipe hpipe
    -- what was sent was packed, so the worker decodes it
    rw [if_pos (h.pipe m (hpipe ▸ List.mem_cons_self))]
    refine ⟨fun m' hm' => h.pipe m' (hpipe ▸ List.mem_cons_of_mem _ hm'), h.completions, h.registryEvents,
      fun task ht e he => ?_⟩
    cases ht
    cases he

theorem Obeys.beginItem (h : p.Obeys F c) : p.beginItem.Obeys F c := by
  unfold Worker.beginItem
  split
  · rename_i task ht
    split
    · refine ⟨h.pipe, h.completions, fun event hevent => ?_, fun task' ht' e he => ?_⟩
      · rcases List.mem_append.mp hevent with hevent | hevent
        · exact h.registryEvents event hevent
        · rw [List.mem_singleton.mp hevent]
          trivial
      · cases ht'
        exact h.results task ht e he
    · exact h
  · exact h

theorem mem_flushRouteBatch {batchId : Nat} {route : RouteIdentity κ} {results : List CompletionEvent}
    {m : CompletionMessage κ} {e : CompletionEvent} (hm : m ∈ flushRouteBatch c batchId route results)
    (he : e ∈ m.events) : e ∈ results := by
  unfold flushRouteBatch at hm
  split at hm
  · cases hm
  · split at hm
    · rw [List.mem_singleton.mp hm] at he
      exact he
    · obtain ⟨e', he', rfl⟩ := List.mem_map.mp hm
      rw [List.mem_singleton.mp he]
      exact (List.mem_filter.mp he').1

theorem Obeys.settleBatch {task : Task κ π} (h : p.Obeys F c)
    (hresults : ∀ e ∈ task.results, F.Event e) : (settleBatch c p task).Obeys F c := by
  unfold Worker.settleBatch
  split
  · exact h
  · refine ⟨h.pipe, fun m hm e he => ?_, fun event hevent => ?_, h.results⟩
    · rcases List.mem_append.mp hm with hm | hm
      · exact h.completions m hm e he
      · exact hresults e (mem_flushRouteBatch hm he)
    · rcases List.mem_append.mp hevent with hevent | hevent
      · exact h.registryEvents event hevent
      · obtain ⟨d, -, rfl⟩ := List.mem_map.mp hevent
        trivial

theorem Obeys.endTask (h : p.Obeys F c) : (p.endTask c).Obeys F c := by
  unfold Worker.endTask
  split
  · rename_i task ht
    have hs := h.settleBatch (h.results task ht)
    exact ⟨hs.pipe, hs.completions, hs.registryEvents, fun _ h => by cases h⟩
  · exact h

theorem Obeys.finishAlone {task : Task κ π} (h : p.Obeys F c) (ht : p.task = some task) {x : WorkItem κ π}
    {s : RetryState} (hs : F.Event (x.completion s)) : (finishAlone c p task x s).Obeys F c := by
  unfold Worker.finishAlone
  split
  · refine ⟨h.pipe, fun m hm e he => ?_, fun event hevent => ?_, fun task' ht' => ?_⟩
    · rcases List.mem_append.mp hm with hm | hm
      · exact h.completions m hm e he
      · rw [List.mem_singleton.mp hm] at he
        rw [List.mem_singleton.mp he]
        exact hs
    · rcases List.mem_append.mp hevent with hevent | hevent
      · exact h.registryEvents event hevent
      · rw [List.mem_singleton.mp hevent]
        trivial
    · cases ht'
      exact h.results task ht
  · exact ⟨h.pipe, h.completions, h.registryEvents, h.results⟩

theorem Obeys.finishInBatch {task : Task κ π} (h : p.Obeys F c) (ht : p.task = some task) {batchId : Nat}
    {x : WorkItem κ π} {s : RetryState} (hs : F.Event (x.completion s)) :
    (finishInBatch p task batchId x s).Obeys F c := by
  have hresults : ∀ e ∈ task.results ++ [x.completion s], F.Event e := by
    intro e he
    rcases List.mem_append.mp he with he | he
    · exact h.results task ht e he
    · rw [List.mem_singleton.mp he]
      exact hs
  unfold Worker.finishInBatch
  dsimp only
  split
  · refine ⟨h.pipe, h.completions, fun event hevent => ?_, fun task' ht' => ?_⟩
    · rcases List.mem_append.mp hevent with hevent | hevent
      · exact h.registryEvents event hevent
      · unfold notStarted at hevent
        split at hevent
        · cases hevent
        · rw [List.mem_singleton.mp hevent]
          trivial
    · cases ht'
      exact hresults
  · refine ⟨h.pipe, h.completions, h.registryEvents, fun task' ht' => ?_⟩
    cases ht'
    exact hresults

/-- What the retry loop makes of the current item is as wanted. -/
def LicensedFinish (F : FailureSpec κ π) (c : ProcessConfig κ π) (p : Worker κ π)
    (outcome : Nat → AttemptOutcome) : Prop :=
  ∀ task x, p.task = some task → task.current = some x →
    ((runAttempts c.maxRetries outcome).1 = .finished → F.Event (x.completion (runAttempts c.maxRetries outcome).2)) ∧
    ((runAttempts c.maxRetries outcome).1 = .timedOut →
      F.timeout x.identity (runAttempts c.maxRetries outcome).2.attempt)

theorem Obeys.finishItem (h : p.Obeys F c) {outcome : Nat → AttemptOutcome}
    (hp : p.LicensedFinish F c outcome) : (p.finishItem c outcome).Obeys F c := by
  unfold Worker.finishItem
  split
  · rename_i task ht
    split
    · rename_i x hx
      obtain ⟨hfinished, htimedOut⟩ := hp task x ht hx
      split
      · rename_i s hrun
        rw [hrun] at hfinished
        split
        · exact h.finishAlone ht (hfinished rfl)
        · exact h.finishInBatch ht (hfinished rfl)
      · rename_i s hrun
        rw [hrun] at htimedOut
        have htimeout : Worker.Obeys F c { p with registryEvents := p.registryEvents ++
            [.timeout (x.registryKey p.index) x s.attempt (s.error.getD (.text ""))] } := by
          refine ⟨h.pipe, h.completions, fun event hevent => ?_, h.results⟩
          rcases List.mem_append.mp hevent with hevent | hevent
          · exact h.registryEvents event hevent
          · rw [List.mem_singleton.mp hevent]
            exact htimedOut rfl
        have hs := htimeout.settleBatch (h.results task ht)
        exact ⟨hs.pipe, hs.completions, hs.registryEvents, hs.results⟩
      · exact ⟨h.pipe, h.completions, h.registryEvents, h.results⟩
    · exact h
  · exact h

/-- A process with nothing in it. -/
theorem Obeys.empty (hpipe : p.pipe = []) (hcomp : p.completions = []) (hreg : p.registryEvents = [])
    (htask : p.task = none) : p.Obeys F c := by
  refine ⟨fun m hm => ?_, fun m hm => ?_, fun e he => ?_, fun task ht => ?_⟩
  · rw [hpipe] at hm; cases hm
  · rw [hcomp] at hm; cases hm
  · rw [hreg] at he; cases he
  · rw [htask] at ht; cases ht

end Worker

/-! ## The registry -/

namespace InFlightRegistry

variable {reg : InFlightRegistry κ π}

/-- Every entry is under the key of its payload, and its timeout is as wanted. -/
structure Obeys (F : FailureSpec κ π) (reg : InFlightRegistry κ π) : Prop where
  keyed : Keyed reg
  marks : ∀ key e mark, reg.get? key = some e → e.timedOut = some mark → F.timeout e.payload.identity mark.attempt

theorem Obeys.filter (h : Obeys F reg) (p : InFlightRegistryKey → RegistryEntry κ π → Bool) :
    Obeys F (reg.filter p) := by
  refine ⟨keyed_filter h.keyed p, fun key e mark hget => ?_⟩
  rw [Dict.get?_filter] at hget
  exact h.marks key e mark (Option.filter_eq_some_iff.mp hget).1

theorem Obeys.set (h : Obeys F reg) {key : InFlightRegistryKey} {e : RegistryEntry κ π}
    (hkey : key = e.payload.registryKey key.workerIndex)
    (he : ∀ mark, e.timedOut = some mark → F.timeout e.payload.identity mark.attempt) :
    Obeys F (reg.set key e) := by
  refine ⟨keyed_set h.keyed hkey, fun key' e' mark hget hmark => ?_⟩
  rw [Dict.get?_set] at hget
  split at hget
  · cases hget
    exact he mark hmark
  · exact h.marks key' e' mark hget hmark

theorem Obeys.apply (h : Obeys F reg) {event : RegistryEvent κ π} (hevent : F.RegistryEvent event) :
    Obeys F (apply reg event) := by
  cases event with
  | start key payload =>
    simp only [InFlightRegistry.apply]
    split
    · exact h
    · exact h.set hevent fun _ hmark => by cases hmark
  | timeout key payload attempt error =>
    simp only [InFlightRegistry.apply]
    split
    · exact h
    · rename_i e he
      split
      · rename_i hmatch
        refine h.set (h.keyed key e he) fun mark hmark => ?_
        cases hmark
        rw [← entryIdentity_of_keyed h.keyed he, hmatch]
        exact hevent
      · exact h
  | done key work =>
    simp only [InFlightRegistry.apply]
    split
    · exact h
    · split
      · refine ⟨keyed_erase h.keyed key, fun key' e mark hget => ?_⟩
        rw [Dict.get?_erase] at hget
        split at hget
        · cases hget
        · exact h.marks key' e mark hget
      · exact h
  | notStarted => exact h

end InFlightRegistry

namespace Recovery

variable {maxRetries : Int}

/-- A payload fails when it was requeued too often. -/
theorem failures_ofPayload {x : WorkItem κ π} {e : CompletionEvent}
    (he : e ∈ (ofPayload maxRetries x).failures) : maxRetries ≤ x.requeueAttempts ∧
      e = x.recoveryFailure (.text "worker_died_max_retries") x.requeueAttempts := by
  unfold ofPayload at he
  split at he
  · rename_i hmax
    exact ⟨hmax, List.mem_singleton.mp he⟩
  · cases he

theorem failures_ofEntry {entry : RegistryEntry κ π} {e : CompletionEvent}
    (he : e ∈ (ofEntry maxRetries entry).failures) :
    (∃ mark, entry.timedOut = some mark ∧ e = entry.payload.recoveryFailure mark.error mark.attempt) ∨
      e ∈ (ofPayload maxRetries entry.payload).failures := by
  unfold ofEntry at he
  split at he
  · rename_i mark hm
    exact .inl ⟨mark, hm, List.mem_singleton.mp he⟩
  · exact .inr he

end Recovery

namespace Intake

theorem Taken.obeys {i i' : Intake κ π} {e : CompletionEvent} (h : Taken i e i') (hr : i.registry.Obeys F) :
    i'.registry.Obeys F := by
  cases h with
  | duplicate => exact hr
  | kept _ hregistry =>
    rw [hregistry]
    exact hr.filter _

theorem obeys_takeAll {f : Intake κ π → CompletionEvent → Intake κ π} (hf : ∀ i e, Taken i e (f i e))
    (l : List CompletionEvent) :
    ∀ {i : Intake κ π}, i.registry.Obeys F → (l.foldl f i).registry.Obeys F := by
  induction l with
  | nil => intro i h; exact h
  | cons e l ih => intro i h; exact ih ((hf i e).obeys h)

/-- What a poll can show, and what it leaves in the queue. -/
theorem pollAvailable_mem (maxSeen : Nat) (fits : CompletionMessage κ → Bool) (limit : Nat)
    (q : List (CompletionMessage κ)) :
    ∀ i : Intake κ π, i.registry.Obeys F →
      (∀ x ∈ (pollAvailable maxSeen fits limit q i).2.2.buffer.prefetchedEvents ++
          (pollAvailable maxSeen fits limit q i).2.2.completed,
        x ∈ i.buffer.prefetchedEvents ++ i.completed ∨ ∃ m ∈ q, x ∈ m.events) ∧
      (∀ m ∈ (pollAvailable maxSeen fits limit q i).2.1, m ∈ q) ∧
      (pollAvailable maxSeen fits limit q i).2.2.registry.Obeys F := by
  induction q with
  | nil => intro i h; exact ⟨fun x hx => .inl hx, fun m hm => hm, h⟩
  | cons m q ih =>
    intro i h
    simp only [pollAvailable]
    split
    · exact ⟨fun x hx => .inl hx, fun m' hm' => hm', h⟩
    · split
      · have htaken := taken_pollEvent (κ := κ) (π := π) maxSeen limit
        obtain ⟨hshown, hleft, hobeys⟩ := ih _ (obeys_takeAll htaken m.events h)
        refine ⟨fun x hx => ?_, fun m' hm' => List.mem_cons_of_mem _ (hleft m' hm'), hobeys⟩
        rcases hshown x hx with hx | ⟨m', hm', hx⟩
        · rcases mem_events_takeAll htaken m.events hx with hx | hx
          · exact .inl hx
          · exact .inr ⟨m, List.mem_cons_self, hx⟩
        · exact .inr ⟨m', List.mem_cons_of_mem _ hm', hx⟩
      · exact ⟨fun x hx => .inl hx, fun m' hm' => List.mem_cons_of_mem _ hm', h⟩

end Intake

/-! ## The engine -/

/-- Every failure and every timeout in circulation is as wanted. -/
structure FailureInv (F : FailureSpec κ π) (c : ProcessConfig κ π) (s : ProcessEngine κ π) : Prop where
  returned : ∀ e ∈ s.returned, F.Event e
  prefetched : ∀ e ∈ s.buffer.prefetchedEvents, F.Event e
  queue : ∀ m ∈ s.completionQueue, ∀ e ∈ m.events, F.Event e
  registryQueue : ∀ event ∈ s.registryQueue, F.RegistryEvent event
  registry : s.registry.Obeys F
  workers : ∀ p ∈ s.processes, p.Obeys F c

namespace ProcessEngine

/-- The payloads that the recovery of a worker takes up. -/
def recovered (c : ProcessConfig κ π) (s : ProcessEngine κ π) (index : Nat) : List (WorkItem κ π) :=
  (s.registry.entriesOf index).map (·.payload) ++ (s.transport.recoverPendingDispatches c.queueSize index).1

/-- The failures and timeouts that the step makes are as wanted. -/
def Licensed (F : FailureSpec κ π) (c : ProcessConfig κ π) (s : ProcessEngine κ π) : EngineAction κ π → Prop
  | .finishItem pid outcome => ∀ p, s.processes[pid]? = some p → p.LicensedFinish F c outcome
  | .collect j => ∀ index rest pc, s.scans[j]? = some ⟨index :: rest, pc⟩ → ∀ x ∈ s.recovered c index,
      c.maxRetries ≤ x.requeueAttempts →
        F.failure (x.recoveryFailure (.text "worker_died_max_retries") x.requeueAttempts)
  | .restart j outcome => ∀ rest index payloads error, s.scans[j]? = some ⟨rest, .collected index payloads⟩ →
      outcome = .pipeFailed error ∨ outcome = .processFailed error → ∀ x ∈ payloads,
        F.failure (x.recoveryFailure (.text "worker_restart_failed: " ++ error) c.maxRetries)
  | .publish j sent => ∀ rest index x payloads, s.scans[j]? = some ⟨rest, .publishing index (x :: payloads)⟩ →
      s.canSend c (c.workerIndex x.routeIdentity) (.workItems [x]) sent = false →
        F.failure (x.recoveryFailure (.text "worker_requeue_failed: " ++ sent.errorText) c.maxRetries)
  | .requeueTail j sent => ∀ x rest, s.tails[j]? = some (x :: rest) →
      s.canSend c (c.workerIndex x.routeIdentity) (.workItems [x]) sent = false → ∀ y ∈ x :: rest,
        F.failure (y.recoveryFailure (.text "not_started_requeue_failed: " ++ sent.errorText) c.maxRetries)
  | _ => True

end ProcessEngine

namespace FailureInv

variable {c : ProcessConfig κ π} {s : ProcessEngine κ π}

theorem new : FailureInv F c (.new c) := by
  refine ⟨fun _ h => (by cases h), fun _ h => (by cases h), fun _ h => (by cases h), fun _ h => (by cases h),
    ⟨fun _ _ h => (by cases h), fun _ _ _ h => (by cases h)⟩, fun p hp => ?_⟩
  obtain ⟨i, -, rfl⟩ := List.mem_map.mp hp
  exact .empty rfl rfl rfl rfl

/-- A step that leaves queues, buffer and registry alone. -/
theorem frame {s' : ProcessEngine κ π} (h : FailureInv F c s) (hret : s'.returned = s.returned)
    (hbuf : s'.buffer = s.buffer) (hq : s'.completionQueue = s.completionQueue)
    (hrq : s'.registryQueue = s.registryQueue) (hreg : s'.registry = s.registry)
    (hw : ∀ p ∈ s'.processes, p.Obeys F c) : FailureInv F c s' :=
  ⟨hret ▸ h.returned, hbuf ▸ h.prefetched, hq ▸ h.queue, hrq ▸ h.registryQueue, hreg ▸ h.registry, hw⟩

theorem send (h : FailureInv F c s) {w : Nat} {m : PipeMessage κ π} (hm : c.packs m = true) :
    ∀ p ∈ s.send w m, p.Obeys F c := by
  intro p hp
  unfold ProcessEngine.send at hp
  split at hp
  · exact h.workers p hp
  · rename_i pid _
    obtain ⟨i, hi⟩ := List.mem_iff_getElem?.mp hp
    rw [List.getElem?_modify] at hi
    obtain ⟨q, hq, rfl⟩ := Option.map_eq_some_iff.mp hi
    have hold := h.workers q (List.mem_of_getElem? hq)
    split
    · refine ⟨fun m' hm' => ?_, hold.completions, hold.registryEvents, hold.results⟩
      rcases List.mem_append.mp hm' with hm' | hm'
      · exact hold.pipe m' hm'
      · rw [List.mem_singleton.mp hm']
        exact hm
    · exact hold

theorem dispatchPayload (h : FailureInv F c s) (x : WorkItem κ π) (sent : SendOutcome) :
    FailureInv F c (s.dispatchPayload c x sent).2 := by
  rcases ProcessEngine.dispatchPayload_cases (c := c) s x sent with ⟨hsend, heq⟩ | ⟨-, heq⟩
  · rw [heq]
    simp only [ProcessEngine.canSend, Bool.and_eq_true] at hsend
    exact h.frame rfl rfl rfl rfl rfl (h.send hsend.1.1)
  · rw [heq]
    exact h.frame rfl rfl rfl rfl rfl h.workers

theorem emit (h : FailureInv F c s) (events : List CompletionEvent) (hevents : ∀ e ∈ events, F.Event e) :
    FailureInv F c (s.emit c events) := by
  refine ⟨h.returned, h.prefetched, fun m hm e he => ?_, h.registryQueue, h.registry, h.workers⟩
  rcases List.mem_append.mp hm with hm | hm
  · exact h.queue m hm e he
  · obtain ⟨e', he', rfl⟩ := List.mem_map.mp hm
    rw [List.mem_singleton.mp he]
    exact hevents e' (List.mem_filter.mp he').1

theorem drainRegistry (h : FailureInv F c s) : FailureInv F c (s.drainRegistry c) := by
  unfold ProcessEngine.drainRegistry
  split
  · exact h
  · rename_i event queue hqueue
    have hrest : ∀ event ∈ queue, F.RegistryEvent event := fun event hevent =>
      h.registryQueue event (hqueue ▸ List.mem_cons_of_mem _ hevent)
    have hreg := h.registry.apply (h.registryQueue event (hqueue ▸ List.mem_cons_self))
    cases event with
    | start => exact ⟨h.returned, h.prefetched, h.queue, hrest, hreg, h.workers⟩
    | timeout => exact ⟨h.returned, h.prefetched, h.queue, hrest, hreg, h.workers⟩
    | done => exact ⟨h.returned, h.prefetched, h.queue, hrest, hreg, h.workers⟩
    | notStarted batchId payloads =>
      simp only [ProcessEngine.applyRegistryEvent]
      split <;> exact ⟨h.returned, h.prefetched, h.queue, hrest, h.registry, h.workers⟩

theorem drainCompletion (h : FailureInv F c s) : FailureInv F c (s.drainCompletion c) := by
  unfold ProcessEngine.drainCompletion
  split
  · exact h
  · rename_i m queue hqueue
    have hrest : ∀ m' ∈ queue, ∀ e ∈ m'.events, F.Event e := fun m' hm' =>
      h.queue m' (hqueue ▸ List.mem_cons_of_mem _ hm')
    split
    · have htaken := Intake.taken_prefetchEvent (κ := κ) (π := π) c.maxSeenIdentities
      refine ⟨h.returned, fun e he => ?_, hrest, h.registryQueue, Intake.obeys_takeAll htaken m.events h.registry,
        h.workers⟩
      rcases Intake.mem_events_takeAll htaken m.events (List.mem_append_left _ he) with he | he
      · rw [List.append_nil] at he
        exact h.prefetched e he
      · exact h.queue m (hqueue ▸ List.mem_cons_self) e he
    · exact ⟨h.returned, h.prefetched, hrest, h.registryQueue, h.registry, h.workers⟩

theorem poll (h : FailureInv F c s) (limit : Nat) : FailureInv F c (s.poll c limit) := by
  let taken := s.buffer.prefetchedEvents.take limit
  let i : Intake κ π :=
    ⟨{ s.buffer with prefetchedEvents := s.buffer.prefetchedEvents.drop limit }, s.registry, []⟩
  obtain ⟨hshown, hleft, hobeys⟩ := Intake.pollAvailable_mem c.maxSeenIdentities c.decodes
    (limit - taken.length) s.completionQueue i h.registry
  have hwanted : ∀ x ∈ (Intake.pollAvailable c.maxSeenIdentities c.decodes (limit - taken.length)
      s.completionQueue i).2.2.buffer.prefetchedEvents ++ (Intake.pollAvailable c.maxSeenIdentities c.decodes
      (limit - taken.length) s.completionQueue i).2.2.completed, F.Event x := by
    intro x hx
    rcases hshown x hx with hx | ⟨m, hm, hx⟩
    · rw [List.append_nil] at hx
      exact h.prefetched x (List.mem_of_mem_drop hx)
    · exact h.queue m hm x hx
  refine ⟨fun e he => ?_, fun e he => hwanted e (List.mem_append_left _ he),
    fun m hm => h.queue m (hleft m hm), h.registryQueue, hobeys, h.workers⟩
  unfold ProcessEngine.poll at he
  dsimp only at he
  split at he
  · rcases List.mem_append.mp he with he | he
    · exact h.returned e he
    · rcases List.mem_append.mp he with he | he
      · exact h.prefetched e (List.mem_of_mem_take he)
      · exact hwanted e (List.mem_append_right _ he)
  · exact h.returned e he

/-- The failures of a recovery. -/
theorem event_recover (h : FailureInv F c s) (index : Nat)
    (hbudget : ∀ x ∈ s.recovered c index, c.maxRetries ≤ x.requeueAttempts →
      F.failure (x.recoveryFailure (.text "worker_died_max_retries") x.requeueAttempts)) :
    ∀ e ∈ (s.recover c index).failures, F.Event e := by
  have hpayload : ∀ x ∈ s.recovered c index, ∀ e ∈ (Recovery.ofPayload c.maxRetries x).failures,
      F.Event e := by
    intro x hx e he
    obtain ⟨hmax, rfl⟩ := Recovery.failures_ofPayload he
    exact fun _ => hbudget x hx hmax
  intro e he
  rcases List.mem_append.mp he with he | he
  · obtain ⟨entry, hentry, he⟩ := Recovery.mem_failures_collect he
    rcases Recovery.failures_ofEntry he with ⟨mark, hmark, rfl⟩ | he
    · obtain ⟨⟨key, entry'⟩, hmem, rfl⟩ := List.mem_map.mp hentry
      have hget := (Dict.mem_entries_iff _).mp (List.mem_filter.mp hmem).1
      exact fun _ => F.recovered _ _ _ (h.registry.marks key entry' mark hget hmark)
    · exact hpayload _ (List.mem_append_left _ (List.mem_map.mpr ⟨entry, hentry, rfl⟩)) e he
  · obtain ⟨x, hx, he⟩ := Recovery.mem_failures_collect he
    exact hpayload x (List.mem_append_right _ hx) e he

theorem modifyProcess (h : FailureInv F c s) (pid : Nat) (f : Worker κ π → Worker κ π)
    (hf : ∀ p, s.processes[pid]? = some p → p.Obeys F c → (f p).Obeys F c) :
    FailureInv F c (s.modifyProcess pid f) := by
  refine h.frame rfl rfl rfl rfl rfl fun p hp => ?_
  obtain ⟨i, hi⟩ := List.mem_iff_getElem?.mp hp
  unfold ProcessEngine.modifyProcess at hi
  rw [List.getElem?_modify] at hi
  obtain ⟨q, hq, rfl⟩ := Option.map_eq_some_iff.mp hi
  have hold := h.workers q (List.mem_of_getElem? hq)
  split
  · rename_i heq
    exact hf q (heq ▸ hq) hold
  · exact hold

theorem flushCompletion (h : FailureInv F c s) (pid : Nat) : FailureInv F c (s.flushCompletion pid) := by
  unfold ProcessEngine.flushCompletion
  split
  · rename_i p hp
    have hw := h.workers p (List.mem_of_getElem? hp)
    split
    · rename_i m rest hm
      have hs := h.modifyProcess pid (fun p => { p with completions := rest })
        fun q _ hq => ⟨hq.pipe, fun m' hm' => hw.completions m' (hm ▸ List.mem_cons_of_mem _ hm'),
          hq.registryEvents, hq.results⟩
      refine ⟨hs.returned, hs.prefetched, fun m' hm' => ?_, hs.registryQueue, hs.registry, hs.workers⟩
      rcases List.mem_append.mp hm' with hm' | hm'
      · exact h.queue m' hm'
      · rw [List.mem_singleton.mp hm']
        exact hw.completions m (hm ▸ List.mem_cons_self)
    · exact h
  · exact h

theorem flushRegistry (h : FailureInv F c s) (pid : Nat) : FailureInv F c (s.flushRegistry pid) := by
  unfold ProcessEngine.flushRegistry
  split
  · rename_i p hp
    have hw := h.workers p (List.mem_of_getElem? hp)
    split
    · rename_i event rest hevents
      have hs := h.modifyProcess pid (fun p => { p with registryEvents := rest })
        fun q _ hq => ⟨hq.pipe, hq.completions,
          fun e he => hw.registryEvents e (hevents ▸ List.mem_cons_of_mem _ he), hq.results⟩
      refine ⟨hs.returned, hs.prefetched, hs.queue, fun e he => ?_, hs.registry, hs.workers⟩
      rcases List.mem_append.mp he with he | he
      · exact h.registryQueue e he
      · rw [List.mem_singleton.mp he]
        exact hw.registryEvents event (hevents ▸ List.mem_cons_self)
    · exact h
  · exact h

theorem submit (h : FailureInv F c s) (x : WorkItem κ π) (sent : SendOutcome) :
    FailureInv F c (s.submit c x sent) := by
  have hd := h.dispatchPayload x sent
  unfold ProcessEngine.submit
  split
  · rename_i s' heq
    rw [heq] at hd
    exact hd.frame rfl rfl rfl rfl rfl hd.workers
  · rename_i s' heq
    rw [heq] at hd
    exact hd

theorem submitBatch (h : FailureInv F c s) (batchId : Nat) (items : List (WorkItem κ π)) (sent : SendOutcome) :
    FailureInv F c (s.submitBatch c batchId items sent) := by
  unfold ProcessEngine.submitBatch
  split
  · exact h
  · unfold ProcessEngine.dispatchRouteBatch
    dsimp only
    split
    · rename_i s' heq
      split at heq
      · rename_i hsend
        cases heq
        simp only [ProcessEngine.canSend, Bool.and_eq_true] at hsend
        exact h.frame rfl rfl rfl rfl rfl (h.send hsend.1.1)
      · cases heq
    · rename_i s' heq
      split at heq
      · cases heq
      · cases heq
        exact h.frame rfl rfl rfl rfl rfl h.workers

theorem requeueTail (h : FailureInv F c s) {j : Nat} {sent : SendOutcome}
    (hfail : s.Licensed F c (.requeueTail j sent)) : FailureInv F c (s.requeueTail c j sent) := by
  unfold ProcessEngine.requeueTail
  split
  · rename_i x rest hj
    have hd := h.dispatchPayload x sent
    rcases ProcessEngine.dispatchPayload_cases (c := c) s x sent with ⟨-, heq⟩ | ⟨hsend, heq⟩
    · rw [heq] at hd ⊢
      exact hd.frame rfl rfl rfl rfl rfl hd.workers
    · rw [heq] at hd ⊢
      have he := hd.emit ((x :: rest).map
        (·.recoveryFailure (.text "not_started_requeue_failed: " ++ sent.errorText) c.maxRetries)) (by
          intro e he _
          obtain ⟨y, hy, rfl⟩ := List.mem_map.mp he
          exact hfail x rest hj hsend y hy)
      exact he.frame rfl rfl rfl rfl rfl he.workers
  · exact h

theorem collect (h : FailureInv F c s) {j : Nat} (hfail : s.Licensed F c (.collect j)) :
    FailureInv F c (s.collect c j) := by
  unfold ProcessEngine.collect
  split
  · rename_i index rest pc hj
    have he := h.emit _ (h.event_recover index (hfail index rest pc hj))
    have hregistry : (s.registry.recoverDeadWorkerItems c.maxRetries index).2.Obeys F :=
      h.registry.filter fun key _ => key.workerIndex ≠ index
    exact ⟨he.returned, he.prefetched, he.queue, he.registryQueue, hregistry, he.workers⟩
  · exact h

theorem restartFailed (h : FailureInv F c s) {payloads : List (WorkItem κ π)} {error : PyStr}
    (hfail : ∀ x ∈ payloads, F.failure (x.recoveryFailure (.text "worker_restart_failed: " ++ error) c.maxRetries)) :
    FailureInv F c (s.restartFailed c payloads error) := by
  refine h.emit _ fun e he _ => ?_
  obtain ⟨x, hx, rfl⟩ := List.mem_map.mp he
  exact hfail x hx

theorem restart (h : FailureInv F c s) {j : Nat} {outcome : RestartOutcome}
    (hfail : s.Licensed F c (.restart j outcome)) : FailureInv F c (s.restart c j outcome) := by
  have happend : ∀ {l : List (Worker κ π)} {w : Worker κ π}, (∀ p ∈ l, p.Obeys F c) → w.Obeys F c →
      ∀ p ∈ l ++ [w], p.Obeys F c := by
    intro l w hl hw p hp
    rcases List.mem_append.mp hp with hp | hp
    · exact hl p hp
    · rw [List.mem_singleton.mp hp]
      exact hw
  unfold ProcessEngine.restart
  split
  · rename_i rest index payloads hj
    cases outcome with
    | started => exact h.frame rfl rfl rfl rfl rfl (happend h.workers (.empty rfl rfl rfl rfl))
    | pipeFailed error =>
      have he := h.restartFailed (hfail rest index payloads error hj (.inl rfl))
      exact he.frame rfl rfl rfl rfl rfl he.workers
    | processFailed error =>
      have he := h.restartFailed (hfail rest index payloads error hj (.inr rfl))
      exact he.frame rfl rfl rfl rfl rfl (happend h.workers (.empty rfl rfl rfl rfl))
  · exact h

theorem publish (h : FailureInv F c s) {j : Nat} {sent : SendOutcome}
    (hfail : s.Licensed F c (.publish j sent)) : FailureInv F c (s.publish c j sent) := by
  unfold ProcessEngine.publish
  split
  · rename_i rest index x payloads hj
    have hd := h.dispatchPayload x sent
    rcases ProcessEngine.dispatchPayload_cases (c := c) s x sent with ⟨-, heq⟩ | ⟨hsend, heq⟩
    · rw [heq] at hd ⊢
      exact hd.frame rfl rfl rfl rfl rfl hd.workers
    · rw [heq] at hd ⊢
      have he := hd.emit
        [x.recoveryFailure (.text "worker_requeue_failed: " ++ sent.errorText) c.maxRetries] (by
          intro e he _
          rw [List.mem_singleton.mp he]
          exact hfail rest index x payloads hj hsend)
      exact he.frame rfl rfl rfl rfl rfl he.workers
  · exact h

/-- **One step** of the engine. -/
theorem next [DecidableEq κ] (h : FailureInv F c s) {a : EngineAction κ π} (ha : s.Licensed F c a) :
    FailureInv F c ((engineMachine κ π c).next s a) := by
  cases a with
  | submit x sent => exact h.submit x sent
  | submitBatch batchId items sent => exact h.submitBatch batchId items sent
  | receive pid => exact h.modifyProcess pid _ fun p _ hw => hw.receive
  | beginItem pid => exact h.modifyProcess pid _ fun p _ hw => hw.beginItem
  | finishItem pid outcome => exact h.modifyProcess pid _ fun p hp hw => hw.finishItem (ha p hp)
  | endTask pid => exact h.modifyProcess pid _ fun p _ hw => hw.endTask
  | flushCompletion pid => exact h.flushCompletion pid
  | flushRegistry pid => exact h.flushRegistry pid
  | die pid => exact h.modifyProcess pid _ fun p _ _ => .empty rfl rfl rfl rfl
  | drainRegistry => exact h.drainRegistry
  | drainCompletion => exact h.drainCompletion
  | poll limit => exact h.poll limit
  | beginScan => exact h.frame rfl rfl rfl rfl rfl h.workers
  | collect j => exact h.collect ha
  | restart j outcome => exact h.restart ha
  | publish j sent => exact h.publish ha
  | requeueTail j sent => exact h.requeueTail ha

end FailureInv

end PyrallelConsumer
