import PyrallelConsumer.EngineFailures
import PyrallelConsumer.LossInvariant

/-!
# PyrallelConsumer.EngineOrigins

Where everything in the process engine comes from: items come from submissions, and completions from the retry
loop of a worker or from a failure of the parent. Crashes, recoveries, requeues and repeated deliveries only
move what is there.

* `OriginSpec` — what is wanted of items and of completions.
* `OriginInv` — everything in circulation is as wanted. `OriginInv.next` — one step.
-/

set_option linter.unusedSectionVars false

namespace PyrallelConsumer

/-- What is wanted of the items in circulation and of completions. -/
structure OriginSpec (κ π : Type) where
  item : LogicalWorkIdentity → Prop
  event : CompletionEvent → Prop
  recovered : ∀ (x : WorkItem κ π) error attempt, item x.identity → event (x.recoveryFailure error attempt)

namespace OriginSpec

variable {κ π : Type} (F : OriginSpec κ π)

def Items (l : List (WorkItem κ π)) : Prop := ∀ x ∈ l, F.item x.identity

def Messages (l : List (CompletionMessage κ)) : Prop := ∀ m ∈ l, ∀ e ∈ m.events, F.event e

def RegistryEvent : RegistryEvent κ π → Prop
  | .start _ payload => F.item payload.identity
  | .timeout _ payload _ _ => F.item payload.identity
  | .notStarted _ payloads => F.Items payloads
  | .done _ _ => True

def Registry (reg : InFlightRegistry κ π) : Prop := ∀ key e, reg.get? key = some e → F.item e.payload.identity

variable {F : OriginSpec κ π}

theorem Messages.append {l l' : List (CompletionMessage κ)} (h : F.Messages l) (h' : F.Messages l') :
    F.Messages (l ++ l') := by
  intro m hm
  rcases List.mem_append.mp hm with hm | hm
  · exact h m hm
  · exact h' m hm

end OriginSpec

variable {κ π : Type} {F : OriginSpec κ π}

/-! ## Workers -/

structure Task.Originates (F : OriginSpec κ π) (task : Task κ π) : Prop where
  current : ∀ x, task.current = some x → F.item x.identity
  rest : F.Items task.rest
  results : ∀ e ∈ task.results, F.event e

structure Worker.Originates (F : OriginSpec κ π) (c : ProcessConfig κ π) (p : Worker κ π) : Prop where
  pipe : ∀ m ∈ p.pipe, c.packs m = true ∧ F.Items m.items
  completions : F.Messages p.completions
  registryEvents : ∀ event ∈ p.registryEvents, F.RegistryEvent event
  task : ∀ task, p.task = some task → task.Originates F

namespace Worker

variable {c : ProcessConfig κ π} {p p' : Worker κ π}

/-- What a step of a worker puts on its queues. -/
theorem Originates.puts (h : p.Originates F c) (hpipe : p'.pipe = p.pipe) {messages : List (CompletionMessage κ)}
    (hc : p'.completions = p.completions ++ messages) (hmessages : F.Messages messages)
    {events : List (RegistryEvent κ π)} (hr : p'.registryEvents = p.registryEvents ++ events)
    (hevents : ∀ event ∈ events, F.RegistryEvent event) (htask : ∀ task, p'.task = some task → task.Originates F) :
    p'.Originates F c := by
  refine ⟨hpipe ▸ h.pipe, hc ▸ h.completions.append hmessages, fun event hevent => ?_, htask⟩
  rw [hr] at hevent
  rcases List.mem_append.mp hevent with hevent | hevent
  · exact h.registryEvents event hevent
  · exact hevents event hevent

theorem Originates.receive (h : p.Originates F c) : (p.receive c).Originates F c := by
  unfold Worker.receive
  split
  · exact h
  · rename_i m pipe hpipe
    obtain ⟨hpacks, hitems⟩ := h.pipe m (hpipe ▸ List.mem_cons_self)
    -- what was sent was packed, so the worker decodes it
    rw [if_pos hpacks]
    refine ⟨fun m' hm' => h.pipe m' (hpipe ▸ List.mem_cons_of_mem _ hm'), h.completions, h.registryEvents,
      fun task ht => ?_⟩
    cases ht
    exact ⟨(fun x hx => by cases hx), hitems, (fun e he => by cases he)⟩

theorem Originates.beginItem (h : p.Originates F c) : p.beginItem.Originates F c := by
  unfold Worker.beginItem
  split
  · rename_i task ht
    split
    · rename_i x rest _ hrest
      have htask := h.task task ht
      have hx : F.item x.identity := htask.rest x (hrest ▸ List.mem_cons_self)
      refine h.puts rfl (List.append_nil _).symm (fun m hm => by cases hm) rfl (fun event hevent => ?_)
        fun task' ht' => ?_
      · rw [List.mem_singleton.mp hevent]
        exact hx
      · cases ht'
        refine ⟨fun y hy => ?_, fun y hy => htask.rest y (hrest ▸ List.mem_cons_of_mem _ hy), htask.results⟩
        cases hy
        exact hx
    · exact h
  · exact h

theorem Originates.settleBatch {task : Task κ π} (h : p.Originates F c) (htask : task.Originates F) :
    (settleBatch c p task).Originates F c := by
  unfold Worker.settleBatch
  split
  · exact h
  · refine h.puts rfl rfl (fun m hm e he => htask.results e (mem_flushRouteBatch hm he)) rfl (fun event hevent => ?_) h.task
    obtain ⟨d, -, rfl⟩ := List.mem_map.mp hevent
    trivial

theorem Originates.endTask (h : p.Originates F c) : (p.endTask c).Originates F c := by
  unfold Worker.endTask
  split
  · rename_i task ht
    have hs := h.settleBatch (h.task task ht)
    exact ⟨hs.pipe, hs.completions, hs.registryEvents, fun _ h => by cases h⟩
  · exact h

theorem Originates.finishAlone {task : Task κ π} (h : p.Originates F c) (htask : task.Originates F) {x : WorkItem κ π}
    {s : RetryState} (hs : F.event (x.completion s)) : (finishAlone c p task x s).Originates F c := by
  unfold Worker.finishAlone
  split
  · refine h.puts rfl rfl (fun m hm e he => ?_) rfl (fun event hevent => ?_) fun task' ht' => ?_
    · rw [List.mem_singleton.mp hm] at he
      rw [List.mem_singleton.mp he]
      exact hs
    · rw [List.mem_singleton.mp hevent]
      trivial
    · cases ht'
      exact ⟨(fun x hx => by cases hx), htask.rest, htask.results⟩
  · exact ⟨h.pipe, h.completions, h.registryEvents, h.task⟩

theorem Originates.finishInBatch {task : Task κ π} (h : p.Originates F c) (htask : task.Originates F) {batchId : Nat}
    {x : WorkItem κ π} {s : RetryState} (hs : F.event (x.completion s)) :
    (finishInBatch p task batchId x s).Originates F c := by
  have hresults : ∀ e ∈ task.results ++ [x.completion s], F.event e := by
    intro e he
    rcases List.mem_append.mp he with he | he
    · exact htask.results e he
    · rw [List.mem_singleton.mp he]
      exact hs
  unfold Worker.finishInBatch
  dsimp only
  split
  · refine h.puts rfl (List.append_nil _).symm (fun m hm => by cases hm) rfl (fun event hevent => ?_) fun task' ht' => ?_
    · unfold notStarted at hevent
      split at hevent
      · cases hevent
      · rw [List.mem_singleton.mp hevent]
        exact htask.rest
    · cases ht'
      exact ⟨(fun x hx => by cases hx), (fun x hx => by cases hx), hresults⟩
  · refine ⟨h.pipe, h.completions, h.registryEvents, fun task' ht' => ?_⟩
    cases ht'
    exact ⟨(fun x hx => by cases hx), htask.rest, hresults⟩

/-- The completion of a finished retry loop is as wanted. -/
def OriginatesFinish (F : OriginSpec κ π) (c : ProcessConfig κ π) (p : Worker κ π) (outcome : Nat → AttemptOutcome) : Prop :=
  ∀ task x, p.task = some task → task.current = some x →
    (runAttempts c.maxRetries outcome).1 = .finished → F.event (x.completion (runAttempts c.maxRetries outcome).2)

theorem Originates.finishItem (h : p.Originates F c) {outcome : Nat → AttemptOutcome}
    (hp : p.OriginatesFinish F c outcome) : (p.finishItem c outcome).Originates F c := by
  unfold Worker.finishItem
  split
  · rename_i task ht
    have htask := h.task task ht
    split
    · rename_i x hx
      have hfinished := hp task x ht hx
      split
      · rename_i s hrun
        rw [hrun] at hfinished
        split
        · exact h.finishAlone htask (hfinished rfl)
        · exact h.finishInBatch htask (hfinished rfl)
      · rename_i s hrun
        have htimeout : Worker.Originates F c { p with registryEvents := p.registryEvents ++
            [.timeout (x.registryKey p.index) x s.attempt (s.error.getD (.text ""))] } := by
          refine h.puts rfl (List.append_nil _).symm (fun m hm => by cases hm) rfl (fun event hevent => ?_) h.task
          rw [List.mem_singleton.mp hevent]
          exact htask.current x hx
        have hs := htimeout.settleBatch htask
        exact ⟨hs.pipe, hs.completions, hs.registryEvents, hs.task⟩
      · exact ⟨h.pipe, h.completions, h.registryEvents, h.task⟩
    · exact h
  · exact h

/-- A process with nothing in it. -/
theorem Originates.empty (hpipe : p.pipe = []) (hcomp : p.completions = []) (hreg : p.registryEvents = [])
    (htask : p.task = none) : p.Originates F c := by
  refine ⟨fun m hm => ?_, fun m hm => ?_, fun e he => ?_, fun task ht => ?_⟩
  · rw [hpipe] at hm; cases hm
  · rw [hcomp] at hm; cases hm
  · rw [hreg] at he; cases he
  · rw [htask] at ht; cases ht

end Worker

/-! ## The registry and the pending dispatches -/

namespace OriginSpec

variable {reg : InFlightRegistry κ π}

theorem Registry.filter (h : F.Registry reg) (p : InFlightRegistryKey → RegistryEntry κ π → Bool) :
    F.Registry (reg.filter p) := by
  intro key e hget
  rw [Dict.get?_filter] at hget
  exact h key e (Option.filter_eq_some_iff.mp hget).1

theorem Registry.set (h : F.Registry reg) {key : InFlightRegistryKey} {e : RegistryEntry κ π}
    (he : F.item e.payload.identity) : F.Registry (reg.set key e) := by
  intro key' e' hget
  rw [Dict.get?_set] at hget
  split at hget
  · cases hget
    exact he
  · exact h key' e' hget

theorem Registry.apply (h : F.Registry reg) {event : PyrallelConsumer.RegistryEvent κ π} (hevent : F.RegistryEvent event) :
    F.Registry (reg.apply event) := by
  cases event with
  | start key payload =>
    simp only [InFlightRegistry.apply]
    split
    · exact h
    · exact h.set hevent
  | timeout key payload attempt error =>
    simp only [InFlightRegistry.apply]
    split
    · exact h
    · rename_i e he
      split
      · exact h.set (h key e he)
      · exact h
  | done key work =>
    simp only [InFlightRegistry.apply]
    split
    · exact h
    · split
      · intro key' e hget
        rw [Dict.get?_erase] at hget
        split at hget
        · cases hget
        · exact h key' e hget
      · exact h
  | notStarted => exact h

theorem Registry.taken {i i' : Intake κ π} {e : CompletionEvent} (hi : Intake.Taken i e i') (h : F.Registry i.registry) :
    F.Registry i'.registry := by
  cases hi with
  | duplicate => exact h
  | kept _ hregistry =>
    rw [hregistry]
    exact h.filter _

theorem Registry.takeAll {f : Intake κ π → CompletionEvent → Intake κ π} (hf : ∀ i e, Intake.Taken i e (f i e))
    (l : List CompletionEvent) : ∀ {i : Intake κ π}, F.Registry i.registry → F.Registry (l.foldl f i).registry := by
  induction l with
  | nil => intro i h; exact h
  | cons e l ih => intro i h; exact ih (h.taken (hf i e))

end OriginSpec

namespace WorkerPipesTransport

variable {t : WorkerPipesTransport κ π} {work : LogicalWorkIdentity} {queueSize : Nat}

theorem pends_of_store {k : PendingDispatchKey} {d : PendingDispatch κ π} {hd : d.Keyed k}
    (h : (t.store k d hd).Pends work) : t.Pends work ∨ ∃ x ∈ d.payloads, x.identity = work := by
  obtain ⟨k', d', hget, hx⟩ := h
  rw [show (t.store k d hd).pendingDispatch = t.pendingDispatch.set k d from rfl, Dict.get?_set] at hget
  split at hget
  · cases hget
    exact .inr hx
  · exact .inl ⟨k', d', hget, hx⟩

theorem pends_of_forget {k : PendingDispatchKey} (h : (t.forget k).Pends work) : t.Pends work := by
  obtain ⟨k', d', hget, hx⟩ := h
  rw [show (t.forget k).pendingDispatch = t.pendingDispatch.erase k from rfl, Dict.get?_erase] at hget
  split at hget
  · cases hget
  · exact ⟨k', d', hget, hx⟩

/-- A dispatch that is rolled back leaves nothing behind. -/
theorem pends_of_rollback {k : PendingDispatchKey} {d : PendingDispatch κ π} {hd : d.Keyed k}
    (h : ((t.store k d hd).forget k).Pends work) : t.Pends work := by
  obtain ⟨k', d', hget, hx⟩ := h
  rw [show ((t.store k d hd).forget k).pendingDispatch = (t.pendingDispatch.set k d).erase k from rfl, Dict.get?_erase] at hget
  split at hget
  · cases hget
  · rename_i hne
    rw [Dict.get?_set, if_neg hne] at hget
    exact ⟨k', d', hget, hx⟩

theorem pends_of_storeItem {w : Nat} {x : WorkItem κ π} (h : (t.storeItem w x).Pends work) :
    t.Pends work ∨ x.identity = work := by
  refine (pends_of_store h).imp pends_acquireSlot.mp ?_
  rintro ⟨y, hy, rfl⟩
  rw [List.mem_singleton.mp hy]

theorem pends_of_forgetItem {w : Nat} {x : WorkItem κ π} (h : (t.forgetItem queueSize w x).Pends work) : t.Pends work :=
  pends_acquireSlot.mp (pends_of_rollback (pends_releaseSlot.mp h))

theorem pends_of_storeBatch {w batchId : Nat} {items : List (WorkItem κ π)} (h : (t.storeBatch w batchId items).Pends work) :
    t.Pends work ∨ ∃ x ∈ items, x.identity = work :=
  (pends_of_store h).imp_left pends_acquireSlot.mp

theorem pends_of_forgetBatch {w batchId : Nat} {items : List (WorkItem κ π)}
    (h : (t.forgetBatch queueSize w batchId items).Pends work) : t.Pends work :=
  pends_acquireSlot.mp (pends_of_rollback (pends_releaseSlot.mp h))

theorem pends_of_keepRest {k : PendingDispatchKey} {batchId : Nat} {items rest : List (WorkItem κ π)}
    {slotReleased slotReleased' : Bool} {hk : (PendingDispatch.routeBatch batchId rest slotReleased').Keyed k}
    (hget : t.pendingDispatch.get? k = some (.routeBatch batchId items slotReleased)) (hrest : ∀ x ∈ rest, x ∈ items)
    (h : (t.keepRest k batchId rest slotReleased' hk).Pends work) : t.Pends work := by
  unfold keepRest at h
  split at h
  · exact pends_of_forget h
  · rcases pends_of_store h with h | ⟨x, hx, hwork⟩
    · exact h
    · exact ⟨k, _, hget, x, hrest x hx, hwork⟩

theorem pends_of_startInBatch {key : InFlightRegistryKey} {payload : WorkItem κ π}
    (h : (t.startInBatch queueSize key payload).Pends work) : t.Pends work := by
  unfold startInBatch at h
  split at h
  · rename_i k batchId items slotReleased hfind
    have hget := (Dict.mem_entries_iff _).mp (List.mem_of_find?_eq_some hfind)
    dsimp only at h
    split at h
    · exact pends_of_keepRest hget (fun x hx => (List.mem_filter.mp hx).1) h
    · exact pends_of_keepRest hget (fun x hx => (List.mem_filter.mp hx).1) (pends_releaseSlot.mp h)
  · exact h

theorem pends_of_handleStart {key : InFlightRegistryKey} {payload : WorkItem κ π}
    (h : (t.handleStart queueSize key payload).Pends work) : t.Pends work := by
  unfold handleStart at h
  split at h
  · split at h
    · exact pends_of_forget (pends_releaseSlot.mp h)
    · exact pends_of_startInBatch h
  · exact pends_of_startInBatch h

theorem pends_of_handleNotStarted {batchId : Nat} {payloads : List (WorkItem κ π)}
    (h : (t.handleNotStarted batchId payloads).2.Pends work) : t.Pends work := by
  unfold handleNotStarted at h
  split at h
  · rename_i k batchId' items slotReleased hfind
    have hget := (Dict.mem_entries_iff _).mp (List.mem_of_find?_eq_some hfind)
    exact pends_of_keepRest hget (fun x hx => (List.mem_filter.mp hx).1) h
  · exact h

theorem pends_of_recover {w : Nat} (h : (t.recoverPendingDispatches queueSize w).2.Pends work) : t.Pends work := by
  obtain ⟨k, d, hget, hx⟩ := h
  unfold recoverPendingDispatches at hget
  rw [pendingDispatch_releaseAll, Dict.get?_filter] at hget
  exact ⟨k, d, (Option.filter_eq_some_iff.mp hget).1, hx⟩

theorem pends_recovered {w : Nat} {x : WorkItem κ π} (hx : x ∈ (t.recoverPendingDispatches queueSize w).1) :
    t.Pends x.identity := by
  obtain ⟨⟨k, d⟩, hmem, hx⟩ := List.mem_flatMap.mp hx
  exact ⟨k, d, (Dict.mem_entries_iff _).mp (List.mem_filter.mp hmem).1, x, hx, rfl⟩

end WorkerPipesTransport

/-! ## Recovery and polls -/

namespace Recovery

variable {maxRetries : Int}

theorem mem_payloads_collect {α : Type} {f : α → Recovery κ π} {l : List α} {x : WorkItem κ π}
    (hx : x ∈ (collect f l).payloads) : ∃ a ∈ l, x ∈ (f a).payloads := by
  induction l with
  | nil => cases hx
  | cons b l ih =>
    rcases List.mem_append.mp hx with hx | hx
    · exact ⟨b, List.mem_cons_self, hx⟩
    · obtain ⟨a, ha, hx⟩ := ih hx
      exact ⟨a, List.mem_cons_of_mem _ ha, hx⟩

/-- What a recovery hands on comes from what it takes up. -/
structure Originates (F : OriginSpec κ π) (r : Recovery κ π) : Prop where
  failures : ∀ e ∈ r.failures, F.event e
  payloads : F.Items r.payloads

theorem originates_ofPayload {x : WorkItem κ π} (hx : F.item x.identity) : (ofPayload maxRetries x).Originates F := by
  unfold ofPayload
  split
  · refine ⟨fun e he => ?_, fun y hy => by cases hy⟩
    rw [List.mem_singleton.mp he]
    exact F.recovered x _ _ hx
  · refine ⟨fun e he => (by cases he), fun y hy => ?_⟩
    rw [List.mem_singleton.mp hy]
    exact hx

theorem originates_ofEntry {entry : RegistryEntry κ π} (hx : F.item entry.payload.identity) :
    (ofEntry maxRetries entry).Originates F := by
  unfold ofEntry
  split
  · refine ⟨fun e he => ?_, fun y hy => by cases hy⟩
    rw [List.mem_singleton.mp he]
    exact F.recovered entry.payload _ _ hx
  · exact originates_ofPayload hx

theorem originates_collect {α : Type} {f : α → Recovery κ π} {l : List α} (h : ∀ a ∈ l, (f a).Originates F) :
    (collect f l).Originates F := by
  refine ⟨fun e he => ?_, fun x hx => ?_⟩
  · obtain ⟨a, ha, he⟩ := mem_failures_collect he
    exact (h a ha).failures e he
  · obtain ⟨a, ha, hx⟩ := mem_payloads_collect hx
    exact (h a ha).payloads x hx

end Recovery

namespace Intake

/-- What a poll shows was shown before or is in the queue; what it leaves was there. -/
theorem pollAvailable_origins (maxSeen : Nat) (fits : CompletionMessage κ → Bool) (limit : Nat)
    (q : List (CompletionMessage κ)) : ∀ i : Intake κ π, F.Registry i.registry → F.Messages q →
      (∀ e ∈ i.buffer.prefetchedEvents ++ i.completed, F.event e) →
      (∀ e ∈ (pollAvailable maxSeen fits limit q i).2.2.buffer.prefetchedEvents ++
        (pollAvailable maxSeen fits limit q i).2.2.completed, F.event e) ∧
      F.Messages (pollAvailable maxSeen fits limit q i).2.1 ∧
      F.Registry (pollAvailable maxSeen fits limit q i).2.2.registry := by
  induction q with
  | nil => exact fun i hreg hq hshown => ⟨hshown, hq, hreg⟩
  | cons m q ih =>
    intro i hreg hq hshown
    have hrest : F.Messages q := fun m' hm' => hq m' (List.mem_cons_of_mem _ hm')
    simp only [pollAvailable]
    split
    · exact ⟨hshown, hq, hreg⟩
    · split
      · have htaken := taken_pollEvent (κ := κ) (π := π) maxSeen limit
        refine ih _ (hreg.takeAll htaken m.events) hrest fun e he => ?_
        rcases mem_events_takeAll htaken m.events he with he | he
        · exact hshown e he
        · exact hq m List.mem_cons_self e he
      · exact ⟨hshown, hrest, hreg⟩

end Intake

/-! ## The engine -/

/-- Everything in circulation is as wanted. -/
structure OriginInv (F : OriginSpec κ π) (c : ProcessConfig κ π) (s : ProcessEngine κ π) : Prop where
  returned : ∀ e ∈ s.returned, F.event e
  prefetched : ∀ e ∈ s.buffer.prefetchedEvents, F.event e
  queue : F.Messages s.completionQueue
  registryQueue : ∀ event ∈ s.registryQueue, F.RegistryEvent event
  registry : F.Registry s.registry
  pending : ∀ work, s.transport.Pends work → F.item work
  scans : ∀ scan ∈ s.scans, F.Items scan.pc.payloads
  tails : ∀ tail ∈ s.tails, F.Items tail
  workers : ∀ p ∈ s.processes, p.Originates F c

namespace ProcessEngine

/-- The items that a step accepts and the completions that it makes are as wanted. -/
def OriginatesStep (F : OriginSpec κ π) (c : ProcessConfig κ π) (s : ProcessEngine κ π) : EngineAction κ π → Prop
  | .submit x sent => s.canSend c (c.workerIndex x.routeIdentity) (.workItems [x]) sent = true → F.item x.identity
  | .submitBatch batchId items sent => ∀ x rest, items = x :: rest →
      s.canSend c (c.workerIndex x.routeIdentity) (.routeBatch batchId x.routeIdentity items) sent = true → F.Items items
  | .finishItem pid outcome => ∀ p, s.processes[pid]? = some p → p.OriginatesFinish F c outcome
  | _ => True

end ProcessEngine

namespace OriginInv

variable {c : ProcessConfig κ π} {s : ProcessEngine κ π}

theorem new : OriginInv F c (.new c) := by
  refine ⟨fun _ h => (by cases h), fun _ h => (by cases h), fun _ h => (by cases h), fun _ h => (by cases h),
    fun _ _ h => (by cases h), fun work h => ?_, fun _ h => (by cases h), fun _ h => (by cases h), fun p hp => ?_⟩
  · obtain ⟨k, d, hget, -⟩ := h
    cases hget
  · obtain ⟨i, -, rfl⟩ := List.mem_map.mp hp
    exact .empty rfl rfl rfl rfl

theorem mono {F' : OriginSpec κ π} (h : OriginInv F c s) (hitem : ∀ work, F.item work → F'.item work)
    (hevent : ∀ e, F.event e → F'.event e) : OriginInv F' c s := by
  have hregistry : ∀ event : RegistryEvent κ π, F.RegistryEvent event → F'.RegistryEvent event := by
    intro event he
    cases event with
    | start => exact hitem _ he
    | timeout => exact hitem _ he
    | notStarted batchId payloads => exact fun x hx => hitem _ (he x hx)
    | done => trivial
  refine ⟨fun e he => hevent e (h.returned e he), fun e he => hevent e (h.prefetched e he),
    fun m hm e he => hevent e (h.queue m hm e he), fun event he => hregistry event (h.registryQueue event he),
    fun key e hget => hitem _ (h.registry key e hget), fun work hp => hitem _ (h.pending work hp),
    fun scan hs x hx => hitem _ (h.scans scan hs x hx), fun tail ht x hx => hitem _ (h.tails tail ht x hx), fun p hp => ?_⟩
  have hw := h.workers p hp
  refine ⟨fun m hm => ⟨(hw.pipe m hm).1, fun x hx => hitem _ ((hw.pipe m hm).2 x hx)⟩,
    fun m hm e he => hevent e (hw.completions m hm e he), fun event he => hregistry event (hw.registryEvents event he),
    fun task ht => ?_⟩
  have htask := hw.task task ht
  exact ⟨fun x hx => hitem _ (htask.current x hx), fun x hx => hitem _ (htask.rest x hx),
    fun e he => hevent e (htask.results e he)⟩

theorem send (h : OriginInv F c s) {w : Nat} {m : PipeMessage κ π} (hpacks : c.packs m = true) (hitems : F.Items m.items) :
    ∀ p ∈ s.send w m, p.Originates F c := by
  intro p hp
  unfold ProcessEngine.send at hp
  split at hp
  · exact h.workers p hp
  · rename_i pid _
    obtain ⟨i, hi⟩ := List.mem_iff_getElem?.mp hp
    rw [List.getElem?_modify] at hi
    obtain ⟨q, hq, rfl⟩ := Option.map_eq_some_iff.mp hi
    have hold := h.workers q (List.mem_of_getElem? hq)
    split
    · refine ⟨fun m' hm' => ?_, hold.completions, hold.registryEvents, hold.task⟩
      rcases List.mem_append.mp hm' with hm' | hm'
      · exact hold.pipe m' hm'
      · rw [List.mem_singleton.mp hm']
        exact ⟨hpacks, hitems⟩
    · exact hold

theorem canSend_packs {w : Nat} {m : PipeMessage κ π} {sent : SendOutcome} (h : s.canSend c w m sent = true) :
    c.packs m = true := by
  simp only [ProcessEngine.canSend, Bool.and_eq_true] at h
  exact h.1.1

theorem dispatchPayload (h : OriginInv F c s) {x : WorkItem κ π} {sent : SendOutcome}
    (hx : s.canSend c (c.workerIndex x.routeIdentity) (.workItems [x]) sent = true → F.item x.identity) :
    OriginInv F c (s.dispatchPayload c x sent).2 := by
  rcases ProcessEngine.dispatchPayload_cases (c := c) s x sent with ⟨hsend, heq⟩ | ⟨-, heq⟩
  · rw [heq]
    have hitems : F.Items [x] := fun y hy => List.mem_singleton.mp hy ▸ hx hsend
    refine ⟨h.returned, h.prefetched, h.queue, h.registryQueue, h.registry, fun work hp => ?_, h.scans, h.tails,
      h.send (canSend_packs hsend) hitems⟩
    rcases WorkerPipesTransport.pends_of_storeItem hp with hp | rfl
    · exact h.pending work hp
    · exact hx hsend
  · rw [heq]
    exact ⟨h.returned, h.prefetched, h.queue, h.registryQueue, h.registry,
      fun work hp => h.pending work (WorkerPipesTransport.pends_of_forgetItem hp), h.scans, h.tails, h.workers⟩

theorem submit (h : OriginInv F c s) {x : WorkItem κ π} {sent : SendOutcome} (hx : s.OriginatesStep F c (.submit x sent)) :
    OriginInv F c (s.submit c x sent) := by
  have hd := h.dispatchPayload hx
  unfold ProcessEngine.submit
  split
  · rename_i s' heq
    rw [heq] at hd
    exact ⟨hd.returned, hd.prefetched, hd.queue, hd.registryQueue, hd.registry, hd.pending, hd.scans, hd.tails, hd.workers⟩
  · rename_i s' heq
    rw [heq] at hd
    exact hd

theorem submitBatch (h : OriginInv F c s) {batchId : Nat} {items : List (WorkItem κ π)} {sent : SendOutcome}
    (hitems : s.OriginatesStep F c (.submitBatch batchId items sent)) : OriginInv F c (s.submitBatch c batchId items sent) := by
  unfold ProcessEngine.submitBatch
  split
  · exact h
  · rename_i x rest
    unfold ProcessEngine.dispatchRouteBatch
    dsimp only
    cases hsend : s.canSend c (c.workerIndex x.routeIdentity) (.routeBatch batchId x.routeIdentity (x :: rest)) sent with
    | true =>
      have hall := hitems x rest rfl hsend
      simp only [if_true]
      refine ⟨h.returned, h.prefetched, h.queue, h.registryQueue, h.registry, fun work hp => ?_, h.scans, h.tails,
        h.send (canSend_packs hsend) hall⟩
      rcases WorkerPipesTransport.pends_of_storeBatch hp with hp | ⟨y, hy, rfl⟩
      · exact h.pending work hp
      · exact hall y hy
    | false =>
      exact ⟨h.returned, h.prefetched, h.queue, h.registryQueue, h.registry,
        fun work hp => h.pending work (WorkerPipesTransport.pends_of_forgetBatch hp), h.scans, h.tails, h.workers⟩

theorem emit (h : OriginInv F c s) {events : List CompletionEvent} (hevents : ∀ e ∈ events, F.event e) :
    OriginInv F c (s.emit c events) := by
  refine ⟨h.returned, h.prefetched, h.queue.append fun m hm e he => ?_, h.registryQueue, h.registry, h.pending, h.scans,
    h.tails, h.workers⟩
  obtain ⟨e', he', rfl⟩ := List.mem_map.mp hm
  rw [List.mem_singleton.mp he]
  exact hevents e' (List.mem_filter.mp he').1

/-- Failures of items in circulation. -/
theorem emitFailures (h : OriginInv F c s) {payloads : List (WorkItem κ π)} (hpayloads : F.Items payloads) (error : PyStr)
    (attempt : Int) : OriginInv F c (s.emit c (payloads.map (·.recoveryFailure error attempt))) := by
  refine h.emit fun e he => ?_
  obtain ⟨x, hx, rfl⟩ := List.mem_map.mp he
  exact F.recovered x error attempt (hpayloads x hx)

theorem setScan (h : OriginInv F c s) (j : Nat) (scan : Scan κ π) (hscan : F.Items scan.pc.payloads) :
    OriginInv F c { s with scans := s.scans.set j scan } := by
  refine ⟨h.returned, h.prefetched, h.queue, h.registryQueue, h.registry, h.pending, fun scan' hs => ?_, h.tails, h.workers⟩
  rcases List.mem_or_eq_of_mem_set hs with hs | rfl
  · exact h.scans scan' hs
  · exact hscan

theorem setTail (h : OriginInv F c s) (j : Nat) {tail : List (WorkItem κ π)} (htail : F.Items tail) :
    OriginInv F c { s with tails := s.tails.set j tail } := by
  refine ⟨h.returned, h.prefetched, h.queue, h.registryQueue, h.registry, h.pending, h.scans, fun tail' ht => ?_, h.workers⟩
  rcases List.mem_or_eq_of_mem_set ht with ht | rfl
  · exact h.tails tail' ht
  · exact htail

theorem drainRegistry (h : OriginInv F c s) : OriginInv F c (s.drainRegistry c) := by
  unfold ProcessEngine.drainRegistry
  split
  · exact h
  · rename_i event queue hqueue
    have hrest : ∀ event ∈ queue, F.RegistryEvent event := fun event hevent =>
      h.registryQueue event (hqueue ▸ List.mem_cons_of_mem _ hevent)
    have hevent := h.registryQueue event (hqueue ▸ List.mem_cons_self)
    have hreg := h.registry.apply hevent
    cases event with
    | start =>
      exact ⟨h.returned, h.prefetched, h.queue, hrest, hreg,
        fun work hp => h.pending work (WorkerPipesTransport.pends_of_handleStart hp), h.scans, h.tails, h.workers⟩
    | timeout => exact ⟨h.returned, h.prefetched, h.queue, hrest, hreg, h.pending, h.scans, h.tails, h.workers⟩
    | done => exact ⟨h.returned, h.prefetched, h.queue, hrest, hreg, h.pending, h.scans, h.tails, h.workers⟩
    | notStarted batchId payloads =>
      have hpending : ∀ work, (s.transport.handleNotStarted batchId payloads).2.Pends work → F.item work :=
        fun work hp => h.pending work (WorkerPipesTransport.pends_of_handleNotStarted hp)
      simp only [ProcessEngine.applyRegistryEvent]
      split
      · rename_i transport heq
        rw [heq] at hpending
        refine ⟨h.returned, h.prefetched, h.queue, hrest, h.registry, hpending, h.scans, fun tail ht => ?_, h.workers⟩
        rcases List.mem_append.mp ht with ht | ht
        · exact h.tails tail ht
        · rw [List.mem_singleton.mp ht]
          exact hevent
      · rename_i transport heq
        rw [heq] at hpending
        exact ⟨h.returned, h.prefetched, h.queue, hrest, h.registry, hpending, h.scans, h.tails, h.workers⟩

theorem drainCompletion (h : OriginInv F c s) : OriginInv F c (s.drainCompletion c) := by
  unfold ProcessEngine.drainCompletion
  split
  · exact h
  · rename_i m queue hqueue
    have hrest : F.Messages queue := fun m' hm' => h.queue m' (hqueue ▸ List.mem_cons_of_mem _ hm')
    split
    · have htaken := Intake.taken_prefetchEvent (κ := κ) (π := π) c.maxSeenIdentities
      refine ⟨h.returned, fun e he => ?_, hrest, h.registryQueue, h.registry.takeAll htaken m.events, h.pending, h.scans,
        h.tails, h.workers⟩
      rcases Intake.mem_events_takeAll htaken m.events (List.mem_append_left _ he) with he | he
      · rw [List.append_nil] at he
        exact h.prefetched e he
      · exact h.queue m (hqueue ▸ List.mem_cons_self) e he
    · exact ⟨h.returned, h.prefetched, hrest, h.registryQueue, h.registry, h.pending, h.scans, h.tails, h.workers⟩

theorem poll (h : OriginInv F c s) (limit : Nat) : OriginInv F c (s.poll c limit) := by
  let taken := s.buffer.prefetchedEvents.take limit
  let i : Intake κ π :=
    ⟨{ s.buffer with prefetchedEvents := s.buffer.prefetchedEvents.drop limit }, s.registry, []⟩
  obtain ⟨hshown, hqueue, hregistry⟩ := Intake.pollAvailable_origins c.maxSeenIdentities c.decodes (limit - taken.length)
    s.completionQueue i h.registry h.queue fun e he => by
      rw [List.append_nil] at he
      exact h.prefetched e (List.mem_of_mem_drop he)
  refine ⟨fun e he => ?_, fun e he => hshown e (List.mem_append_left _ he), hqueue, h.registryQueue, hregistry, h.pending,
    h.scans, h.tails, h.workers⟩
  unfold ProcessEngine.poll at he
  dsimp only at he
  split at he
  · rcases List.mem_append.mp he with he | he
    · exact h.returned e he
    · rcases List.mem_append.mp he with he | he
      · exact h.prefetched e (List.mem_of_mem_take he)
      · exact hshown e (List.mem_append_right _ he)
  · exact h.returned e he

theorem modifyProcess (h : OriginInv F c s) (pid : Nat) (f : Worker κ π → Worker κ π)
    (hf : ∀ p, s.processes[pid]? = some p → p.Originates F c → (f p).Originates F c) :
    OriginInv F c (s.modifyProcess pid f) := by
  refine ⟨h.returned, h.prefetched, h.queue, h.registryQueue, h.registry, h.pending, h.scans, h.tails, fun p hp => ?_⟩
  obtain ⟨i, hi⟩ := List.mem_iff_getElem?.mp hp
  unfold ProcessEngine.modifyProcess at hi
  rw [List.getElem?_modify] at hi
  obtain ⟨q, hq, rfl⟩ := Option.map_eq_some_iff.mp hi
  have hold := h.workers q (List.mem_of_getElem? hq)
  split
  · rename_i heq
    exact hf q (heq ▸ hq) hold
  · exact hold

theorem flushCompletion (h : OriginInv F c s) (pid : Nat) : OriginInv F c (s.flushCompletion pid) := by
  unfold ProcessEngine.flushCompletion
  split
  · rename_i p hp
    have hw := h.workers p (List.mem_of_getElem? hp)
    split
    · rename_i m rest hm
      have hs := h.modifyProcess pid (fun p => { p with completions := rest })
        fun q _ hq => ⟨hq.pipe, fun m' hm' => hw.completions m' (hm ▸ List.mem_cons_of_mem _ hm'), hq.registryEvents, hq.task⟩
      refine ⟨hs.returned, hs.prefetched, h.queue.append fun m' hm' => ?_, hs.registryQueue, hs.registry, hs.pending, hs.scans,
        hs.tails, hs.workers⟩
      rw [List.mem_singleton.mp hm']
      exact hw.completions m (hm ▸ List.mem_cons_self)
    · exact h
  · exact h

theorem flushRegistry (h : OriginInv F c s) (pid : Nat) : OriginInv F c (s.flushRegistry pid) := by
  unfold ProcessEngine.flushRegistry
  split
  · rename_i p hp
    have hw := h.workers p (List.mem_of_getElem? hp)
    split
    · rename_i event rest hevents
      have hs := h.modifyProcess pid (fun p => { p with registryEvents := rest })
        fun q _ hq => ⟨hq.pipe, hq.completions, fun e he => hw.registryEvents e (hevents ▸ List.mem_cons_of_mem _ he), hq.task⟩
      refine ⟨hs.returned, hs.prefetched, hs.queue, fun e he => ?_, hs.registry, hs.pending, hs.scans, hs.tails, hs.workers⟩
      rcases List.mem_append.mp he with he | he
      · exact h.registryQueue e he
      · rw [List.mem_singleton.mp he]
        exact hw.registryEvents event (hevents ▸ List.mem_cons_self)
    · exact h
  · exact h

theorem requeueTail (h : OriginInv F c s) (j : Nat) (sent : SendOutcome) : OriginInv F c (s.requeueTail c j sent) := by
  unfold ProcessEngine.requeueTail
  split
  · rename_i x rest hj
    have htail := h.tails _ (List.mem_of_getElem? hj)
    have hd : OriginInv F c (s.dispatchPayload c x sent).2 := h.dispatchPayload fun _ => htail x List.mem_cons_self
    have hnone : F.Items ([] : List (WorkItem κ π)) := fun y hy => by cases hy
    split
    · rename_i s' heq
      rw [heq] at hd
      have hrest : F.Items rest := fun y hy => htail y (List.mem_cons_of_mem _ hy)
      exact hd.setTail j hrest
    · rename_i s' heq
      rw [heq] at hd
      exact (hd.emitFailures htail _ _).setTail j hnone
  · exact h

theorem collect (h : OriginInv F c s) (j : Nat) : OriginInv F c (s.collect c j) := by
  unfold ProcessEngine.collect
  split
  · rename_i index rest pc hj
    have hentries : ∀ entry ∈ s.registry.entriesOf index, F.item entry.payload.identity := by
      intro entry hentry
      obtain ⟨⟨key, entry'⟩, hmem, rfl⟩ := List.mem_map.mp hentry
      exact h.registry key entry' ((Dict.mem_entries_iff _).mp (List.mem_filter.mp hmem).1)
    have hregistered : (s.registry.recoverDeadWorkerItems c.maxRetries index).1.Originates F :=
      Recovery.originates_collect fun entry hentry => Recovery.originates_ofEntry (hentries entry hentry)
    have hdispatched : (Recovery.collect (.ofPayload c.maxRetries)
        (s.transport.recoverPendingDispatches c.queueSize index).1).Originates F :=
      Recovery.originates_collect fun x hx =>
        Recovery.originates_ofPayload (h.pending _ (WorkerPipesTransport.pends_recovered hx))
    have hrecover : (s.recover c index).Originates F := by
      refine ⟨fun e he => ?_, fun x hx => ?_⟩
      · rcases List.mem_append.mp he with he | he
        · exact hregistered.failures e he
        · exact hdispatched.failures e he
      · rcases List.mem_append.mp hx with hx | hx
        · exact hregistered.payloads x hx
        · exact hdispatched.payloads x hx
    have he := (h.emit hrecover.failures).setScan j
      ⟨rest, .collected index (s.recover c index).payloads⟩ hrecover.payloads
    have hregistry : F.Registry (s.registry.recoverDeadWorkerItems c.maxRetries index).2 :=
      h.registry.filter fun key _ => key.workerIndex ≠ index
    exact ⟨he.returned, he.prefetched, he.queue, he.registryQueue, hregistry,
      fun work hp => h.pending work (WorkerPipesTransport.pends_of_recover hp), he.scans, he.tails, he.workers⟩
  · exact h

theorem restart (h : OriginInv F c s) (j : Nat) (outcome : RestartOutcome) : OriginInv F c (s.restart c j outcome) := by
  have happend : ∀ {l : List (Worker κ π)} {w : Worker κ π}, (∀ p ∈ l, p.Originates F c) → w.Originates F c →
      ∀ p ∈ l ++ [w], p.Originates F c := by
    intro l w hl hw p hp
    rcases List.mem_append.mp hp with hp | hp
    · exact hl p hp
    · rw [List.mem_singleton.mp hp]
      exact hw
  unfold ProcessEngine.restart
  split
  · rename_i rest index payloads hj
    have hpayloads : F.Items payloads := h.scans _ (List.mem_of_getElem? hj)
    have hnone : F.Items ([] : List (WorkItem κ π)) := fun y hy => by cases hy
    cases outcome with
    | started =>
      have hs := h.setScan j ⟨rest, .publishing index payloads⟩ hpayloads
      exact ⟨hs.returned, hs.prefetched, hs.queue, hs.registryQueue, hs.registry, hs.pending, hs.scans, hs.tails,
        happend h.workers (.empty rfl rfl rfl rfl)⟩
    | pipeFailed error => exact (h.emitFailures hpayloads _ _).setScan j ⟨rest, .idle⟩ hnone
    | processFailed error =>
      have hs := (h.emitFailures hpayloads (.text "worker_restart_failed: " ++ error) c.maxRetries).setScan j
        ⟨rest, .idle⟩ hnone
      exact ⟨hs.returned, hs.prefetched, hs.queue, hs.registryQueue, hs.registry, hs.pending, hs.scans, hs.tails,
        happend h.workers (.empty rfl rfl rfl rfl)⟩
  · exact h

theorem publish (h : OriginInv F c s) (j : Nat) (sent : SendOutcome) : OriginInv F c (s.publish c j sent) := by
  unfold ProcessEngine.publish
  split
  · rename_i rest index x payloads hj
    have hall : F.Items (x :: payloads) := h.scans _ (List.mem_of_getElem? hj)
    have hx : F.item x.identity := hall x List.mem_cons_self
    have hrest : F.Items payloads := fun y hy => hall y (List.mem_cons_of_mem _ hy)
    have hd : OriginInv F c (s.dispatchPayload c x sent).2 := h.dispatchPayload fun _ => hx
    split
    · rename_i s' heq
      rw [heq] at hd
      exact hd.setScan j ⟨rest, .publishing index payloads⟩ hrest
    · rename_i s' heq
      rw [heq] at hd
      have hone : F.Items [x] := fun y hy => List.mem_singleton.mp hy ▸ hx
      exact (hd.emitFailures hone _ _).setScan j ⟨rest, .publishing index payloads⟩ hrest
  · exact h

theorem beginScan (h : OriginInv F c s) : OriginInv F c s.beginScan := by
  refine ⟨h.returned, h.prefetched, h.queue, h.registryQueue, h.registry, h.pending, fun scan hs => ?_, h.tails, h.workers⟩
  rcases List.mem_append.mp hs with hs | hs
  · exact h.scans scan hs
  · rw [List.mem_singleton.mp hs]
    exact fun y hy => by cases hy

/-- **One step** of the engine circulates nothing but what it accepts and what its workers finish. -/
theorem next [DecidableEq κ] (h : OriginInv F c s) {a : EngineAction κ π} (ha : s.OriginatesStep F c a) :
    OriginInv F c ((engineMachine κ π c).next s a) := by
  cases a with
  | submit x sent => exact h.submit ha
  | submitBatch batchId items sent => exact h.submitBatch ha
  | receive pid => exact h.modifyProcess pid _ fun p _ hw => hw.receive
  | beginItem pid => exact h.modifyProcess pid _ fun p _ hw => hw.beginItem
  | finishItem pid outcome => exact h.modifyProcess pid _ fun p hp hw => hw.finishItem (ha p hp)
  | endTask pid => exact h.modifyProcess pid _ fun p _ hw => hw.endTask
  | flushCompletion pid => exact h.flushCompletion pid
  | flushRegistry pid => exact h.flushRegistry pid
  | die pid => exact h.modifyProcess pid _ fun p _ _ => .empty rfl rfl rfl rfl
  | drainRegistry => exact h.drainRegistry
  | drainCompletion => exact h.drainCompletion
  | poll limit => exact h.poll limit
  | beginScan => exact h.beginScan
  | collect j => exact h.collect j
  | restart j outcome => exact h.restart j outcome
  | publish j sent => exact h.publish j sent
  | requeueTail j sent => exact h.requeueTail j sent

end OriginInv

end PyrallelConsumer
