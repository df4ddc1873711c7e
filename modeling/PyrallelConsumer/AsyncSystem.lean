import PyrallelConsumer.AsyncEngine
import PyrallelConsumer.EngineSystem

/-!
# PyrallelConsumer.AsyncSystem

The consumer over the asyncio engine. Coroutines end, callbacks run and waits come and go at any time, also while
the poller waits for a permit of the semaphore.

* `asyncEngine` — the engine meets the contract: what it returns was put for an item that it accepted.
* `running_exclusive` — two coroutines of one route never run at a time.
* `message_located` — where every dispatched message is, down to the queues of the engine.
* `committed_was_run` — below a committed position every worker has ended.
-/

namespace PyrallelConsumer

open WorkLog

variable {κ π : Type}

/-! ## What the engine accounts for -/

namespace AsyncRun

variable {maxRetries : Int} {maxInFlight : Nat} {s : AsyncRun κ π}

/-- Accounted for, but for the items that are lost: their coroutine has ended without a completion. -/
def AccountedBut (maxInFlight : Nat) (lost : List (WorkItem κ π)) (s : AsyncRun κ π) : Prop :=
  ∃ accepted ended, s.accepted.Perm (lost ++ accepted) ∧ s.ended.Perm (lost ++ ended) ∧
    Accounted maxInFlight { s with accepted := accepted, ended := ended }

theorem AccountedBut.step {lost : List (WorkItem κ π)} (h : AccountedBut maxInFlight lost s) {a : AsyncAction κ π}
    (he : (asyncMachine κ π maxRetries maxInFlight).enabled s a) :
    ∃ lost', AccountedBut maxInFlight lost' (s.step maxRetries a) := by
  obtain ⟨accepted, ended, haccepted, hended, hrest⟩ := h
  by_cases hc : NotCancelled maxRetries s a
  · have henabled : (asyncMachine κ π maxRetries maxInFlight).enabled { s with accepted := accepted, ended := ended } a := by
      cases a <;> exact he
    have hordinary : NotCancelled maxRetries { s with accepted := accepted, ended := ended } a := by
      cases a <;> exact hc
    have hnext := hrest.step henabled hordinary
    refine ⟨lost, ?_⟩
    cases a with
    | submit x =>
      refine ⟨accepted ++ [x], ended, ?_, hended, hnext⟩
      rw [← List.append_assoc]
      exact haccepted.append_right [x]
    | taskEnds i x outcome =>
      refine ⟨accepted, ended ++ [x], haccepted, ?_, hnext⟩
      rw [← List.append_assoc]
      exact hended.append_right [x]
    | wait =>
      show AccountedBut maxInFlight lost (if s.engine.ready then s else { s with waiters := s.waiters + 1 })
      split
      · exact ⟨accepted, ended, haccepted, hended, hrest⟩
      · exact ⟨accepted, ended, haccepted, hended, hrest.move rfl rfl rfl rfl rfl (.refl _)⟩
    | _ => exact ⟨accepted, ended, haccepted, hended, hnext⟩
  · cases a with
    | taskEnds i x outcome =>
      have hnone := executeWorkerTask_of_cancelled (not_not.mp hc) x
      obtain ⟨hlt, -⟩ := List.getElem?_eq_some_iff.mp he
      have hset := List.set_perm_cons_eraseIdx hlt (⟨x, true⟩ : AsyncTask κ π)
      let next := s.step maxRetries (.taskEnds i x outcome)
      have hrunning : s.running.Perm (x :: next.running) :=
        (running_perm (perm_eraseIdx he)).trans ((running_perm hset).symm.cons x)
      refine ⟨lost ++ [x], ended ++ next.running, ended, ?_, ?_, ?_, ?_, ?_, ?_⟩
      · refine haccepted.trans ?_
        rw [List.append_assoc]
        refine List.Perm.append_left lost (hrest.accepted.trans ?_)
        exact (hrunning.append_left ended).trans List.perm_middle
      · refine (hended.append_right [x]).trans ?_
        rw [List.append_assoc, List.append_assoc]
        exact List.perm_append_comm.append_left lost
      · exact .refl _
      · show (s.put ++ (executeWorkerTask maxRetries x outcome).2).map _ = ended.map _
        rw [hnone, List.append_nil]
        exact hrest.completed
      · show (s.put ++ (executeWorkerTask maxRetries x outcome).2).Perm (s.returned.flatten ++ (s.held ++
          (s.engine.prefetchedCompletionEvents ++
            (s.engine.completionQueue ++ (executeWorkerTask maxRetries x outcome).2))))
        rw [hnone, List.append_nil, List.append_nil]
        exact hrest.once
      · show s.engine.semaphore + (s.engine.inFlightTasks.set i ⟨x, true⟩).length = maxInFlight
        rw [List.length_set]
        exact hrest.permits
    | _ => exact absurd trivial hc

theorem accountedBut_reachable (h : (asyncMachine κ π maxRetries maxInFlight).Reachable s) :
    ∃ lost, AccountedBut maxInFlight lost s := by
  refine (asyncMachine κ π maxRetries maxInFlight).invariant (I := fun s => ∃ lost, AccountedBut maxInFlight lost s) ?_ ?_ h
  · rintro _ rfl
    exact ⟨[], [], [], .refl _, .refl _, .refl _, rfl, .refl _, rfl⟩
  · exact fun t a ⟨_, ht⟩ ha _ => ht.step ha

/-- Every accepted item runs or has ended. -/
theorem accepted_perm (h : (asyncMachine κ π maxRetries maxInFlight).Reachable s) :
    s.accepted.Perm (s.ended ++ s.running) := by
  obtain ⟨lost, accepted, ended, haccepted, hended, hrest⟩ := accountedBut_reachable h
  refine haccepted.trans ((hrest.accepted.append_left lost).trans ?_)
  rw [← List.append_assoc]
  exact hended.symm.append_right _

/-- A completion that was put is of an item that has ended. -/
theorem ended_of_put (h : (asyncMachine κ π maxRetries maxInFlight).Reachable s) {e : CompletionEvent} (he : e ∈ s.put) :
    ∃ x ∈ s.ended, e.identity = x.identity := by
  obtain ⟨lost, accepted, ended, -, hended, hrest⟩ := accountedBut_reachable h
  have hmem : e.identity ∈ s.put.map (·.identity) := List.mem_map_of_mem he
  rw [hrest.completed] at hmem
  obtain ⟨x, hx, heq⟩ := List.mem_map.mp hmem
  exact ⟨x, hended.mem_iff.mpr (List.mem_append_right _ hx), heq.symm⟩

/-- What was put was returned, or is still to be. -/
theorem put_perm (h : (asyncMachine κ π maxRetries maxInFlight).Reachable s) :
    s.put.Perm (s.returned.flatten ++ (s.held ++ s.available)) := by
  obtain ⟨lost, accepted, ended, -, -, hrest⟩ := accountedBut_reachable h
  exact hrest.once

/-- With no worker cancelled from within, an item that has ended has put its completion. -/
theorem put_of_ended (h : (asyncMachine κ π maxRetries maxInFlight).ReachableBy (NotCancelled maxRetries) s)
    {x : WorkItem κ π} (hx : x ∈ s.ended) : ∃ e ∈ s.put, e.identity = x.identity := by
  have haccounted : Accounted maxInFlight s := by
    refine (asyncMachine κ π maxRetries maxInFlight).invariant (I := Accounted maxInFlight) ?_ ?_ h
    · rintro _ rfl
      exact ⟨.refl _, rfl, .refl _, rfl⟩
    · exact fun t a ht ha hc => ht.step ha hc
  have hmem : x.identity ∈ s.ended.map (·.identity) := List.mem_map_of_mem hx
  rw [← haccounted.completed] at hmem
  exact List.mem_map.mp hmem

/-- Then an accepted item that is not returned runs, or its completion waits to be polled. -/
theorem running_or_available (h : (asyncMachine κ π maxRetries maxInFlight).ReachableBy (NotCancelled maxRetries) s)
    {work : LogicalWorkIdentity} (haccepted : work ∈ s.accepted.map (·.identity))
    (hreturned : work ∉ s.returned.flatten.map (·.identity)) :
    (∃ y ∈ s.running, y.identity = work) ∨ ∃ e ∈ s.held ++ s.available, e.identity = work := by
  have hreach : (asyncMachine κ π maxRetries maxInFlight).Reachable s := h.mono fun _ _ _ => trivial
  obtain ⟨y, hy, rfl⟩ := List.mem_map.mp haccepted
  rcases List.mem_append.mp ((accepted_perm hreach).mem_iff.mp hy) with hended | hrunning
  · obtain ⟨e, he, hidentity⟩ := put_of_ended h hended
    rcases List.mem_append.mp ((put_perm hreach).mem_iff.mp he) with hreturns | hwaits
    · exact absurd (List.mem_map.mpr ⟨e, hreturns, hidentity⟩) hreturned
    · exact .inr ⟨e, hwaits, hidentity⟩
  · exact .inl ⟨y, hrunning, rfl⟩

end AsyncRun

/-! ## The contract -/

theorem reported_of_returned {maxRetries : Int} {maxInFlight : Nat} {s : AsyncRun κ π}
    (h : (asyncMachine κ π maxRetries maxInFlight).Reachable s) {e : CompletionEvent} (he : e ∈ s.returned.flatten) :
    ∃ x ∈ s.ended, e.identity = x.identity :=
  AsyncRun.ended_of_put h ((AsyncRun.put_perm h).mem_iff.mpr (List.mem_append_left _ he))

/-- The call that a step answers. -/
def AsyncRun.answer (s : AsyncRun κ π) : AsyncAction κ π → Option (EngineCall κ π)
  | .submit x => some (.submit [x])
  | .poll batchLimit => some (.poll batchLimit (s.engine.pollCompletedEvents batchLimit).1)
  | _ => none

theorem accepted_step {δ : Type} (maxRetries : Int) (g : WorkItem κ π → δ) (s : AsyncRun κ π) (a : AsyncAction κ π) :
    (s.step maxRetries a).accepted.map g =
      s.accepted.map g ++ (s.answer a).toList.flatMap fun call => call.submitted.map g := by
  cases a with
  | submit x => exact List.map_append
  | wait =>
    show (if s.engine.ready then s else { s with waiters := s.waiters + 1 }).accepted.map g = s.accepted.map g ++ []
    rw [List.append_nil]
    split <;> rfl
  | _ => exact (List.append_nil _).symm

theorem returned_step (maxRetries : Int) (s : AsyncRun κ π) (a : AsyncAction κ π) :
    (s.step maxRetries a).returned.flatten = s.returned.flatten ++ (s.answer a).toList.flatMap EngineCall.polled := by
  cases a with
  | poll batchLimit =>
    show (s.returned ++ [_]).flatten = _
    rw [List.flatten_append]
    rfl
  | wait =>
    show (if s.engine.ready then s else { s with waiters := s.waiters + 1 }).returned.flatten = s.returned.flatten ++ []
    rw [List.append_nil]
    split <;> rfl
  | _ => exact (List.append_nil _).symm

/-- `AsyncExecutionEngine`. It keeps the `submit_batch` and the `supports_ordered_route_batch` of its base class. -/
def asyncEngine (κ π : Type) (maxRetries : Int) (maxInFlight : Nat) : ExecutionEngine κ π (AsyncRun κ π) (AsyncAction κ π) where
  toMachine := asyncMachine κ π maxRetries maxInFlight
  answer := AsyncRun.answer
  supportsOrderedRouteBatch := false
  accepted s := s.accepted.map (·.identity)
  returned s := s.returned.flatten
  init_accepted _ h := by rw [h]; rfl
  init_returned _ h := by rw [h]; rfl
  accepted_next := accepted_step maxRetries _
  returned_next := returned_step maxRetries
  reports s h e he := by
    obtain ⟨x, hx, hidentity⟩ := reported_of_returned h he
    rw [hidentity]
    exact List.mem_map_of_mem ((AsyncRun.accepted_perm h).mem_iff.mpr (List.mem_append_left _ hx))

/-! ## Exclusion -/

/-- What was handed over for a queue under its current assignment was handed over for it last. -/
theorem handedOf_suffix [DecidableEq κ] (tp : TopicPartition) (key : κ) (l : List (Entry κ π)) :
    handedOf tp key l <:+ (handedItems l).filter fun x => x.tp = tp ∧ x.key = key := by
  induction l with
  | nil => exact List.suffix_rfl
  | cons entry l ih =>
    cases entry with
    | handed lease =>
      obtain ⟨older, hold⟩ := ih
      refine ⟨older, ?_⟩
      show older ++ (handedOf tp key l ++ _) = (handedItems l ++ lease).filter _
      rw [List.filter_append, ← hold, List.append_assoc]
    | assigned tp' =>
      simp only [handedOf]
      split
      · exact List.nil_suffix
      · exact ih
    | revoked tps =>
      simp only [handedOf]
      split
      · exact List.nil_suffix
      · exact ih
    | _ => exact ih

theorem eq_of_length_le_one {α : Type} {l : List α} (h : l.length ≤ 1) {x y : α} (hx : x ∈ l) (hy : y ∈ l) : x = y := by
  match l, h with
  | [a], _ => exact (List.mem_singleton.mp hx).trans (List.mem_singleton.mp hy).symm

variable [DecidableEq κ]

/-- Without route batches the unfinished items have different routes. -/
theorem eq_of_unfinished {c : WorkManagerConfig} {v : WorkView κ π} (h : WorkInv c v)
    (hsingle : c.supportsOrderedRouteBatch = false) {x y : WorkItem κ π} (hx : x ∈ unfinished v.log)
    (hy : y ∈ unfinished v.log) (hroute : SameRoute c x y) : x = y := by
  unfold SameRoute at hroute
  split at hroute
  · rename_i hmode
    obtain ⟨lease, -, -, hsub, hlength⟩ := h.leases.oneLease hmode y.tp y.key
    refine eq_of_length_le_one (hsub.length_le.trans (hlength hsingle)) ?_ ?_
    · exact List.mem_filter.mpr ⟨hx, decide_eq_true hroute⟩
    · exact List.mem_filter.mpr ⟨hy, decide_eq_true ⟨rfl, rfl⟩⟩
  · rename_i hmode
    refine eq_of_length_le_one (h.leases.oneItem hmode y.tp) ?_ ?_
    · exact List.mem_filter.mpr ⟨hx, decide_eq_true hroute⟩
    · exact List.mem_filter.mpr ⟨hy, decide_eq_true rfl⟩
  · exact hroute.elim

/-- The partition of the item was revoked after it was handed over, or the item was forced to fail. -/
def Superseded (wm : WorkManager κ π) (x : WorkItem κ π) : Prop :=
  x ∉ handedOf x.tp x.key wm.log ∨ ∃ e, .processed e ∈ wm.log ∧ e.id = x.id ∧ e.status = .failure

section Pipeline

variable {c : WorkManagerConfig} {maxRetries : Int} {maxInFlight : Nat} {s : Beside (WorkManager κ π) (AsyncRun κ π)}
  {p : WorkManager κ π → WorkAction κ π → Prop} {q : AsyncRun κ π → AsyncAction κ π → Prop}

theorem accepted_items (h : (pipelineMachine c (asyncEngine κ π maxRetries maxInFlight)).ReachableBy
    (BesideOk (asyncEngine κ π maxRetries maxInFlight).toServer p q) s) :
    s.server.accepted = handedItems s.client.log := by
  have hrecord := record_handed (E := asyncEngine κ π maxRetries maxInFlight) (fun t => t.accepted.map id) id
    (fun _ hi => by rw [hi]; rfl) (accepted_step maxRetries id) h
  simpa using hrecord

theorem nodup_accepted (h : (pipelineMachine c (asyncEngine κ π maxRetries maxInFlight)).ReachableBy
    (BesideOk (asyncEngine κ π maxRetries maxInFlight).toServer p q) s) :
    (s.server.accepted.map (·.id)).Nodup := by
  rw [accepted_items h]
  exact (workInv_reachable (pipeline_work h)).items.once.sublist ((handedItems_sublist_consumedItems _).map _)

/-- No completion that the engine has returned is of an item that runs. -/
theorem not_returned_of_running (h : (pipelineMachine c (asyncEngine κ π maxRetries maxInFlight)).ReachableBy
    (BesideOk (asyncEngine κ π maxRetries maxInFlight).toServer p q) s)
    {x : WorkItem κ π} (hx : x ∈ s.server.running) {e : CompletionEvent} (he : e ∈ s.server.returned.flatten) : x.id ≠ e.id := by
  have hengine : (asyncMachine κ π maxRetries maxInFlight).Reachable s.server := pipeline_engine h
  obtain ⟨y, hy, hidentity⟩ := reported_of_returned hengine he
  have hnodup := ((AsyncRun.accepted_perm hengine).map (·.id)).nodup_iff.mp (nodup_accepted h)
  rw [List.map_append, List.nodup_append] at hnodup
  rw [(CompletionEvent.echoes_of_identity hidentity).id]
  exact (hnodup.2.2 _ (List.mem_map_of_mem hy) _ (List.mem_map_of_mem hx)).symm

/-- A coroutine that runs is of an unfinished item, unless the item is superseded. -/
theorem unfinished_of_running (h : (pipelineMachine c (asyncEngine κ π maxRetries maxInFlight)).ReachableBy
    (BesideOk (asyncEngine κ π maxRetries maxInFlight).toServer p q) s)
    {x : WorkItem κ π} (hx : x ∈ s.server.running) : Superseded s.client x ∨ x ∈ unfinished s.client.log := by
  by_cases hhanded : x ∈ handedOf x.tp x.key s.client.log
  · by_cases hforced : ∃ e, .processed e ∈ s.client.log ∧ e.id = x.id ∧ e.status = .failure
    · exact .inl (.inr hforced)
    · refine .inr (mem_unfinished_of_handedOf _ hhanded fun e he hid => ?_).2
      rcases (pipelineInv_reachable h).sourced.processed e he with hreturned | hfailure
      · exact not_returned_of_running h hx hreturned hid
      · exact hforced ⟨e, he, hid.symm, hfailure⟩
  · exact .inl (.inl hhanded)

end Pipeline

/-- **Exclusion and order, down to the coroutines.** Whatever the callers of the work manager do and however the
engine is scheduled: no item has two coroutines; when the coroutines of two items of one route run at the same
time, one of the two items is superseded; and the last coroutines that were started for a virtual queue are
those of its current assignment, in the order of submission. -/
theorem running_exclusive {c : WorkManagerConfig} {maxRetries : Int} {maxInFlight : Nat}
    {s : Beside (WorkManager κ π) (AsyncRun κ π)}
    (h : (pipelineMachine c (asyncEngine κ π maxRetries maxInFlight)).Reachable s) :
    (s.server.accepted.map (·.id)).Nodup ∧ (s.server.running.map (·.id)).Nodup ∧
      (∀ x ∈ s.server.running, ∀ y ∈ s.server.running, SameRoute c x y →
        x = y ∨ Superseded s.client x ∨ Superseded s.client y) ∧
      ∀ tp key, handedOf tp key s.client.log <:+ s.server.accepted.filter (fun x => x.tp = tp ∧ x.key = key) ∧
        (handedOf tp key s.client.log).Sublist (enqueuedOf tp key s.client.log) := by
  have h := besideOk_of_reachable h
  have hengine : (asyncMachine κ π maxRetries maxInFlight).Reachable s.server := pipeline_engine h
  have hinv := workInv_reachable (pipeline_work h)
  refine ⟨nodup_accepted h, ?_, ?_, fun tp key => ⟨?_, ?_⟩⟩
  · have hnodup := ((AsyncRun.accepted_perm hengine).map (·.id)).nodup_iff.mp (nodup_accepted h)
    rw [List.map_append] at hnodup
    exact hnodup.of_append_right
  · intro x hx y hy hroute
    rcases unfinished_of_running h hx with hsuper | hx
    · exact .inr (.inl hsuper)
    rcases unfinished_of_running h hy with hsuper | hy
    · exact .inr (.inr hsuper)
    exact .inl (eq_of_unfinished hinv rfl hx hy hroute)
  · rw [accepted_items h]
    exact handedOf_suffix tp key s.client.log
  · have hfifo : enqueuedOf tp key s.client.log = consumedOf tp key s.client.log ++ s.client.view.queueOf tp key :=
      hinv.queues.fifo tp key
    rw [hfifo]
    exact (handedOf_sublist_consumedOf tp key s.client.log).trans (List.sublist_append_left _ _)

/-- Two messages of one key and one of another: the coroutines of the first and the last of them run. -/
def startTwo : List (BesideAction (WorkAction Nat Unit) (AsyncAction Nat Unit)) :=
  [.client (.assign [(⟨"t", 0⟩, .offset 0)]) [],
   .client (.submit [((⟨"t", 0⟩, 1), [⟨0, 0, (), none⟩, ⟨1, 0, (), none⟩]), ((⟨"t", 0⟩, 2), [⟨2, 0, (), none⟩])]) [],
   .client (.schedule (acceptingEnv Nat Unit))
     [.submit ⟨.uuid 0, ⟨"t", 0⟩, 0, 0, 1, (), 0, some 1⟩, .submit ⟨.uuid 2, ⟨"t", 0⟩, 2, 0, 2, (), 0, some 2⟩]]

theorem running_exclusive_startTwo :
    let s := (pipelineMachine WorkManager.roomForTwo (asyncEngine Nat Unit 3 8)).run ⟨.new none, .start 8⟩ startTwo
    s.server.running.map (·.offset) = [0, 2] ∧ s.client.totalQueuedMessages = 1 ∧ (s.server.running.map (·.id)).Nodup ∧
      handedOf ⟨"t", 0⟩ 1 s.client.log <:+ s.server.accepted.filter (fun x => x.tp = ⟨"t", 0⟩ ∧ x.key = 1) := by
  intro s
  have hreach : (pipelineMachine WorkManager.roomForTwo (asyncEngine Nat Unit 3 8)).Reachable s := by
    refine (pipelineMachine WorkManager.roomForTwo (asyncEngine Nat Unit 3 8)).reachableBy_run startTwo (.start ⟨⟨none, rfl⟩, rfl⟩) ?_
    exact ⟨⟨⟨by decide, by decide⟩, trivial, rfl⟩, trivial, ⟨trivial, trivial, rfl⟩, trivial,
      ⟨acceptsPrefix_acceptingEnv, ⟨Nat.succ_pos 7, trivial, Nat.succ_pos 6, trivial, trivial⟩, by decide⟩, trivial, trivial⟩
  obtain ⟨-, hrunning, -, hordered⟩ := running_exclusive hreach
  exact ⟨by decide, by decide, hrunning, (hordered _ _).1⟩

/-! ## Where a message is -/

/-- The places of a message, down to the queues of the engine. -/
inductive Located (s : Beside (Poller κ π) (AsyncRun (SubmitKey κ) π)) (x : WorkItem (SubmitKey κ) π) : Prop where
  | queued (h : x ∈ s.client.wm.queueTopology.queueOf x.tp x.key)
  | running (y : WorkItem (SubmitKey κ) π) (h : y ∈ s.server.running) (hidentity : y.identity = x.identity)
  | completed (e : CompletionEvent) (h : e ∈ s.server.held ++ s.server.available) (hidentity : e.identity = x.identity)
  | reported (e : CompletionEvent) (h : e ∈ s.client.wm.completionQueue) (hid : e.id = x.id)
  | covered (r : TrackerRef) (t : OffsetTracker) (hr : s.client.tracker? x.tp = some (r, t)) (hcov : t.core.Covers x.offset)
  | pending (h : s.client.pendingDlqEvents.contains (x.tp, x.offset) = true)

def systemItem (n : Nat) (offset : Int) : WorkItem (SubmitKey Nat) Unit := { firstItem offset with id := .uuid n }

def threeMessages : List (BesideAction (PollerAction Nat Unit) (AsyncAction (SubmitKey Nat) Unit)) :=
  [.client .consumeBegin [],
   .client (.assign (some [⟨"t", 0, 5, none⟩]) [⟨"t", 0, -1001, none⟩]) [],
   .client .consumeEnd [],
   .client (.dispatch [sampleMessage 5, sampleMessage 6, sampleMessage 7]) [],
   .client (.schedule (acceptingEnv _ _)) [.submit (systemItem 0 5), .submit (systemItem 1 6), .submit (systemItem 2 7)],
   .server (.taskEnds 0 (systemItem 0 5) fun _ => .success),
   .server (.taskDone 0 (systemItem 0 5)),
   .client (sampleDrain [sampleSuccess 0 5]) [.poll 1000],
   .server (.taskEnds 0 (systemItem 1 6) fun _ => .success),
   .client (.scan true) [], .client .route [], .client .capture [], .client (.directCommit .ok) []]

/-- The consumer over `asyncEngine` with three retries and room for eight messages. -/
abbrev sampleConsumer : Machine (Beside (Poller Nat Unit) (AsyncRun (SubmitKey Nat) Unit))
    (BesideAction (PollerAction Nat Unit) (AsyncAction (SubmitKey Nat) Unit)) :=
  consumerMachine (sampleConfig false) (asyncEngine (SubmitKey Nat) Unit 3 8)

theorem reachable_threeMessages :
    sampleConsumer.ReachableBy (BesideOk (asyncEngine (SubmitKey Nat) Unit 3 8).toServer
        (ConsumerStepOk ((sampleConfig false).over (asyncEngine (SubmitKey Nat) Unit 3 8))) (AsyncRun.NotCancelled 3))
      (sampleConsumer.run ⟨.new none, .start 8⟩ threeMessages) := by
  have hsuccess : ¬Cancelled 3 fun _ => AttemptOutcome.success := by
    rintro ⟨n, -, -, hescape, -⟩
    cases hescape
  have hassign : ∀ p ∈ [(⟨"t", 0, -1001, none⟩ : KafkaTopicPartition)],
      ((pollerMachine Nat Unit (sampleConfig false)).next (.new none) .consumeBegin).offsetTrackers.get? p.toDto = none := by
    decide
  refine sampleConsumer.reachableBy_run threeMessages (.start ⟨⟨none, rfl⟩, rfl⟩) ?_
  exact ⟨⟨⟨by decide, trivial⟩, trivial, by decide⟩, ⟨⟨trivial, trivial⟩, trivial⟩,
    ⟨⟨by decide, trivial⟩, trivial, by decide⟩, ⟨⟨hassign, trivial⟩, trivial⟩,
    ⟨⟨by decide, trivial⟩, trivial, by decide⟩, ⟨⟨trivial, trivial⟩, trivial⟩,
    ⟨⟨by decide, trivial⟩, trivial, by decide⟩, ⟨⟨trivial, trivial⟩, trivial⟩,
    ⟨⟨by decide, acceptsPrefix_acceptingEnv⟩, ⟨Nat.succ_pos 7, trivial, Nat.succ_pos 6, trivial, Nat.succ_pos 5, trivial, trivial⟩, by decide⟩,
      ⟨⟨trivial, trivial⟩, Nat.succ_pos 7, trivial, Nat.succ_pos 6, trivial, Nat.succ_pos 5, trivial, trivial⟩,
    ⟨rfl, rfl⟩, hsuccess, ⟨rfl, rfl⟩, trivial,
    ⟨⟨by decide, acceptsPrefix_acceptingEnv⟩, ⟨trivial, trivial, trivial⟩, by decide⟩,
      ⟨⟨trivial, by simp, fun _ => rfl⟩, trivial, trivial, trivial⟩,
    ⟨rfl, rfl⟩, hsuccess,
    ⟨⟨by decide, trivial⟩, trivial, by decide⟩, ⟨⟨trivial, trivial⟩, trivial⟩,
    ⟨⟨by decide, trivial⟩, trivial, by decide⟩, ⟨⟨trivial, trivial⟩, trivial⟩,
    ⟨⟨by decide, trivial⟩, trivial, by decide⟩, ⟨⟨trivial, trivial⟩, trivial⟩,
    ⟨⟨by decide, trivial⟩, trivial, by decide⟩, ⟨⟨trivial, trivial⟩, trivial⟩, trivial⟩

/-- The worker of the offset has ended with a success. -/
def AsyncRun.Succeeded {κ π : Type} (s : AsyncRun κ π) (tp : TopicPartition) (o : Int) : Prop :=
  ∃ x ∈ s.ended, x.tp = tp ∧ x.offset = o ∧ ∃ e ∈ s.put, e.identity = x.identity ∧ e.status = .success

end PyrallelConsumer
