import PyrallelConsumer.Dto
import PyrallelConsumer.Lib.Dict

/-!
# PyrallelConsumer.ProcessTransport

The identities of `execution_plane/process_transport.py` and the parent's side of the worker-pipe
transport, `execution_plane/process_transport_worker_pipes.py`: the pending dispatches with their queue
slots. A serialized work item has the fields of the work item, so both are `WorkItem`. What a pending
dispatch holds always belongs to its key, which is a field of the transport.

* `pends_storeItem`, `pends_forgetItem` — a dispatch and its rollback touch one identity.
* `pends_handleStart`, `pends_handleNotStarted` — so does a start; a skipped tail is handed back.
* `pends_recover` — recovery hands back everything that it removes.
-/

set_option linter.unusedSectionVars false

namespace PyrallelConsumer

structure RouteIdentity (κ : Type) where
  topic : String
  partition : Int
  key : κ
deriving DecidableEq, Repr

structure LogicalWorkIdentity where
  topic : String
  partition : Int
  offset : Int
  id : WorkId
  epoch : Int
deriving DecidableEq, Repr

/-- The key of the in-flight registry. -/
structure InFlightRegistryKey where
  workerIndex : Nat
  topic : String
  partition : Int
  offset : Int
deriving DecidableEq, Repr

section

variable {κ π : Type}

def WorkItem.routeIdentity (x : WorkItem κ π) : RouteIdentity κ := ⟨x.tp.topic, x.tp.partition, x.key⟩

/-- `logical_work_identity_from_payload`. -/
def WorkItem.identity (x : WorkItem κ π) : LogicalWorkIdentity :=
  ⟨x.tp.topic, x.tp.partition, x.offset, x.id, x.epoch⟩

/-- The registry key under which worker `w` reports the item. -/
def WorkItem.registryKey (x : WorkItem κ π) (w : Nat) : InFlightRegistryKey :=
  ⟨w, x.tp.topic, x.tp.partition, x.offset⟩

end

/-- `logical_work_identity_from_completion_event`. -/
def CompletionEvent.identity (e : CompletionEvent) : LogicalWorkIdentity :=
  ⟨e.tp.topic, e.tp.partition, e.offset, e.id, e.epoch⟩

/-- `stable_worker_index_for_route` over the hash of the packed route. -/
def stableWorkerIndexForRoute {κ : Type} (digest : RouteIdentity κ → Nat) (route : RouteIdentity κ)
    (processCount : Nat) : Nat :=
  digest route % processCount

/-- What is sent through a worker pipe. Batch ids are `uuid4` strings. -/
inductive PipeMessage (κ π : Type) where
  | workItems (items : List (WorkItem κ π))
  | routeBatch (batchId : Nat) (route : RouteIdentity κ) (items : List (WorkItem κ π))
deriving DecidableEq, Repr

def PipeMessage.items {κ π : Type} : PipeMessage κ π → List (WorkItem κ π)
  | .workItems items => items
  | .routeBatch _ _ items => items

/-- The id and the route of a route batch. -/
def PipeMessage.batch {κ π : Type} : PipeMessage κ π → Option (Nat × RouteIdentity κ)
  | .workItems _ => none
  | .routeBatch batchId route _ => some (batchId, route)

inductive PendingDispatchKey where
  | item (workerIndex : Nat) (work : LogicalWorkIdentity)
  | routeBatch (workerIndex : Nat) (batchId : Nat)
deriving DecidableEq, Repr

def PendingDispatchKey.workerIndex : PendingDispatchKey → Nat
  | .item workerIndex _ => workerIndex
  | .routeBatch workerIndex _ => workerIndex

inductive PendingDispatch (κ π : Type) where
  | item (payload : WorkItem κ π)
  | routeBatch (batchId : Nat) (items : List (WorkItem κ π)) (slotReleased : Bool)
deriving DecidableEq, Repr

namespace PendingDispatch

variable {κ π : Type}

def payloads : PendingDispatch κ π → List (WorkItem κ π)
  | item payload => [payload]
  | routeBatch _ items _ => items

def slotReleased : PendingDispatch κ π → Bool
  | item _ => false
  | routeBatch _ _ slotReleased => slotReleased

/-- The dispatch is the one that its key names. -/
def Keyed : PendingDispatchKey → PendingDispatch κ π → Prop
  | .item _ work, item payload => payload.identity = work
  | .routeBatch _ batchId, routeBatch batchId' _ _ => batchId' = batchId
  | _, _ => False

end PendingDispatch

structure WorkerPipesTransport (κ π : Type) where
  pendingDispatch : Dict PendingDispatchKey (PendingDispatch κ π)
  slots : Nat
  keyed : ∀ k d, pendingDispatch.get? k = some d → d.Keyed k

namespace WorkerPipesTransport

variable {κ π : Type}

def new (queueSize : Nat) : WorkerPipesTransport κ π :=
  ⟨.empty, queueSize, fun _ _ h => by cases h⟩

def store (t : WorkerPipesTransport κ π) (k : PendingDispatchKey) (d : PendingDispatch κ π)
    (hd : d.Keyed k) : WorkerPipesTransport κ π where
  pendingDispatch := t.pendingDispatch.set k d
  slots := t.slots
  keyed := by
    intro k' d' h
    rw [Dict.get?_set] at h
    split at h
    · rename_i hk
      cases h
      exact hk ▸ hd
    · exact t.keyed k' d' h

def forget (t : WorkerPipesTransport κ π) (k : PendingDispatchKey) : WorkerPipesTransport κ π where
  pendingDispatch := t.pendingDispatch.erase k
  slots := t.slots
  keyed := by
    intro k' d' h
    rw [Dict.get?_erase] at h
    split at h
    · cases h
    · exact t.keyed k' d' h

/-- `_acquire_worker_pipe_queue_slot`, once a slot is free. -/
def acquireSlot (t : WorkerPipesTransport κ π) : WorkerPipesTransport κ π :=
  { t with slots := t.slots - 1 }

section Slots

variable (queueSize : Nat)

/-- `_release_worker_pipe_queue_slot`: the semaphore is bounded. -/
def releaseSlot (t : WorkerPipesTransport κ π) : WorkerPipesTransport κ π :=
  { t with slots := if t.slots < queueSize then t.slots + 1 else t.slots }

/-- `dispatch_payload` for a message that is packed and sent. -/
def storeItem (t : WorkerPipesTransport κ π) (w : Nat) (x : WorkItem κ π) : WorkerPipesTransport κ π :=
  t.acquireSlot.store (.item w x.identity) (.item x) rfl

/-- `dispatch_payload` for a message that cannot be packed or sent: the entry is removed again. -/
def forgetItem (t : WorkerPipesTransport κ π) (w : Nat) (x : WorkItem κ π) : WorkerPipesTransport κ π :=
  ((t.storeItem w x).forget (.item w x.identity)).releaseSlot queueSize

/-- `dispatch_route_batch` for a message that is packed and sent. -/
def storeBatch (t : WorkerPipesTransport κ π) (w batchId : Nat) (items : List (WorkItem κ π)) :
    WorkerPipesTransport κ π :=
  t.acquireSlot.store (.routeBatch w batchId) (.routeBatch batchId items false) rfl

def forgetBatch (t : WorkerPipesTransport κ π) (w batchId : Nat) (items : List (WorkItem κ π)) :
    WorkerPipesTransport κ π :=
  ((t.storeBatch w batchId items).forget (.routeBatch w batchId)).releaseSlot queueSize

/-! ## Registry events -/

/-- `_pending_dispatch_key_for_registry_start`. -/
def startKey (key : InFlightRegistryKey) (payload : WorkItem κ π) : Option PendingDispatchKey :=
  if payload.tp.topic = key.topic ∧ payload.tp.partition = key.partition ∧ payload.offset = key.offset then
    some (.item key.workerIndex payload.identity)
  else none

/-- The pending route batch of the worker that holds the started item. -/
def holdsStarted (key : InFlightRegistryKey) (payload : WorkItem κ π) :
    PendingDispatchKey × PendingDispatch κ π → Bool
  | (k, .routeBatch _ items _) =>
    k.workerIndex = key.workerIndex &&
      items.any fun x => startKey key x = some (.item key.workerIndex payload.identity)
  | (_, .item _) => false

/-- `_remove_started_item_from_pending_route_batch`. -/
def withoutIdentity (items : List (WorkItem κ π)) (work : LogicalWorkIdentity) : List (WorkItem κ π) :=
  items.filter fun x => x.identity ≠ work

/-- Keep what is left of a route batch, or forget the batch. -/
def keepRest (t : WorkerPipesTransport κ π) (k : PendingDispatchKey) (batchId : Nat)
    (rest : List (WorkItem κ π)) (slotReleased : Bool)
    (hk : (PendingDispatch.routeBatch batchId rest slotReleased).Keyed k) : WorkerPipesTransport κ π :=
  if rest = [] then t.forget k else t.store k (.routeBatch batchId rest slotReleased) hk

/-- A started item leaves the pending route batch that holds it. -/
def startInBatch (t : WorkerPipesTransport κ π) (key : InFlightRegistryKey) (payload : WorkItem κ π) :
    WorkerPipesTransport κ π :=
  match h : t.pendingDispatch.entries.find? (holdsStarted key payload) with
  | some (k, .routeBatch batchId items slotReleased) =>
    let t' := t.keepRest k batchId (withoutIdentity items payload.identity) true
      (by
        have := t.keyed k _ ((Dict.mem_entries_iff _).mp (List.mem_of_find?_eq_some h))
        cases k <;> exact this)
    if slotReleased then t' else t'.releaseSlot queueSize
  | _ => t

/-- `handle_registry_event` for a `start` event. -/
def handleStart (t : WorkerPipesTransport κ π) (key : InFlightRegistryKey) (payload : WorkItem κ π) :
    WorkerPipesTransport κ π :=
  match startKey key payload with
  | some k =>
    if t.pendingDispatch.contains k then (t.forget k).releaseSlot queueSize
    else t.startInBatch queueSize key payload
  | none => t.startInBatch queueSize key payload

/-- The pending route batch has this id. -/
def hasBatchId (batchId : Nat) : PendingDispatchKey × PendingDispatch κ π → Bool
  | (_, .routeBatch batchId' _ _) => batchId' = batchId
  | (_, .item _) => false

/-- `_handle_not_started_route_batch_event`; the result says whether the batch is still pending. -/
def handleNotStarted (t : WorkerPipesTransport κ π) (batchId : Nat) (payloads : List (WorkItem κ π)) :
    Bool × WorkerPipesTransport κ π :=
  match h : t.pendingDispatch.entries.find? (hasBatchId batchId) with
  | some (k, .routeBatch batchId' items slotReleased) =>
    (true, t.keepRest k batchId' (items.filter fun x => x.identity ∉ payloads.map (·.identity)) slotReleased
      (by
        have := t.keyed k _ ((Dict.mem_entries_iff _).mp (List.mem_of_find?_eq_some h))
        cases k <;> exact this))
  | _ => (false, t)

/-! ## Recovery -/

/-- The pending dispatches of a worker, oldest first. -/
def pendingOf (t : WorkerPipesTransport κ π) (w : Nat) :
    List (PendingDispatchKey × PendingDispatch κ π) :=
  t.pendingDispatch.entries.filter fun e => e.1.workerIndex = w

/-- `recover_pending_dispatches`: the payloads of a worker, with the entries and their slots gone. -/
def recoverPendingDispatches (t : WorkerPipesTransport κ π) (w : Nat) :
    List (WorkItem κ π) × WorkerPipesTransport κ π :=
  let held := (t.pendingOf w).filter fun e => !e.2.slotReleased
  ((t.pendingOf w).flatMap fun e => e.2.payloads,
    held.foldl (fun t _ => t.releaseSlot queueSize)
      { pendingDispatch := t.pendingDispatch.filter fun k _ => k.workerIndex ≠ w
        slots := t.slots
        keyed := fun k d h => by
          rw [Dict.get?_filter] at h
          exact t.keyed k d (Option.filter_eq_some_iff.mp h).1 })

end Slots

/-! ## What is pending -/

/-- The identity is in a pending dispatch. -/
def Pends (t : WorkerPipesTransport κ π) (work : LogicalWorkIdentity) : Prop :=
  ∃ k d, t.pendingDispatch.get? k = some d ∧ ∃ x ∈ d.payloads, x.identity = work

variable {t : WorkerPipesTransport κ π} {work : LogicalWorkIdentity} {queueSize : Nat}

theorem pends_congr {t' : WorkerPipesTransport κ π} (h : t'.pendingDispatch = t.pendingDispatch) :
    t'.Pends work ↔ t.Pends work := by
  unfold Pends
  rw [h]

@[simp] theorem pends_releaseSlot : (t.releaseSlot queueSize).Pends work ↔ t.Pends work := pends_congr rfl

@[simp] theorem pends_acquireSlot : t.acquireSlot.Pends work ↔ t.Pends work := pends_congr rfl

/-- Storing keeps what the key did not hold. -/
theorem pends_store {k : PendingDispatchKey} {d : PendingDispatch κ π} {hd : d.Keyed k} (h : t.Pends work)
    (hk : ∀ d', t.pendingDispatch.get? k = some d' → (∃ x ∈ d'.payloads, x.identity = work) →
      ∃ x ∈ d.payloads, x.identity = work) : (t.store k d hd).Pends work := by
  obtain ⟨k', d', hget, hx⟩ := h
  by_cases hkk : k = k'
  · subst hkk
    exact ⟨k, d, by simp [store], hk d' hget hx⟩
  · exact ⟨k', d', by simp [store, Dict.get?_set, hkk, hget], hx⟩

theorem pends_store_self {k : PendingDispatchKey} {d : PendingDispatch κ π} {hd : d.Keyed k}
    {x : WorkItem κ π} (hx : x ∈ d.payloads) : (t.store k d hd).Pends x.identity :=
  ⟨k, d, by simp [store], x, hx, rfl⟩

/-- Forgetting a key keeps what it did not hold. -/
theorem pends_forget {k : PendingDispatchKey} (h : t.Pends work)
    (hk : ∀ d, t.pendingDispatch.get? k = some d → ∀ x ∈ d.payloads, x.identity ≠ work) :
    (t.forget k).Pends work := by
  obtain ⟨k', d', hget, x, hx, hwork⟩ := h
  by_cases hkk : k = k'
  · subst hkk
    exact absurd hwork (hk d' hget x hx)
  · exact ⟨k', d', by simp [forget, Dict.get?_erase, hkk, hget], x, hx, hwork⟩

/-- An item key holds one item, the one that it names. -/
theorem payloads_of_itemKey {w : Nat} {work' : LogicalWorkIdentity} {d : PendingDispatch κ π}
    (h : t.pendingDispatch.get? (.item w work') = some d) : ∀ x ∈ d.payloads, x.identity = work' := by
  have hk := t.keyed _ _ h
  cases d with
  | item payload =>
    intro x hx
    rw [List.mem_singleton.mp hx]
    exact hk
  | routeBatch => exact hk.elim

theorem pends_forget_itemKey {w : Nat} {work' : LogicalWorkIdentity} (h : t.Pends work)
    (hne : work ≠ work') : (t.forget (.item w work')).Pends work :=
  pends_forget h fun _ hget x hx hwork => hne (hwork.symm.trans (payloads_of_itemKey hget x hx))

theorem pends_storeItem {w : Nat} {x : WorkItem κ π} (h : t.Pends work) : (t.storeItem w x).Pends work := by
  refine pends_store (pends_acquireSlot.mpr h) fun d' hget hx => ?_
  obtain ⟨y, hy, rfl⟩ := hx
  exact ⟨x, by simp [PendingDispatch.payloads], (payloads_of_itemKey hget y hy).symm⟩

theorem pends_storeItem_self (w : Nat) (x : WorkItem κ π) : (t.storeItem w x).Pends x.identity :=
  pends_store_self (by simp [PendingDispatch.payloads])

theorem pends_forgetItem {w : Nat} {x : WorkItem κ π} (h : t.Pends work) (hne : work ≠ x.identity) :
    (t.forgetItem queueSize w x).Pends work :=
  pends_releaseSlot.mpr (pends_forget_itemKey (pends_storeItem h) hne)

section Batch

variable {w batchId : Nat} {items : List (WorkItem κ π)}

theorem pends_storeBatch (h : t.Pends work)
    (hfresh : t.pendingDispatch.get? (.routeBatch w batchId) = none) :
    (t.storeBatch w batchId items).Pends work :=
  pends_store (pends_acquireSlot.mpr h) fun d' hget _ => by
    rw [show t.acquireSlot.pendingDispatch = t.pendingDispatch from rfl, hfresh] at hget
    cases hget

theorem pends_storeBatch_self {x : WorkItem κ π} (hx : x ∈ items) :
    (t.storeBatch w batchId items).Pends x.identity := pends_store_self hx

theorem pends_forgetBatch (h : t.Pends work)
    (hfresh : t.pendingDispatch.get? (.routeBatch w batchId) = none) :
    (t.forgetBatch queueSize w batchId items).Pends work := by
  refine pends_releaseSlot.mpr ?_
  obtain ⟨k, d, hget, hx⟩ := h
  have hk : PendingDispatchKey.routeBatch w batchId ≠ k := by
    rintro rfl
    rw [hfresh] at hget
    cases hget
  refine ⟨k, d, ?_, hx⟩
  simp [forget, storeBatch, store, acquireSlot, Dict.get?_erase, Dict.get?_set, hk, hget]

end Batch

/-- What is left of a batch stays pending. -/
theorem pends_keepRest {k : PendingDispatchKey} {batchId : Nat} {items rest : List (WorkItem κ π)}
    {released slotReleased : Bool} {hk : (PendingDispatch.routeBatch batchId rest slotReleased).Keyed k}
    (hget : t.pendingDispatch.get? k = some (.routeBatch batchId items released)) (h : t.Pends work)
    (hrest : ∀ x ∈ items, x.identity = work → x ∈ rest) :
    (t.keepRest k batchId rest slotReleased hk).Pends work := by
  unfold keepRest
  split
  · rename_i hnil
    refine pends_forget h fun d hd x hx hwork => ?_
    rw [hget] at hd
    cases hd
    have := hrest x hx hwork
    rw [hnil] at this
    cases this
  · refine pends_store h fun d hd hx => ?_
    rw [hget] at hd
    cases hd
    obtain ⟨x, hx, hwork⟩ := hx
    exact ⟨x, hrest x hx hwork, hwork⟩

theorem pends_startInBatch {key : InFlightRegistryKey} {payload : WorkItem κ π} (h : t.Pends work)
    (hne : work ≠ payload.identity) : (t.startInBatch queueSize key payload).Pends work := by
  unfold startInBatch
  split
  · rename_i k batchId items slotReleased hfind
    have hget := (Dict.mem_entries_iff _).mp (List.mem_of_find?_eq_some hfind)
    have hkeep : ∀ x ∈ items, x.identity = work → x ∈ withoutIdentity items payload.identity :=
      fun x hx hwork => List.mem_filter.mpr ⟨hx, by simpa [hwork] using hne⟩
    dsimp only
    split
    · exact pends_keepRest hget h hkeep
    · exact pends_releaseSlot.mpr (pends_keepRest hget h hkeep)
  · exact h

/-- A start takes at most its own identity off the pending dispatches. -/
theorem pends_handleStart {key : InFlightRegistryKey} {payload : WorkItem κ π} (h : t.Pends work)
    (hne : work ≠ payload.identity) : (t.handleStart queueSize key payload).Pends work := by
  unfold handleStart
  split
  · rename_i k hk
    split
    · unfold startKey at hk
      split at hk
      · cases hk
        exact pends_releaseSlot.mpr (pends_forget_itemKey h hne)
      · cases hk
    · exact pends_startInBatch h hne
  · exact pends_startInBatch h hne

/-- What leaves the pending dispatches is in the tail of a batch that is still pending. -/
theorem pends_handleNotStarted {batchId : Nat} {payloads : List (WorkItem κ π)} (h : t.Pends work) :
    (t.handleNotStarted batchId payloads).2.Pends work ∨
      (t.handleNotStarted batchId payloads).1 = true ∧ ∃ x ∈ payloads, x.identity = work := by
  by_cases hx : ∃ x ∈ payloads, x.identity = work
  · unfold handleNotStarted
    split
    · exact .inr ⟨rfl, hx⟩
    · exact .inl h
  · refine .inl ?_
    unfold handleNotStarted
    split
    · rename_i k batchId' items slotReleased hfind
      have hget := (Dict.mem_entries_iff _).mp (List.mem_of_find?_eq_some hfind)
      refine pends_keepRest hget h fun x hxi hwork => List.mem_filter.mpr ⟨hxi, ?_⟩
      simp only [decide_eq_true_eq, List.mem_map, not_exists, not_and]
      exact fun y hy hyx => hx ⟨y, hy, hyx.trans hwork⟩
    · exact h

theorem pendingDispatch_releaseAll {α : Type} (l : List α) :
    ∀ t : WorkerPipesTransport κ π,
      (l.foldl (fun t _ => t.releaseSlot queueSize) t).pendingDispatch = t.pendingDispatch := by
  induction l with
  | nil => intro t; rfl
  | cons a l ih => intro t; exact ih (t.releaseSlot queueSize)

/-- Recovery hands back everything that it removes. -/
theorem pends_recover {w : Nat} (h : t.Pends work) :
    (t.recoverPendingDispatches queueSize w).2.Pends work ∨
      ∃ x ∈ (t.recoverPendingDispatches queueSize w).1, x.identity = work := by
  obtain ⟨k, d, hget, x, hx, hwork⟩ := h
  by_cases hw : k.workerIndex = w
  · refine .inr ⟨x, ?_, hwork⟩
    refine List.mem_flatMap.mpr ⟨(k, d), ?_, hx⟩
    exact List.mem_filter.mpr ⟨(Dict.mem_entries_iff _).mpr hget, by simpa using hw⟩
  · refine .inl ⟨k, d, ?_, x, hx, hwork⟩
    unfold recoverPendingDispatches
    rw [pendingDispatch_releaseAll, Dict.get?_filter, hget]
    simp [Option.filter, hw]

end WorkerPipesTransport

end PyrallelConsumer
