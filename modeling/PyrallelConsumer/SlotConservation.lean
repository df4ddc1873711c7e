import PyrallelConsumer.DispatchRace

/-!
# PyrallelConsumer.SlotConservation

The queue slots of the worker-pipe transport, `execution_plane/process_transport_worker_pipes.py`, over
sequential runs before the shutdown. A dispatch takes a slot for the entry that it stores. The slot comes
back with a failed send, with the first start of the entry's items, or with recovery, and the semaphore is
bounded, so a second release would go unnoticed.

A skipped tail takes items off an entry without a release. Its worker puts the `not_started` event after
the start of an earlier item of the batch, which has released the slot.

* `Conserves` — free slots and entries that hold one make up the queue size.
* `handleStart_narrows`, `conserves_handleStart` — what a start can do; likewise for the other operations.
* `slots_conserved` — the whole runs.
-/

set_option linter.unusedSectionVars false

namespace PyrallelConsumer

variable {κ π : Type}

namespace WorkerPipesTransport

variable {t t' : WorkerPipesTransport κ π} {queueSize : Nat}

/-- `dispatch_payload` or `dispatch_route_batch`, once a slot is free: packing, validation and the send
succeed, or the entry is removed again. -/
def dispatch (t : WorkerPipesTransport κ π) (queueSize : Nat) (c : DispatchCall κ π) (sent : Bool) :
    WorkerPipesTransport κ π :=
  match c with
  | .payload w x => if sent then t.storeItem w x else t.forgetItem queueSize w x
  | .routeBatch w batchId _ items =>
    if sent then t.storeBatch w batchId items else t.forgetBatch queueSize w batchId items

theorem dispatch_eq (t : WorkerPipesTransport κ π) (queueSize : Nat) (c : DispatchCall κ π) (sent : Bool) :
    t.dispatch queueSize c sent =
      if sent then t.acquireSlot.store c.key c.pending c.keyed
      else ((t.acquireSlot.store c.key c.pending c.keyed).forget c.key).releaseSlot queueSize := by
  cases c <;> rfl

/-- `requeue_payloads`: one dispatch after the other, up to the first that raises. -/
def requeuePayloads (worker : WorkItem κ π → Nat) (queueSize : Nat) :
    WorkerPipesTransport κ π → List (WorkItem κ π × Bool) → WorkerPipesTransport κ π
  | t, [] => t
  | t, (x, sent) :: rest =>
    let t := t.dispatch queueSize (.payload (worker x) x) sent
    if sent then requeuePayloads worker queueSize t rest else t

/-! ## Counting the slots -/

/-- The free slots and the entries whose slot has not been released. -/
def Conserves (queueSize : Nat) (t : WorkerPipesTransport κ π) : Prop := t.slots + t.unreleased = queueSize

def held (d : PendingDispatch κ π) : Nat := if d.slotReleased then 0 else 1

theorem unreleased_eq (t : WorkerPipesTransport κ π) : t.unreleased = t.pendingDispatch.sum held := rfl

theorem unreleased_store (t : WorkerPipesTransport κ π) (k : PendingDispatchKey) (d : PendingDispatch κ π)
    (hd : d.Keyed k) :
    (t.store k d hd).unreleased + (t.pendingDispatch.get? k).elim 0 held = t.unreleased + held d :=
  t.pendingDispatch.sum_set held k d

theorem unreleased_forgetKey (t : WorkerPipesTransport κ π) (k : PendingDispatchKey) :
    (t.forget k).unreleased + (t.pendingDispatch.get? k).elim 0 held = t.unreleased :=
  t.pendingDispatch.sum_erase held k

/-- A release of a slot that is taken is no overflow. -/
theorem slots_releaseSlot (h : t.slots < queueSize) : (t.releaseSlot queueSize).slots = t.slots + 1 := if_pos h

theorem unreleased_releaseSlot (t : WorkerPipesTransport κ π) : (t.releaseSlot queueSize).unreleased = t.unreleased :=
  rfl

theorem unreleased_keepRest {k : PendingDispatchKey} {batchId : Nat} {rest : List (WorkItem κ π)}
    {released : Bool} (hk : (PendingDispatch.routeBatch batchId rest released).Keyed k) {d : PendingDispatch κ π}
    (hget : t.pendingDispatch.get? k = some d) :
    (t.keepRest k batchId rest released hk).unreleased + held d =
      t.unreleased + if rest = [] then 0 else held (.routeBatch batchId rest released : PendingDispatch κ π) := by
  unfold keepRest
  split
  · have h := t.unreleased_forgetKey k
    rw [hget] at h
    exact h
  · have h := t.unreleased_store k _ hk
    rw [hget] at h
    exact h

theorem slots_keepRest {k : PendingDispatchKey} {batchId : Nat} {rest : List (WorkItem κ π)} {released : Bool}
    {hk : (PendingDispatch.routeBatch batchId rest released).Keyed k} :
    (t.keepRest k batchId rest released hk).slots = t.slots := by
  unfold keepRest
  split <;> rfl

/-- The release of the last holder of a slot: it is free, and one entry less holds one. -/
theorem Conserves.release (h : Conserves queueSize t) (hslots : t'.slots = t.slots)
    (hheld : t'.unreleased + 1 = t.unreleased) : Conserves queueSize (t'.releaseSlot queueSize) := by
  unfold Conserves at h ⊢
  rw [slots_releaseSlot (by omega), unreleased_releaseSlot]
  omega

theorem Conserves.same (h : Conserves queueSize t) (hslots : t'.slots = t.slots)
    (hheld : t'.unreleased = t.unreleased) : Conserves queueSize t' := by
  unfold Conserves at h ⊢
  omega

/-! ## Dispatches -/

/-- Items and batch ids are pending once at a time, and a slot is free. -/
structure Admits (t : WorkerPipesTransport κ π) (c : DispatchCall κ π) : Prop where
  slot : 0 < t.slots
  items : ∀ i ∈ c.identities, ¬t.Pends i
  batch : ∀ w batchId, c.key = .routeBatch w batchId → ∀ w', t.pendingDispatch.get? (.routeBatch w' batchId) = none

theorem Admits.fresh {c : DispatchCall κ π} (h : t.Admits c) : t.pendingDispatch.get? c.key = none := by
  cases c with
  | payload w x =>
    cases hget : t.pendingDispatch.get? (.item w x.identity) with
    | none => exact hget
    | some d =>
      have hkeyed := t.keyed _ _ hget
      cases d with
      | item payload =>
        have hpends : t.Pends x.identity := ⟨_, _, hget, payload, List.mem_singleton_self _, hkeyed⟩
        exact absurd hpends (h.items x.identity (List.mem_singleton_self _))
      | routeBatch => exact hkeyed.elim
  | routeBatch w batchId route items => exact h.batch w batchId rfl w

/-- A dispatch stores the entry of its call, if the message is sent, and leaves the others alone. -/
theorem get?_dispatch {c : DispatchCall κ π} (h : t.Admits c) (sent : Bool) (k : PendingDispatchKey) :
    (t.dispatch queueSize c sent).pendingDispatch.get? k =
      if sent = true ∧ c.key = k then some c.pending else t.pendingDispatch.get? k := by
  rw [dispatch_eq]
  cases sent with
  | true =>
    simp only [if_true, true_and]
    exact t.pendingDispatch.get?_set c.key k c.pending
  | false =>
    simp only [Bool.false_eq_true, if_false, false_and]
    change ((t.pendingDispatch.set c.key c.pending).erase c.key).get? k = _
    rw [Dict.get?_erase, Dict.get?_set]
    split
    · rename_i heq
      rw [← heq, h.fresh]
    · rfl

theorem conserves_dispatch (h : Conserves queueSize t) {c : DispatchCall κ π} (hc : t.Admits c) (sent : Bool) :
    Conserves queueSize (t.dispatch queueSize c sent) := by
  have hslot := hc.slot
  have hstore := t.acquireSlot.unreleased_store c.key c.pending c.keyed
  rw [show t.acquireSlot.pendingDispatch = t.pendingDispatch from rfl, hc.fresh,
    show t.acquireSlot.unreleased = t.unreleased from rfl] at hstore
  simp only [Option.elim_none, held, c.slotReleased_pending, Bool.false_eq_true, if_false] at hstore
  have hslots : (t.acquireSlot.store c.key c.pending c.keyed).slots = t.slots - 1 := rfl
  have hstored : Conserves queueSize (t.acquireSlot.store c.key c.pending c.keyed) := by
    unfold Conserves at h ⊢
    omega
  rw [dispatch_eq]
  cases sent with
  | true => exact hstored
  | false =>
    have hget : (t.acquireSlot.store c.key c.pending c.keyed).pendingDispatch.get? c.key = some c.pending :=
      t.pendingDispatch.get?_set_self c.key c.pending
    exact hstored.release rfl (DispatchRace.unreleased_forget hget)

/-- Every dispatch of the requeue is admitted when its turn comes. -/
def AdmitsAll (worker : WorkItem κ π → Nat) (queueSize : Nat) :
    WorkerPipesTransport κ π → List (WorkItem κ π × Bool) → Prop
  | _, [] => True
  | t, (x, sent) :: rest =>
    t.Admits (.payload (worker x) x) ∧
      (sent = true → AdmitsAll worker queueSize (t.dispatch queueSize (.payload (worker x) x) sent) rest)

/-- What every admitted dispatch of a single item keeps, a requeue keeps. -/
theorem requeuePayloads_induction {P : WorkerPipesTransport κ π → Prop} {worker : WorkItem κ π → Nat}
    (hstep : ∀ t x sent, P t → t.Admits (.payload (worker x) x) →
      P (t.dispatch queueSize (.payload (worker x) x) sent)) (l : List (WorkItem κ π × Bool)) :
    ∀ t, P t → t.AdmitsAll worker queueSize l → P (t.requeuePayloads worker queueSize l) := by
  induction l with
  | nil => intro t h _; exact h
  | cons e l ih =>
    intro t h hadmits
    obtain ⟨x, sent⟩ := e
    have hx := hstep t x sent h hadmits.1
    simp only [requeuePayloads]
    split
    · rename_i hsent
      exact ih _ hx (hadmits.2 hsent)
    · exact hx

/-! ## Registry events and recovery -/

/-- Entries only lose items, and an entry that holds its slot afterwards is as it was. -/
def Narrows (t t' : WorkerPipesTransport κ π) : Prop :=
  ∀ k d', t'.pendingDispatch.get? k = some d' → ∃ d, t.pendingDispatch.get? k = some d ∧
    (∀ x ∈ d'.payloads, x ∈ d.payloads) ∧ (d'.slotReleased = false → d' = d)

theorem narrows_refl (t : WorkerPipesTransport κ π) : Narrows t t := fun _ d h => ⟨d, h, fun _ hx => hx, fun _ => rfl⟩

theorem narrows_forget (t : WorkerPipesTransport κ π) (k : PendingDispatchKey) : Narrows t (t.forget k) := by
  intro k' d' h
  change (t.pendingDispatch.erase k).get? k' = some d' at h
  rw [Dict.get?_erase] at h
  split at h
  · cases h
  · exact ⟨d', h, fun _ hx => hx, fun _ => rfl⟩

/-- The rest of a batch is kept without its slot. -/
theorem narrows_keepRest {k : PendingDispatchKey} {batchId : Nat} {items rest : List (WorkItem κ π)}
    {released : Bool} (hk : (PendingDispatch.routeBatch batchId rest true).Keyed k)
    (hget : t.pendingDispatch.get? k = some (.routeBatch batchId items released)) (hrest : ∀ x ∈ rest, x ∈ items) :
    Narrows t (t.keepRest k batchId rest true hk) := by
  unfold keepRest
  split
  · exact narrows_forget t k
  · intro k' d' h
    change (t.pendingDispatch.set k _).get? k' = some d' at h
    rw [Dict.get?_set] at h
    split at h
    · rename_i heq
      cases h
      exact ⟨.routeBatch batchId items released, heq ▸ hget, hrest, fun hfalse => by cases hfalse⟩
    · exact ⟨d', h, fun _ hx => hx, fun _ => rfl⟩

/-- What a start does: it takes the entry of its item, or it takes its item off the batch that holds it, or
nothing that is pending is meant. -/
inductive StartStep (queueSize : Nat) (key : InFlightRegistryKey) (payload : WorkItem κ π)
    (t : WorkerPipesTransport κ π) : WorkerPipesTransport κ π → Prop where
  | item (k : PendingDispatchKey) (d : PendingDispatch κ π) (hkey : startKey key payload = some k)
      (hget : t.pendingDispatch.get? k = some d) :
      StartStep queueSize key payload t ((t.forget k).releaseSlot queueSize)
  | batch (k : PendingDispatchKey) (batchId : Nat) (items : List (WorkItem κ π)) (released : Bool)
      (hfind : t.pendingDispatch.entries.find? (holdsStarted key payload) = some (k, .routeBatch batchId items released))
      (hk : (PendingDispatch.routeBatch batchId (withoutIdentity items payload.identity) true).Keyed k) :
      StartStep queueSize key payload t
        (if released then t.keepRest k batchId (withoutIdentity items payload.identity) true hk
        else (t.keepRest k batchId (withoutIdentity items payload.identity) true hk).releaseSlot queueSize)
  | unknown (hfind : ∀ k batchId items released,
      t.pendingDispatch.entries.find? (holdsStarted key payload) ≠ some (k, .routeBatch batchId items released)) :
      StartStep queueSize key payload t t

theorem startInBatch_cases (t : WorkerPipesTransport κ π) (queueSize : Nat) (key : InFlightRegistryKey)
    (payload : WorkItem κ π) : StartStep queueSize key payload t (t.startInBatch queueSize key payload) := by
  unfold startInBatch
  split
  · rename_i k batchId items released hfind
    exact .batch k batchId items released hfind _
  · rename_i hnone
    exact .unknown fun k batchId items released hfind => hnone k batchId items released hfind

theorem handleStart_cases (t : WorkerPipesTransport κ π) (queueSize : Nat) (key : InFlightRegistryKey)
    (payload : WorkItem κ π) : StartStep queueSize key payload t (t.handleStart queueSize key payload) := by
  unfold handleStart
  split
  · rename_i k hkey
    split
    · rename_i hcontains
      obtain ⟨d, hd⟩ := Option.isSome_iff_exists.mp hcontains
      exact .item k d hkey hd
    · exact startInBatch_cases t queueSize key payload
  · exact startInBatch_cases t queueSize key payload

theorem held_of_itemKey {w : Nat} {work : LogicalWorkIdentity} {d : PendingDispatch κ π}
    (h : t.pendingDispatch.get? (.item w work) = some d) : held d = 1 := by
  have hkeyed := t.keyed _ _ h
  cases d with
  | item payload => rfl
  | routeBatch => exact hkeyed.elim

theorem startKey_eq_some {key : InFlightRegistryKey} {payload : WorkItem κ π} {k : PendingDispatchKey}
    (h : startKey key payload = some k) :
    k = .item key.workerIndex payload.identity ∧ payload.tp.topic = key.topic ∧
      payload.tp.partition = key.partition ∧ payload.offset = key.offset := by
  unfold startKey at h
  split at h
  · rename_i hmatch
    cases h
    exact ⟨rfl, hmatch⟩
  · cases h

theorem conserves_handleStart (h : Conserves queueSize t) (key : InFlightRegistryKey) (payload : WorkItem κ π) :
    Conserves queueSize (t.handleStart queueSize key payload) := by
  have hstep := handleStart_cases t queueSize key payload
  generalize t.handleStart queueSize key payload = t' at hstep
  cases hstep with
  | item k d hkey hget =>
    obtain ⟨rfl, -⟩ := startKey_eq_some hkey
    have hforget := t.unreleased_forgetKey (.item key.workerIndex payload.identity)
    rw [hget, Option.elim_some, held_of_itemKey hget] at hforget
    exact h.release rfl hforget
  | batch k batchId items released hfind hk =>
    have hget := (Dict.mem_entries_iff _).mp (List.mem_of_find?_eq_some hfind)
    have hrest := t.unreleased_keepRest hk hget
    have hnone : (if withoutIdentity items payload.identity = [] then 0
        else held (.routeBatch batchId (withoutIdentity items payload.identity) true : PendingDispatch κ π)) = 0 := by
      split <;> rfl
    rw [hnone] at hrest
    cases released with
    | true => exact h.same slots_keepRest hrest
    | false => exact h.release slots_keepRest hrest
  | unknown hfind => exact h

theorem narrows_handleStart (t : WorkerPipesTransport κ π) (queueSize : Nat) (key : InFlightRegistryKey)
    (payload : WorkItem κ π) : Narrows t (t.handleStart queueSize key payload) := by
  have hstep := handleStart_cases t queueSize key payload
  generalize t.handleStart queueSize key payload = t' at hstep
  cases hstep with
  | item k d hkey hget => exact narrows_forget t k
  | batch k batchId items released hfind hk =>
    have hget := (Dict.mem_entries_iff _).mp (List.mem_of_find?_eq_some hfind)
    have hkeep := narrows_keepRest hk hget fun x hx => (List.mem_filter.mp hx).1
    split <;> exact hkeep
  | unknown hfind => exact narrows_refl t

/-- The entries of the batch have released their slot. -/
def BatchReleased (t : WorkerPipesTransport κ π) (batchId : Nat) : Prop :=
  ∀ k items, t.pendingDispatch.get? k ≠ some (.routeBatch batchId items false)

/-- A skipped tail is taken off an entry without a slot, or nothing happens. -/
inductive NotStartedStep (batchId : Nat) (payloads : List (WorkItem κ π)) (t : WorkerPipesTransport κ π) :
    WorkerPipesTransport κ π → Prop where
  | batch (k : PendingDispatchKey) (items rest : List (WorkItem κ π))
      (hget : t.pendingDispatch.get? k = some (.routeBatch batchId items true))
      (hrest : ∀ x ∈ rest, x ∈ items) (hk : (PendingDispatch.routeBatch batchId rest true).Keyed k) :
      NotStartedStep batchId payloads t (t.keepRest k batchId rest true hk)
  | unknown : NotStartedStep batchId payloads t t

theorem handleNotStarted_cases {batchId : Nat} (hreleased : t.BatchReleased batchId)
    (payloads : List (WorkItem κ π)) :
    NotStartedStep batchId payloads t (t.handleNotStarted batchId payloads).2 := by
  unfold handleNotStarted
  split
  · rename_i k batchId' items released hfind
    have hbatch : batchId' = batchId := by
      have := List.find?_some hfind
      simpa [hasBatchId] using this
    subst hbatch
    have hget := (Dict.mem_entries_iff _).mp (List.mem_of_find?_eq_some hfind)
    cases released with
    | true => exact .batch k items _ hget (fun x hx => (List.mem_filter.mp hx).1) _
    | false => exact absurd hget (hreleased k items)
  · exact .unknown

theorem conserves_handleNotStarted (h : Conserves queueSize t) {batchId : Nat} (hreleased : t.BatchReleased batchId)
    (payloads : List (WorkItem κ π)) : Conserves queueSize (t.handleNotStarted batchId payloads).2 := by
  have hstep := handleNotStarted_cases hreleased payloads
  generalize (t.handleNotStarted batchId payloads).2 = t' at hstep
  cases hstep with
  | batch k items rest hget hrest hk =>
    have hkeep := t.unreleased_keepRest hk hget
    have hnone : (if rest = [] then 0
        else held (.routeBatch batchId rest true : PendingDispatch κ π)) = 0 := by
      split <;> rfl
    rw [hnone] at hkeep
    exact h.same slots_keepRest hkeep
  | unknown => exact h

theorem narrows_handleNotStarted {batchId : Nat} (hreleased : t.BatchReleased batchId)
    (payloads : List (WorkItem κ π)) : Narrows t (t.handleNotStarted batchId payloads).2 := by
  have hstep := handleNotStarted_cases hreleased payloads
  generalize (t.handleNotStarted batchId payloads).2 = t' at hstep
  cases hstep with
  | batch k items rest hget hrest hk => exact narrows_keepRest hk hget hrest
  | unknown => exact narrows_refl t

theorem slots_releaseAll {α : Type} (l : List α) :
    ∀ t : WorkerPipesTransport κ π, t.slots + l.length ≤ queueSize →
      (l.foldl (fun t _ => t.releaseSlot queueSize) t).slots = t.slots + l.length := by
  induction l with
  | nil => intro t _; rfl
  | cons a l ih =>
    intro t h
    simp only [List.length_cons] at h ⊢
    have hslot : (t.releaseSlot queueSize).slots = t.slots + 1 := slots_releaseSlot (by omega)
    rw [List.foldl_cons, ih _ (by omega), hslot]
    omega

theorem conserves_recover (h : Conserves queueSize t) (w : Nat) :
    Conserves queueSize (t.recoverPendingDispatches queueSize w).2 := by
  have hunreleased := DispatchRace.unreleased_recover t queueSize w
  unfold Conserves at h ⊢
  have hslots : (t.recoverPendingDispatches queueSize w).2.slots =
      t.slots + ((t.pendingOf w).filter fun e => !e.2.slotReleased).length :=
    slots_releaseAll _ _ (by dsimp only; omega)
  omega

theorem narrows_recover (t : WorkerPipesTransport κ π) (queueSize w : Nat) :
    Narrows t (t.recoverPendingDispatches queueSize w).2 := by
  intro k d h
  rw [DispatchRace.get?_recover] at h
  split at h
  · cases h
  · exact ⟨d, h, fun _ hx => hx, fun _ => rfl⟩

/-- An item is pending under one key only. -/
def Distinct (t : WorkerPipesTransport κ π) : Prop :=
  ∀ k d k' d' x x', t.pendingDispatch.get? k = some d → t.pendingDispatch.get? k' = some d' → x ∈ d.payloads →
    x' ∈ d'.payloads → x.identity = x'.identity → k = k'

theorem Distinct.narrows (h : t.Distinct) (hn : Narrows t t') : t'.Distinct := by
  intro k d k' d' x x' hd hd' hx hx' heq
  obtain ⟨e, he, hsub, -⟩ := hn k d hd
  obtain ⟨e', he', hsub', -⟩ := hn k' d' hd'
  exact h k e k' e' x x' he he' (hsub x hx) (hsub' x' hx') heq

theorem Distinct.dispatch (h : t.Distinct) {c : DispatchCall κ π} (hc : t.Admits c) (sent : Bool) :
    (t.dispatch queueSize c sent).Distinct := by
  intro k d k' d' x x' hd hd' hx hx' heq
  rw [get?_dispatch hc] at hd hd'
  have hnew : ∀ {k d x y}, t.pendingDispatch.get? k = some d → x ∈ d.payloads → y ∈ c.pending.payloads →
      x.identity ≠ y.identity := by
    intro k d x y hget hx hy hxy
    rw [c.payloads_pending] at hy
    exact hc.items y.identity (List.mem_map.mpr ⟨y, hy, rfl⟩) ⟨k, d, hget, x, hx, hxy⟩
  split at hd
  · rename_i hk
    cases hd
    split at hd'
    · rename_i hk'
      exact hk.2.symm.trans hk'.2
    · exact absurd heq.symm (hnew hd' hx' hx)
  · split at hd'
    · cases hd'
      exact absurd heq (hnew hd hx hx')
    · exact h k d k' d' x x' hd hd' hx hx' heq

theorem mem_of_holdsStarted {key : InFlightRegistryKey} {payload : WorkItem κ π} {k : PendingDispatchKey}
    {batchId : Nat} {items : List (WorkItem κ π)} {released : Bool}
    (h : holdsStarted key payload (k, .routeBatch batchId items released) = true) :
    ∃ y ∈ items, y.identity = payload.identity := by
  simp only [holdsStarted, Bool.and_eq_true, decide_eq_true_eq, List.any_eq_true] at h
  obtain ⟨-, y, hy, hkey⟩ := h
  obtain ⟨heq, -⟩ := startKey_eq_some hkey
  simp only [PendingDispatchKey.item.injEq, true_and] at heq
  exact ⟨y, hy, heq.symm⟩

/-- What is left of a started batch no longer waits for its slot. -/
theorem keepRest_released {k : PendingDispatchKey} {batchId batchId' : Nat} {rest items : List (WorkItem κ π)}
    (hk : (PendingDispatch.routeBatch batchId rest true).Keyed k) :
    (t.keepRest k batchId rest true hk).pendingDispatch.get? k ≠ some (.routeBatch batchId' items false) := by
  intro heq
  unfold keepRest at heq
  split at heq
  · change (t.pendingDispatch.erase _).get? _ = _ at heq
    simp [Dict.get?_erase] at heq
  · change (t.pendingDispatch.set _ _).get? _ = _ at heq
    simp at heq

/-- The start of an item of a pending batch takes the slot of the batch. -/
theorem released_of_start (hdistinct : t.Distinct) {w batchId : Nat} {items : List (WorkItem κ π)} {released : Bool}
    (hget : t.pendingDispatch.get? (.routeBatch w batchId) = some (.routeBatch batchId items released))
    {x payload : WorkItem κ π} (hx : x ∈ items) (hidentity : payload.identity = x.identity) :
    (t.handleStart queueSize (x.registryKey w) payload).pendingDispatch.get? (.routeBatch w batchId) ≠
      some (.routeBatch batchId items false) := by
  have hholds : holdsStarted (x.registryKey w) payload (.routeBatch w batchId, .routeBatch batchId items released) =
      true := by
    simp only [holdsStarted, Bool.and_eq_true, decide_eq_true_eq, List.any_eq_true]
    refine ⟨rfl, x, hx, ?_⟩
    simp [startKey, WorkItem.registryKey, hidentity]
  have hmem := (Dict.mem_entries_iff _).mpr hget
  have hstep := handleStart_cases t queueSize (x.registryKey w) payload
  generalize t.handleStart queueSize (x.registryKey w) payload = t' at hstep
  cases hstep with
  | item k d hkey hd =>
    -- the item would be pending on its own as well
    obtain ⟨rfl, -⟩ := startKey_eq_some hkey
    have hkeyed := t.keyed _ _ hd
    cases d with
    | item payload' =>
      have := hdistinct _ _ _ _ payload' x hd hget (List.mem_singleton_self _) hx (hkeyed.trans hidentity)
      cases this
    | routeBatch => exact hkeyed.elim
  | batch k batchId' items' released' hfind hk =>
    -- the batch found holds an item of the same work, so it is the same batch
    have hd := (Dict.mem_entries_iff _).mp (List.mem_of_find?_eq_some hfind)
    obtain ⟨y, hy, hyidentity⟩ := mem_of_holdsStarted (List.find?_some hfind)
    have hkey := hdistinct _ _ _ _ y x hd hget hy hx (hyidentity.trans hidentity)
    subst hkey
    split
    · exact keepRest_released hk
    · exact keepRest_released hk
  | unknown hfind =>
    cases hnone : t.pendingDispatch.entries.find? (holdsStarted (x.registryKey w) payload) with
    | none =>
      have := List.find?_eq_none.mp hnone _ hmem
      exact absurd hholds this
    | some e =>
      obtain ⟨k, d⟩ := e
      cases d with
      | item payload' =>
        have := List.find?_some hnone
        cases this
      | routeBatch batchId' items' released' => exact absurd hnone (hfind k batchId' items' released')

end WorkerPipesTransport

/-! ## Runs -/

open WorkerPipesTransport

/-- A call of the transport; `sent` says that the message was packed, validated and sent. -/
inductive TransportAction (κ π : Type) where
  | dispatch (c : DispatchCall κ π) (sent : Bool)
  | start (key : InFlightRegistryKey) (payload : WorkItem κ π)
  | notStarted (batchId : Nat) (payloads : List (WorkItem κ π))
  | recover (w : Nat)
  | requeue (payloads : List (WorkItem κ π × Bool))

/-- The transport with its calls, newest first. -/
structure TransportRun (κ π : Type) where
  transport : WorkerPipesTransport κ π
  history : List (TransportAction κ π)

/-- The last dispatch of a batch: its worker and its items. -/
def lastDispatch (batchId : Nat) : List (TransportAction κ π) → Option (Nat × List (WorkItem κ π))
  | [] => none
  | .dispatch (.routeBatch w batchId' _ items) _ :: h =>
    if batchId' = batchId then some (w, items) else lastDispatch batchId h
  | _ :: h => lastDispatch batchId h

/-- The start of an item of the batch was handled since the last dispatch of the batch. -/
def Begun (batchId : Nat) : List (TransportAction κ π) → Prop
  | [] => False
  | .dispatch c _ :: h => (∀ w, c.key ≠ .routeBatch w batchId) ∧ Begun batchId h
  | .start key payload :: h =>
    (∃ w items, lastDispatch batchId h = some (w, items) ∧
      ∃ x ∈ items, key = x.registryKey w ∧ payload.identity = x.identity) ∨ Begun batchId h
  | _ :: h => Begun batchId h

/-- A worker puts the `not_started` event of a batch after the start of an item of it. -/
def InPipeOrder (batchId : Nat) (h : List (TransportAction κ π)) : Prop :=
  lastDispatch batchId h = none ∨ Begun batchId h

def slotMachine (κ π : Type) (worker : WorkItem κ π → Nat) (queueSize : Nat) :
    Machine (TransportRun κ π) (TransportAction κ π) where
  init s := s = ⟨.new queueSize, []⟩
  enabled s a :=
    match a with
    | .dispatch c _ => s.transport.Admits c
    | .notStarted batchId _ => InPipeOrder batchId s.history
    | .requeue payloads => s.transport.AdmitsAll worker queueSize payloads
    | _ => True
  next s a :=
    { history := a :: s.history
      transport :=
        match a with
        | .dispatch c sent => s.transport.dispatch queueSize c sent
        | .start key payload => s.transport.handleStart queueSize key payload
        | .notStarted batchId payloads => (s.transport.handleNotStarted batchId payloads).2
        | .recover w => (s.transport.recoverPendingDispatches queueSize w).2
        | .requeue payloads => s.transport.requeuePayloads worker queueSize payloads }

/-- A batch that holds its slot is as it was dispatched, and none of its items has started. -/
structure SlotInv (queueSize : Nat) (t : WorkerPipesTransport κ π) (h : List (TransportAction κ π)) : Prop where
  conserves : t.Conserves queueSize
  distinct : t.Distinct
  unbegun : ∀ w batchId items, t.pendingDispatch.get? (.routeBatch w batchId) = some (.routeBatch batchId items false) →
    lastDispatch batchId h = some (w, items) ∧ ¬Begun batchId h

variable {queueSize : Nat} {t : WorkerPipesTransport κ π} {h : List (TransportAction κ π)}

theorem SlotInv.batchReleased (hinv : SlotInv queueSize t h) {batchId : Nat} (horder : InPipeOrder batchId h) :
    t.BatchReleased batchId := by
  intro k items hget
  have hkeyed := t.keyed _ _ hget
  cases k with
  | item w work => exact hkeyed
  | routeBatch w batchId' =>
    cases hkeyed
    obtain ⟨hlast, hbegun⟩ := hinv.unbegun w batchId items hget
    rcases horder with hnone | hbegun'
    · rw [hlast] at hnone
      cases hnone
    · exact hbegun hbegun'

/-- A step that only narrows the entries, and is no start of a batch that holds its slot afterwards. -/
theorem SlotInv.narrows (hinv : SlotInv queueSize t h) {t' : WorkerPipesTransport κ π}
    (hconserves : t'.Conserves queueSize) (hn : Narrows t t') {h' : List (TransportAction κ π)}
    (hkeeps : ∀ w batchId items, t.pendingDispatch.get? (.routeBatch w batchId) = some (.routeBatch batchId items false) →
      t'.pendingDispatch.get? (.routeBatch w batchId) = some (.routeBatch batchId items false) →
        lastDispatch batchId h = some (w, items) ∧ ¬Begun batchId h →
        lastDispatch batchId h' = some (w, items) ∧ ¬Begun batchId h') : SlotInv queueSize t' h' := by
  refine ⟨hconserves, hinv.distinct.narrows hn, fun w batchId items hget => ?_⟩
  obtain ⟨d, hd, -, hsame⟩ := hn _ _ hget
  have heq := hsame rfl
  subst heq
  exact hkeeps w batchId items hd hget (hinv.unbegun w batchId items hd)

theorem SlotInv.start (hinv : SlotInv queueSize t h) (key : InFlightRegistryKey) (payload : WorkItem κ π) :
    SlotInv queueSize (t.handleStart queueSize key payload) (.start key payload :: h) := by
  refine hinv.narrows (conserves_handleStart hinv.conserves key payload) (narrows_handleStart t queueSize key payload) ?_
  intro w batchId items hget hget' ⟨hlast, hbegun⟩
  refine ⟨hlast, ?_⟩
  rintro (⟨w', items', hlast', x, hx, rfl, hidentity⟩ | hbegun')
  · rw [hlast] at hlast'
    cases hlast'
    exact released_of_start hinv.distinct hget hx hidentity hget'
  · exact hbegun hbegun'

theorem SlotInv.notStarted (hinv : SlotInv queueSize t h) {batchId : Nat} (horder : InPipeOrder batchId h)
    (payloads : List (WorkItem κ π)) :
    SlotInv queueSize (t.handleNotStarted batchId payloads).2 (.notStarted batchId payloads :: h) := by
  have hreleased := hinv.batchReleased horder
  exact hinv.narrows (conserves_handleNotStarted hinv.conserves hreleased payloads)
    (narrows_handleNotStarted hreleased payloads) fun _ _ _ _ _ hold => hold

theorem SlotInv.recover (hinv : SlotInv queueSize t h) (w : Nat) :
    SlotInv queueSize (t.recoverPendingDispatches queueSize w).2 (.recover w :: h) :=
  hinv.narrows (conserves_recover hinv.conserves w) (narrows_recover t queueSize w) fun _ _ _ _ _ hold => hold

/-- The entries of batches after a dispatch: those before it, and the new one. -/
theorem get?_dispatch_batch {c : DispatchCall κ π} (hc : t.Admits c) {sent : Bool} {w batchId : Nat}
    {items : List (WorkItem κ π)}
    (hget : (t.dispatch queueSize c sent).pendingDispatch.get? (.routeBatch w batchId) =
      some (.routeBatch batchId items false)) :
    (∃ route, c = .routeBatch w batchId route items) ∨
      (∀ w', c.key ≠ .routeBatch w' batchId) ∧
        t.pendingDispatch.get? (.routeBatch w batchId) = some (.routeBatch batchId items false) := by
  rw [get?_dispatch hc] at hget
  split at hget
  · rename_i hk
    cases c with
    | payload w' x => cases hk.2
    | routeBatch w' batchId' route items' =>
      cases hk.2
      cases hget
      exact .inl ⟨route, rfl⟩
  · refine .inr ⟨fun w' hkey => ?_, hget⟩
    rw [hc.batch w' batchId hkey w] at hget
    cases hget

theorem SlotInv.dispatch (hinv : SlotInv queueSize t h) {c : DispatchCall κ π} (hc : t.Admits c) (sent : Bool) :
    SlotInv queueSize (t.dispatch queueSize c sent) (.dispatch c sent :: h) := by
  refine ⟨conserves_dispatch hinv.conserves hc sent, hinv.distinct.dispatch hc sent, fun w batchId items hget => ?_⟩
  rcases get?_dispatch_batch hc hget with ⟨route, rfl⟩ | ⟨hother, hold⟩
  · refine ⟨by simp [lastDispatch], fun hbegun => hbegun.1 w rfl⟩
  · obtain ⟨hlast, hbegun⟩ := hinv.unbegun w batchId items hold
    refine ⟨?_, fun hbegun' => hbegun hbegun'.2⟩
    cases c with
    | payload w' x => exact hlast
    | routeBatch w' batchId' route items' =>
      have hne : batchId' ≠ batchId := fun heq => hother w' (by rw [heq]; rfl)
      simpa [lastDispatch, hne] using hlast

theorem SlotInv.requeue (hinv : SlotInv queueSize t h) {worker : WorkItem κ π → Nat}
    {payloads : List (WorkItem κ π × Bool)} (hadmits : t.AdmitsAll worker queueSize payloads) :
    SlotInv queueSize (t.requeuePayloads worker queueSize payloads) (.requeue payloads :: h) := by
  have hstep : ∀ t x sent, SlotInv queueSize t h → t.Admits (.payload (worker x) x) →
      SlotInv queueSize (t.dispatch queueSize (.payload (worker x) x) sent) h := by
    intro t x sent hinv hc
    refine ⟨conserves_dispatch hinv.conserves hc sent, hinv.distinct.dispatch hc sent, fun w batchId items hget => ?_⟩
    rcases get?_dispatch_batch hc hget with ⟨route, heq⟩ | ⟨-, hold⟩
    · cases heq
    · exact hinv.unbegun w batchId items hold
  have hall := requeuePayloads_induction hstep payloads t hinv hadmits
  exact ⟨hall.conserves, hall.distinct, hall.unbegun⟩

theorem slotInv_new (queueSize : Nat) : SlotInv queueSize (.new queueSize) ([] : List (TransportAction κ π)) :=
  ⟨rfl, fun _ _ _ _ _ _ hd => (by cases hd), fun _ _ _ hd => by cases hd⟩

theorem slotInv_of_reachable {worker : WorkItem κ π → Nat} {s : TransportRun κ π}
    (hs : (slotMachine κ π worker queueSize).Reachable s) : SlotInv queueSize s.transport s.history := by
  refine Machine.invariant (slotMachine κ π worker queueSize) (I := fun s => SlotInv queueSize s.transport s.history)
    ?_ ?_ hs
  · rintro s rfl
    exact slotInv_new queueSize
  · intro s a hinv henabled _
    cases a with
    | dispatch c sent => exact hinv.dispatch henabled sent
    | start key payload => exact hinv.start key payload
    | notStarted batchId payloads => exact hinv.notStarted henabled payloads
    | recover w => exact hinv.recover w
    | requeue payloads => exact hinv.requeue henabled

/-- **Slot conservation.** In every state of a run the free slots and the pending entries whose slot has not been
released make up the queue size. -/
theorem slots_conserved (worker : WorkItem κ π → Nat) (queueSize : Nat) {s : TransportRun κ π}
    (hs : (slotMachine κ π worker queueSize).Reachable s) :
    s.transport.slots + (s.transport.pendingDispatch.values.filter fun d => !d.slotReleased).length = queueSize := by
  have hcount : ∀ l : List (PendingDispatchKey × PendingDispatch κ π),
      ((l.map Prod.snd).filter fun d => !d.slotReleased).length = (l.map fun e => held e.2).sum := by
    intro l
    induction l with
    | nil => rfl
    | cons e l ih =>
      cases hslot : e.2.slotReleased with
      | true => simp [held, hslot, ih]
      | false =>
        simp only [List.map_cons, List.filter_cons, hslot, held, Bool.not_false, if_true, List.length_cons, ih,
          List.sum_cons, Bool.false_eq_true, if_false]
        omega
  have hconserves := (slotInv_of_reachable hs).conserves
  unfold Conserves at hconserves
  rw [unreleased_eq] at hconserves
  unfold Dict.values
  rw [hcount]
  exact hconserves

section Examples

def slotItem (offset : Int) : WorkItem Unit Unit := ⟨.uuid offset.toNat, ⟨"t", 0⟩, offset, 1, (), (), 0, none⟩

/-- A batch of three items fails after the first, whose start came before the tail. -/
def skippedTail : List (TransportAction Unit Unit) :=
  [.dispatch (.routeBatch 0 7 ⟨"t", 0, ()⟩ [slotItem 1, slotItem 2, slotItem 3]) true,
    .start ((slotItem 1).registryKey 0) (slotItem 1), .notStarted 7 [slotItem 2, slotItem 3], .recover 0]

theorem slots_conserved_skippedTail :
    ((slotMachine Unit Unit (fun _ => 0) 2).run ⟨.new 2, []⟩ skippedTail).transport.slots = 2 := by
  have hallowed : (slotMachine Unit Unit (fun _ => 0) 2).Allowed (fun _ _ => True) ⟨.new 2, []⟩ skippedTail := by
    refine ⟨⟨by decide, fun i _ => ?_, fun _ _ _ _ => rfl⟩, trivial, trivial, trivial, .inr ?_, trivial, trivial,
      trivial, trivial⟩
    · rintro ⟨k, d, hget, -⟩
      cases hget
    · exact .inl ⟨0, _, rfl, slotItem 1, List.mem_cons_self, rfl, rfl⟩
  have hconserved := slots_conserved (fun _ => 0) 2
    ((slotMachine Unit Unit (fun _ => 0) 2).reachableBy_run skippedTail (.start rfl) hallowed)
  have hnone : (((slotMachine Unit Unit (fun _ => 0) 2).run ⟨.new 2, []⟩ skippedTail).transport.pendingDispatch.values.filter
      fun d => !d.slotReleased).length = 0 := by decide
  omega

end Examples

end PyrallelConsumer
