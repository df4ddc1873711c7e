import PyrallelConsumer.ProcessRegistry
import PyrallelConsumer.Lib.Machine

/-!
# PyrallelConsumer.DispatchRace

`dispatch_payload` and `dispatch_route_batch` of the worker-pipe transport in one thread, dead-worker
recovery in another, step by step between the lock-protected sections and the sends. The pending entry
of a call can be seen, and taken, by recovery before the send; the rollback knows the entry only by its
key. Registry events are no part of the race; what they leave behind is in the states it starts from.

* `RaceInv` — where the items of a call can be. `raceInv_submitter`, `raceInv_requeue`,
  `raceInv_recover` — the steps.
* `failed_dispatch_leaves_nothing` — along every run in which no call rolls back whose entry recovery
  has taken.
-/

set_option linter.unusedSectionVars false

namespace PyrallelConsumer

/-! ## Calls -/

/-- A call of `dispatch_payload` or of `dispatch_route_batch`. -/
inductive DispatchCall (κ π : Type) where
  | payload (worker : Nat) (x : WorkItem κ π)
  | routeBatch (worker batchId : Nat) (route : RouteIdentity κ) (items : List (WorkItem κ π))

namespace DispatchCall

variable {κ π : Type}

def worker : DispatchCall κ π → Nat
  | payload worker _ => worker
  | routeBatch worker _ _ _ => worker

def items : DispatchCall κ π → List (WorkItem κ π)
  | payload _ x => [x]
  | routeBatch _ _ _ items => items

def identities (c : DispatchCall κ π) : List LogicalWorkIdentity := c.items.map (·.identity)

/-- `_pending_dispatch_key`, `_pending_dispatch_key_for_route_batch`. -/
def key : DispatchCall κ π → PendingDispatchKey
  | payload worker x => .item worker x.identity
  | routeBatch worker batchId _ _ => .routeBatch worker batchId

def pending : DispatchCall κ π → PendingDispatch κ π
  | payload _ x => .item x
  | routeBatch _ batchId _ items => .routeBatch batchId items false

def message : DispatchCall κ π → PipeMessage κ π
  | payload _ x => .workItems [x]
  | routeBatch _ batchId route items => .routeBatch batchId route items

theorem keyed (c : DispatchCall κ π) : c.pending.Keyed c.key := by
  cases c <;> rfl

@[simp] theorem payloads_pending (c : DispatchCall κ π) : c.pending.payloads = c.items := by
  cases c <;> rfl

@[simp] theorem slotReleased_pending (c : DispatchCall κ π) : c.pending.slotReleased = false := by
  cases c <;> rfl

@[simp] theorem items_message (c : DispatchCall κ π) : c.message.items = c.items := by
  cases c <;> rfl

@[simp] theorem workerIndex_key (c : DispatchCall κ π) : c.key.workerIndex = c.worker := by
  cases c <;> rfl

/-- The key names the worker of the route. -/
def Routed (digest : RouteIdentity κ → Nat) (processCount : Nat) : DispatchCall κ π → Prop
  | payload worker x => worker = stableWorkerIndexForRoute digest x.routeIdentity processCount
  | routeBatch worker _ route _ => worker = stableWorkerIndexForRoute digest route processCount

/-- An item key is that of one item. -/
theorem mem_identities_of_key {c : DispatchCall κ π} {w : Nat} {i : LogicalWorkIdentity}
    (h : c.key = .item w i) : i ∈ c.identities := by
  cases c with
  | payload worker x =>
    cases h
    exact List.mem_singleton_self _
  | routeBatch => cases h

end DispatchCall

/-- Where a call is. `taken` records that recovery has removed its entry. -/
inductive DispatchPc (κ π : Type) where
  | idle
  | acquiring (c : DispatchCall κ π)
  | registering (c : DispatchCall κ π)
  | sending (c : DispatchCall κ π) (taken : Bool)
  | rollingBack (c : DispatchCall κ π) (taken : Bool)
  | releasing (c : DispatchCall κ π)
  | returned (c : DispatchCall κ π)
  | raised (c : DispatchCall κ π)

namespace DispatchPc

variable {κ π : Type}

def call? : DispatchPc κ π → Option (DispatchCall κ π)
  | idle => none
  | acquiring c => some c
  | registering c => some c
  | sending c _ => some c
  | rollingBack c _ => some c
  | releasing c => some c
  | returned c => some c
  | raised c => some c

def identities (pc : DispatchPc κ π) : List LogicalWorkIdentity := (pc.call?.map (·.identities)).getD []

/-- The slots that the call holds beside those of pending entries. -/
def loose : DispatchPc κ π → Nat
  | registering _ => 1
  | releasing _ => 1
  | _ => 0

/-- The entry of the call has been stored, and the call has not removed it. -/
def Exposed : DispatchPc κ π → Prop
  | sending _ _ => True
  | rollingBack _ _ => True
  | returned _ => True
  | _ => False

/-- Recovery removes the entries of a worker. -/
def markTaken (w : Nat) : DispatchPc κ π → DispatchPc κ π
  | sending c taken => sending c (taken || decide (c.worker = w))
  | rollingBack c taken => rollingBack c (taken || decide (c.worker = w))
  | pc => pc

/-- The call is over, or there is none. -/
def finished : DispatchPc κ π → Bool
  | idle => true
  | returned _ => true
  | raised _ => true
  | _ => false

end DispatchPc

/-- The steps of a call. A send includes packing and validation. -/
inductive DispatchAction where
  | acquire
  | shutDown
  | register
  | send (ok : Bool)
  | rollBack
  | release
deriving DecidableEq, Repr

/-! ## The two threads -/

inductive DispatchThread where
  | submitter
  | recovery
deriving DecidableEq, Repr

/-- Dead-worker recovery: the recovered payloads before the restart, then one requeue after another. -/
inductive RecoveryPc (κ π : Type) where
  | idle
  | recovered (w : Nat) (payloads : List (WorkItem κ π))
  | requeueing (rest : List (WorkItem κ π)) (pc : DispatchPc κ π)

namespace RecoveryPc

variable {κ π : Type}

/-- The payloads that recovery is about to dispatch. -/
def hands : RecoveryPc κ π → List (WorkItem κ π)
  | idle => []
  | recovered _ payloads => payloads
  | requeueing rest (.acquiring c) => c.items ++ rest
  | requeueing rest (.registering c) => c.items ++ rest
  | requeueing rest _ => rest

def loose : RecoveryPc κ π → Nat
  | requeueing _ pc => pc.loose
  | _ => 0

end RecoveryPc

structure RaceConfig (κ : Type) where
  digest : RouteIdentity κ → Nat
  processCount : Nat
  queueSize : Nat
  maxRetries : Int

structure DispatchRace (κ π : Type) where
  transport : WorkerPipesTransport κ π
  alive : Nat → Bool
  pipes : Nat → List (PipeMessage κ π)
  /-- What workers have read from their pipes. -/
  working : List LogicalWorkIdentity
  /-- Which thread stored the entry under a key last. -/
  storedBy : PendingDispatchKey → DispatchThread
  submitter : DispatchPc κ π
  recovery : RecoveryPc κ π
  /-- What was dispatched by calls that returned. -/
  accepted : List LogicalWorkIdentity
  /-- What was to be dispatched by calls that raised, and was not submitted again. -/
  refused : List LogicalWorkIdentity

inductive RaceAction (κ π : Type) where
  | call (c : DispatchCall κ π)
  | submitter (a : DispatchAction)
  | finish
  | die (w : Nat)
  | take (w : Nat)
  | recover (w : Nat)
  | restart (ok : Bool)
  | requeueNext
  | requeue (a : DispatchAction)

namespace DispatchRace

variable {κ π : Type}

section

variable (cfg : RaceConfig κ)

/-- The next step of a call in a thread. -/
def dispatchStep (t : DispatchThread) (s : DispatchRace κ π) :
    DispatchPc κ π → DispatchAction → DispatchRace κ π × DispatchPc κ π
  | .acquiring c, .acquire =>
    if 0 < s.transport.slots then ({ s with transport := s.transport.acquireSlot }, .registering c)
    else (s, .acquiring c)
  | .acquiring c, .shutDown => (s, .raised c)
  | .registering c, .register =>
    ({ s with
      transport := s.transport.store c.key c.pending c.keyed
      storedBy := fun k => if k = c.key then t else s.storedBy k }, .sending c false)
  | .sending c taken, .send ok =>
    if ok then
      ({ s with pipes := fun w => if w = c.worker then s.pipes w ++ [c.message] else s.pipes w }, .returned c)
    else (s, .rollingBack c taken)
  | .rollingBack c _, .rollBack => ({ s with transport := s.transport.forget c.key }, .releasing c)
  | .releasing c, .release => ({ s with transport := s.transport.releaseSlot cfg.queueSize }, .raised c)
  | pc, _ => (s, pc)

def submit (s : DispatchRace κ π) (a : DispatchAction) : DispatchRace κ π :=
  let (s', pc) := s.dispatchStep cfg .submitter s.submitter a
  { s' with submitter := pc }

/-- The call returns or raises to its caller. -/
def finish (s : DispatchRace κ π) : DispatchRace κ π :=
  match s.submitter with
  | .returned c => { s with submitter := .idle, accepted := s.accepted ++ c.identities }
  | .raised c => { s with submitter := .idle, refused := s.refused ++ c.identities }
  | _ => s

/-- A worker reads its pipe. -/
def take (s : DispatchRace κ π) (w : Nat) : DispatchRace κ π :=
  match s.alive w, s.pipes w with
  | true, m :: rest =>
    { s with
      pipes := fun w' => if w' = w then rest else s.pipes w'
      working := s.working ++ m.items.map (·.identity) }
  | _, _ => s

/-- `recover_pending_dispatches` and the retry budget. -/
def recover (s : DispatchRace κ π) (w : Nat) : DispatchRace κ π :=
  match s.recovery, s.alive w with
  | .idle, false =>
    let (payloads, transport) := s.transport.recoverPendingDispatches cfg.queueSize w
    { s with
      transport := transport
      submitter := s.submitter.markTaken w
      recovery := .recovered w (Recovery.collect (.ofPayload cfg.maxRetries) payloads).payloads }
  | _, _ => s

/-- `restart_dead_worker`: the pipe is replaced, and the payloads are given up when the process does not
start. -/
def restart (s : DispatchRace κ π) (ok : Bool) : DispatchRace κ π :=
  match s.recovery with
  | .recovered w payloads =>
    { s with
      alive := fun w' => if w' = w then ok else s.alive w'
      pipes := fun w' => if w' = w then [] else s.pipes w'
      recovery := if ok then .requeueing payloads .idle else .idle }
  | _ => s

/-- `requeue_payloads` for the next payload. -/
def requeueNext (s : DispatchRace κ π) : DispatchRace κ π :=
  match s.recovery with
  | .requeueing (x :: rest) pc =>
    let worker := stableWorkerIndexForRoute cfg.digest x.routeIdentity cfg.processCount
    if pc.finished then { s with recovery := .requeueing rest (.acquiring (.payload worker x)) } else s
  | .requeueing [] pc => if pc.finished then { s with recovery := .idle } else s
  | _ => s

def requeue (s : DispatchRace κ π) (a : DispatchAction) : DispatchRace κ π :=
  match s.recovery with
  | .requeueing rest pc =>
    let (s', pc) := s.dispatchStep cfg .recovery pc a
    { s' with recovery := .requeueing rest pc }
  | _ => s

end

/-! ## Where an item is -/

def InPipes (s : DispatchRace κ π) (i : LogicalWorkIdentity) : Prop :=
  ∃ w, ∃ m ∈ s.pipes w, ∃ x ∈ m.items, x.identity = i

/-- The item is pending, in a pipe, with a worker, or about to be dispatched by recovery. -/
def Somewhere (s : DispatchRace κ π) (i : LogicalWorkIdentity) : Prop :=
  s.transport.Pends i ∨ s.InPipes i ∨ i ∈ s.working ∨ ∃ x ∈ s.recovery.hands, x.identity = i

end DispatchRace

/-- The pending entries that hold a slot. -/
def WorkerPipesTransport.unreleased {κ π : Type} (t : WorkerPipesTransport κ π) : Nat :=
  t.pendingDispatch.sum fun d => if d.slotReleased then 0 else 1

open DispatchRace in
/-- The race starts between two calls and two recoveries. A caller submits items that no call of its has
dispatched, and a batch has a fresh id. -/
def raceMachine (κ π : Type) (cfg : RaceConfig κ) : Machine (DispatchRace κ π) (RaceAction κ π) where
  init s := s.submitter = .idle ∧ s.recovery = .idle ∧ s.refused = [] ∧ (∀ i, s.Somewhere i → i ∈ s.accepted) ∧
    s.transport.slots + s.transport.unreleased ≤ cfg.queueSize
  enabled s a :=
    match a with
    | .call c => s.submitter = .idle ∧ c.Routed cfg.digest cfg.processCount ∧ (∀ i ∈ c.identities, i ∉ s.accepted) ∧
        (∀ w batchId, c.key = .routeBatch w batchId → s.transport.pendingDispatch.get? c.key = none)
    | _ => True
  next s a :=
    match a with
    | .call c => { s with submitter := .acquiring c, refused := s.refused.filter fun i => i ∉ c.identities }
    | .submitter a => s.submit cfg a
    | .finish => s.finish
    | .die w => { s with alive := fun w' => if w' = w then false else s.alive w' }
    | .take w => s.take w
    | .recover w => s.recover cfg w
    | .restart ok => s.restart ok
    | .requeueNext => s.requeueNext cfg
    | .requeue a => s.requeue cfg a

namespace DispatchRace

variable {κ π : Type} {cfg : RaceConfig κ} {s s' : DispatchRace κ π}

/-! ## The invariant -/

/-- The call's entry is stored and is its own, and its items are nowhere else. -/
structure Owns (s : DispatchRace κ π) (c : DispatchCall κ π) : Prop where
  entry : s.transport.pendingDispatch.get? c.key = some c.pending
  storedBy : s.storedBy c.key = .submitter
  only : ∀ i ∈ c.identities, ¬s.InPipes i ∧ i ∉ s.working ∧ (∀ x ∈ s.recovery.hands, x.identity ≠ i) ∧
    ∀ k d, s.transport.pendingDispatch.get? k = some d → (∃ x ∈ d.payloads, x.identity = i) → k = c.key

/-- The requeue's entry is stored and is its own. -/
structure RequeueOwns (s : DispatchRace κ π) (c : DispatchCall κ π) : Prop where
  entry : s.transport.pendingDispatch.get? c.key = some c.pending
  storedBy : s.storedBy c.key = .recovery

structure RaceInv (cfg : RaceConfig κ) (s : DispatchRace κ π) : Prop where
  known : ∀ i, s.Somewhere i → i ∈ s.accepted ∨ (i ∈ s.submitter.identities ∧ s.submitter.Exposed)
  fresh : ∀ i ∈ s.submitter.identities, i ∉ s.accepted
  owns : ∀ c, s.submitter = .sending c false ∨ s.submitter = .rollingBack c false → s.Owns c
  batchFree : ∀ c, s.submitter = .acquiring c ∨ s.submitter = .registering c →
    ∀ w batchId, c.key = .routeBatch w batchId → s.transport.pendingDispatch.get? c.key = none
  requeueItem : ∀ rest pc c, s.recovery = .requeueing rest pc → pc.call? = some c → ∃ w x, c = .payload w x
  requeueOwns : ∀ rest c taken, s.recovery = .requeueing rest (.sending c taken) ∨
    s.recovery = .requeueing rest (.rollingBack c taken) → s.RequeueOwns c
  refused : ∀ i ∈ s.refused, i ∉ s.accepted ∧ i ∉ s.submitter.identities
  slots : s.transport.slots + s.transport.unreleased + s.submitter.loose + s.recovery.loose ≤ cfg.queueSize

/-! ## The steps of a call -/

/-- What a step of a call can be. -/
inductive CallStep (cfg : RaceConfig κ) (t : DispatchThread) (s : DispatchRace κ π) (a : DispatchAction) :
    DispatchPc κ π → DispatchRace κ π × DispatchPc κ π → Prop where
  | stays (pc : DispatchPc κ π) : CallStep cfg t s a pc (s, pc)
  | acquired (c : DispatchCall κ π) (h : 0 < s.transport.slots) :
      CallStep cfg t s a (.acquiring c) ({ s with transport := s.transport.acquireSlot }, .registering c)
  | shutDown (c : DispatchCall κ π) : CallStep cfg t s a (.acquiring c) (s, .raised c)
  | registered (c : DispatchCall κ π) : CallStep cfg t s a (.registering c)
      ({ s with
        transport := s.transport.store c.key c.pending c.keyed
        storedBy := fun k => if k = c.key then t else s.storedBy k }, .sending c false)
  | sent (c : DispatchCall κ π) (taken : Bool) : CallStep cfg t s a (.sending c taken)
      ({ s with pipes := fun w => if w = c.worker then s.pipes w ++ [c.message] else s.pipes w }, .returned c)
  | failed (c : DispatchCall κ π) (taken : Bool) :
      CallStep cfg t s a (.sending c taken) (s, .rollingBack c taken)
  | rolledBack (c : DispatchCall κ π) (taken : Bool) (h : a = .rollBack) : CallStep cfg t s a (.rollingBack c taken)
      ({ s with transport := s.transport.forget c.key }, .releasing c)
  | released (c : DispatchCall κ π) : CallStep cfg t s a (.releasing c)
      ({ s with transport := s.transport.releaseSlot cfg.queueSize }, .raised c)

theorem dispatchStep_step (t : DispatchThread) (s : DispatchRace κ π) (pc : DispatchPc κ π) (a : DispatchAction) :
    CallStep cfg t s a pc (s.dispatchStep cfg t pc a) := by
  unfold dispatchStep
  split
  · rename_i c
    split
    · rename_i h
      exact .acquired c h
    · exact .stays _
  · exact .shutDown _
  · exact .registered _
  · rename_i c taken ok
    split
    · exact .sent c taken
    · exact .failed c taken
  · rename_i c taken
    exact .rolledBack c taken rfl
  · exact .released _
  · exact .stays _

theorem pends_store_iff {t : WorkerPipesTransport κ π} {c : DispatchCall κ π} {i : LogicalWorkIdentity}
    (h : (t.store c.key c.pending c.keyed).Pends i) : t.Pends i ∨ i ∈ c.identities := by
  obtain ⟨k, d, hget, x, hx, rfl⟩ := h
  change (t.pendingDispatch.set c.key c.pending).get? k = some d at hget
  rw [Dict.get?_set] at hget
  split at hget
  · cases hget
    rw [c.payloads_pending] at hx
    exact .inr (List.mem_map.mpr ⟨x, hx, rfl⟩)
  · exact .inl ⟨k, d, hget, x, hx, rfl⟩

theorem pends_of_forget {t : WorkerPipesTransport κ π} {k : PendingDispatchKey} {i : LogicalWorkIdentity}
    (h : (t.forget k).Pends i) : t.Pends i ∧ ∃ k' d, k' ≠ k ∧ t.pendingDispatch.get? k' = some d ∧
      ∃ x ∈ d.payloads, x.identity = i := by
  obtain ⟨k', d, hget, hx⟩ := h
  change (t.pendingDispatch.erase k).get? k' = some d at hget
  rw [Dict.get?_erase] at hget
  split at hget
  · cases hget
  · rename_i hne
    exact ⟨⟨k', d, hget, hx⟩, k', d, Ne.symm hne, hget, hx⟩

theorem inPipes_send {c : DispatchCall κ π} {i : LogicalWorkIdentity}
    (h : ({ s with pipes := fun w => if w = c.worker then s.pipes w ++ [c.message] else s.pipes w } :
      DispatchRace κ π).InPipes i) : s.InPipes i ∨ i ∈ c.identities := by
  obtain ⟨w, m, hm, x, hx, rfl⟩ := h
  dsimp only at hm
  split at hm
  · rcases List.mem_append.mp hm with hm | hm
    · exact .inl ⟨w, m, hm, x, hx, rfl⟩
    · rw [List.mem_singleton.mp hm, c.items_message] at hx
      exact .inr (List.mem_map.mpr ⟨x, hx, rfl⟩)
  · exact .inl ⟨w, m, hm, x, hx, rfl⟩

/-- The slot count of a stored entry. -/
theorem unreleased_store_le (t : WorkerPipesTransport κ π) (c : DispatchCall κ π) :
    (t.store c.key c.pending c.keyed).unreleased ≤ t.unreleased + 1 := by
  have h := t.pendingDispatch.sum_set (fun d => if d.slotReleased then 0 else 1) c.key c.pending
  rw [c.slotReleased_pending] at h
  change (t.pendingDispatch.set c.key c.pending).sum _ ≤ t.pendingDispatch.sum _ + 1
  simp only [Bool.false_eq_true, if_false] at h
  omega

theorem unreleased_forget {t : WorkerPipesTransport κ π} {c : DispatchCall κ π}
    (hget : t.pendingDispatch.get? c.key = some c.pending) : (t.forget c.key).unreleased + 1 = t.unreleased := by
  have h := t.pendingDispatch.sum_erase (fun d => if d.slotReleased then 0 else 1) c.key
  rw [hget] at h
  simp only [Option.elim_some, c.slotReleased_pending, Bool.false_eq_true, if_false] at h
  exact h

/-! ## The submitter -/

/-- Before its entry is stored, and after it is gone again, the items of a call are nowhere. -/
theorem RaceInv.nowhere (h : RaceInv cfg s) (hnot : ¬s.submitter.Exposed) {i : LogicalWorkIdentity}
    (hi : i ∈ s.submitter.identities) : ¬s.Somewhere i := fun hs =>
  (h.known i hs).elim (h.fresh i hi) fun hexposed => hnot hexposed.2

/-- A step that leaves the recovery and the pending entries alone leaves the requeue its entry. -/
theorem RaceInv.requeueOwns_frame {rest : List (WorkItem κ π)} {c : DispatchCall κ π} {taken : Bool}
    (h : RaceInv cfg s) (hrecovery : s'.recovery = s.recovery)
    (hpending : s'.transport.pendingDispatch = s.transport.pendingDispatch) (hstored : s'.storedBy = s.storedBy)
    (hc : s'.recovery = .requeueing rest (.sending c taken) ∨ s'.recovery = .requeueing rest (.rollingBack c taken)) :
    s'.RequeueOwns c := by
  rw [hrecovery] at hc
  have howns := h.requeueOwns rest c taken hc
  refine ⟨?_, ?_⟩
  · rw [hpending]
    exact howns.entry
  · rw [hstored]
    exact howns.storedBy

/-- A requeue has another key than a call whose items are not pending. -/
theorem RequeueOwns.key_ne {c c' : DispatchCall κ π} (h : s.RequeueOwns c') (hitem : ∃ w x, c' = .payload w x)
    (hno : ∀ i ∈ c.identities, ¬s.transport.Pends i) : c.key ≠ c'.key := by
  intro heq
  obtain ⟨w, x, rfl⟩ := hitem
  exact hno x.identity (DispatchCall.mem_identities_of_key heq) ⟨_, _, h.entry, x, List.mem_singleton_self x, rfl⟩

theorem RequeueOwns.key_ne_of_owns {c c' : DispatchCall κ π} (h : s.RequeueOwns c') (howns : s.Owns c) :
    c.key ≠ c'.key := by
  intro heq
  have := howns.storedBy
  rw [heq, h.storedBy] at this
  cases this

theorem raceInv_callStep {a : DispatchAction} {pc : DispatchPc κ π} {r : DispatchRace κ π × DispatchPc κ π}
    (h : RaceInv cfg s) (hpc : s.submitter = pc) (hstep : CallStep cfg .submitter s a pc r)
    (ha : a = .rollBack → ∀ c, s.submitter ≠ .rollingBack c true) :
    RaceInv cfg { r.1 with submitter := r.2 } := by
  have hknown := h.known
  have hfresh := h.fresh
  have hrefused := h.refused
  have hslots := h.slots
  cases hstep with
  | stays =>
    rw [← hpc]
    exact h
  | acquired c hfree =>
    rw [hpc] at hknown hfresh hrefused hslots
    refine ⟨fun i hi => (hknown i hi).imp_right fun hx => hx.2.elim, hfresh, fun c' hc' => ?_, fun c' hc' => ?_,
      h.requeueItem, fun rest c' taken hc' => ?_, hrefused, ?_⟩
    · rcases hc' with hc' | hc' <;> cases hc'
    · rcases hc' with hc' | hc'
      · cases hc'
      · cases hc'
        exact h.batchFree c (.inl hpc)
    · exact h.requeueOwns_frame rfl rfl rfl hc'
    · change s.transport.slots - 1 + s.transport.unreleased + 1 + s.recovery.loose ≤ cfg.queueSize
      change s.transport.slots + s.transport.unreleased + 0 + s.recovery.loose ≤ cfg.queueSize at hslots
      omega
  | shutDown c =>
    rw [hpc] at hknown hfresh hrefused hslots
    refine ⟨fun i hi => (hknown i hi).imp_right fun hx => hx.2.elim, hfresh, fun c' hc' => ?_, fun c' hc' => ?_,
      h.requeueItem, fun rest c' taken hc' => ?_, hrefused, hslots⟩
    · rcases hc' with hc' | hc' <;> cases hc'
    · rcases hc' with hc' | hc' <;> cases hc'
    · exact h.requeueOwns_frame rfl rfl rfl hc'
  | registered c =>
    have hnowhere : ∀ i ∈ c.identities, ¬s.Somewhere i := fun i hi =>
      h.nowhere (by rw [hpc]; exact id) (by rw [hpc]; exact hi)
    rw [hpc] at hknown hfresh hrefused hslots
    refine ⟨fun i hi => ?_, hfresh, fun c' hc' => ?_, fun c' hc' => ?_, h.requeueItem, fun rest c' taken hc' => ?_,
      hrefused, ?_⟩
    · rcases hi with hi | hi
      · rcases pends_store_iff hi with hi | hi
        · exact (hknown i (.inl hi)).imp_right fun hx => hx.2.elim
        · exact .inr ⟨hi, trivial⟩
      · exact (hknown i (.inr hi)).imp_right fun hx => hx.2.elim
    · rcases hc' with hc' | hc'
      · cases hc'
        refine ⟨Dict.get?_set_self _ _ _, if_pos rfl, fun i hi => ⟨fun hx => hnowhere i hi (.inr (.inl hx)),
          fun hx => hnowhere i hi (.inr (.inr (.inl hx))),
          fun x hx hxi => hnowhere i hi (.inr (.inr (.inr ⟨x, hx, hxi⟩))), fun k d hget hx => ?_⟩⟩
        change (s.transport.pendingDispatch.set c.key c.pending).get? k = some d at hget
        rw [Dict.get?_set] at hget
        split at hget
        · rename_i heq
          exact heq.symm
        · exact absurd (.inl ⟨k, d, hget, hx⟩) (hnowhere i hi)
      · cases hc'
    · rcases hc' with hc' | hc' <;> cases hc'
    · have howns := h.requeueOwns rest c' taken hc'
      have hitem : ∃ w x, c' = .payload w x := hc'.elim (fun hc' => h.requeueItem rest _ c' hc' rfl)
        fun hc' => h.requeueItem rest _ c' hc' rfl
      have hne := howns.key_ne hitem fun i hi hp => hnowhere i hi (.inl hp)
      exact ⟨(Dict.get?_set _ _ _ _).trans ((if_neg hne).trans howns.entry),
        (if_neg (Ne.symm hne)).trans howns.storedBy⟩
    · have hstore := unreleased_store_le s.transport c
      change s.transport.slots + (s.transport.store c.key c.pending c.keyed).unreleased + 0 + s.recovery.loose ≤ _
      change s.transport.slots + s.transport.unreleased + 1 + s.recovery.loose ≤ cfg.queueSize at hslots
      omega
  | sent c taken =>
    rw [hpc] at hknown hfresh hrefused hslots
    refine ⟨fun i hi => ?_, hfresh, fun c' hc' => ?_, fun c' hc' => ?_, h.requeueItem, fun rest c' taken' hc' => ?_,
      hrefused, hslots⟩
    · rcases hi with hi | hi | hi
      · exact hknown i (.inl hi)
      · rcases inPipes_send hi with hi | hi
        · exact hknown i (.inr (.inl hi))
        · exact .inr ⟨hi, trivial⟩
      · exact hknown i (.inr (.inr hi))
    · rcases hc' with hc' | hc' <;> cases hc'
    · rcases hc' with hc' | hc' <;> cases hc'
    · exact h.requeueOwns_frame rfl rfl rfl hc'
  | failed c taken =>
    have howns := h.owns c
    rw [hpc] at hknown hfresh hrefused hslots
    refine ⟨hknown, hfresh, fun c' hc' => ?_, fun c' hc' => ?_, h.requeueItem, fun rest c' taken' hc' => ?_,
      hrefused, hslots⟩
    · rcases hc' with hc' | hc'
      · cases hc'
      · cases hc'
        have howns := howns (.inl hpc)
        exact ⟨howns.entry, howns.storedBy, howns.only⟩
    · rcases hc' with hc' | hc' <;> cases hc'
    · exact h.requeueOwns_frame rfl rfl rfl hc'
  | rolledBack c taken hroll =>
    cases taken with
    | true => exact absurd hpc (ha hroll c)
    | false =>
      have howns := h.owns c (.inr hpc)
      rw [hpc] at hknown hfresh hrefused hslots
      -- nothing is left of the call
      have hgone : ∀ i, ({ s with transport := s.transport.forget c.key } : DispatchRace κ π).Somewhere i →
          s.Somewhere i ∧ i ∉ c.identities := by
        intro i hi
        rcases hi with hi | hi | hi | ⟨x, hx, hxi⟩
        · obtain ⟨hp, k, d, hne, hget, hx⟩ := pends_of_forget hi
          exact ⟨.inl hp, fun hmem => hne ((howns.only i hmem).2.2.2 k d hget hx)⟩
        · exact ⟨.inr (.inl hi), fun hmem => (howns.only i hmem).1 hi⟩
        · exact ⟨.inr (.inr (.inl hi)), fun hmem => (howns.only i hmem).2.1 hi⟩
        · exact ⟨.inr (.inr (.inr ⟨x, hx, hxi⟩)), fun hmem => (howns.only i hmem).2.2.1 x hx hxi⟩
      refine ⟨fun i hi => ?_, hfresh, fun c' hc' => ?_, fun c' hc' => ?_, h.requeueItem, fun rest c' taken' hc' => ?_,
        hrefused, ?_⟩
      · obtain ⟨hs, hnot⟩ := hgone i hi
        exact .inl ((hknown i hs).resolve_right fun hx => hnot hx.1)
      · rcases hc' with hc' | hc' <;> cases hc'
      · rcases hc' with hc' | hc' <;> cases hc'
      · have hrequeue := h.requeueOwns rest c' taken' hc'
        have hne := hrequeue.key_ne_of_owns howns
        exact ⟨(Dict.get?_erase _ _ _).trans ((if_neg hne).trans hrequeue.entry), hrequeue.storedBy⟩
      · have hforget := unreleased_forget howns.entry
        change s.transport.slots + (s.transport.forget c.key).unreleased + 1 + s.recovery.loose ≤ cfg.queueSize
        change s.transport.slots + s.transport.unreleased + 0 + s.recovery.loose ≤ cfg.queueSize at hslots
        omega
  | released c =>
    rw [hpc] at hknown hfresh hrefused hslots
    refine ⟨fun i hi => (hknown i hi).imp_right fun hx => hx.2.elim, hfresh, fun c' hc' => ?_, fun c' hc' => ?_,
      h.requeueItem, fun rest c' taken hc' => ?_, hrefused, ?_⟩
    · rcases hc' with hc' | hc' <;> cases hc'
    · rcases hc' with hc' | hc' <;> cases hc'
    · exact h.requeueOwns_frame rfl rfl rfl hc'
    · change s.transport.slots + s.transport.unreleased + 1 + s.recovery.loose ≤ cfg.queueSize at hslots
      change (if s.transport.slots < cfg.queueSize then s.transport.slots + 1 else s.transport.slots) +
        s.transport.unreleased + 0 + s.recovery.loose ≤ cfg.queueSize
      split <;> omega

theorem raceInv_submit (h : RaceInv cfg s) {a : DispatchAction}
    (ha : a = .rollBack → ∀ c, s.submitter ≠ .rollingBack c true) : RaceInv cfg (s.submit cfg a) :=
  raceInv_callStep h rfl (dispatchStep_step .submitter s s.submitter a) ha

theorem raceInv_call (h : RaceInv cfg s) {c : DispatchCall κ π} (hidle : s.submitter = .idle)
    (hfresh : ∀ i ∈ c.identities, i ∉ s.accepted)
    (hbatch : ∀ w batchId, c.key = .routeBatch w batchId → s.transport.pendingDispatch.get? c.key = none) :
    RaceInv cfg { s with submitter := .acquiring c, refused := s.refused.filter fun i => i ∉ c.identities } := by
  have hknown := h.known
  have hslots := h.slots
  rw [hidle] at hknown hslots
  refine ⟨fun i hi => (hknown i hi).imp_right fun hx => hx.2.elim, hfresh, fun c' hc' => ?_, fun c' hc' => ?_,
    h.requeueItem, fun rest c' taken hc' => ?_, fun i hi => ?_, hslots⟩
  · rcases hc' with hc' | hc' <;> cases hc'
  · rcases hc' with hc' | hc'
    · cases hc'
      exact hbatch
    · cases hc'
  · exact h.requeueOwns_frame rfl rfl rfl hc'
  · obtain ⟨hi, hnot⟩ := List.mem_filter.mp hi
    exact ⟨(h.refused i hi).1, of_decide_eq_true hnot⟩

theorem raceInv_finish (h : RaceInv cfg s) : RaceInv cfg s.finish := by
  have hknown := h.known
  have hfresh := h.fresh
  have hrefused := h.refused
  have hslots := h.slots
  have hcase : ∀ accepted refused, (∀ i, s.Somewhere i → i ∈ accepted) → (∀ i ∈ refused, i ∉ accepted) →
      s.submitter.loose = 0 →
      RaceInv cfg { s with submitter := .idle, accepted := accepted, refused := refused } := by
    intro accepted refused hacc href hloose
    refine ⟨fun i hi => .inl (hacc i hi), fun i hi => (by cases hi), fun c' hc' => ?_, fun c' hc' => ?_,
      h.requeueItem, fun rest c' taken hc' => ?_, fun i hi => ⟨href i hi, fun hx => by cases hx⟩, ?_⟩
    · rcases hc' with hc' | hc' <;> cases hc'
    · rcases hc' with hc' | hc' <;> cases hc'
    · exact h.requeueOwns_frame rfl rfl rfl hc'
    · rw [hloose] at hslots
      exact hslots
  unfold finish
  split
  · rename_i c hpc
    rw [hpc] at hknown hfresh hrefused
    refine hcase _ _ (fun i hi => ?_) (fun i hi hacc => ?_) (by rw [hpc]; rfl)
    · exact List.mem_append.mpr ((hknown i hi).imp_right fun hx => hx.1)
    · exact (List.mem_append.mp hacc).elim (hrefused i hi).1 (hrefused i hi).2
  · rename_i c hpc
    rw [hpc] at hknown hfresh hrefused
    refine hcase _ _ (fun i hi => ?_) (fun i hi => ?_) (by rw [hpc]; rfl)
    · exact (hknown i hi).resolve_right fun hx => hx.2.elim
    · exact (List.mem_append.mp hi).elim (fun hi => (hrefused i hi).1) (hfresh i)
  · exact h

/-! ## Workers and recovery -/

/-- A step of another party that moves items, at most, and spares what a call owns. -/
theorem RaceInv.of_moved (h : RaceInv cfg s) (hsubmitter : s'.submitter = s.submitter)
    (haccepted : s'.accepted = s.accepted) (hrefused : s'.refused = s.refused)
    (hmoved : ∀ i, s'.Somewhere i → s.Somewhere i)
    (howns : ∀ c, s.submitter = .sending c false ∨ s.submitter = .rollingBack c false → s'.Owns c)
    (hbatch : ∀ w batchId, s.transport.pendingDispatch.get? (.routeBatch w batchId) = none →
      s'.transport.pendingDispatch.get? (.routeBatch w batchId) = none)
    (hitem : ∀ rest pc c, s'.recovery = .requeueing rest pc → pc.call? = some c → ∃ w x, c = .payload w x)
    (hrequeue : ∀ rest c taken, s'.recovery = .requeueing rest (.sending c taken) ∨
      s'.recovery = .requeueing rest (.rollingBack c taken) → s'.RequeueOwns c)
    (hslots : s'.transport.slots + s'.transport.unreleased + s'.recovery.loose ≤
      s.transport.slots + s.transport.unreleased + s.recovery.loose) : RaceInv cfg s' := by
  refine ⟨fun i hi => ?_, ?_, ?_, ?_, hitem, hrequeue, ?_, ?_⟩
  · rw [haccepted, hsubmitter]
    exact h.known i (hmoved i hi)
  · rw [haccepted, hsubmitter]
    exact h.fresh
  · rw [hsubmitter]
    exact howns
  · rw [hsubmitter]
    intro c hc w batchId hkey
    have := h.batchFree c hc w batchId hkey
    rw [hkey] at this ⊢
    exact hbatch w batchId this
  · rw [hrefused, haccepted, hsubmitter]
    exact h.refused
  · have := h.slots
    rw [hsubmitter]
    omega

theorem raceInv_die (h : RaceInv cfg s) (w : Nat) :
    RaceInv cfg { s with alive := fun w' => if w' = w then false else s.alive w' } := by
  refine h.of_moved rfl rfl rfl (fun _ hi => hi) (fun c hc => ?_) (fun _ _ hx => hx) h.requeueItem
    (fun rest c taken hc => ?_) (Nat.le_refl _)
  · have howns := h.owns c hc
    exact ⟨howns.entry, howns.storedBy, howns.only⟩
  · exact h.requeueOwns_frame rfl rfl rfl hc

theorem raceInv_take (h : RaceInv cfg s) (w : Nat) : RaceInv cfg (s.take w) := by
  unfold take
  split
  · rename_i m rest halive hpipe
    have hread : ∀ i ∈ m.items.map (·.identity), s.InPipes i := by
      intro i hi
      obtain ⟨x, hx, rfl⟩ := List.mem_map.mp hi
      exact ⟨w, m, by rw [hpipe]; exact List.mem_cons_self, x, hx, rfl⟩
    have hleft : ∀ i, ({ s with
          pipes := fun w' => if w' = w then rest else s.pipes w'
          working := s.working ++ m.items.map (·.identity) } : DispatchRace κ π).InPipes i → s.InPipes i := by
      rintro i ⟨w', m', hm', x, hx, rfl⟩
      dsimp only at hm'
      split at hm'
      · rename_i heq
        exact ⟨w, m', by rw [hpipe]; exact List.mem_cons_of_mem _ hm', x, hx, rfl⟩
      · exact ⟨w', m', hm', x, hx, rfl⟩
    refine h.of_moved rfl rfl rfl (fun i hi => ?_) (fun c hc => ?_) (fun _ _ hx => hx) h.requeueItem
      (fun rest c taken hc => ?_) (Nat.le_refl _)
    · rcases hi with hi | hi | hi | hi
      · exact .inl hi
      · exact .inr (.inl (hleft i hi))
      · rcases List.mem_append.mp hi with hi | hi
        · exact .inr (.inr (.inl hi))
        · exact .inr (.inl (hread i hi))
      · exact .inr (.inr (.inr hi))
    · have howns := h.owns c hc
      refine ⟨howns.entry, howns.storedBy, fun i hi => ?_⟩
      obtain ⟨hpipes, hworking, hrest⟩ := howns.only i hi
      refine ⟨fun hx => hpipes (hleft i hx), fun hx => ?_, hrest⟩
      exact (List.mem_append.mp hx).elim hworking fun hx => hpipes (hread i hx)
    · exact h.requeueOwns_frame rfl rfl rfl hc
  · exact h

/-- The identities of the payloads that recovery keeps are among those it was given. -/
theorem mem_collect_payloads {maxRetries : Int} {l : List (WorkItem κ π)} {x : WorkItem κ π}
    (h : x ∈ (Recovery.collect (.ofPayload maxRetries) l).payloads) : ∃ y ∈ l, y.identity = x.identity := by
  induction l with
  | nil => cases h
  | cons y l ih =>
    rcases List.mem_append.mp h with h | h
    · refine ⟨y, List.mem_cons_self, ?_⟩
      unfold Recovery.ofPayload at h
      split at h
      · cases h
      · rw [List.mem_singleton.mp h]
        rfl
    · obtain ⟨z, hz, heq⟩ := ih h
      exact ⟨z, List.mem_cons_of_mem _ hz, heq⟩

/-- The entries that hold a slot are those of the worker that recovery takes, and the others. -/
theorem unreleased_recover (t : WorkerPipesTransport κ π) (queueSize w : Nat) :
    (t.recoverPendingDispatches queueSize w).2.unreleased +
        ((t.pendingOf w).filter fun e => !e.2.slotReleased).length = t.unreleased := by
  have hsum : ∀ l : List (PendingDispatchKey × PendingDispatch κ π),
      ((l.filter fun e => decide (e.1.workerIndex ≠ w)).map fun e => if e.2.slotReleased then 0 else 1).sum +
        ((l.filter fun e => decide (e.1.workerIndex = w)).filter fun e => !e.2.slotReleased).length =
      (l.map fun e => if e.2.slotReleased then 0 else 1).sum := by
    intro l
    induction l with
    | nil => rfl
    | cons e l ih =>
      by_cases hw : e.1.workerIndex = w
      · cases hslot : e.2.slotReleased <;> simp [hw, hslot] at ih ⊢ <;> omega
      · cases hslot : e.2.slotReleased <;> simp [hw, hslot] at ih ⊢ <;> omega
  unfold WorkerPipesTransport.unreleased WorkerPipesTransport.recoverPendingDispatches
  rw [WorkerPipesTransport.pendingDispatch_releaseAll]
  exact hsum t.pendingDispatch.entries

/-- Recovery frees no more slots than the entries hold that it removes. -/
theorem slots_recover_le (t : WorkerPipesTransport κ π) (queueSize w : Nat) :
    (t.recoverPendingDispatches queueSize w).2.slots + (t.recoverPendingDispatches queueSize w).2.unreleased ≤
      t.slots + t.unreleased := by
  have hrelease : ∀ (l : List (PendingDispatchKey × PendingDispatch κ π)) (t : WorkerPipesTransport κ π),
      (l.foldl (fun t _ => t.releaseSlot queueSize) t).slots ≤ t.slots + l.length := by
    intro l
    induction l with
    | nil => intro t; exact Nat.le_refl _
    | cons e l ih =>
      intro t
      refine Nat.le_trans (ih (t.releaseSlot queueSize)) ?_
      have : (t.releaseSlot queueSize).slots ≤ t.slots + 1 := by
        show (if t.slots < queueSize then t.slots + 1 else t.slots) ≤ t.slots + 1
        split <;> omega
      rw [List.length_cons]
      omega
  have hslots := hrelease ((t.pendingOf w).filter fun e => !e.2.slotReleased)
    ⟨t.pendingDispatch.filter fun k _ => k.workerIndex ≠ w, t.slots, fun k d h => by
      rw [Dict.get?_filter] at h
      exact t.keyed k d (Option.filter_eq_some_iff.mp h).1⟩
  have hunreleased := unreleased_recover t queueSize w
  unfold WorkerPipesTransport.recoverPendingDispatches at hunreleased ⊢
  dsimp only at hslots hunreleased ⊢
  omega

/-- What recovery hands on was pending under a key of the worker. -/
theorem mem_recovered {w queueSize : Nat} {t : WorkerPipesTransport κ π} {x : WorkItem κ π}
    (h : x ∈ (t.recoverPendingDispatches queueSize w).1) :
    ∃ k d, t.pendingDispatch.get? k = some d ∧ k.workerIndex = w ∧ x ∈ d.payloads := by
  obtain ⟨⟨k, d⟩, he, hx⟩ := List.mem_flatMap.mp h
  obtain ⟨he, hw⟩ := List.mem_filter.mp he
  exact ⟨k, d, (Dict.mem_entries_iff _).mp he, of_decide_eq_true hw, hx⟩

theorem get?_recover (t : WorkerPipesTransport κ π) (queueSize w : Nat) (k : PendingDispatchKey) :
    (t.recoverPendingDispatches queueSize w).2.pendingDispatch.get? k =
      if k.workerIndex = w then none else t.pendingDispatch.get? k := by
  unfold WorkerPipesTransport.recoverPendingDispatches
  rw [WorkerPipesTransport.pendingDispatch_releaseAll, Dict.get?_filter]
  by_cases hw : k.workerIndex = w
  · rw [if_pos hw]
    cases t.pendingDispatch.get? k <;> simp [Option.filter, hw]
  · rw [if_neg hw]
    cases t.pendingDispatch.get? k <;> simp [Option.filter, hw]

/-- **Recovery** takes the entries of the worker. A call whose entry was there is marked. -/
theorem raceInv_recover (h : RaceInv cfg s) (w : Nat) : RaceInv cfg (s.recover cfg w) := by
  unfold recover
  split
  · rename_i hidle halive
    have hsame : (s.submitter.markTaken w).identities = s.submitter.identities ∧
        ((s.submitter.markTaken w).Exposed ↔ s.submitter.Exposed) ∧
        (s.submitter.markTaken w).loose = s.submitter.loose := by
      cases s.submitter <;> exact ⟨rfl, .rfl, rfl⟩
    obtain ⟨hids, hexposed, hloose⟩ := hsame
    have hpends : ∀ {k d}, (s.transport.recoverPendingDispatches cfg.queueSize w).2.pendingDispatch.get? k = some d →
        k.workerIndex ≠ w ∧ s.transport.pendingDispatch.get? k = some d := by
      intro k d hget
      rw [get?_recover] at hget
      split at hget
      · cases hget
      · rename_i hne
        exact ⟨hne, hget⟩
    have hhands : ∀ {x : WorkItem κ π}, x ∈ (Recovery.collect (.ofPayload cfg.maxRetries)
        (s.transport.recoverPendingDispatches cfg.queueSize w).1).payloads →
        ∃ k d, s.transport.pendingDispatch.get? k = some d ∧ k.workerIndex = w ∧
          ∃ y ∈ d.payloads, y.identity = x.identity := by
      intro x hx
      obtain ⟨y, hy, heq⟩ := mem_collect_payloads hx
      obtain ⟨k, d, hget, hw, hmem⟩ := mem_recovered hy
      exact ⟨k, d, hget, hw, y, hmem, heq⟩
    have howns : ∀ c, s.submitter.markTaken w = .sending c false ∨ s.submitter.markTaken w = .rollingBack c false →
        c.worker ≠ w ∧ s.Owns c := by
      intro c hc
      have hown := h.owns
      cases hpc : s.submitter with
      | sending c' taken =>
        rw [hpc] at hc
        rcases hc with hc | hc
        · injection hc with hcall htaken
          subst hcall
          obtain ⟨rfl, hw⟩ := Bool.or_eq_false_iff.mp htaken
          exact ⟨of_decide_eq_false hw, hown c' (.inl hpc)⟩
        · cases hc
      | rollingBack c' taken =>
        rw [hpc] at hc
        rcases hc with hc | hc
        · cases hc
        · injection hc with hcall htaken
          subst hcall
          obtain ⟨rfl, hw⟩ := Bool.or_eq_false_iff.mp htaken
          exact ⟨of_decide_eq_false hw, hown c' (.inr hpc)⟩
      | _ =>
        rw [hpc] at hc
        rcases hc with hc | hc <;> cases hc
    refine ⟨fun i hi => ?_, ?_, fun c hc => ?_, fun c hc => ?_, fun rest pc c hc => (by cases hc),
      fun rest c taken hc => (by rcases hc with hc | hc <;> cases hc), ?_, ?_⟩
    · show i ∈ s.accepted ∨ (i ∈ (s.submitter.markTaken w).identities ∧ (s.submitter.markTaken w).Exposed)
      rw [hids, hexposed]
      refine h.known i ?_
      rcases hi with ⟨k, d, hget, hx⟩ | hi | hi | ⟨x, hx, rfl⟩
      · exact .inl ⟨k, d, (hpends hget).2, hx⟩
      · exact .inr (.inl hi)
      · exact .inr (.inr (.inl hi))
      · obtain ⟨k, d, hget, -, hy⟩ := hhands hx
        exact .inl ⟨k, d, hget, hy⟩
    · show ∀ i ∈ (s.submitter.markTaken w).identities, i ∉ s.accepted
      rw [hids]
      exact h.fresh
    · obtain ⟨hw, hown⟩ := howns c hc
      refine ⟨(get?_recover _ _ _ _).trans ((if_neg (by rwa [c.workerIndex_key])).trans hown.entry), hown.storedBy,
        fun i hi => ?_⟩
      obtain ⟨hpipes, hworking, -, honly⟩ := hown.only i hi
      refine ⟨hpipes, hworking, fun x hx heq => ?_, fun k d hget hx => honly k d (hpends hget).2 hx⟩
      obtain ⟨k, d, hget, hkw, y, hy, hyx⟩ := hhands hx
      rw [honly k d hget ⟨y, hy, hyx.trans heq⟩, c.workerIndex_key] at hkw
      exact hw hkw
    · intro w' batchId hkey
      have hold : s.submitter = .acquiring c ∨ s.submitter = .registering c := by
        revert hc
        show s.submitter.markTaken w = _ ∨ s.submitter.markTaken w = _ → _
        cases s.submitter with
        | acquiring c' => exact id
        | registering c' => exact id
        | _ => intro hc; rcases hc with hc | hc <;> cases hc
      show (s.transport.recoverPendingDispatches cfg.queueSize w).2.pendingDispatch.get? c.key = none
      rw [get?_recover, h.batchFree c hold w' batchId hkey]
      split <;> rfl
    · show ∀ i ∈ s.refused, i ∉ s.accepted ∧ i ∉ (s.submitter.markTaken w).identities
      rw [hids]
      exact h.refused
    · have hslots := h.slots
      have hle := slots_recover_le s.transport cfg.queueSize w
      rw [hidle] at hslots
      show (s.transport.recoverPendingDispatches cfg.queueSize w).2.slots +
        (s.transport.recoverPendingDispatches cfg.queueSize w).2.unreleased + (s.submitter.markTaken w).loose + 0 ≤ _
      rw [hloose]
      change s.transport.slots + s.transport.unreleased + s.submitter.loose + 0 ≤ _ at hslots
      omega
  · exact h

theorem raceInv_restart (h : RaceInv cfg s) (ok : Bool) : RaceInv cfg (s.restart ok) := by
  unfold restart
  split
  · rename_i w payloads hrecovery
    have hhands : ∀ x ∈ (if ok then RecoveryPc.requeueing payloads .idle else .idle).hands, x ∈ s.recovery.hands := by
      rw [hrecovery]
      cases ok with
      | true => exact fun x hx => hx
      | false => exact fun x hx => by cases hx
    have hpipes : ∀ i, ({ s with
          alive := fun w' => if w' = w then ok else s.alive w'
          pipes := fun w' => if w' = w then [] else s.pipes w'
          recovery := if ok then .requeueing payloads .idle else .idle } : DispatchRace κ π).InPipes i →
        s.InPipes i := by
      rintro i ⟨w', m, hm, x, hx, rfl⟩
      dsimp only at hm
      split at hm
      · cases hm
      · exact ⟨w', m, hm, x, hx, rfl⟩
    refine h.of_moved rfl rfl rfl (fun i hi => ?_) (fun c hc => ?_) (fun _ _ hx => hx) (fun rest pc c hc => ?_)
      (fun rest c taken hc => ?_) ?_
    · rcases hi with hi | hi | hi | ⟨x, hx, hxi⟩
      · exact .inl hi
      · exact .inr (.inl (hpipes i hi))
      · exact .inr (.inr (.inl hi))
      · exact .inr (.inr (.inr ⟨x, hhands x hx, hxi⟩))
    · have howns := h.owns c hc
      refine ⟨howns.entry, howns.storedBy, fun i hi => ?_⟩
      obtain ⟨hp, hworking, hh, honly⟩ := howns.only i hi
      exact ⟨fun hx => hp (hpipes i hx), hworking, fun x hx => hh x (hhands x hx), honly⟩
    · dsimp only at hc
      split at hc
      · cases hc
        intro hcall
        cases hcall
      · cases hc
    · dsimp only at hc
      split at hc <;> rcases hc with hc | hc <;> cases hc
    · rw [hrecovery]
      cases ok <;> exact Nat.le_refl _
  · exact h

theorem raceInv_requeueNext (h : RaceInv cfg s) : RaceInv cfg (s.requeueNext cfg) := by
  have hmove : ∀ r : RecoveryPc κ π, (∀ x ∈ r.hands, x ∈ s.recovery.hands) → r.loose = 0 →
      (∀ rest pc c, r = .requeueing rest pc → pc.call? = some c → ∃ w x, c = .payload w x) →
      (∀ rest c taken, ¬(r = .requeueing rest (.sending c taken) ∨ r = .requeueing rest (.rollingBack c taken))) →
      RaceInv cfg { s with recovery := r } := by
    intro r hhands hloose hitem hnot
    refine h.of_moved rfl rfl rfl (fun i hi => ?_) (fun c hc => ?_) (fun _ _ hx => hx) hitem
      (fun rest c taken hc => absurd hc (hnot rest c taken)) ?_
    · rcases hi with hi | hi | hi | ⟨x, hx, hxi⟩
      · exact .inl hi
      · exact .inr (.inl hi)
      · exact .inr (.inr (.inl hi))
      · exact .inr (.inr (.inr ⟨x, hhands x hx, hxi⟩))
    · have howns := h.owns c hc
      refine ⟨howns.entry, howns.storedBy, fun i hi => ?_⟩
      obtain ⟨hp, hworking, hh, honly⟩ := howns.only i hi
      exact ⟨hp, hworking, fun x hx => hh x (hhands x hx), honly⟩
    · show s.transport.slots + s.transport.unreleased + r.loose ≤ s.transport.slots + s.transport.unreleased + _
      rw [hloose]
      omega
  unfold requeueNext
  split
  · rename_i x rest pc hrecovery
    dsimp only
    split
    · refine hmove _ (fun y hy => ?_) rfl (fun rest' pc' c hc hcall => ?_) fun rest' c taken hc => ?_
      · have hrest : y ∈ x :: rest := hy
        rw [hrecovery]
        rename_i hfinished
        cases pc <;> first | exact hrest | cases hfinished
      · cases hc
        cases hcall
        exact ⟨_, _, rfl⟩
      · rcases hc with hc | hc <;> cases hc
    · exact h
  · rename_i pc hrecovery
    split
    · refine hmove _ (fun y hy => (by cases hy)) rfl (fun rest' pc' c hc => (by cases hc)) fun rest' c taken hc => ?_
      rcases hc with hc | hc <;> cases hc
    · exact h
  · exact h

/-- **A requeue** dispatches what recovery has in its hands, next to the call of the submitter. -/
theorem raceInv_requeueStep {a : DispatchAction} {rest : List (WorkItem κ π)} {pc : DispatchPc κ π}
    {r : DispatchRace κ π × DispatchPc κ π} (h : RaceInv cfg s) (hpc : s.recovery = .requeueing rest pc)
    (hstep : CallStep cfg .recovery s a pc r) : RaceInv cfg { r.1 with recovery := .requeueing rest r.2 } := by
  have hitem : ∀ c, pc.call? = some c → ∃ w x, c = .payload w x := fun c => h.requeueItem rest pc c hpc
  have hitem' : ∀ {pc' c}, pc'.call? = some c → pc.call? = some c → ∀ rest' pc'' c',
      RecoveryPc.requeueing rest pc' = .requeueing rest' pc'' → pc''.call? = some c' → ∃ w x, c' = .payload w x := by
    intro pc' c hcall hold rest' pc'' c' heq hcall'
    cases heq
    rw [hcall] at hcall'
    cases hcall'
    exact hitem c hold
  -- a step that leaves the entries and the pipes alone
  have hquiet : ∀ (t : WorkerPipesTransport κ π) (pc' : DispatchPc κ π) (c : DispatchCall κ π),
      t.pendingDispatch = s.transport.pendingDispatch → pc'.call? = some c → pc.call? = some c →
      (∀ x ∈ (RecoveryPc.requeueing rest pc').hands, x ∈ s.recovery.hands) →
      (∀ taken, pc' = .sending c taken ∨ pc' = .rollingBack c taken → s.RequeueOwns c) →
      t.slots + pc'.loose ≤ s.transport.slots + s.recovery.loose →
      RaceInv cfg { s with transport := t, recovery := .requeueing rest pc' } := by
    intro t pc' c hsame hcall hold hhands hown hslots
    have hunreleased : t.unreleased = s.transport.unreleased := by
      unfold WorkerPipesTransport.unreleased
      rw [hsame]
    refine h.of_moved rfl rfl rfl (fun i hi => ?_) (fun c' hc' => ?_) (fun w b hx => ?_) (hitem' hcall hold)
      (fun rest' c' taken hc' => ?_) ?_
    · rcases hi with hi | hi | hi | ⟨x, hx, hxi⟩
      · exact .inl ((WorkerPipesTransport.pends_congr hsame).mp hi)
      · exact .inr (.inl hi)
      · exact .inr (.inr (.inl hi))
      · exact .inr (.inr (.inr ⟨x, hhands x hx, hxi⟩))
    · have howns := h.owns c' hc'
      refine ⟨(congrArg (Dict.get? · c'.key) hsame).trans howns.entry, howns.storedBy, fun i hi => ?_⟩
      obtain ⟨hp, hworking, hh, honly⟩ := howns.only i hi
      refine ⟨hp, hworking, fun x hx => hh x (hhands x hx), fun k d hget => honly k d ?_⟩
      exact (congrArg (Dict.get? · k) hsame).symm.trans hget
    · exact (congrArg (Dict.get? · _) hsame).trans hx
    · have hown' : s.RequeueOwns c' := by
        rcases hc' with hc' | hc' <;> cases hc' <;> cases hcall
        · exact hown taken (.inl rfl)
        · exact hown taken (.inr rfl)
      exact ⟨(congrArg (Dict.get? · c'.key) hsame).trans hown'.entry, hown'.storedBy⟩
    · show t.slots + t.unreleased + pc'.loose ≤ _
      rw [hunreleased]
      omega
  cases hstep with
  | stays =>
    rw [← hpc]
    exact h
  | acquired c hfree =>
    refine hquiet _ _ c rfl rfl rfl (fun x hx => by rw [hpc]; exact hx)
      (fun taken hc => by rcases hc with hc | hc <;> cases hc) ?_
    rw [hpc]
    show s.transport.slots - 1 + 1 ≤ s.transport.slots + 0
    omega
  | shutDown c =>
    refine hquiet _ _ c rfl rfl rfl (fun x hx => ?_) (fun taken hc => by rcases hc with hc | hc <;> cases hc) ?_
    · rw [hpc]
      exact List.mem_append_right _ hx
    · rw [hpc]
      exact Nat.le_refl _
  | registered c =>
    obtain ⟨w, x, rfl⟩ := hitem c rfl
    have hhand : x ∈ s.recovery.hands := by
      rw [hpc]
      exact List.mem_append_left _ (List.mem_singleton_self x)
    -- a call of the submitter has other items
    have hother : ∀ c' : DispatchCall κ π, (∀ i ∈ c'.identities, ∀ y ∈ s.recovery.hands, y.identity ≠ i) →
        (DispatchCall.payload w x).key ≠ c'.key := fun c' hno heq =>
      hno _ (DispatchCall.mem_identities_of_key heq.symm) x hhand rfl
    refine h.of_moved rfl rfl rfl (fun i hi => ?_) (fun c' hc' => ?_) (fun w' b hx => ?_) (hitem' rfl rfl)
      (fun rest' c' taken hc' => ?_) ?_
    · rcases hi with hi | hi | hi | ⟨y, hy, hyi⟩
      · rcases pends_store_iff hi with hi | hi
        · exact .inl hi
        · rw [List.mem_singleton.mp hi]
          exact .inr (.inr (.inr ⟨x, hhand, rfl⟩))
      · exact .inr (.inl hi)
      · exact .inr (.inr (.inl hi))
      · refine .inr (.inr (.inr ⟨y, ?_, hyi⟩))
        rw [hpc]
        exact List.mem_append_right _ hy
    · have howns := h.owns c' hc'
      have hne := hother c' fun i hi => (howns.only i hi).2.2.1
      refine ⟨(Dict.get?_set _ _ _ _).trans ((if_neg hne).trans howns.entry),
        (if_neg (Ne.symm hne)).trans howns.storedBy, fun i hi => ?_⟩
      obtain ⟨hp, hworking, hh, honly⟩ := howns.only i hi
      refine ⟨hp, hworking, fun y hy => hh y ?_, fun k d hget hx => ?_⟩
      · rw [hpc]
        exact List.mem_append_right _ hy
      · change (s.transport.pendingDispatch.set _ _).get? k = some d at hget
        rw [Dict.get?_set] at hget
        split at hget
        · cases hget
          obtain ⟨y, hy, hyi⟩ := hx
          rw [List.mem_singleton.mp hy] at hyi
          exact absurd hyi (hh x hhand)
        · exact honly k d hget hx
    · refine (Dict.get?_set _ _ _ _).trans ((if_neg ?_).trans hx)
      intro heq
      cases heq
    · rcases hc' with hc' | hc'
      · cases hc'
        exact ⟨Dict.get?_set_self _ _ _, if_pos rfl⟩
      · cases hc'
    · have hstore := unreleased_store_le s.transport (.payload w x)
      rw [hpc]
      show s.transport.slots + (s.transport.store _ _ (DispatchCall.keyed (.payload w x))).unreleased + 0 ≤
        s.transport.slots + s.transport.unreleased + 1
      omega
  | sent c taken =>
    have hown := h.requeueOwns rest c taken (.inl hpc)
    have hpends : ∀ i ∈ c.identities, s.transport.Pends i := by
      intro i hi
      obtain ⟨x, hx, rfl⟩ := List.mem_map.mp hi
      exact ⟨c.key, c.pending, hown.entry, x, by rw [c.payloads_pending]; exact hx, rfl⟩
    refine h.of_moved rfl rfl rfl (fun i hi => ?_) (fun c' hc' => ?_) (fun _ _ hx => hx) (hitem' rfl rfl)
      (fun rest' c' taken' hc' => by rcases hc' with hc' | hc' <;> cases hc') ?_
    · rcases hi with hi | hi | hi | ⟨x, hx, hxi⟩
      · exact .inl hi
      · exact (inPipes_send hi).elim (fun hi => .inr (.inl hi)) fun hi => .inl (hpends i hi)
      · exact .inr (.inr (.inl hi))
      · exact .inr (.inr (.inr ⟨x, by rw [hpc]; exact hx, hxi⟩))
    · have howns := h.owns c' hc'
      refine ⟨howns.entry, howns.storedBy, fun i hi => ?_⟩
      obtain ⟨hp, hworking, hh, honly⟩ := howns.only i hi
      refine ⟨fun hx => ?_, hworking, fun x hx => hh x (by rw [hpc]; exact hx), honly⟩
      rcases inPipes_send hx with hx | hx
      · exact hp hx
      · obtain ⟨y, hy, hyi⟩ := List.mem_map.mp hx
        have hkey := honly c.key c.pending hown.entry ⟨y, by rw [c.payloads_pending]; exact hy, hyi⟩
        exact hown.key_ne_of_owns howns hkey.symm
    · rw [hpc]
      exact Nat.le_refl _
  | failed c taken =>
    have hown := h.requeueOwns rest c taken (.inl hpc)
    refine hquiet _ _ c rfl rfl rfl (fun x hx => by rw [hpc]; exact hx) (fun _ _ => hown) ?_
    rw [hpc]
    exact Nat.le_refl _
  | rolledBack c taken _ =>
    have hown := h.requeueOwns rest c taken (.inr hpc)
    refine h.of_moved rfl rfl rfl (fun i hi => ?_) (fun c' hc' => ?_) (fun w b hx => ?_) (hitem' rfl rfl)
      (fun rest' c' taken' hc' => by rcases hc' with hc' | hc' <;> cases hc') ?_
    · rcases hi with hi | hi | hi | ⟨x, hx, hxi⟩
      · exact .inl (pends_of_forget hi).1
      · exact .inr (.inl hi)
      · exact .inr (.inr (.inl hi))
      · exact .inr (.inr (.inr ⟨x, by rw [hpc]; exact hx, hxi⟩))
    · have howns := h.owns c' hc'
      have hne := hown.key_ne_of_owns howns
      refine ⟨(Dict.get?_erase _ _ _).trans ((if_neg (Ne.symm hne)).trans howns.entry), howns.storedBy, fun i hi => ?_⟩
      obtain ⟨hp, hworking, hh, honly⟩ := howns.only i hi
      refine ⟨hp, hworking, fun x hx => hh x (by rw [hpc]; exact hx), fun k d hget => honly k d ?_⟩
      change (s.transport.pendingDispatch.erase c.key).get? k = some d at hget
      rw [Dict.get?_erase] at hget
      split at hget
      · cases hget
      · exact hget
    · refine (Dict.get?_erase _ _ _).trans ?_
      split
      · rfl
      · exact hx
    · have hforget := unreleased_forget hown.entry
      rw [hpc]
      show s.transport.slots + (s.transport.forget c.key).unreleased + 1 ≤
        s.transport.slots + s.transport.unreleased + 0
      omega
  | released c =>
    refine hquiet _ _ c rfl rfl rfl (fun x hx => by rw [hpc]; exact hx)
      (fun taken hc => by rcases hc with hc | hc <;> cases hc) ?_
    rw [hpc]
    show (if s.transport.slots < cfg.queueSize then s.transport.slots + 1 else s.transport.slots) + 0 ≤
      s.transport.slots + 1
    split <;> omega

theorem raceInv_requeue (h : RaceInv cfg s) (a : DispatchAction) : RaceInv cfg (s.requeue cfg a) := by
  unfold requeue
  split
  · rename_i rest pc hpc
    exact raceInv_requeueStep h hpc (dispatchStep_step .recovery s pc a)
  · exact h

/-! ## Every run -/

/-- The step is not the rollback of a call whose entry recovery has taken. -/
def NotTaken (s : DispatchRace κ π) (a : RaceAction κ π) : Prop :=
  a = .submitter .rollBack → ∀ c, s.submitter ≠ .rollingBack c true

theorem raceInv_next (h : RaceInv cfg s) {a : RaceAction κ π} (henabled : (raceMachine κ π cfg).enabled s a)
    (ha : s.NotTaken a) : RaceInv cfg ((raceMachine κ π cfg).next s a) := by
  cases a with
  | call c => exact raceInv_call h henabled.1 henabled.2.2.1 henabled.2.2.2
  | submitter a => exact raceInv_submit h fun hroll => ha (by rw [hroll])
  | finish => exact raceInv_finish h
  | die w => exact raceInv_die h w
  | take w => exact raceInv_take h w
  | recover w => exact raceInv_recover h w
  | restart ok => exact raceInv_restart h ok
  | requeueNext => exact raceInv_requeueNext h
  | requeue a => exact raceInv_requeue h a

theorem raceInv_reachable (h : (raceMachine κ π cfg).ReachableBy NotTaken s) : RaceInv cfg s := by
  refine (raceMachine κ π cfg).invariant (I := RaceInv cfg) ?_ (fun s a hs he ha => raceInv_next hs he ha) h
  rintro s ⟨hsubmitter, hrecovery, hrefused, hknown, hslots⟩
  refine ⟨fun i hi => .inl (hknown i hi), ?_, ?_, ?_, ?_, ?_, ?_, ?_⟩
  · rw [hsubmitter]
    intro i hi
    cases hi
  · rw [hsubmitter]
    intro c hc
    rcases hc with hc | hc <;> cases hc
  · rw [hsubmitter]
    intro c hc
    rcases hc with hc | hc <;> cases hc
  · rw [hrecovery]
    intro rest pc c hc
    cases hc
  · rw [hrecovery]
    intro rest c taken hc
    rcases hc with hc | hc <;> cases hc
  · rw [hrefused]
    intro i hi
    cases hi
  · rw [hsubmitter, hrecovery]
    exact hslots

end DispatchRace

/-- **A dispatch that fails leaves nothing behind.** In every state of a run without a rollback of a call
whose entry recovery has taken: no item of a call that raised is pending, in a pipe, with a worker or
about to be dispatched by recovery; a rollback removes the entry that its own thread stored; and the free
slots, with those that pending entries and calls hold, are no more than there are. -/
theorem failed_dispatch_leaves_nothing {κ π : Type} {cfg : RaceConfig κ} {s : DispatchRace κ π}
    (h : (raceMachine κ π cfg).ReachableBy DispatchRace.NotTaken s) :
    (∀ i, (i ∈ s.refused ∨ ∃ c, s.submitter = .raised c ∧ i ∈ c.identities) → ¬s.Somewhere i) ∧
    (∀ c taken, s.submitter = .rollingBack c taken → s.NotTaken (.submitter .rollBack) →
      s.transport.pendingDispatch.get? c.key = some c.pending ∧ s.storedBy c.key = .submitter) ∧
    s.transport.slots + s.transport.unreleased + s.submitter.loose + s.recovery.loose ≤ cfg.queueSize := by
  have hinv := DispatchRace.raceInv_reachable h
  refine ⟨fun i hi hsome => ?_, fun c taken hpc ha => ?_, hinv.slots⟩
  · rcases hi with hi | ⟨c, hpc, hi⟩
    · obtain ⟨haccepted, hcall⟩ := hinv.refused i hi
      exact (hinv.known i hsome).elim haccepted fun hx => hcall hx.1
    · exact hinv.nowhere (by rw [hpc]; exact id) (by rw [hpc]; exact hi) hsome
  · cases taken with
    | true => exact absurd hpc (ha rfl c)
    | false =>
      have howns := hinv.owns c (.inr hpc)
      exact ⟨howns.entry, howns.storedBy⟩

section Examples

/-- One worker, two queue slots. -/
def raceConfig : RaceConfig Nat := ⟨fun _ => 0, 1, 2, 3⟩

def raceItem : WorkItem Nat Unit := { id := .uuid 0, tp := ⟨"t", 0⟩, offset := 5, epoch := 1, key := 7, payload := () }

def raceStart : DispatchRace Nat Unit :=
  { transport := .new 2
    alive := fun _ => true
    pipes := fun _ => []
    working := []
    storedBy := fun _ => .submitter
    submitter := .idle
    recovery := .idle
    accepted := []
    refused := [] }

theorem init_raceStart : (raceMachine Nat Unit raceConfig).init raceStart := by
  refine ⟨rfl, rfl, rfl, fun i hi => ?_, by decide⟩
  rcases hi with ⟨k, d, hget, -⟩ | ⟨w, m, hm, -⟩ | hi | ⟨x, hx, -⟩
  · cases hget
  · cases hm
  · cases hi
  · cases hx

/-- The send fails, and the call rolls back. -/
def failedSend : List (RaceAction Nat Unit) :=
  [.call (.payload 0 raceItem), .submitter .acquire, .submitter .register, .submitter (.send false),
    .submitter .rollBack, .submitter .release, .finish]

theorem call_raceItem_enabled : (raceMachine Nat Unit raceConfig).enabled raceStart (.call (.payload 0 raceItem)) :=
  ⟨rfl, rfl, fun _ _ hi => (by cases hi), fun _ _ _ => rfl⟩

theorem failed_dispatch_leaves_nothing_failedSend :
    let s := (raceMachine Nat Unit raceConfig).run raceStart failedSend
    s.refused = [raceItem.identity] ∧ ¬s.Somewhere raceItem.identity := by
  intro s
  have hreach : (raceMachine Nat Unit raceConfig).ReachableBy DispatchRace.NotTaken s := by
    refine (raceMachine Nat Unit raceConfig).reachableBy_run failedSend (.start init_raceStart)
      ⟨call_raceItem_enabled, fun h => (by cases h), trivial, fun h => (by cases h), trivial, fun h => (by cases h),
        trivial, fun h => (by cases h), trivial, ?_, trivial, fun h => (by cases h), trivial, fun h => (by cases h),
        trivial⟩
    intro _ c hc
    cases hc
  have hrefused : s.refused = [raceItem.identity] := by decide
  exact ⟨hrefused, (failed_dispatch_leaves_nothing hreach).1 _ (.inl (by rw [hrefused]; exact List.mem_singleton_self _))⟩

/-- The worker dies under the send. Recovery takes the entry, restarts the worker and dispatches the item
again before the call rolls back. -/
def lateRollback : List (RaceAction Nat Unit) :=
  [.call (.payload 0 raceItem), .submitter .acquire, .submitter .register, .die 0, .submitter (.send false),
    .recover 0, .restart true, .requeueNext, .requeue .acquire, .requeue .register, .requeue (.send true),
    .submitter .rollBack, .submitter .release, .finish]

/-- The call raised, but the new worker has the item, and the entry of its dispatch and its slot are gone. -/
theorem refused_item_dispatched :
    let before := (raceMachine Nat Unit raceConfig).run raceStart (lateRollback.take 11)
    let s := (raceMachine Nat Unit raceConfig).run raceStart lateRollback
    (raceMachine Nat Unit raceConfig).Reachable s ∧
    s.refused = [raceItem.identity] ∧ s.Somewhere raceItem.identity ∧
    (before.transport.pendingDispatch.contains (.item 0 raceItem.identity) = true ∧
      before.storedBy (.item 0 raceItem.identity) = .recovery ∧ before.transport.slots = 1) ∧
    s.transport.pendingDispatch.contains (.item 0 raceItem.identity) = false ∧ s.transport.slots = 2 := by
  intro before s
  have hreach : (raceMachine Nat Unit raceConfig).Reachable s :=
    (raceMachine Nat Unit raceConfig).reachableBy_run lateRollback (.start init_raceStart)
      ⟨call_raceItem_enabled, by simp [Machine.Allowed, raceMachine]⟩
  refine ⟨hreach, by decide, .inr (.inl ?_), by decide, by decide, by decide⟩
  exact ⟨0, .workItems [{ raceItem with requeueAttempts := 1 }], List.mem_singleton_self _, _,
    List.mem_singleton_self _, rfl⟩

end Examples

end PyrallelConsumer
