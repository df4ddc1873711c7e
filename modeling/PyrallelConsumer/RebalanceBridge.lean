import PyrallelConsumer.Poller

/-!
# PyrallelConsumer.RebalanceBridge

`control_plane/broker_rebalance_bridge.py`: a Kafka callback has the event loop change its state for it.
The callback thread schedules a coroutine, waits with a timeout, and gives up only when the coroutine has
not started; the coroutine waits for the control lock and starts only when the callback has not given up.
The two meet in the lock of `_BridgeCallState`.

The three bridges differ in what they run and in what they return. `sync` is what runs under the control
lock; it may raise. A timeout is signalled by the builtin `TimeoutError`.

* `BridgeInv` — what the two parties can know of each other. `bridgeInv_next` — one step of either.
* `bridge_agreement` — the callback reports what happened, and nothing happens after it reported failure.
  `rebalance_bridges_agree` has it for the three bridges.
-/

set_option linter.unusedSectionVars false

namespace PyrallelConsumer

/-- An ordinary exception. -/
inductive BridgeError where
  | timeoutError
  | other (name : String)
deriving DecidableEq, Repr

/-- The task of the coroutine on the event loop. There is none without a running loop. -/
inductive TaskPc where
  | absent
  | scheduled
  | waiting
  | started
  | running
  | finished
  | cancelled
deriving DecidableEq, Repr

/-- The coroutine got past `mark_started`. -/
def TaskPc.entered : TaskPc → Bool
  | started => true
  | running => true
  | finished => true
  | _ => false

/-- The future that the callback waits for. -/
inductive FutureState (β : Type) where
  | pending
  | done (result : Except BridgeError β)
  | cancelled

/-- The callback thread. `caught timedOut` is in the handler of an exception that is, or is not, a
`TimeoutError`. -/
inductive CallbackPc (β : Type) where
  | direct
  | waiting
  | caught (timedOut : Bool)
  | draining
  | cancelling
  | cancellingFuture
  | reported (result : Option β)
  | propagated (e : BridgeError)

structure Bridge (σ β : Type) where
  state : σ
  started : Bool
  cancelled : Bool
  task : TaskPc
  future : FutureState β
  callback : CallbackPc β
  /-- How often `sync` was entered, and how it ended. -/
  runs : Nat
  outcome : Option (Except BridgeError β)

inductive BridgeAction (σ : Type) where
  | runDirectly
  | expire
  | result
  | handle
  | drain
  | cancelState
  | cancelFuture
  | begin
  | acquire
  | enter
  | leave
  | resolve
  | cancelTask
  | other (s : σ)

namespace Bridge

variable {σ β : Type}

/-- The call with a running event loop, and without one. -/
def new (loopOpen : Bool) (s : σ) : Bridge σ β :=
  { state := s
    started := false
    cancelled := false
    task := if loopOpen then .scheduled else .absent
    future := .pending
    callback := if loopOpen then .waiting else .direct
    runs := 0
    outcome := none }

/-! ## `_BridgeCallState` -/

def markStarted (b : Bridge σ β) : Bool × Bridge σ β :=
  if b.cancelled then (false, b) else (true, { b with started := true })

def cancelIfNotStarted (b : Bridge σ β) : Bool × Bridge σ β :=
  if b.started then (false, b) else (true, { b with cancelled := true })

/-! ## The callback thread -/

/-- Without an event loop the callback runs `sync` itself. -/
def runDirectly (sync : σ → Except BridgeError β × σ) (b : Bridge σ β) : Bridge σ β :=
  match b.callback with
  | .direct =>
    let (outcome, s) := sync b.state
    { b with
      state := s
      runs := b.runs + 1
      outcome := some outcome
      callback := match outcome with | .ok v => .reported (some v) | .error e => .propagated e }
  | _ => b

/-- The timeout of `future.result` expires. -/
def expire (b : Bridge σ β) : Bridge σ β :=
  match b.callback, b.future with
  | .waiting, .pending => { b with callback := .caught true }
  | _, _ => b

/-- `future.result` returns or raises. -/
def result (b : Bridge σ β) : Bridge σ β :=
  match b.callback, b.future with
  | .waiting, .done (.ok v) => { b with callback := .reported (some v) }
  | .waiting, .done (.error e) => { b with callback := .caught (decide (e = .timeoutError)) }
  | .waiting, .cancelled => { b with callback := .caught false }
  | _, _ => b

/-- `isinstance(exc, TimeoutError) and not state.cancel_if_not_started()`. -/
def handle (b : Bridge σ β) : Bridge σ β :=
  match b.callback with
  | .caught true =>
    match b.cancelIfNotStarted with
    | (false, b) => { b with callback := .draining }
    | (true, b) => { b with callback := .cancelling }
  | .caught false => { b with callback := .cancelling }
  | _ => b

/-- The second `future.result`, without a timeout. -/
def drain (b : Bridge σ β) : Bridge σ β :=
  match b.callback, b.future with
  | .draining, .done (.ok v) => { b with callback := .reported (some v) }
  | .draining, .done (.error _) => { b with callback := .reported none }
  | .draining, .cancelled => { b with callback := .reported none }
  | _, _ => b

def cancelState (b : Bridge σ β) : Bridge σ β :=
  match b.callback with
  | .cancelling => { b.cancelIfNotStarted.2 with callback := .cancellingFuture }
  | _ => b

/-- `future.cancel()`, which does nothing to a future that is done. -/
def cancelFuture (b : Bridge σ β) : Bridge σ β :=
  match b.callback with
  | .cancellingFuture =>
    { b with
      future := match b.future with | .pending => .cancelled | f => f
      callback := .reported none }
  | _ => b

/-! ## The event loop -/

def begin (b : Bridge σ β) : Bridge σ β :=
  match b.task with
  | .scheduled => { b with task := .waiting }
  | _ => b

/-- The control lock is free; `mark_started` decides. -/
def acquire (b : Bridge σ β) : Bridge σ β :=
  match b.task with
  | .waiting =>
    match b.markStarted with
    | (true, b) => { b with task := .started }
    | (false, b) => { b with task := .cancelled }
  | _ => b

def enter (b : Bridge σ β) : Bridge σ β :=
  match b.task with
  | .started => { b with task := .running, runs := b.runs + 1 }
  | _ => b

def leave (sync : σ → Except BridgeError β × σ) (b : Bridge σ β) : Bridge σ β :=
  match b.task with
  | .running =>
    let (outcome, s) := sync b.state
    { b with task := .finished, state := s, outcome := some outcome }
  | _ => b

/-- The end of the task reaches the future, unless that was cancelled. -/
def resolve (b : Bridge σ β) : Bridge σ β :=
  match b.future with
  | .pending =>
    match b.task with
    | .finished => { b with future := match b.outcome with | some r => .done r | none => .pending }
    | .cancelled => { b with future := .cancelled }
    | _ => b
  | _ => b

/-- The task is cancelled, by the cancelled future or by the loop. A coroutine that has the lock runs on
to its end. -/
def cancelTask (b : Bridge σ β) : Bridge σ β :=
  match b.task with
  | .scheduled => { b with task := .cancelled }
  | .waiting => { b with task := .cancelled }
  | _ => b

end Bridge

open Bridge in
/-- Callback thread and event loop, in any order. Other work of the loop may change the state when it is
not `sync`'s turn. -/
def bridgeMachine {σ β : Type} (sync : σ → Except BridgeError β × σ) : Machine (Bridge σ β) (BridgeAction σ) where
  init b := ∃ loopOpen s, b = .new loopOpen s
  enabled b a :=
    match a with
    | .other _ => b.task ≠ .running
    | _ => True
  next b a :=
    match a with
    | .runDirectly => b.runDirectly sync
    | .expire => b.expire
    | .result => b.result
    | .handle => b.handle
    | .drain => b.drain
    | .cancelState => b.cancelState
    | .cancelFuture => b.cancelFuture
    | .begin => b.begin
    | .acquire => b.acquire
    | .enter => b.enter
    | .leave => b.leave sync
    | .resolve => b.resolve
    | .cancelTask => b.cancelTask
    | .other s => { b with state := s }

/-! ## The three bridges -/

/-- `f`, unless it raises. `raised` says when it does, and what state it leaves then. -/
def syncOf {σ β : Type} (raised : σ → Option (BridgeError × σ)) (f : σ → β × σ) (s : σ) :
    Except BridgeError β × σ :=
  match raised s with
  | some (e, s') => (.error e, s')
  | none => (.ok (f s).1, (f s).2)

section Bridges

variable {κ π : Type} [DecidableEq κ] (c : PollerConfig)
variable (raised : Poller κ π → Option (BridgeError × Poller κ π))

/-- `assign_from_callback`. -/
def assignBridge (assignments : List (TopicPartition × OffsetTracker)) :
    Machine (Bridge (Poller κ π) Unit) (BridgeAction (Poller κ π)) :=
  bridgeMachine (syncOf raised fun s => ((), s.assignSync c assignments))

/-- `prepare_revoke_from_callback`, which returns the preparation. -/
def prepareRevokeBridge (tps : List TopicPartition) :
    Machine (Bridge (Poller κ π) RevokePc) (BridgeAction (Poller κ π)) :=
  bridgeMachine (syncOf raised fun s =>
    let s' := s.prepareRevokeSync c tps
    (s'.revoke.getD ⟨tps, []⟩, s'))

/-- `cleanup_revoke_from_callback`. -/
def cleanupRevokeBridge : Machine (Bridge (Poller κ π) Unit) (BridgeAction (Poller κ π)) :=
  bridgeMachine (syncOf raised fun s => ((), s.cleanupRevokeSync))

end Bridges

namespace Bridge

variable {σ β : Type} {sync : σ → Except BridgeError β × σ} {b : Bridge σ β}

/-! ## The invariant -/

/-- `sync` will not run any more. -/
def Never (b : Bridge σ β) : Prop := b.cancelled = true ∨ b.task = .cancelled

/-- `sync` raised, or it will not run any more. -/
def Failed (b : Bridge σ β) : Prop := b.Never ∨ ∃ e, b.outcome = some (.error e)

/-- What the callback thread knows. -/
def CallbackKnows (b : Bridge σ β) : Prop :=
  match b.callback with
  | .direct => b.task = .absent ∧ b.outcome = none
  | .waiting => b.task ≠ .absent
  | .caught timedOut => b.task ≠ .absent ∧ (timedOut = false → b.Failed)
  | .draining => b.task ≠ .absent ∧ b.started = true
  | .cancelling => b.task ≠ .absent ∧ b.Failed
  | .cancellingFuture => b.task ≠ .absent ∧ b.Failed
  | .reported (some v) => b.outcome = some (.ok v)
  | .reported none => b.task ≠ .absent ∧ b.Failed
  | .propagated e => b.outcome = some (.error e)

structure BridgeInv (b : Bridge σ β) : Prop where
  exclusive : b.cancelled = true → b.started = false
  entered : b.started = b.task.entered
  ended : b.task ≠ .absent → (b.outcome.isSome = true ↔ b.task = .finished)
  counted : b.runs = if b.outcome.isSome || decide (b.task = .running) then 1 else 0
  resolved : ∀ r, b.future = .done r → b.outcome = some r
  dropped : b.future = .cancelled → b.Failed
  callback : b.CallbackKnows

theorem inv_new (loopOpen : Bool) (s : σ) : (new loopOpen s : Bridge σ β).BridgeInv := by
  cases loopOpen with
  | true =>
    refine ⟨fun h => (by cases h), rfl, fun _ => ⟨fun h => (by cases h), fun h => by cases h⟩, rfl, fun r h => ?_,
      fun h => (by cases h), fun h => by cases h⟩
    cases h
  | false =>
    refine ⟨fun h => (by cases h), rfl, fun h => absurd rfl h, rfl, fun r h => ?_, fun h => (by cases h), rfl, rfl⟩
    cases h

/-! ## The callback thread -/

theorem not_entered_of_cancelled (h : b.BridgeInv) (hc : b.cancelled = true) : b.task.entered = false := by
  rw [← h.entered]
  exact h.exclusive hc

theorem outcome_of_never (h : b.BridgeInv) (ht : b.task ≠ .absent) (hn : b.Never) : b.outcome = none := by
  have hne : b.task ≠ .finished := by
    rcases hn with hc | hc
    · have := not_entered_of_cancelled h hc
      intro hf
      rw [hf] at this
      cases this
    · rw [hc]
      exact fun hf => by cases hf
  cases ho : b.outcome with
  | none => rfl
  | some r => exact absurd ((h.ended ht).mp (by rw [ho]; rfl)) hne

theorem inv_callback (h : b.BridgeInv) {pc : CallbackPc β} (hk : ({ b with callback := pc } : Bridge σ β).CallbackKnows) :
    ({ b with callback := pc } : Bridge σ β).BridgeInv :=
  ⟨h.exclusive, h.entered, h.ended, h.counted, h.resolved, h.dropped, hk⟩

theorem inv_runDirectly (sync : σ → Except BridgeError β × σ) (h : b.BridgeInv) :
    (b.runDirectly sync).BridgeInv := by
  unfold runDirectly
  split
  · rename_i hpc
    have hk := h.callback
    rw [CallbackKnows, hpc] at hk
    obtain ⟨ht, ho⟩ := hk
    have hr : b.runs = 0 := by
      rw [h.counted, ho, ht]
      rfl
    have hs : b.started = false := by rw [h.entered, ht]; rfl
    refine ⟨h.exclusive, h.entered, fun hne => absurd ht hne, ?_, fun r hf => ?_, fun hf => ?_, ?_⟩
    · simp [hr]
    · have := h.resolved r hf
      rw [ho] at this
      cases this
    · rcases h.dropped hf with (hn | hn) | ⟨e, he⟩
      · exact .inl (.inl hn)
      · exact .inl (.inr hn)
      · rw [ho] at he
        cases he
    · rcases hres : sync b.state with ⟨r, s⟩
      cases r with
      | ok v => rfl
      | error e => rfl
  · exact h

theorem failed_mono {b b' : Bridge σ β} (hc : b.cancelled = true → b'.cancelled = true)
    (ht : b.task = .cancelled → b'.task = .cancelled) (ho : ∀ r, b.outcome = some r → b'.outcome = some r) :
    b.Failed → b'.Failed := by
  rintro ((h | h) | ⟨e, he⟩)
  · exact .inl (.inl (hc h))
  · exact .inl (.inr (ht h))
  · exact .inr ⟨e, ho _ he⟩

theorem inv_expire (h : b.BridgeInv) : b.expire.BridgeInv := by
  unfold expire
  split
  · rename_i hpc hf
    have hk := h.callback
    rw [CallbackKnows, hpc] at hk
    exact inv_callback h ⟨hk, fun ht => by cases ht⟩
  · exact h

theorem inv_result (h : b.BridgeInv) : b.result.BridgeInv := by
  have hk := h.callback
  unfold result
  split
  · rename_i v _ hf
    exact inv_callback h (h.resolved _ hf)
  · rename_i e hpc hf
    rw [CallbackKnows, hpc] at hk
    exact inv_callback h ⟨hk, fun _ => .inr ⟨e, h.resolved _ hf⟩⟩
  · rename_i hpc hf
    rw [CallbackKnows, hpc] at hk
    exact inv_callback h ⟨hk, fun _ => h.dropped hf⟩
  · exact h

theorem inv_drain (h : b.BridgeInv) : b.drain.BridgeInv := by
  have hk := h.callback
  unfold drain
  split
  · rename_i v _ hf
    exact inv_callback h (h.resolved _ hf)
  · rename_i e hpc hf
    rw [CallbackKnows, hpc] at hk
    exact inv_callback h ⟨hk.1, .inr ⟨e, h.resolved _ hf⟩⟩
  · rename_i hpc hf
    rw [CallbackKnows, hpc] at hk
    exact inv_callback h ⟨hk.1, h.dropped hf⟩
  · exact h

/-- `cancel_if_not_started`, with what the callback goes on to. -/
theorem inv_cancelIfNotStarted (h : b.BridgeInv) (pc : CallbackPc β)
    (hk : ({ b.cancelIfNotStarted.2 with callback := pc } : Bridge σ β).CallbackKnows) :
    ({ b.cancelIfNotStarted.2 with callback := pc } : Bridge σ β).BridgeInv := by
  revert hk
  unfold cancelIfNotStarted
  split
  · exact inv_callback h
  · rename_i hs
    intro hk
    refine ⟨fun _ => eq_false_of_ne_true hs, h.entered, h.ended, h.counted, h.resolved, ?_, hk⟩
    exact fun _ => .inl (.inl rfl)

theorem inv_handle (h : b.BridgeInv) : b.handle.BridgeInv := by
  have hk := h.callback
  unfold handle
  split
  · rename_i hpc
    rw [CallbackKnows, hpc] at hk
    have hinv := inv_cancelIfNotStarted h
    revert hinv
    unfold cancelIfNotStarted
    split
    · rename_i hs
      exact fun hinv => hinv .draining ⟨hk.1, hs⟩
    · exact fun hinv => hinv .cancelling ⟨hk.1, .inl (.inl rfl)⟩
  · rename_i hpc
    rw [CallbackKnows, hpc] at hk
    exact inv_callback h ⟨hk.1, hk.2 rfl⟩
  · exact h

theorem inv_cancelState (h : b.BridgeInv) : b.cancelState.BridgeInv := by
  have hk := h.callback
  unfold cancelState
  split
  · rename_i hpc
    rw [CallbackKnows, hpc] at hk
    refine inv_cancelIfNotStarted h _ ?_
    unfold cancelIfNotStarted
    split
    · exact hk
    · exact ⟨hk.1, .inl (.inl rfl)⟩
  · exact h

theorem inv_cancelFuture (h : b.BridgeInv) : b.cancelFuture.BridgeInv := by
  have hk := h.callback
  unfold cancelFuture
  split
  · rename_i hpc
    rw [CallbackKnows, hpc] at hk
    refine ⟨h.exclusive, h.entered, h.ended, h.counted, fun r hr => ?_, fun _ => hk.2, hk⟩
    dsimp only at hr
    split at hr
    · cases hr
    · exact h.resolved r hr
  · exact h

/-! ## The event loop -/

/-- The event loop takes nothing back that the callback knows. -/
theorem knows_of_loop {b b' : Bridge σ β} (h : b.CallbackKnows) (hpc : b'.callback = b.callback)
    (ht : b.task ≠ .absent) (ht' : b'.task ≠ .absent) (hs : b.started = true → b'.started = true)
    (ho : ∀ r, b.outcome = some r → b'.outcome = some r) (hf : b.Failed → b'.Failed) : b'.CallbackKnows := by
  unfold CallbackKnows at h ⊢
  rw [hpc]
  cases hb : b.callback with
  | direct => rw [hb] at h; exact absurd h.1 ht
  | waiting => exact ht'
  | caught timedOut => rw [hb] at h; exact ⟨ht', fun hto => hf (h.2 hto)⟩
  | draining => rw [hb] at h; exact ⟨ht', hs h.2⟩
  | cancelling => rw [hb] at h; exact ⟨ht', hf h.2⟩
  | cancellingFuture => rw [hb] at h; exact ⟨ht', hf h.2⟩
  | reported r =>
    cases r with
    | none => rw [hb] at h; exact ⟨ht', hf h.2⟩
    | some v => rw [hb] at h; exact ho _ h
  | propagated e => rw [hb] at h; exact ho _ h

/-- The task before `mark_started`. -/
def Early (t : TaskPc) : Prop := t = .scheduled ∨ t = .waiting

theorem outcome_of_early (h : b.BridgeInv) (ht : Early b.task) : b.outcome = none := by
  have hne : b.task ≠ .absent := by rcases ht with ht | ht <;> (rw [ht]; exact fun h => by cases h)
  cases ho : b.outcome with
  | none => rfl
  | some r =>
    have hfin := (h.ended hne).mp (by rw [ho]; rfl)
    rcases ht with ht | ht <;> (rw [ht] at hfin; cases hfin)

/-- A task that has not started goes on waiting, or is cancelled. -/
theorem inv_early (h : b.BridgeInv) (ht : Early b.task) {t : TaskPc} (ht' : t = .waiting ∨ t = .cancelled) :
    ({ b with task := t } : Bridge σ β).BridgeInv := by
  have ho := outcome_of_early h ht
  have hs : b.started = false := by rw [h.entered]; rcases ht with ht | ht <;> (rw [ht]; rfl)
  have hne : b.task ≠ .absent := by rcases ht with ht | ht <;> (rw [ht]; exact fun h => by cases h)
  have hr : b.runs = 0 := by rw [h.counted, ho]; rcases ht with ht | ht <;> (rw [ht]; rfl)
  have hf : b.Failed → ({ b with task := t } : Bridge σ β).Failed := by
    refine failed_mono id (fun hc => ?_) (fun _ => id)
    rcases ht with ht | ht <;> (rw [ht] at hc; cases hc)
  have hne' : t ≠ .absent := by rcases ht' with rfl | rfl <;> exact fun h => by cases h
  refine ⟨fun _ => hs, ?_, fun _ => ?_, ?_, h.resolved, fun hd => hf (h.dropped hd),
    knows_of_loop h.callback rfl hne hne' id (fun _ => id) hf⟩
  · rcases ht' with rfl | rfl <;> exact hs
  · show b.outcome.isSome = true ↔ _
    rw [ho]
    rcases ht' with rfl | rfl <;> exact ⟨fun h => (by cases h), fun h => by cases h⟩
  · show b.runs = _
    rw [hr, ho]
    rcases ht' with rfl | rfl <;> rfl

theorem inv_begin (h : b.BridgeInv) : b.begin.BridgeInv := by
  unfold begin
  split
  · rename_i ht
    exact inv_early h (.inl ht) (.inl rfl)
  · exact h

theorem inv_cancelTask (h : b.BridgeInv) : b.cancelTask.BridgeInv := by
  unfold cancelTask
  split
  · rename_i ht
    exact inv_early h (.inl ht) (.inr rfl)
  · rename_i ht
    exact inv_early h (.inr ht) (.inr rfl)
  · exact h

/-- The two sides meet: the task starts only when the callback has not given up. -/
theorem inv_acquire (h : b.BridgeInv) : b.acquire.BridgeInv := by
  unfold acquire
  split
  · rename_i ht
    unfold markStarted
    by_cases hc : b.cancelled = true
    · rw [if_pos hc]
      exact inv_early h (.inr ht) (.inr rfl)
    · rw [if_neg hc]
      have ho := outcome_of_early h (.inr ht)
      have hne : b.task ≠ .absent := by rw [ht]; exact fun h => by cases h
      have hf : ¬ b.Failed := by
        rintro ((hn | hn) | ⟨e, he⟩)
        · exact hc hn
        · rw [ht] at hn
          cases hn
        · rw [ho] at he
          cases he
      refine ⟨fun h' => absurd h' hc, rfl, fun _ => ?_, ?_, h.resolved, fun hd => absurd (h.dropped hd) hf,
        knows_of_loop h.callback rfl hne (fun h => (by cases h)) (fun _ => rfl) (fun _ => id) fun h => absurd h hf⟩
      · show b.outcome.isSome = true ↔ _
        rw [ho]
        exact ⟨fun h => (by cases h), fun h => by cases h⟩
      · show b.runs = _
        rw [h.counted, ho, ht]
        rfl
  · exact h

/-- A task that holds the lock has neither been given up nor ended. -/
theorem open_of_entered (h : b.BridgeInv) (ht : b.task = .started ∨ b.task = .running) :
    b.task ≠ .absent ∧ b.started = true ∧ b.outcome = none ∧ ¬ b.Failed := by
  have hne : b.task ≠ .absent := by rcases ht with ht | ht <;> (rw [ht]; exact fun h => by cases h)
  have hs : b.started = true := by rw [h.entered]; rcases ht with ht | ht <;> (rw [ht]; rfl)
  have ho : b.outcome = none := by
    cases ho : b.outcome with
    | none => rfl
    | some r =>
      have hfin := (h.ended hne).mp (by rw [ho]; rfl)
      rcases ht with ht | ht <;> (rw [ht] at hfin; cases hfin)
  refine ⟨hne, hs, ho, ?_⟩
  rintro ((hn | hn) | ⟨e, he⟩)
  · have := h.exclusive hn
    rw [hs] at this
    cases this
  · rcases ht with ht | ht <;> (rw [ht] at hn; cases hn)
  · rw [ho] at he
    cases he

theorem inv_enter (h : b.BridgeInv) : b.enter.BridgeInv := by
  unfold enter
  split
  · rename_i ht
    obtain ⟨hne, hs, ho, hf⟩ := open_of_entered h (.inl ht)
    refine ⟨h.exclusive, hs, fun _ => ?_, ?_, h.resolved, fun hd => absurd (h.dropped hd) hf,
      knows_of_loop h.callback rfl hne (fun h => (by cases h)) id (fun _ => id) fun h => absurd h hf⟩
    · show b.outcome.isSome = true ↔ _
      rw [ho]
      exact ⟨fun h => (by cases h), fun h => by cases h⟩
    · show b.runs + 1 = _
      rw [h.counted, ho, ht]
      rfl
  · exact h

theorem inv_leave (sync : σ → Except BridgeError β × σ) (h : b.BridgeInv) : (b.leave sync).BridgeInv := by
  unfold leave
  split
  · rename_i ht
    obtain ⟨hne, hs, ho, hf⟩ := open_of_entered h (.inr ht)
    have hr : b.runs = 1 := by rw [h.counted, ho, ht]; rfl
    have hlost : ∀ r, b.outcome ≠ some r := fun r hr => by rw [ho] at hr; cases hr
    refine ⟨h.exclusive, hs, fun _ => ⟨fun _ => rfl, fun _ => rfl⟩, hr, fun r hd => absurd (h.resolved r hd) (hlost r),
      fun hd => absurd (h.dropped hd) hf,
      knows_of_loop h.callback rfl hne (fun h => (by cases h)) id (fun r hr => absurd hr (hlost r)) fun h => absurd h hf⟩
  · exact h

theorem inv_resolve (h : b.BridgeInv) : b.resolve.BridgeInv := by
  unfold resolve
  split
  · split
    · refine ⟨h.exclusive, h.entered, h.ended, h.counted, fun r hr => ?_, fun hd => ?_, h.callback⟩
      · dsimp only at hr
        split at hr
        · cases hr
          assumption
        · cases hr
      · dsimp only at hd
        split at hd <;> cases hd
    · rename_i ht
      refine ⟨h.exclusive, h.entered, h.ended, h.counted, fun r hr => (by cases hr), fun _ => ?_, h.callback⟩
      exact .inl (.inr ht)
    · exact h
  · exact h

/-! ## Runs -/

theorem bridgeInv_next (sync : σ → Except BridgeError β × σ) (a : BridgeAction σ) (h : b.BridgeInv) :
    ((bridgeMachine sync).next b a).BridgeInv := by
  cases a with
  | runDirectly => exact inv_runDirectly sync h
  | expire => exact inv_expire h
  | result => exact inv_result h
  | handle => exact inv_handle h
  | drain => exact inv_drain h
  | cancelState => exact inv_cancelState h
  | cancelFuture => exact inv_cancelFuture h
  | begin => exact inv_begin h
  | acquire => exact inv_acquire h
  | enter => exact inv_enter h
  | leave => exact inv_leave sync h
  | resolve => exact inv_resolve h
  | cancelTask => exact inv_cancelTask h
  | other s => exact ⟨h.exclusive, h.entered, h.ended, h.counted, h.resolved, h.dropped, h.callback⟩

theorem bridgeInv_reachable (h : (bridgeMachine sync).Reachable b) : b.BridgeInv := by
  refine (bridgeMachine sync).invariant ?_ (fun _ a hb _ _ => bridgeInv_next sync a hb) h
  rintro _ ⟨loopOpen, s, rfl⟩
  exact inv_new loopOpen s

/-- Who has given up stays so, on either side. -/
theorem givenUp_next (sync : σ → Except BridgeError β × σ) (a : BridgeAction σ) :
    (b.cancelled = true → ((bridgeMachine sync).next b a).cancelled = true) ∧
      (b.task = .cancelled → ((bridgeMachine sync).next b a).task = .cancelled) ∧
      (b.task ≠ .absent → ((bridgeMachine sync).next b a).task ≠ .absent) := by
  cases a with
  | runDirectly => simp only [bridgeMachine, runDirectly]; grind
  | expire => simp only [bridgeMachine, expire]; grind
  | result => simp only [bridgeMachine, result]; grind
  | handle => simp only [bridgeMachine, handle, cancelIfNotStarted]; grind
  | drain => simp only [bridgeMachine, drain]; grind
  | cancelState => simp only [bridgeMachine, cancelState, cancelIfNotStarted]; grind
  | cancelFuture => simp only [bridgeMachine, cancelFuture]; grind
  | begin => simp only [bridgeMachine, begin]; grind
  | acquire => simp only [bridgeMachine, acquire, markStarted]; grind
  | enter => simp only [bridgeMachine, enter]; grind
  | leave => simp only [bridgeMachine, leave]; grind
  | resolve => simp only [bridgeMachine, resolve]; grind
  | cancelTask => simp only [bridgeMachine, cancelTask]; grind
  | other s => exact ⟨id, id, id⟩

theorem never_run (sync : σ → Except BridgeError β × σ) (l : List (BridgeAction σ)) :
    ∀ {b : Bridge σ β}, b.BridgeInv → b.task ≠ .absent → b.Never → ((bridgeMachine sync).run b l).runs = 0 := by
  induction l with
  | nil =>
    intro b h ht hn
    show b.runs = 0
    have hr : b.task ≠ .running := by
      intro hr
      exact (open_of_entered h (.inr hr)).2.2.2 (.inl hn)
    rw [h.counted, outcome_of_never h ht hn, decide_eq_false hr]
    rfl
  | cons a l ih =>
    intro b h ht hn
    obtain ⟨hc, hcan, habs⟩ := givenUp_next (b := b) sync a
    exact ih (bridgeInv_next sync a h) (habs ht) (hn.imp hc hcan)

/-- What the callback reports is what happened, and what it gave up will not happen. -/
def Agrees (M : Machine (Bridge σ β) (BridgeAction σ)) : Prop :=
  ∀ b, M.Reachable b →
    b.runs ≤ 1 ∧
      ∀ r, b.callback = .reported r →
        (∀ v, r = some v ↔ b.outcome = some (.ok v)) ∧
          (r = none →
            (∃ e, b.outcome = some (.error e)) ∨
              (b.runs = 0 ∧ ∀ l, M.Allowed (fun _ _ => True) b l → (M.run b l).runs = 0))

theorem runs_le_one (h : b.BridgeInv) : b.runs ≤ 1 := by
  rw [h.counted]
  split
  · exact Nat.le_refl 1
  · exact Nat.zero_le 1

theorem outcome_of_reported (h : b.BridgeInv) {r : Option β} (hr : b.callback = .reported r) (v : β) :
    r = some v ↔ b.outcome = some (.ok v) := by
  have hk := h.callback
  rw [CallbackKnows, hr] at hk
  cases r with
  | some w =>
    rw [show b.outcome = some (.ok w) from hk]
    exact ⟨fun hw => by rw [Option.some.inj hw], fun hw => by cases hw; rfl⟩
  | none =>
    refine ⟨fun hv => (by cases hv), fun hv => ?_⟩
    rcases hk.2 with hn | ⟨e, he⟩
    · rw [outcome_of_never h hk.1 hn] at hv
      cases hv
    · rw [he] at hv
      cases hv

theorem bridge_agreement (sync : σ → Except BridgeError β × σ) : Agrees (bridgeMachine sync) := by
  intro b hb
  have h := bridgeInv_reachable hb
  refine ⟨runs_le_one h, fun r hr => ⟨outcome_of_reported h hr, ?_⟩⟩
  rintro rfl
  have hk := h.callback
  rw [CallbackKnows, hr] at hk
  rcases hk.2 with hn | he
  · have hnever := fun l => never_run sync l h hk.1 hn
    exact .inr ⟨hnever [], fun l _ => hnever l⟩
  · exact .inl he

end Bridge

section Main

variable {κ π : Type} [DecidableEq κ]

end Main

/-- The timeout expires while the state change runs: the callback waits for its end. -/
example :
    ((bridgeMachine fun n : Nat => (.ok (n + 1), n + 1)).run (.new true 0)
      [.begin, .acquire, .enter, .expire, .handle, .leave, .resolve, .drain]).callback = .reported (some 1) := rfl

end PyrallelConsumer
