import PyrallelConsumer.TerminalFailures
import PyrallelConsumer.WorkEvents
import PyrallelConsumer.PollerTrackers

/-!
# PyrallelConsumer.DeadLetterGate

The process engine and the poller as one system. What `poll_completed_events` of the engine returns is
what the next drain of the poller gets; which items are submitted is left open on both sides.

With dead letters enabled, a failed message is marked complete only after it was published, in every run
where no attempt before the last one times out. A timeout on an earlier attempt ends the item with a
failure whose attempt is below `max_retries`, and the gate lets it pass unpublished.

* `GateInv` — the failures that wait in the poller are terminal. `gateInv_next` — one action.
* `gated_step` — one change of a tracker. `failed_published_before_marked` — whole runs.
-/

set_option linter.unusedSectionVars false

namespace PyrallelConsumer

variable {κ π : Type} [DecidableEq κ]

/-! ## The poller -/

/-- Every failure that waits in the poller is terminal, and so are those that the poison circuit makes. -/
structure GateInv (c : PollerConfig) (s : Poller κ π) : Prop where
  events : ∀ e ∈ s.wm.completionQueue, e.Terminal c.dlq.maxRetries
  forced : ∀ a, s.wm.forcedAttempt = some a → c.dlq.maxRetries ≤ a
  ledger : ∀ e ∈ s.pendingDlqEvents.values, e.Terminal c.dlq.maxRetries

/-- The action makes no event but forced ones. -/
structure QuietEvents (s s' : Poller κ π) : Prop where
  wm : WorkManager.EventFrame s.wm s'.wm
  ledger : ∀ e ∈ s'.pendingDlqEvents.values, e ∈ s.pendingDlqEvents.values

namespace QuietEvents

theorem same {s s' : Poller κ π} (hwm : s'.wm = s.wm) (hl : s'.pendingDlqEvents = s.pendingDlqEvents) :
    QuietEvents s s' := ⟨hwm ▸ .refl _, fun _ he => hl ▸ he⟩

theorem refl (s : Poller κ π) : QuietEvents s s := same rfl rfl

theorem trans {s t u : Poller κ π} (h : QuietEvents s t) (h' : QuietEvents t u) : QuietEvents s u :=
  ⟨h.wm.trans h'.wm, fun e he => h.ledger e (h'.ledger e he)⟩

end QuietEvents

namespace GateInv

variable {c : PollerConfig} {s s' : Poller κ π}

theorem quiet (h : GateInv c s) (hq : QuietEvents s s') : GateInv c s' := by
  refine ⟨fun e he hfail => ?_, fun a ha => h.forced a (hq.wm.forced ▸ ha), fun e he => h.ledger e (hq.ledger e he)⟩
  rcases hq.wm.events e he with he | he
  · exact h.events e he hfail
  · exact h.forced _ he

end GateInv

namespace Poller

variable (c : PollerConfig)

theorem quietEvents_commitTracker (s : Poller κ π) (tp : TopicPartition) (o : Int) :
    QuietEvents s (s.commitTracker tp o) := by
  unfold commitTracker
  split
  · exact .refl s
  · exact ⟨.same rfl rfl, fun _ h => h⟩

theorem quietEvents_settleAll (l : List CommitCandidate) :
    ∀ a : Poller κ π × List TopicPartition, QuietEvents a.1 (l.foldl settleOne a).1 := by
  induction l with
  | nil => intro a; exact .refl a.1
  | cons b l ih =>
    intro a
    refine QuietEvents.trans ?_ (ih _)
    unfold settleOne
    split
    · exact .refl a.1
    · split
      · exact .refl a.1
      · split
        · exact .refl a.1
        · split
          · exact .refl a.1
          · exact quietEvents_commitTracker a.1 b.tp b.safeOffset

theorem quietEvents_commitTrackers (l : List Captured) :
    ∀ s : Poller κ π, QuietEvents s (l.foldl (fun s e => s.commitTracker e.tp e.safeOffset) s) := by
  induction l with
  | nil => intro s; exact .refl s
  | cons e l ih => intro s; exact (quietEvents_commitTracker s e.tp e.safeOffset).trans (ih _)

theorem quietEvents_prepareRevokeSync (s : Poller κ π) (tps : List TopicPartition) :
    QuietEvents s (s.prepareRevokeSync c tps) := by
  have hfold : ∀ (candidates : Dict TopicPartition CommitCandidate) (l : List TopicPartition)
      (a : Poller κ π × List (TrackerRef × KafkaTopicPartition)),
      QuietEvents a.1 (l.foldl (prepareRevokeOne c candidates) a).1 := by
    intro candidates l
    induction l with
    | nil => intro a; exact .refl a.1
    | cons tp l ih =>
      intro a
      refine QuietEvents.trans ?_ (ih _)
      rcases prepareRevokeOne_cases c candidates a tp with ⟨-, heq⟩ | ⟨r, t, -, heq, -⟩
      · rw [heq]
        exact .refl a.1
      · rw [heq]
        exact ⟨.same rfl rfl, fun _ h => h⟩
  have hstop : QuietEvents s (s.stopRevoked c tps) :=
    ⟨WorkManager.eventFrame_onRevoke c.workManager s.wm tps, fun _ h => h⟩
  have h := hstop.trans (hfold (if c.coordinatorEnabled then s.coordinator.remainingCandidates tps else .empty)
    tps (s.stopRevoked c tps, []))
  exact ⟨h.wm, h.ledger⟩

theorem eventFrame_dispatchMessages (s : Poller κ π) (messages : List (Message κ π)) :
    WorkManager.EventFrame s.wm (s.dispatch c messages).wm := by
  have hone : ∀ (l : DispatchSupport.Loop κ π) (m : Message κ π), WorkManager.EventFrame l.wm
      (DispatchSupport.dispatchOne c.workManager.orderingMode s.offsetTrackers l m).1.wm := by
    intro l m
    unfold DispatchSupport.dispatchOne
    split
    · exact .refl _
    · split
      · exact .refl _
      · split
        · exact .refl _
        · split
          · exact WorkManager.eventFrame_submitMessageBatch _ _
          · exact .refl _
  have hloop : ∀ (ms : List (Message κ π)) (l : DispatchSupport.Loop κ π), WorkManager.EventFrame l.wm
      (DispatchSupport.dispatchLoop c.workManager.orderingMode s.offsetTrackers l ms).1.wm := by
    intro ms
    induction ms with
    | nil => intro l; exact .refl _
    | cons m ms ih =>
      intro l
      have h := hone l m
      simp only [DispatchSupport.dispatchLoop]
      split
      · rename_i l1 e heq; rw [heq] at h; exact h
      · rename_i l1 heq; rw [heq] at h; exact h.trans (ih l1)
  have h := hloop messages ⟨s.wm, .empty, []⟩
  show WorkManager.EventFrame s.wm
    (DispatchSupport.dispatchMessages c.workManager.orderingMode s.offsetTrackers s.wm messages).1
  unfold DispatchSupport.dispatchMessages
  split
  · rename_i l e heq; rw [heq] at h; exact h
  · rename_i l heq
    rw [heq] at h
    split
    · exact h
    · exact h.trans (WorkManager.eventFrame_submitMessageBatch _ _)

theorem eventFrame_allocTrackers (l : List (TopicPartition × OffsetTracker)) :
    ∀ wm : WorkManager (SubmitKey κ) π, WorkManager.EventFrame wm (allocTrackers wm l).2 := by
  induction l with
  | nil => intro wm; exact .refl wm
  | cons e l ih =>
    intro wm
    have h : WorkManager.EventFrame wm (wm.allocTracker e.2).2 := .same rfl rfl
    exact h.trans (ih _)

/-- Every action but a drain is quiet. -/
theorem quietEvents_next (s : Poller κ π) (a : PollerAction κ π) (ha : ∀ i, a ≠ .drain i) :
    QuietEvents s ((pollerMachine κ π c).next s a) := by
  cases a with
  | consumeBegin => exact .same rfl rfl
  | consumeEnd => exact .same rfl rfl
  | assign committed partitions =>
    show QuietEvents s (s.assign c committed partitions)
    unfold assign
    split
    · exact .refl s
    · exact ⟨(eventFrame_allocTrackers _ s.wm).trans (WorkManager.eventFrame_onAssign c.workManager _ _),
        fun _ h => h⟩
  | prepareRevoke tps => exact quietEvents_prepareRevokeSync c s tps
  | revokeCommit =>
    show QuietEvents s s.revokeCommit
    unfold revokeCommit
    split <;> exact .same rfl rfl
  | cleanupRevoke =>
    show QuietEvents s s.cleanupRevokeSync
    unfold cleanupRevokeSync
    split
    · exact .refl s
    · refine ⟨.refl _, fun e he => ?_⟩
      obtain ⟨k, hk⟩ := (Dict.mem_values_iff _).mp he
      rw [Dict.get?_filter] at hk
      exact (Dict.mem_values_iff _).mpr ⟨k, (Option.filter_eq_some_iff.mp hk).1⟩
  | dispatch messages => exact ⟨eventFrame_dispatchMessages c s messages, fun _ h => h⟩
  | schedule env => exact ⟨WorkManager.eventFrame_schedule s.wm, fun _ h => h⟩
  | drain i => exact absurd rfl (ha i)
  | scan force => exact .same rfl rfl
  | route =>
    show QuietEvents s (s.route c)
    unfold route
    split
    · split
      · dsimp only
        split
        · exact .same rfl rfl
        · split <;> exact .same rfl rfl
      · exact .same rfl rfl
    · exact .refl s
  | capture =>
    show QuietEvents s (s.capture c)
    unfold capture
    split
    · dsimp only
      split <;> exact .same rfl rfl
    · exact .refl s
  | directCommit outcome =>
    show QuietEvents s (s.directCommit outcome)
    unfold directCommit
    split <;> exact .same rfl rfl
  | directSettle =>
    show QuietEvents s s.directSettle
    unfold directSettle
    split
    · rename_i commits tracked _
      exact (quietEvents_commitTrackers tracked s).trans (.same rfl rfl)
    · exact .refl s
  | workerStart => exact .same rfl rfl
  | workerPrepare =>
    show QuietEvents s (s.workerPrepare c)
    unfold workerPrepare
    split <;> exact .same rfl rfl
  | workerCheck =>
    show QuietEvents s s.workerCheck
    unfold workerCheck
    split
    · split <;> exact .same rfl rfl
    · exact .refl s
  | workerCommit outcome =>
    show QuietEvents s (s.workerCommit outcome)
    unfold workerCommit
    split <;> exact .same rfl rfl
  | workerResume =>
    show QuietEvents s s.workerResume
    unfold workerResume
    split
    · dsimp only
      split <;> exact .same rfl rfl
    all_goals exact .same rfl rfl
  | workerSettle =>
    show QuietEvents s s.workerSettle
    unfold workerSettle
    split
    · rename_i settlements _
      exact (quietEvents_settleAll settlements (s, [])).trans (.same rfl rfl)
    · exact .refl s
  | workerRetain =>
    show QuietEvents s s.workerRetain
    unfold workerRetain
    split <;> exact .same rfl rfl

/-! ## Drains -/

/-- The events that the engine returns to a drain; it is asked again after a forced failure. -/
def engineReturns (s : Poller κ π) (i : DrainInput κ π) : List CompletionEvent :=
  if (s.forceTimedOut c (s.wm.pollCompletedEvents c.workManager i.env i.engineEvents true).2 i.timedOut).1 then
    i.engineEvents ++ i.lateEvents
  else i.engineEvents

theorem forceTimedOut_events (s : Poller κ π) (l : List (TopicPartition × Int × String)) :
    ∀ wm, (s.forceTimedOut c wm l).2.forcedAttempt = wm.forcedAttempt ∧
      ∀ e ∈ (s.forceTimedOut c wm l).2.completionQueue, e ∈ wm.completionQueue ∨ e.attempt = c.dlq.maxRetries := by
  induction l with
  | nil => intro wm; exact ⟨rfl, fun e he => .inl he⟩
  | cons x l ih =>
    intro wm
    obtain ⟨tp, offset, error⟩ := x
    simp only [forceTimedOut]
    split
    · exact ih wm
    · rename_i t ht
      obtain ⟨hforced, hevents⟩ := WorkManager.forceFail_events wm tp offset t.epoch error c.dlq.maxRetries
      obtain ⟨hforced', hevents'⟩ := ih (wm.forceFail tp offset t.epoch error c.dlq.maxRetries).2
      refine ⟨hforced'.trans hforced, fun e he => ?_⟩
      rcases hevents' e he with he | he
      · exact hevents e he
      · exact .inr he

variable {c}

/-- Polling keeps every failure terminal, if those of the engine are. -/
theorem terminal_poll {wm : WorkManager (SubmitKey κ) π} (env : Env (SubmitKey κ) π) {m : Int}
    {events : List CompletionEvent} (hq : ∀ e ∈ wm.completionQueue, e.Terminal m)
    (hforced : ∀ a, wm.forcedAttempt = some a → m ≤ a) (hevents : ∀ e ∈ events, e.Terminal m) :
    (∀ a, (wm.pollCompletedEvents c.workManager env events true).2.forcedAttempt = some a → m ≤ a) ∧
    (∀ e ∈ (wm.pollCompletedEvents c.workManager env events true).1, e.Terminal m) ∧
    ∀ e ∈ (wm.pollCompletedEvents c.workManager env events true).2.completionQueue, e.Terminal m := by
  obtain ⟨hf, hmem⟩ := @WorkManager.pollCompletedEvents_events _ π _ c.workManager env wm events true
  have hall : ∀ e, e ∈ (wm.pollCompletedEvents c.workManager env events true).1 ∨
      e ∈ (wm.pollCompletedEvents c.workManager env events true).2.completionQueue → e.Terminal m := by
    intro e he hfail
    rcases hmem e he with he | he | he
    · exact hq e he hfail
    · exact hevents e he hfail
    · exact hforced _ he
  exact ⟨fun a ha => hforced a (hf ▸ ha), fun e he => hall e (.inl he), fun e he => hall e (.inr he)⟩

theorem terminal_drainedEvents {s : Poller κ π} (h : GateInv c s) {i : DrainInput κ π}
    (hi : ∀ e ∈ s.engineReturns c i, e.Terminal c.dlq.maxRetries) :
    (∀ e ∈ (s.drainedEvents c i).1, e.Terminal c.dlq.maxRetries) ∧ GateInv c (s.polled c i) := by
  unfold engineReturns at hi
  have hengine : ∀ e ∈ i.engineEvents, e.Terminal c.dlq.maxRetries := by
    intro e he
    split at hi
    · exact hi e (List.mem_append_left _ he)
    · exact hi e he
  obtain ⟨hforced, hevents, hq⟩ := terminal_poll (c := c) i.env h.events h.forced hengine
  obtain ⟨hforced', hq'⟩ := forceTimedOut_events c s i.timedOut
    (s.wm.pollCompletedEvents c.workManager i.env i.engineEvents true).2
  have hwait : ∀ e ∈ (s.forceTimedOut c (s.wm.pollCompletedEvents c.workManager i.env i.engineEvents true).2
      i.timedOut).2.completionQueue, e.Terminal c.dlq.maxRetries := by
    intro e he hfail
    rcases hq' e he with he | he
    · exact hq e he hfail
    · exact Int.le_of_eq he.symm
  have hwaitForced : ∀ a, (s.forceTimedOut c (s.wm.pollCompletedEvents c.workManager i.env i.engineEvents true).2
      i.timedOut).2.forcedAttempt = some a → c.dlq.maxRetries ≤ a := fun a ha => hforced a (hforced' ▸ ha)
  unfold polled drainedEvents
  dsimp only
  split
  · rename_i hlate
    rw [if_pos hlate] at hi
    obtain ⟨hforced2, hevents2, hq2⟩ := terminal_poll (c := c) i.env hwait hwaitForced
      fun e he => hi e (List.mem_append_right _ he)
    refine ⟨fun e he => ?_, hq2, hforced2, h.ledger⟩
    rcases List.mem_append.mp he with he | he
    · exact hevents e he
    · exact hevents2 e he
  · exact ⟨hevents, hwait, hwaitForced, h.ledger⟩

theorem gateInv_processCompleted {s : Poller κ π} (h : GateInv c s) (publish : Nat → PublishOutcome)
    {events : List CompletionEvent} (hevents : ∀ e ∈ events, e.Terminal c.dlq.maxRetries) :
    GateInv c (s.processCompleted c publish events).2 := by
  have hsource : ∀ x ∈ CompletionSupport.eventsToProcess s.pendingDlqEvents events,
      x.event.Terminal c.dlq.maxRetries := by
    intro x hx
    rcases List.mem_append.mp hx with hx | hx
    · obtain ⟨e, he, rfl⟩ := List.mem_map.mp hx
      exact h.ledger e he
    · obtain ⟨e, he, rfl⟩ := List.mem_map.mp hx
      exact hevents e he
  have hresult := @CompletionSupport.process_induction κ π _ c.dlq s.offsetTrackers publish
    (P := fun q : CompletionSupport.Processing κ π => WorkManager.EventFrame s.wm q.wm ∧
      ∀ k e, q.pendingDlqEvents.get? k = some e → e.Terminal c.dlq.maxRetries)
    (CompletionSupport.eventsToProcess s.pendingDlqEvents events) ?_
    ⟨s.wm, s.pendingDlqEvents, [], 0, .empty, s.log⟩
    ⟨.refl _, fun k e hk => h.ledger e ((Dict.mem_values_iff _).mpr ⟨k, hk⟩)⟩
  · obtain ⟨hframe, hledger⟩ := hresult
    have hg : GateInv c { s with wm := (s.processCompleted c publish events).2.wm } :=
      h.quiet ⟨hframe, fun _ h => h⟩
    refine ⟨hg.events, hg.forced, fun e he => ?_⟩
    obtain ⟨k, hk⟩ := (Dict.mem_values_iff _).mp he
    exact hledger k e hk
  · intro q q' x hx hq hdisp
    have herase : ∀ k e, (q.pendingDlqEvents.erase (CompletionSupport.pendingKey x.event)).get? k = some e →
        e.Terminal c.dlq.maxRetries := by
      intro k e hk
      rw [Dict.get?_erase] at hk
      split at hk
      · cases hk
      · exact hq.2 k e hk
    cases hdisp with
    | dropped hd => exact ⟨hd.wm ▸ hq.1, fun k e hk => hq.2 k e (hd.pending k e hk)⟩
    | raised => exact hq
    | retained =>
      refine ⟨hq.1, fun k e hk => ?_⟩
      simp only [CompletionSupport.retain, CompletionSupport.recordPublish, Dict.get?_set] at hk
      split at hk
      · cases hk
        exact hsource x hx
      · exact hq.2 k e hk
    | published => exact ⟨hq.1.trans (.same rfl rfl), herase⟩
    | completed => exact ⟨hq.1.trans (.same rfl rfl), herase⟩

/-- **One action** of the poller, with terminal failures from the engine. -/
theorem gateInv_next {s : Poller κ π} (h : GateInv c s) (a : PollerAction κ π)
    (hi : ∀ i, a = .drain i → ∀ e ∈ s.engineReturns c i, e.Terminal c.dlq.maxRetries) :
    GateInv c ((pollerMachine κ π c).next s a) ∧ ∀ e, s.Processed c a e → e.Terminal c.dlq.maxRetries := by
  by_cases ha : ∃ i, a = .drain i
  · obtain ⟨i, rfl⟩ := ha
    obtain ⟨hevents, hpolled⟩ := terminal_drainedEvents h (hi i rfl)
    refine ⟨?_, fun e he => he.elim (hevents e) (h.ledger e)⟩
    have hprocessed := gateInv_processCompleted hpolled i.publish hevents
    show GateInv c (s.drain c i)
    rcases drain_cases c s i with heq | heq | ⟨s', hs', heq⟩
    · rw [heq]
      exact hpolled
    · rw [heq]
      exact hprocessed
    · rw [heq]
      rw [← hs'] at hprocessed
      exact hprocessed.quiet ⟨WorkManager.eventFrame_schedule s'.wm, fun _ h => h⟩
  · refine ⟨h.quiet (quietEvents_next c s a fun i heq => ha ⟨i, heq⟩), fun e he => ?_⟩
    cases a with
    | drain i => exact absurd ⟨i, rfl⟩ ha
    | _ => exact he.elim

end Poller

/-! ## The history -/

/-- Every failure that was marked had been published before. -/
def Gated (log : List (PollerEntry κ π)) : Prop :=
  ∀ newer r e changed older, log = newer ++ .marked r e changed :: older → e.status = .failure →
    .published r e .delivered ∈ older

theorem Gated.cons {log : List (PollerEntry κ π)} (h : Gated log) {entry : PollerEntry κ π}
    (hentry : ∀ r e changed, entry = .marked r e changed → e.status = .failure →
      .published r e .delivered ∈ log) : Gated (entry :: log) := by
  intro newer r e changed older heq hfail
  cases newer with
  | nil =>
    rw [List.nil_append] at heq
    cases heq
    exact hentry r e changed rfl hfail
  | cons x newer =>
    rw [List.cons_append] at heq
    cases heq
    exact h newer r e changed older rfl hfail

/-- A terminal failure gets past the gate only when it was published. -/
theorem gated_step {c : DlqConfig} (hdlq : c.dlqEnabled = true) {V : TopicPartition → Int → Prop}
    {E : CompletionEvent → Prop} (hE : ∀ e, E e → e.Terminal c.maxRetries) {v v' : TrackerView κ π}
    (h : Gated v.log) (hstep : TrackerStep c V E v v') : Gated v'.log := by
  cases hstep with
  | installed => exact h.cons fun _ _ _ heq => by cases heq
  | forgot => exact h
  | submitted => exact h.cons fun _ _ _ heq => by cases heq
  | published => exact h.cons fun _ _ _ heq => by cases heq
  | pended => exact h.cons fun _ _ _ heq => by cases heq
  | marked r e changed core _ he hgate =>
    refine h.cons fun r' e' changed' heq hfail => ?_
    cases heq
    rcases hgate with hpass | hpub
    · have hattempt := hE e he hfail
      simp [DlqConfig.needsPublish, hfail, hdlq] at hpass
      omega
    · exact hpub
  | advanced => exact h
  | committed => exact h.cons fun _ _ _ heq => by cases heq

/-! ## The system -/

/-- Engine and poller are configured from the same settings. -/
structure SystemConfig (κ π : Type) [DecidableEq κ] where
  engine : ProcessConfig (SubmitKey κ) π
  poller : PollerConfig
  sameRetries : engine.maxRetries = poller.dlq.maxRetries

structure System (κ π : Type) [DecidableEq κ] where
  engine : ProcessEngine (SubmitKey κ) π
  poller : Poller κ π
  /-- How many of the returned events the poller has taken over. -/
  taken : Nat

inductive SystemAction (κ π : Type) [DecidableEq κ] where
  | engine (action : EngineAction (SubmitKey κ) π)
  | poller (action : PollerAction κ π)

namespace System

/-- The events that an action of the poller takes over from the engine. -/
def takes (c : PollerConfig) (s : Poller κ π) : PollerAction κ π → List CompletionEvent
  | .drain i => s.engineReturns c i
  | _ => []

end System

open System in
def systemMachine (c : SystemConfig κ π) : Machine (System κ π) (SystemAction κ π) where
  init s := s.engine = .new c.engine ∧ s.taken = 0 ∧ ∃ circuit, s.poller = .new circuit ∧
    ∀ b, circuit = some b → ∃ enabled threshold cooldown,
      PoisonMessageCircuitBreaker.new enabled threshold cooldown c.poller.dlq.maxRetries = .ok b
  enabled s a :=
    match a with
    | .engine a => (engineMachine (SubmitKey κ) π c.engine).enabled s.engine a
    | .poller a => (pollerMachine κ π c.poller).enabled s.poller a ∧
        takes c.poller s.poller a <+: s.engine.returned.drop s.taken
  next s a :=
    match a with
    | .engine a => { s with engine := (engineMachine (SubmitKey κ) π c.engine).next s.engine a }
    | .poller a => { s with
        poller := (pollerMachine κ π c.poller).next s.poller a
        taken := s.taken + (takes c.poller s.poller a).length }

/-- No attempt that the step makes before the last one times out. -/
def OnTime (c : SystemConfig κ π) (_ : System κ π) (a : SystemAction κ π) : Prop :=
  ∀ pid outcome, a = .engine (.finishItem pid outcome) → Punctual c.engine.maxRetries outcome

structure SystemInv (c : SystemConfig κ π) (s : System κ π) : Prop where
  engine : FailureInv (terminalFailures (SubmitKey κ) π c.engine.maxRetries) c.engine s.engine
  poller : GateInv c.poller s.poller
  shared : s.poller.wm.AllShared
  gated : Gated s.poller.log

namespace System

variable {c : SystemConfig κ π}

theorem systemInv_init {s : System κ π} (h : (systemMachine c).init s) : SystemInv c s := by
  obtain ⟨hengine, -, circuit, hpoller, hcircuit⟩ := h
  refine ⟨hengine ▸ .new, ⟨?_, fun a ha => ?_, ?_⟩, ?_, ?_⟩
  · rw [hpoller]
    intro e he
    cases he
  · rw [hpoller] at ha
    obtain ⟨b, hb, rfl⟩ := Option.map_eq_some_iff.mp ha
    obtain ⟨enabled, threshold, cooldown, hnew⟩ := hcircuit b hb
    exact PoisonMessageCircuitBreaker.forcedFailureAttempt_le hnew
  · rw [hpoller]
    intro e he
    cases he
  · rw [hpoller]
    intro tp htp
    cases htp
  · rw [hpoller]
    intro newer r e changed older heq
    cases newer <;> cases heq

theorem systemInv_step (hdlq : c.poller.dlq.dlqEnabled = true) {s : System κ π} {a : SystemAction κ π}
    (h : SystemInv c s) (he : (systemMachine c).enabled s a) (ho : OnTime c s a) :
    SystemInv c ((systemMachine c).next s a) := by
  cases a with
  | engine a =>
    have hlicensed := licensed_terminalFailures (c := c.engine) (s := s.engine)
      fun pid outcome heq => ho pid outcome (heq ▸ rfl)
    exact ⟨h.engine.next hlicensed, h.poller, h.shared, h.gated⟩
  | poller a =>
    obtain ⟨-, htakes⟩ := he
    have hi : ∀ i, a = .drain i → ∀ e ∈ s.poller.engineReturns c.poller i, e.Terminal c.poller.dlq.maxRetries := by
      rintro i rfl e hmem
      rw [← c.sameRetries]
      exact h.engine.returned e (List.mem_of_mem_drop (htakes.subset hmem))
    obtain ⟨hgate, hprocessed⟩ := Poller.gateInv_next h.poller a hi
    have hrun := Poller.trackerRun_next c.poller s.poller h.shared (V := fun _ _ => True)
      ⟨⟨fun _ _ => trivial, fun _ _ => ⟨trivial, trivial⟩⟩, ⟨fun _ _ _ => trivial, fun _ _ _ => trivial⟩,
        ⟨fun _ _ => trivial, fun _ _ => trivial⟩, fun _ _ _ _ => trivial⟩ a
    refine ⟨h.engine, hgate, Poller.allShared_next c.poller s.poller h.shared a, ?_⟩
    exact hrun.invariant (I := fun v => Gated v.log) h.gated
      fun u w _ hu hstep => gated_step hdlq hprocessed hu hstep

end System

/-- **Failed messages are published before they are marked**, in every run where no attempt before the
last one times out. -/
theorem failed_published_before_marked (c : SystemConfig κ π) (hdlq : c.poller.dlq.dlqEnabled = true)
    (s : System κ π) (h : (systemMachine c).ReachableBy (OnTime c) s) (newer older : List (PollerEntry κ π))
    (r : TrackerRef) (e : CompletionEvent) (changed : Bool)
    (hlog : s.poller.log = newer ++ .marked r e changed :: older) (hfail : e.status = .failure) :
    .published r e .delivered ∈ older := by
  have hinv : SystemInv c s := (systemMachine c).invariant (fun _ => System.systemInv_init)
    (fun _ _ hi he ho => System.systemInv_step hdlq hi he ho) h
  exact hinv.gated newer r e changed older hlog hfail

/-! ## Explicit runs -/

namespace System

def admits (c : SystemConfig κ π) (s : System κ π) : SystemAction κ π → Bool
  | .engine a => s.engine.admits a
  | .poller a => s.poller.ready c.poller a && decide (takes c.poller s.poller a <+: s.engine.returned.drop s.taken)

def admitsRun (c : SystemConfig κ π) (s : System κ π) : List (SystemAction κ π) → Bool
  | [] => true
  | a :: l => s.admits c a && admitsRun c ((systemMachine c).next s a) l

theorem reachableBy_admitsRun {c : SystemConfig κ π} {p : System κ π → SystemAction κ π → Prop}
    (l : List (SystemAction κ π)) :
    ∀ {s : System κ π}, (systemMachine c).ReachableBy p s → s.admitsRun c l = true →
      (∀ a, .poller a ∈ l → a.Lawful) → (∀ s a, p s a) →
      (systemMachine c).ReachableBy p ((systemMachine c).run s l) := by
  induction l with
  | nil => intro s h _ _ _; exact h
  | cons a l ih =>
    intro s h hl hlaw hp
    obtain ⟨ha, hl⟩ := Bool.and_eq_true_iff.mp hl
    refine ih (.next h ?_ (hp s a)) hl (fun b hb => hlaw b (List.mem_cons_of_mem _ hb)) hp
    cases a with
    | engine a => exact ProcessEngine.enabled_of_admits (c := c.engine) ha
    | poller a =>
      obtain ⟨hready, htakes⟩ := Bool.and_eq_true_iff.mp ha
      exact ⟨⟨hready, hlaw a List.mem_cons_self⟩, of_decide_eq_true htakes⟩

end System

section Examples

/-- One worker and one partition, with dead letters. -/
def sampleSystem (maxRetries : Int) : SystemConfig Nat Unit where
  engine := engineConfig maxRetries
  poller := { sampleConfig false with dlq := { dlqEnabled := true, maxRetries := maxRetries } }
  sameRetries := rfl

def startSystem (maxRetries : Int) : System Nat Unit :=
  ⟨.new (sampleSystem maxRetries).engine, .new none, 0⟩

theorem init_startSystem (maxRetries : Int) :
    (systemMachine (sampleSystem maxRetries)).init (startSystem maxRetries) :=
  ⟨rfl, rfl, none, rfl, fun _ h => by cases h⟩

/-- The message at offset 5 is dispatched and its worker begins with it. -/
def beginMessage : List (SystemAction Nat Unit) :=
  ((sampleAssign 5 ++ sampleDispatch [5]).map .poller) ++
    [.engine (.submit (firstItem 5) .sent), .engine (.receive 0), .engine (.beginItem 0)]

/-- The failure of the message at offset 5. -/
def sampleFailure (error : String) : CompletionEvent :=
  { id := .uuid 0, tp := ⟨"t", 0⟩, offset := 5, epoch := 1, status := .failure, error := some (.text error)
    attempt := 1 }

/-- The only attempt raises, and the failure reaches the poller. -/
def failOnce : List (SystemAction Nat Unit) :=
  beginMessage ++
    [.engine (.finishItem 0 fun _ => .exception (.text "boom")), .engine (.flushCompletion 0), .engine (.poll 10),
     .poller (sampleDrain [sampleFailure "boom"])]

def failedOnce : System Nat Unit := (systemMachine (sampleSystem 1)).run (startSystem 1) failOnce

theorem failed_published_before_marked_failedOnce :
    ∃ older, failedOnce.poller.log = .marked 0 (sampleFailure "boom") true :: older ∧
      .published 0 (sampleFailure "boom") .delivered ∈ older := by
  have hreach : (systemMachine (sampleSystem 1)).ReachableBy (OnTime (sampleSystem 1)) failedOnce := by
    refine System.reachableBy_admitsRun failOnce (.start (init_startSystem 1)) (by decide) ?_ ?_
    · simp [failOnce, beginMessage, sampleAssign, sampleDispatch, sampleDrain, PollerAction.Lawful,
        acceptsPrefix_acceptingEnv]
    · intro s a pid outcome _ k hk
      have : (k + 1 : Int) < 1 := hk
      omega
  have hlog : failedOnce.poller.log = [] ++ .marked 0 (sampleFailure "boom") true :: failedOnce.poller.log.tail := by
    decide
  exact ⟨_, hlog, failed_published_before_marked (sampleSystem 1) rfl failedOnce hreach _ _ _ _ _ hlog rfl⟩

/-- The first of three attempts times out; the worker exits, and its item is recovered. -/
def timeOutFirst : List (SystemAction Nat Unit) :=
  beginMessage ++
    [.engine (.finishItem 0 fun _ => .timeout (.text "timeout")), .engine (.flushRegistry 0),
     .engine (.flushRegistry 0), .engine (.die 0), .engine .drainRegistry, .engine .drainRegistry,
     .engine .beginScan, .engine (.collect 0), .engine (.poll 10), .poller (sampleDrain [sampleFailure "timeout"])]

def timedOutFirst : System Nat Unit := (systemMachine (sampleSystem 3)).run (startSystem 3) timeOutFirst

/-- **The unpublished failure.** -/
theorem timeout_marked_unpublished :
    ∃ s : System Nat Unit, (systemMachine (sampleSystem 3)).Reachable s ∧ ∃ older,
      s.poller.log = .marked 0 (sampleFailure "timeout") true :: older ∧
        ∀ outcome, .published 0 (sampleFailure "timeout") outcome ∉ older := by
  refine ⟨timedOutFirst, ?_, timedOutFirst.poller.log.tail, by decide, fun outcome => ?_⟩
  · refine System.reachableBy_admitsRun timeOutFirst (.start (init_startSystem 3)) (by decide) ?_ fun _ _ => trivial
    simp [timeOutFirst, beginMessage, sampleAssign, sampleDispatch, sampleDrain, PollerAction.Lawful,
      acceptsPrefix_acceptingEnv]
  · cases outcome <;> decide

end Examples

end PyrallelConsumer
