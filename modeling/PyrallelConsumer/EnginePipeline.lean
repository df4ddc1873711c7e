import PyrallelConsumer.InFlightBound
import PyrallelConsumer.ProcessTransport
import PyrallelConsumer.Lib.Calls

/-!
# PyrallelConsumer.EnginePipeline

The work manager over an execution engine. An operation of the work manager polls the engine for completions
and submits the items that it hands over; between the calls of an operation, and between operations, the engine
goes on by itself.

* `ExecutionEngine` — what the work manager relies on in an engine: a completion that is returned is of an item
  that was accepted before.
* `pipelineMachine` — the two side by side. The calls of an operation are those that the engine answers.
* `accepted_reachable` — the engine has accepted what was handed over. `PipelineInv` — what it has returned is settled.
* `accepted_of_unfinished` — an unfinished item was accepted by the engine, which has not returned it.
-/

set_option linter.unusedSectionVars false

namespace PyrallelConsumer

open WorkLog

variable {κ π : Type} [DecidableEq κ]

/-! ## Engines -/

/-- A call to the engine, with what it returns. -/
inductive EngineCall (κ π : Type) where
  | submit (items : List (WorkItem κ π))
  | poll (batchLimit : Int) (events : List CompletionEvent)
deriving DecidableEq

namespace EngineCall

def submitted : EngineCall κ π → List (WorkItem κ π)
  | .submit items => items
  | .poll _ _ => []

def polled : EngineCall κ π → List CompletionEvent
  | .submit _ => []
  | .poll _ events => events

end EngineCall

/-- `BaseExecutionEngine`: an engine that answers calls, with the identities of the items that it has accepted and
the completions that it has returned. -/
structure ExecutionEngine (κ π τ β : Type) extends Server τ β (EngineCall κ π) where
  supportsOrderedRouteBatch : Bool
  accepted : τ → List LogicalWorkIdentity
  returned : τ → List CompletionEvent
  init_accepted : ∀ t, init t → accepted t = []
  init_returned : ∀ t, init t → returned t = []
  accepted_next : ∀ t b, accepted (next t b) =
    accepted t ++ (answer t b).toList.flatMap fun call => call.submitted.map (·.identity)
  returned_next : ∀ t b, returned (next t b) = returned t ++ (answer t b).toList.flatMap EngineCall.polled
  reports : ∀ t, toMachine.Reachable t → ∀ e ∈ returned t, e.identity ∈ accepted t

namespace ExecutionEngine

variable {τ β : Type} (E : ExecutionEngine κ π τ β)

/-- The calls for a lease: `submit_batch` of the base class submits one item after the other. -/
def submissions (lease : List (WorkItem κ π)) : List (EngineCall κ π) :=
  if E.supportsOrderedRouteBatch then [.submit lease] else lease.map fun x => .submit [x]

@[simp] theorem submitted_submissions (leases : List (List (WorkItem κ π))) :
    (leases.flatMap E.submissions).flatMap EngineCall.submitted = leases.flatten := by
  induction leases with
  | nil => rfl
  | cons lease leases ih =>
    rw [List.flatMap_cons, List.flatMap_append, ih, List.flatten_cons, List.append_cancel_right_eq]
    unfold submissions
    split
    · simp [EngineCall.submitted]
    · induction lease with
      | nil => rfl
      | cons x lease ih => simp [EngineCall.submitted, ih]

@[simp] theorem polled_submissions (leases : List (List (WorkItem κ π))) :
    (leases.flatMap E.submissions).flatMap EngineCall.polled = [] := by
  refine List.flatMap_eq_nil_iff.mpr fun call hcall => ?_
  obtain ⟨lease, -, hcall⟩ := List.mem_flatMap.mp hcall
  unfold submissions at hcall
  split at hcall
  · rw [List.mem_singleton.mp hcall]
    rfl
  · obtain ⟨x, -, rfl⟩ := List.mem_map.mp hcall
    rfl

theorem accepted_run (l : List β) (t : τ) : E.accepted (E.run t l) =
    E.accepted t ++ ((E.answers t l).flatMap EngineCall.submitted).map (·.identity) := by
  rw [E.record_run E.accepted _ E.accepted_next, List.map_flatMap]

theorem returned_run (l : List β) (t : τ) :
    E.returned (E.run t l) = E.returned t ++ (E.answers t l).flatMap EngineCall.polled :=
  E.record_run E.returned _ E.returned_next l t

/-- A poll that comes first returns completions of items that were accepted before. -/
theorem reports_poll {t : τ} (h : E.toMachine.Reachable t) {l : List β} (hallowed : E.Allowed (fun _ _ => True) t l)
    {batchLimit : Int} {events : List CompletionEvent} {calls : List (EngineCall κ π)}
    (hanswers : E.answers t l = .poll batchLimit events :: calls) : ∀ e ∈ events, e.identity ∈ E.accepted t := by
  obtain ⟨l₁, b, l₂, rfl, hnone, hpoll⟩ := E.answers_cons l hanswers
  obtain ⟨hallowed₁, hallowed₂⟩ := Machine.allowed_append hallowed
  have hreach : E.toMachine.Reachable (E.next (E.run t l₁) b) :=
    .next (E.reachableBy_run l₁ h hallowed₁) hallowed₂.1 trivial
  intro e he
  have hreturned : e ∈ E.returned (E.next (E.run t l₁) b) := by
    rw [E.returned_next, hpoll]
    exact List.mem_append_right _ (by simpa [EngineCall.polled] using he)
  have haccepted := E.reports _ hreach e hreturned
  rw [E.accepted_next, hpoll, E.accepted_run, hnone] at haccepted
  simpa [EngineCall.submitted] using haccepted

/-- The step submits nothing that was accepted before. -/
def Fresh (t : τ) (b : β) : Prop := ∀ call, E.answer t b = some call → ∀ x ∈ call.submitted, x.identity ∉ E.accepted t

/-- Steps that submit different items submit fresh ones. -/
theorem allowed_fresh {q : τ → β → Prop} (l : List β) : ∀ {t : τ}, E.Allowed q t l →
    (E.accepted t ++ ((E.answers t l).flatMap EngineCall.submitted).map (·.identity)).Nodup →
    E.Allowed (fun t b => q t b ∧ E.Fresh t b) t l := by
  induction l with
  | nil => exact fun _ _ => trivial
  | cons b l ih =>
    intro t hallowed hnodup
    rw [Server.answers, List.flatMap_append, List.map_append, ← List.append_assoc, List.map_flatMap, ← E.accepted_next] at hnodup
    refine ⟨hallowed.1, ⟨hallowed.2.1, fun call hcall x hx hold => ?_⟩, ih hallowed.2.2 hnodup⟩
    have hfirst := hnodup.of_append_left
    rw [E.accepted_next, hcall, List.nodup_append] at hfirst
    refine hfirst.2.2 _ hold _ ?_ rfl
    simpa using ⟨x, hx, rfl⟩

end ExecutionEngine

/-! ## Operations -/

/-- The leases that were handed over. -/
def WorkLog.handedLeases : List (Entry κ π) → List (List (WorkItem κ π))
  | [] => []
  | .handed lease :: l => handedLeases l ++ [lease]
  | _ :: l => handedLeases l

/-- The leases that are handed over between two states. -/
def WorkManager.leasesSince (s s' : WorkManager κ π) : List (List (WorkItem κ π)) :=
  (handedLeases s'.log).drop (handedLeases s.log).length

/-- The completions that an operation polls. -/
def WorkAction.polled : WorkAction κ π → List CompletionEvent
  | .poll _ engineEvents _ => engineEvents
  | _ => []

section Calls

variable {τ β : Type}

/-- The configuration under which the work manager runs over the engine. -/
def WorkManagerConfig.over (c : WorkManagerConfig) (E : ExecutionEngine κ π τ β) : WorkManagerConfig :=
  { c with supportsOrderedRouteBatch := E.supportsOrderedRouteBatch }

/-- The calls of an operation: a poll comes first. -/
def WorkManager.calls (c : WorkManagerConfig) (E : ExecutionEngine κ π τ β) (s : WorkManager κ π) (b : WorkAction κ π) :
    List (EngineCall κ π) :=
  let submissions := (s.leasesSince ((workMachine κ π (c.over E)).next s b)).flatMap E.submissions
  match b with
  | .poll _ engineEvents _ => .poll 1000 engineEvents :: submissions
  | _ => submissions

/-- The work manager over an engine. -/
abbrev pipelineMachine (c : WorkManagerConfig) (E : ExecutionEngine κ π τ β) :
    Machine (Beside (WorkManager κ π) τ) (BesideAction (WorkAction κ π) β) :=
  beside (workMachine κ π (c.over E)) (WorkManager.calls c E) E.toServer

end Calls

/-! ## What an operation hands over and reports -/

namespace WorkLog

theorem handedItems_append (l l' : List (Entry κ π)) : handedItems (l ++ l') = handedItems l' ++ handedItems l := by
  induction l with
  | nil => exact (List.append_nil _).symm
  | cons entry l ih => cases entry <;> simp [handedItems, ih]

theorem handedLeases_append (l l' : List (Entry κ π)) : handedLeases (l ++ l') = handedLeases l' ++ handedLeases l := by
  induction l with
  | nil => exact (List.append_nil _).symm
  | cons entry l ih => cases entry <;> simp [handedLeases, ih]

@[simp] theorem flatten_handedLeases (l : List (Entry κ π)) : (handedLeases l).flatten = handedItems l := by
  induction l with
  | nil => rfl
  | cons entry l ih => cases entry <;> simp [handedLeases, handedItems, ih]

theorem processed_of_enqueueAll {e : CompletionEvent} (items : List (WorkItem κ π)) :
    ∀ {l : List (Entry κ π)}, .processed e ∈ enqueueAll items l → .processed e ∈ l := by
  induction items with
  | nil => exact fun h => h
  | cons x items ih => exact fun h => (List.mem_cons.mp (ih h)).resolve_left (by simp)

/-- What is unfinished after some entries is handed over by them, or was unfinished and is not reported. -/
theorem mem_unfinished_append {x : WorkItem κ π} (l l' : List (Entry κ π)) (h : x ∈ unfinished (l ++ l')) :
    x ∈ handedItems l ∨ x ∈ unfinished l' ∧ ∀ e, .processed e ∈ l → x.id ≠ e.id := by
  induction l with
  | nil => exact .inr ⟨h, fun e he => by cases he⟩
  | cons entry l ih =>
    have hlater : x ∈ unfinished (l ++ l') → (∀ e, entry = .processed e → x.id ≠ e.id) →
        x ∈ handedItems l ∨ x ∈ unfinished l' ∧ ∀ e, .processed e ∈ entry :: l → x.id ≠ e.id := by
      intro h hentry
      refine (ih h).imp_right fun ⟨hx, hl⟩ => ⟨hx, fun e he => ?_⟩
      rcases List.mem_cons.mp he with heq | he
      · exact hentry e heq.symm
      · exact hl e he
    cases entry with
    | handed lease =>
      rcases List.mem_append.mp h with h | h
      · exact .inl (List.mem_append_right _ h)
      · exact (hlater h fun e he => by cases he).imp_left (List.mem_append_left _)
    | processed e =>
      obtain ⟨h, hid⟩ := List.mem_filter.mp h
      exact hlater h fun e' he => by cases he; simpa using hid
    | revoked tps => exact hlater (List.mem_filter.mp h).1 fun e he => by cases he
    | _ => exact hlater h fun e he => by cases he

/-- An item that was handed over under the current assignment, and that no event has reported, is unfinished. -/
theorem mem_unfinished_of_handedOf {x : WorkItem κ π} {tp : TopicPartition} {key : κ} (l : List (Entry κ π))
    (h : x ∈ handedOf tp key l) (hnone : ∀ e, .processed e ∈ l → x.id ≠ e.id) : x.tp = tp ∧ x ∈ unfinished l := by
  induction l with
  | nil => cases h
  | cons entry l ih =>
    have hrest : x ∈ handedOf tp key l → x.tp = tp ∧ x ∈ unfinished l :=
      fun h => ih h fun e he => hnone e (List.mem_cons_of_mem _ he)
    cases entry with
    | handed lease =>
      rcases List.mem_append.mp h with h | h
      · exact ⟨(hrest h).1, List.mem_append_right _ (hrest h).2⟩
      · obtain ⟨hx, hroute⟩ := List.mem_filter.mp h
        exact ⟨(of_decide_eq_true hroute).1, List.mem_append_left _ hx⟩
    | assigned tp' =>
      simp only [handedOf] at h
      split at h
      · cases h
      · exact hrest h
    | revoked tps =>
      simp only [handedOf] at h
      split at h
      · cases h
      · rename_i htp
        obtain ⟨rfl, hx⟩ := hrest h
        exact ⟨rfl, List.mem_filter.mpr ⟨hx, by simpa using htp⟩⟩
    | processed e =>
      obtain ⟨htp, hx⟩ := hrest h
      exact ⟨htp, List.mem_filter.mpr ⟨hx, by simpa using hnone e List.mem_cons_self⟩⟩
    | enqueued y => exact hrest h
    | poisoned y => exact hrest h

end WorkLog

/-- The events that were processed or wait are `ok`. -/
structure WorkView.Sourced (ok : CompletionEvent → Prop) (v : WorkView κ π) : Prop where
  processed : ∀ e, .processed e ∈ v.log → ok e
  waiting : ∀ e ∈ v.completionQueue, ok e

theorem WorkView.Sourced.mono {ok ok' : CompletionEvent → Prop} {v : WorkView κ π} (h : v.Sourced ok)
    (hok : ∀ e, ok e → ok' e) : v.Sourced ok' :=
  ⟨fun e he => hok e (h.processed e he), fun e he => hok e (h.waiting e he)⟩

namespace WorkManager

variable {c : WorkManagerConfig} {env : Env κ π} {s s' : WorkManager κ π} {ok : CompletionEvent → Prop}

theorem sourced_of_books {events : List CompletionEvent} (hok : ∀ e : CompletionEvent, e.status = .failure → ok e)
    (h : s.view.Sourced ok) (hevents : ∀ e ∈ events, ok e) (hb : Books events s s') : s'.view.Sourced ok := by
  obtain ⟨l, hl, hentries⟩ := hb.log
  refine ⟨fun e he => ?_, fun e he => ?_⟩
  · replace he : .processed e ∈ s'.log := he
    rw [hl] at he
    rcases List.mem_append.mp he with he | he
    · cases hentries _ he with
      | processed e hmem => exact hevents e hmem
    · exact h.processed e he
  · rcases hb.waiting e he with he | ⟨x, -, -, hfailure⟩
    · exact h.waiting e he
    · exact hok e hfailure

/-- **Where events come from.** An operation processes and keeps the events of its poll and forced failures. -/
theorem sourced_next (hok : ∀ e : CompletionEvent, e.status = .failure → ok e) (h : s.view.Sourced ok) {b : WorkAction κ π}
    (hw : WorkInv c s.view) (he : (workMachine κ π c).enabled s b)
    (hpoll : ∀ env events after, b = .poll env events after → ∀ e ∈ events, ok e) :
    ((workMachine κ π c).next s b).view.Sourced ok := by
  have hlogged : ∀ {v v' : WorkView κ π} {l : List (Entry κ π)}, v.Sourced ok → v'.log = l ++ v.log →
      (∀ e, .processed e ∉ l) → v'.completionQueue = v.completionQueue → v'.Sourced ok := by
    intro v v' l hv hl hnone hq
    refine ⟨fun e he => hv.processed e ?_, fun e he => hv.waiting e (hq ▸ he)⟩
    rw [hl] at he
    exact (List.mem_append.mp he).resolve_left (hnone e)
  cases b with
  | newTracker t => exact ⟨h.processed, h.waiting⟩
  | mutateTracker r t => exact ⟨h.processed, h.waiting⟩
  | assign l =>
    refine onAssign_induction c (fun v v' tp hv _ ha => ?_) l s he.1 (fun e hel => ?_) h
    · exact hlogged (l := [_]) hv ha.log (by simp) ha.completionQueue
    · have hnone : s.view.epochOf e.1 = none := by simp only [view, epochOf, he.2 e hel, Option.map_none]
      rw [← hw.queues.tracked, hnone]
      simp
  | revoke tps =>
    have hspec := onRevoke_spec c s tps hw.filed
    exact hlogged (l := [_]) h hspec.log (by simp) hspec.completionQueue
  | submit groups =>
    refine submitMessageBatch_induction (P := WorkView.Sourced ok) (fun v v' k items hv hq => ?_) groups h
    refine ⟨fun e he => hv.processed e ?_, fun e he => hv.waiting e (hq.completionQueue ▸ he)⟩
    rw [hq.log] at he
    exact processed_of_enqueueAll items he
  | schedule env =>
    have hnone : ∀ e ∈ ([] : List CompletionEvent), ok e := by simp
    exact sourced_of_books hok h hnone (books_schedule s)
  | poll env events after =>
    obtain ⟨hbooks, horigin⟩ := @books_pollCompletedEvents κ π _ c env s events after
    have hqueued : ({ s with completionQueue := s.completionQueue ++ events } : WorkManager κ π).view.Sourced ok :=
      ⟨h.processed, fun e he => (List.mem_append.mp he).elim (h.waiting e) (hpoll env events after rfl e)⟩
    refine sourced_of_books hok hqueued (fun e he => ?_) hbooks
    rcases horigin e he with he | ⟨x, -, -, hfailure⟩
    · exact hqueued.waiting e he
    · exact hok e hfailure
  | forceFail tp offset epoch error attempt =>
    have hput : ∀ id, ∀ e ∈ s.completionQueue ++ [(⟨id, tp, offset, epoch, .failure, some (.text error), attempt⟩ : CompletionEvent)],
        ok e := by
      intro id e he
      rcases List.mem_append.mp he with he | he
      · exact h.waiting e he
      · cases List.mem_singleton.mp he
        exact hok _ rfl
    show (s.forceFail tp offset epoch error attempt).2.view.Sourced ok
    unfold forceFail
    dsimp only
    split
    · exact ⟨h.processed, hput _⟩
    · split
      · exact ⟨h.processed, hput _⟩
      · exact h

/-- The history only grows. -/
theorem log_next {b : WorkAction κ π} (hw : WorkInv c s.view) (he : (workMachine κ π c).enabled s b) :
    ∃ l, ((workMachine κ π c).next s b).log = l ++ s.log := by
  have hboth := next_induction (P := fun v => WorkInv c v ∧ s.view.KeepsUnreported v)
    (fun v v' hv hs => ⟨hv.1.anyStep hs, hv.2.trans (WorkView.keepsUnreported_step hs)⟩) (Reports.all c _)
    (fun v hv => hv.1.filed) (fun v hv => hv.1.queues.tracked) ⟨hw, ⟨[], rfl, fun _ hx => .inl hx⟩⟩ he
    fun _ _ _ _ _ _ => trivial
  obtain ⟨l, hl, -⟩ := hboth.2
  exact ⟨l, hl⟩

theorem leasesSince_of_log {l : List (Entry κ π)} (hl : s'.log = l ++ s.log) : s.leasesSince s' = handedLeases l := by
  unfold leasesSince
  rw [hl, handedLeases_append, List.drop_left]

theorem processed_processAll (events : List CompletionEvent) : ∀ s : WorkManager κ π, WorkInv c s.view →
    ∃ l, (s.processAll c env events).2.log = l ++ s.log ∧ ∀ e ∈ events, .processed e ∈ l := by
  induction events with
  | nil => intro s _; exact ⟨[], rfl, by simp⟩
  | cons e events ih =>
    intro s hw
    have hone : (s.processCompletionEvent c env e).2.log = .processed e :: s.log ∧
        WorkInv c (s.processCompletionEvent c env e).2.view := by
      rcases processCompletionEvent_cases c env s hw.filed e with ⟨x, -, hc⟩ | ⟨hi, hkept⟩
      · exact ⟨hc.log, hw.anyStep (.complete e x trivial hc)⟩
      · exact ⟨hi.log, hw.anyStep (.ignore e trivial hi hkept)⟩
    obtain ⟨l, hl, hprocessed⟩ := ih _ hone.2
    refine ⟨l ++ [.processed e], ?_, fun e' he' => ?_⟩
    · rw [List.append_assoc]
      exact hl.trans (congrArg (l ++ ·) hone.1)
    · rcases List.mem_cons.mp he' with rfl | he'
      · exact List.mem_append_right _ (List.mem_singleton_self _)
      · exact List.mem_append_left _ (hprocessed e' he')

/-- **A poll** processes all that the engine returns. -/
theorem processed_poll (hw : WorkInv c s.view) (events : List CompletionEvent) (after : Bool) :
    ∃ l, (s.pollCompletedEvents c env events after).2.log = l ++ s.log ∧ ∀ e ∈ events, .processed e ∈ l := by
  let queued : WorkManager κ π := { s with completionQueue := [] }
  have hqueued : WorkInv c queued.view := setCompletionQueue_step (fun _ _ hv hs => WorkInv.anyStep (c := c) hv hs) hw []
  obtain ⟨l, hl, hprocessed⟩ := @processed_processAll κ π _ c env (s.completionQueue ++ events) queued hqueued
  have hgrown : ∀ t : WorkManager κ π, (∃ l', t.log = l' ++ (queued.processAll c env (s.completionQueue ++ events)).2.log) →
      ∃ l, t.log = l ++ s.log ∧ ∀ e ∈ events, .processed e ∈ l := by
    rintro t ⟨l', hl'⟩
    refine ⟨l' ++ l, by rw [hl', hl, List.append_assoc], fun e he => ?_⟩
    exact List.mem_append_right _ (hprocessed e (List.mem_append_right _ he))
  unfold pollCompletedEvents scheduleFuel
  simp only [pollLoop]
  split
  · exact hgrown _ ⟨[], rfl⟩
  · obtain ⟨l₁, hl₁, -⟩ := (@books_schedule κ π _ c env []
      (queued.processAll c env (s.completionQueue ++ events)).2).log
    split
    · exact hgrown _ ⟨l₁, hl₁⟩
    · obtain ⟨served, -, hbooks, -⟩ := @books_pollLoop κ π _ c env after
        (s.queueTopology.virtualPartitionQueues.sum (fun queues => queues.sum List.length) +
          s.queueTopology.activeRunnableQueueKeys.length)
        ((queued.processAll c env (s.completionQueue ++ events)).2.schedule c env)
        ([] ++ (s.completionQueue ++ events))
      obtain ⟨l₂, hl₂, -⟩ := hbooks.log
      exact hgrown _ ⟨l₂ ++ l₁, hl₂.trans (by rw [hl₁, List.append_assoc])⟩

end WorkManager

theorem CompletionEvent.echoes_of_identity {e : CompletionEvent} {x : WorkItem κ π} (h : e.identity = x.identity) :
    e.Echoes x := by
  simp only [CompletionEvent.identity, WorkItem.identity, LogicalWorkIdentity.mk.injEq] at h
  obtain ⟨htopic, hpartition, hoffset, hid, hepoch⟩ := h
  have htp : e.tp = x.tp := by
    cases htp : e.tp
    cases hxtp : x.tp
    rw [htp, hxtp] at htopic hpartition
    rw [TopicPartition.mk.injEq]
    exact ⟨htopic, hpartition⟩
  exact ⟨hid, htp, hoffset, hepoch⟩

/-! ## Every run -/

section Runs

variable {τ β : Type} {c : WorkManagerConfig} {E : ExecutionEngine κ π τ β} {s : Beside (WorkManager κ π) τ}
  {p : WorkManager κ π → WorkAction κ π → Prop} {q : τ → β → Prop}

theorem WorkManager.submitted_calls (wm : WorkManager κ π) (b : WorkAction κ π) :
    (wm.calls c E b).flatMap EngineCall.submitted = (wm.leasesSince ((workMachine κ π (c.over E)).next wm b)).flatten := by
  unfold WorkManager.calls
  cases b with
  | poll env events after =>
    rw [List.flatMap_cons]
    exact E.submitted_submissions _
  | _ => exact E.submitted_submissions _

theorem WorkManager.polled_calls (wm : WorkManager κ π) (b : WorkAction κ π) :
    (wm.calls c E b).flatMap EngineCall.polled = b.polled := by
  unfold WorkManager.calls
  cases b with
  | poll env events after =>
    rw [List.flatMap_cons, E.polled_submissions]
    exact List.append_nil events
  | _ => exact E.polled_submissions _

theorem WorkManager.processed_polled {c : WorkManagerConfig} {wm : WorkManager κ π} (hw : WorkInv c wm.view)
    {b : WorkAction κ π} {l : List (Entry κ π)} (hl : ((workMachine κ π c).next wm b).log = l ++ wm.log)
    {e : CompletionEvent} (he : e ∈ b.polled) : .processed e ∈ l := by
  cases b with
  | poll env events after =>
    obtain ⟨l', hl', hmem⟩ := @processed_poll κ π _ c env wm hw events after
    obtain rfl : l = l' := List.append_cancel_right (hl.symm.trans hl')
    exact hmem e he
  | _ => cases he

theorem pipeline_work (h : (pipelineMachine c E).ReachableBy (BesideOk E.toServer p q) s) :
    (workMachine κ π (c.over E)).Reachable s.client := (client_reachable h).mono fun _ _ _ => trivial

theorem pipeline_engine (h : (pipelineMachine c E).ReachableBy (BesideOk E.toServer p q) s) : E.toMachine.Reachable s.server :=
  (server_reachable h).mono fun _ _ _ => trivial

/-- What the engine records of the submitted items is what was handed over. -/
theorem record_handed {δ : Type} (f : τ → List δ) (g : WorkItem κ π → δ) (h0 : ∀ t, E.init t → f t = [])
    (hnext : ∀ t b, f (E.next t b) = f t ++ (E.answer t b).toList.flatMap fun call => call.submitted.map g)
    (h : (pipelineMachine c E).ReachableBy (BesideOk E.toServer p q) s) : f s.server = (handedItems s.client.log).map g := by
  induction h with
  | @start s hi =>
    obtain ⟨wm, engine⟩ := s
    obtain ⟨⟨circuit, rfl⟩, hengine⟩ := hi
    exact h0 engine hengine
  | @next s a hr he hok ih =>
    cases a with
    | client b during =>
      obtain ⟨hb, hallowed, hanswers⟩ := he
      obtain ⟨l, hl⟩ := WorkManager.log_next (workInv_reachable (pipeline_work hr)) hb
      show f (E.run s.server during) = (handedItems ((workMachine κ π (c.over E)).next s.client b).log).map g
      rw [E.record_run f _ hnext, hanswers, ← List.map_flatMap, WorkManager.submitted_calls, WorkManager.leasesSince_of_log hl,
        flatten_handedLeases, hl, handedItems_append, List.map_append, ih]
    | server b =>
      show f (E.next s.server b) = _
      rw [hnext, he.2, ih]
      exact List.append_nil _

/-- The engine has accepted what was handed over. -/
theorem accepted_reachable (h : (pipelineMachine c E).ReachableBy (BesideOk E.toServer p q) s) :
    E.accepted s.server = (handedItems s.client.log).map (·.identity) :=
  record_handed E.accepted _ E.init_accepted E.accepted_next h

/-- **Nothing is submitted twice**, so the engine runs as it does for callers that hand over every item once. -/
theorem fresh_reachable (h : (pipelineMachine c E).ReachableBy (BesideOk E.toServer p q) s) :
    E.toMachine.ReachableBy (fun t b => q t b ∧ E.Fresh t b) s.server := by
  induction h with
  | start hi => exact .start hi.2
  | @next s a hr he hok ih =>
    cases a with
    | client b during =>
      have hnext := Machine.ReachableBy.next hr he hok
      have hnodup : (E.accepted (E.run s.server during)).Nodup := by
        have haccepted : E.accepted (E.run s.server during) = _ := accepted_reachable hnext
        rw [haccepted]
        refine List.Nodup.of_map (·.id) ?_
        rw [List.map_map]
        exact (workInv_reachable (pipeline_work hnext)).items.once.sublist ((handedItems_sublist_consumedItems _).map _)
      rw [E.accepted_run] at hnodup
      exact E.reachableBy_run during ih (E.allowed_fresh during hok.2 hnodup)
    | server b =>
      refine .next ih he.1 ⟨hok, fun call hcall => ?_⟩
      rw [he.2] at hcall
      cases hcall

/-- The events come from the engine, or are forced failures; and no item that it has returned a completion of is
unfinished. -/
structure PipelineInv (E : ExecutionEngine κ π τ β) (s : Beside (WorkManager κ π) τ) : Prop where
  sourced : s.client.view.Sourced fun e => e ∈ E.returned s.server ∨ e.status = .failure
  settled : ∀ e ∈ E.returned s.server, ∀ x ∈ unfinished s.client.log, x.id ≠ e.id

/-- The completions that an operation polls are of items that were accepted before it. -/
theorem accepted_of_polled (h : E.toMachine.Reachable s.server) {b : WorkAction κ π} {during : List β}
    (hallowed : E.Allowed (fun _ _ => True) s.server during) (hanswers : E.answers s.server during = s.client.calls c E b)
    {e : CompletionEvent} (he : e ∈ b.polled) : e.identity ∈ E.accepted s.server := by
  cases b with
  | poll env events after => exact E.reports_poll h hallowed hanswers e he
  | _ => cases he

/-- **An operation** keeps the two sides in step. -/
theorem PipelineInv.work (h : PipelineInv E s) (hr : (pipelineMachine c E).ReachableBy (BesideOk E.toServer p q) s) {b : WorkAction κ π}
    {during : List β} (he : (pipelineMachine c E).enabled s (.client b during)) :
    PipelineInv E ((pipelineMachine c E).next s (.client b during)) := by
  obtain ⟨hb, hallowed, hanswers⟩ := he
  have hengine := pipeline_engine hr
  have hinv := workInv_reachable (pipeline_work hr)
  have hinv' := WorkManager.workInv_next hinv hb
  obtain ⟨l, hl⟩ := WorkManager.log_next hinv hb
  have hreturned : E.returned (E.run s.server during) = E.returned s.server ++ b.polled := by
    rw [E.returned_run, hanswers, WorkManager.polled_calls]
  -- a completion of this step is of an item that was handed over before it
  have hbefore : ∀ e ∈ E.returned s.server ++ b.polled, ∃ y ∈ handedItems s.client.log, e.id = y.id := by
    intro e he
    have hidentity : e.identity ∈ E.accepted s.server := by
      rcases List.mem_append.mp he with he | he
      · exact E.reports _ hengine e he
      · exact accepted_of_polled hengine hallowed hanswers he
    rw [accepted_reachable hr] at hidentity
    obtain ⟨y, hy, heq⟩ := List.mem_map.mp hidentity
    exact ⟨y, hy, (CompletionEvent.echoes_of_identity heq.symm).id⟩
  refine ⟨?_, fun e he x hx hid => ?_⟩
  · show ((workMachine κ π (c.over E)).next s.client b).view.Sourced fun e =>
      e ∈ E.returned (E.run s.server during) ∨ e.status = .failure
    rw [hreturned]
    refine WorkManager.sourced_next (fun e he => .inr he) ?_ hinv hb fun env es after hpoll e he => .inl ?_
    · exact h.sourced.mono fun e he => he.imp_left (List.mem_append_left _)
    · subst hpoll
      exact List.mem_append_right _ he
  · replace he : e ∈ E.returned (E.run s.server during) := he
    replace hx : x ∈ unfinished ((workMachine κ π (c.over E)).next s.client b).log := hx
    rw [hreturned] at he
    rw [hl] at hx
    rcases mem_unfinished_append l s.client.log hx with hnew | ⟨hold, hunreported⟩
    · obtain ⟨y, hy, hey⟩ := hbefore e he
      have hnodup : ((handedItems s.client.log ++ handedItems l).map (·.id)).Nodup := by
        rw [← handedItems_append, ← hl]
        exact hinv'.items.once.sublist ((handedItems_sublist_consumedItems _).map _)
      rw [List.map_append, List.nodup_append] at hnodup
      exact hnodup.2.2 _ (List.mem_map_of_mem hy) _ (List.mem_map_of_mem hnew) (hey.symm.trans hid.symm)
    · rcases List.mem_append.mp he with he | he
      · exact h.settled e he x hold hid
      · exact hunreported e (WorkManager.processed_polled hinv hl he) hid

theorem PipelineInv.engine (h : PipelineInv E s) {b : β} (hnone : E.answer s.server b = none) :
    PipelineInv E { s with server := E.next s.server b } := by
  have hreturned : E.returned (E.next s.server b) = E.returned s.server := by
    rw [E.returned_next, hnone]
    exact List.append_nil _
  refine ⟨?_, ?_⟩
  · show s.client.view.Sourced fun e => e ∈ E.returned (E.next s.server b) ∨ e.status = .failure
    rw [hreturned]
    exact h.sourced
  · show ∀ e ∈ E.returned (E.next s.server b), ∀ x ∈ unfinished s.client.log, x.id ≠ e.id
    rw [hreturned]
    exact h.settled

theorem pipelineInv_reachable (h : (pipelineMachine c E).ReachableBy (BesideOk E.toServer p q) s) : PipelineInv E s := by
  induction h with
  | @start s hi =>
    obtain ⟨wm, engine⟩ := s
    obtain ⟨⟨circuit, rfl⟩, hengine⟩ := hi
    refine ⟨⟨(fun e he => by cases he), (fun e he => by cases he)⟩, fun e he => ?_⟩
    rw [E.init_returned engine hengine] at he
    cases he
  | @next s a hr he hok ih =>
    cases a with
    | client b during => exact ih.work hr he
    | server b => exact ih.engine he.2

/-- **Nothing hangs.** An unfinished item was accepted by the engine, and the engine has not returned its completion. -/
theorem accepted_of_unfinished (h : (pipelineMachine c E).ReachableBy (BesideOk E.toServer p q) s) {x : WorkItem κ π}
    (hx : x ∈ unfinished s.client.log) :
    x.identity ∈ E.accepted s.server ∧ x.identity ∉ (E.returned s.server).map (·.identity) := by
  refine ⟨?_, fun hreturned => ?_⟩
  · rw [accepted_reachable h]
    exact List.mem_map_of_mem (mem_handedItems_of_unfinished _ hx)
  · obtain ⟨e, he, hidentity⟩ := List.mem_map.mp hreturned
    exact (pipelineInv_reachable h).settled e he x hx (CompletionEvent.echoes_of_identity hidentity).id.symm

end Runs

end PyrallelConsumer
