import PyrallelConsumer.EnginePipeline
import PyrallelConsumer.DispatchMemory

/-!
# PyrallelConsumer.EngineSystem

The whole consumer over an execution engine: the poller with its work manager, commit coordinator and rebalance
callbacks beside the engine that its actions call. What is asked of the engine's events elsewhere the contract
of the engine gives here.

* `consumerMachine` — the two side by side, at any interleaving of their steps.
* `callSteps_next` — an action of the poller is a sequence of operations of its work manager, with the same calls.
* `consumer_reachable` — the poller runs truthfully, and its work manager and the engine run as a pipeline.
* `place_of_enqueued` — where every dispatched message is, at any time.
* `marks_reachable`, `committed_cases` — what the marks and the commits come from.
-/

set_option linter.unusedSectionVars false

namespace PyrallelConsumer

open WorkLog

variable {κ π : Type} [DecidableEq κ]

/-! ## Actions and calls -/

section Calls

variable {τ β : Type}

def PollerConfig.over (c : PollerConfig) (E : ExecutionEngine (SubmitKey κ) π τ β) : PollerConfig :=
  { c with workManager := c.workManager.over E }

namespace Poller

/-- The work manager after the first poll of a drain. -/
def polledWork (c : PollerConfig) (s : Poller κ π) (i : DrainInput κ π) : WorkManager (SubmitKey κ) π :=
  (s.wm.pollCompletedEvents c.workManager i.env i.engineEvents true).2

/-- A blocking timeout has forced a failure, so that the drain polls again. -/
def forces (c : PollerConfig) (s : Poller κ π) (i : DrainInput κ π) : Bool :=
  (s.forceTimedOut c (s.polledWork c i) i.timedOut).1

/-- The calls that an action makes. A drain polls, and polls again after forced failures. -/
def calls (c : PollerConfig) (E : ExecutionEngine (SubmitKey κ) π τ β) (s : Poller κ π) (a : PollerAction κ π) :
    List (EngineCall (SubmitKey κ) π) :=
  match a with
  | .drain i =>
    .poll 1000 i.engineEvents :: (s.wm.leasesSince (s.polledWork (c.over E) i)).flatMap E.submissions ++
      ((if s.forces (c.over E) i then [.poll 1000 i.lateEvents] else []) ++
        ((s.polledWork (c.over E) i).leasesSince (s.drain (c.over E) i).wm).flatMap E.submissions)
  | a => (s.wm.leasesSince ((pollerMachine κ π (c.over E)).next s a).wm).flatMap E.submissions

end Poller

/-- The poller over an engine. -/
abbrev consumerMachine (c : PollerConfig) (E : ExecutionEngine (SubmitKey κ) π τ β) :
    Machine (Beside (Poller κ π) τ) (BesideAction (PollerAction κ π) β) :=
  beside (pollerMachine κ π (c.over E)) (Poller.calls c E) E.toServer

/-- What is asked of an action: it assigns partitions that are not held, no publication raises, and what is listed
as polled late is polled late. Nothing is asked of the completions. -/
def ConsumerStepOk (c : PollerConfig) (s : Poller κ π) (a : PollerAction κ π) : Prop :=
  FreshAssign s a ∧
    match a with
    | .drain i => (∀ n, i.publish n ≠ .raised) ∧ (s.forces c i = false → i.lateEvents = [])
    | _ => True

/-- The work manager and the engine. -/
def Beside.pipeline (s : Beside (Poller κ π) τ) : Beside (WorkManager (SubmitKey κ) π) τ := ⟨s.client.wm, s.server⟩

end Calls

/-! ## Operations of the work manager under an action -/

/-- The operation polls nothing. -/
def NoPoll (_ : WorkManager κ π) (b : WorkAction κ π) : Prop := ∀ env events after, b ≠ .poll env events after

section Paths

variable {τ β : Type} {c : WorkManagerConfig} {E : ExecutionEngine κ π τ β}

/-- Operations that poll nothing only extend the history. -/
theorem log_steps {wm wm' : WorkManager κ π} (h : Machine.Steps (workMachine κ π c) NoPoll wm wm')
    (hw : WorkInv c wm.view) : WorkInv c wm'.view ∧ ∃ l, wm'.log = l ++ wm.log := by
  refine Machine.Steps.invariant (I := fun t => WorkInv c t.view ∧ ∃ l, t.log = l ++ wm.log) h ⟨hw, [], rfl⟩ ?_
  rintro t b ⟨ht, l, hl⟩ he -
  obtain ⟨l', hl'⟩ := WorkManager.log_next ht he
  exact ⟨WorkManager.workInv_next ht he, l' ++ l, by rw [hl', hl, List.append_assoc]⟩

theorem WorkManager.leasesSince_trans {wm wm' wm'' : WorkManager κ π} {l l' : List (Entry κ π)}
    (hl : wm'.log = l ++ wm.log) (hl' : wm''.log = l' ++ wm'.log) :
    wm.leasesSince wm'' = wm.leasesSince wm' ++ wm'.leasesSince wm'' := by
  have hboth : wm''.log = (l' ++ l) ++ wm.log := by rw [hl', hl, List.append_assoc]
  rw [leasesSince_of_log hl, leasesSince_of_log hl', leasesSince_of_log hboth, handedLeases_append]

theorem WorkManager.leasesSince_of_eq {wm wm' : WorkManager κ π} (hl : wm'.log = wm.log) : wm.leasesSince wm' = [] := by
  have hlog : wm'.log = [] ++ wm.log := hl
  exact leasesSince_of_log hlog

theorem WorkManager.calls_of_noPoll {wm : WorkManager κ π} {b : WorkAction κ π} (h : NoPoll wm b) :
    wm.calls c E b = (wm.leasesSince ((workMachine κ π (c.over E)).next wm b)).flatMap E.submissions := by
  cases b with
  | poll env events after => exact absurd rfl (h env events after)
  | _ => rfl

/-- **Operations that poll nothing** submit what they hand over. -/
theorem callSteps_noPoll {wm wm' : WorkManager κ π} (h : Machine.Steps (workMachine κ π (c.over E)) NoPoll wm wm')
    (hw : WorkInv (c.over E) wm.view) :
    CallSteps (workMachine κ π (c.over E)) (WorkManager.calls c E) (fun _ _ => True) wm wm'
      ((wm.leasesSince wm').flatMap E.submissions) := by
  induction h with
  | refl =>
    rw [WorkManager.leasesSince_of_eq rfl]
    exact .refl
  | @cons t t' b he hb hrest ih =>
    obtain ⟨l, hl⟩ := WorkManager.log_next hw he
    have hw' := WorkManager.workInv_next hw he
    obtain ⟨-, l', hl'⟩ := log_steps hrest hw'
    rw [WorkManager.leasesSince_trans hl hl', List.flatMap_append, ← WorkManager.calls_of_noPoll hb]
    exact .cons he trivial (ih hw')

end Paths

namespace Poller

variable {c : PollerConfig} {s : Poller κ π}

theorem restrictsPolls_noPoll : RestrictsPolls (NoPoll : WorkManager (SubmitKey κ) π → WorkAction (SubmitKey κ) π → Prop) :=
  fun _ _ h => h

theorem log_forceTimedOut (l : List (TopicPartition × Int × String)) :
    ∀ wm : WorkManager (SubmitKey κ) π, (s.forceTimedOut c wm l).2.log = wm.log := by
  induction l with
  | nil => intro wm; rfl
  | cons e l ih =>
    intro wm
    obtain ⟨tp, offset, error⟩ := e
    simp only [forceTimedOut]
    split
    · exact ih wm
    · rename_i t _
      obtain ⟨q, hq⟩ := wm.forceFail_view tp offset t.epoch error c.dlq.maxRetries
      exact (ih _).trans (congrArg WorkView.log hq)

theorem drainedEvents_wm (i : DrainInput κ π) : (s.drainedEvents c i).2 =
    if s.forces c i then ((s.forcedWork c i).pollCompletedEvents c.workManager i.env i.lateEvents true).2
    else s.forcedWork c i := by
  unfold drainedEvents forces polledWork forcedWork
  dsimp only
  split <;> rfl

/-- What a drain does after its polls. -/
theorem workSteps_drainRest {i : DrainInput κ π} (hlaw : i.env.AcceptsPrefix) :
    WorkSteps c NoPoll (s.drainedEvents c i).2 (s.drain c i).wm := by
  have hprocessed : WorkSteps c NoPoll (s.polled c i).wm ((s.polled c i).processCompleted c i.publish (s.drainedEvents c i).1).2.wm :=
    workSteps_processCompleted restrictsPolls_noPoll.allowsMutation (s.polled c i) i.publish (s.drainedEvents c i).1
  rcases drain_cases c s i with heq | heq | ⟨s', hs', heq⟩
  · rw [heq]
    exact .refl
  · rw [heq]
    exact hprocessed
  · rw [heq]
    rw [← hs'] at hprocessed
    exact hprocessed.trans (workSteps_one (.schedule i.env) hlaw (restrictsPolls_noPoll _ _ (by simp)))

/-- A drain enqueues nothing. -/
theorem enqueuedItems_drain (i : DrainInput κ π) : enqueuedItems (s.drain c i).wm.log = enqueuedItems s.wm.log := by
  have hpoll : ∀ (wm : WorkManager (SubmitKey κ) π) (events : List CompletionEvent),
      enqueuedItems (wm.pollCompletedEvents c.workManager i.env events true).2.log = enqueuedItems wm.log :=
    fun wm events => (WorkManager.books_pollCompletedEvents wm events true).1.enqueuedItems_eq
  have hforced : enqueuedItems (s.forcedWork c i).log = enqueuedItems s.wm.log := by
    have hlog : (s.forcedWork c i).log = (s.polledWork c i).log := log_forceTimedOut i.timedOut (s.polledWork c i)
    rw [hlog]
    exact hpoll s.wm i.engineEvents
  have hpolled : enqueuedItems (s.polled c i).wm.log = enqueuedItems s.wm.log := by
    show enqueuedItems (s.drainedEvents c i).2.log = _
    rw [drainedEvents_wm]
    split
    · exact (hpoll _ i.lateEvents).trans hforced
    · exact hforced
  have hprocessed : enqueuedItems ((s.polled c i).processCompleted c i.publish (s.drainedEvents c i).1).2.wm.log =
      enqueuedItems s.wm.log := by
    obtain ⟨heap, hheap⟩ := (workSteps_processCompleted (c := c) allowsMutation_mutates (s.polled c i) i.publish
      (s.drainedEvents c i).1).heap_only
    rw [hheap]
    exact hpolled
  rcases drain_cases c s i with heq | heq | ⟨s', hs', heq⟩
  · rw [heq]
    exact hpolled
  · rw [heq]
    exact hprocessed
  · rw [← hs'] at hprocessed
    rw [heq]
    have hscheduled : WorkManager.Books [] s'.wm (s'.wm.schedule c.workManager i.env) := WorkManager.books_schedule s'.wm
    exact hscheduled.enqueuedItems_eq.trans hprocessed

end Poller

/-! ## Every run -/

section Runs

variable {τ β : Type} {c : PollerConfig} {E : ExecutionEngine (SubmitKey κ) π τ β} {q : τ → β → Prop}
  {s : Beside (Poller κ π) τ}

/-- **A drain** polls, forces failures, polls again if there are any, and hands over. -/
theorem callSteps_drain {s : Poller κ π} (hw : WorkInv (c.over E).workManager s.wm.view) {i : Poller.DrainInput κ π}
    (hlaw : i.env.AcceptsPrefix) :
    CallSteps (workMachine (SubmitKey κ) π (c.workManager.over E)) (WorkManager.calls c.workManager E) (fun _ _ => True)
      s.wm (s.drain (c.over E) i).wm (s.calls c E (.drain i)) := by
  let polled := s.polledWork (c.over E) i
  let forced := s.forcedWork (c.over E) i
  have hfirst : CallSteps (workMachine (SubmitKey κ) π (c.workManager.over E)) (WorkManager.calls c.workManager E)
      (fun _ _ => True) s.wm polled _ := .single (a := WorkAction.poll i.env i.engineEvents true) hlaw trivial
  have hw₁ : WorkInv (c.workManager.over E) polled.view :=
    WorkManager.workInv_next (a := WorkAction.poll i.env i.engineEvents true) hw hlaw
  have hforcing : Machine.Steps (workMachine (SubmitKey κ) π (c.workManager.over E)) NoPoll polled forced :=
    Poller.workSteps_forceTimedOut (c := c.over E) Poller.restrictsPolls_noPoll s i.timedOut polled
  have hlog : forced.log = polled.log := Poller.log_forceTimedOut (c := c.over E) i.timedOut polled
  have htail : Machine.Steps (workMachine (SubmitKey κ) π (c.workManager.over E)) NoPoll
      (s.drainedEvents (c.over E) i).2 (s.drain (c.over E) i).wm := Poller.workSteps_drainRest (c := c.over E) hlaw
  refine hfirst.trans ?_
  rw [Poller.drainedEvents_wm] at htail
  cases hforces : s.forces (c.over E) i with
  | false =>
    rw [hforces] at htail
    exact callSteps_noPoll (hforcing.trans htail) hw₁
  | true =>
    rw [hforces] at htail
    let late := (forced.pollCompletedEvents (c.workManager.over E) i.env i.lateEvents true).2
    obtain ⟨hw₂, -⟩ := log_steps hforcing hw₁
    obtain ⟨l, hl⟩ := WorkManager.log_next (b := WorkAction.poll i.env i.lateEvents true) hw₂ hlaw
    have hw₃ : WorkInv (c.workManager.over E) late.view :=
      WorkManager.workInv_next (a := WorkAction.poll i.env i.lateEvents true) hw₂ hlaw
    have htail : Machine.Steps (workMachine (SubmitKey κ) π (c.workManager.over E)) NoPoll late (s.drain (c.over E) i).wm := htail
    obtain ⟨-, l', hl'⟩ := log_steps htail hw₃
    have hsecond := callSteps_noPoll (E := E) hforcing hw₁
    rw [WorkManager.leasesSince_of_eq hlog] at hsecond
    have hthird : CallSteps (workMachine (SubmitKey κ) π (c.workManager.over E)) (WorkManager.calls c.workManager E)
        (fun _ _ => True) forced late _ := .single (a := WorkAction.poll i.env i.lateEvents true) hlaw trivial
    have hsplit : polled.leasesSince (s.drain (c.over E) i).wm =
        forced.leasesSince late ++ late.leasesSince (s.drain (c.over E) i).wm := by
      have htrans : forced.leasesSince (s.drain (c.over E) i).wm = _ := WorkManager.leasesSince_trans hl hl'
      refine Eq.trans ?_ htrans
      unfold WorkManager.leasesSince
      rw [hlog]
    have hall := hsecond.trans (hthird.trans (callSteps_noPoll htail hw₃))
    rw [if_pos rfl]
    show CallSteps _ _ _ _ _ ([.poll 1000 i.lateEvents] ++ (polled.leasesSince (s.drain (c.over E) i).wm).flatMap E.submissions)
    rw [hsplit, List.flatMap_append, ← List.append_assoc]
    exact hall

/-- **An action** is a sequence of operations of the work manager, with the same calls. -/
theorem callSteps_next {s : Poller κ π} (hagree : s.Agree) (hw : WorkInv (c.over E).workManager s.wm.view)
    {a : PollerAction κ π} (hlaw : a.Lawful) (hfresh : FreshAssign s a) :
    CallSteps (workMachine (SubmitKey κ) π (c.workManager.over E)) (WorkManager.calls c.workManager E) (fun _ _ => True)
      s.wm ((pollerMachine κ π (c.over E)).next s a).wm (s.calls c E a) := by
  by_cases hdrain : ∃ i, a = .drain i
  · obtain ⟨i, rfl⟩ := hdrain
    exact callSteps_drain hw hlaw
  · have hdrain : ∀ i, a ≠ .drain i := fun i hi => hdrain ⟨i, hi⟩
    have hpolls : PollsMeet (c.over E) NoPoll s a := by
      cases a with
      | drain i => exact absurd rfl (hdrain i)
      | _ => trivial
    have hsteps : WorkSteps (c.over E) NoPoll s.wm ((pollerMachine κ π (c.over E)).next s a).wm := by
      refine Poller.workSteps_next Poller.restrictsPolls_noPoll hlaw hpolls ?_
      rintro committed partitions rfl p hp
      by_contra hsome
      obtain ⟨r, hr⟩ := Option.ne_none_iff_exists'.mp hsome
      exact absurd ((hagree.trackers _ r hr).symm.trans (hfresh p hp)) (by simp)
    have hcalls : s.calls c E a =
        (s.wm.leasesSince ((pollerMachine κ π (c.over E)).next s a).wm).flatMap E.submissions := by
      cases a with
      | drain i => exact absurd rfl (hdrain i)
      | _ => rfl
    rw [hcalls]
    exact callSteps_noPoll hsteps hw

/-- The work manager and the engine run as a pipeline. -/
theorem consumer_pipeline (h : (consumerMachine c E).ReachableBy (BesideOk E.toServer (ConsumerStepOk (c.over E)) q) s) :
    (pipelineMachine c.workManager E).ReachableBy (BesideOk E.toServer (fun _ _ => True) q) s.pipeline := by
  have hfresh : ∀ (s : Poller κ π) a, ConsumerStepOk (c.over E) s a → FreshAssign s a := fun _ _ ha => ha.1
  refine beside_refines Poller.wm (fun s hi => ?_) (fun s a hr he hok => ?_) h
  · obtain ⟨circuit, rfl⟩ := hi
    exact ⟨circuit, rfl⟩
  · have hw : WorkInv (c.over E).workManager s.wm.view := workInv_reachable (work_reachable_of_fresh hfresh hr)
    exact callSteps_next (agree_reachable (hr.mono hfresh)) hw he.2 hok.1

/-- What a drain polls the engine has returned. -/
theorem returned_of_polls {i : Poller.DrainInput κ π} {during : List β}
    (he : (consumerMachine c E).enabled s (.client (.drain i) during))
    (hok : ConsumerStepOk (c.over E) s.client (.drain i)) :
    ∀ e ∈ i.engineEvents ++ i.lateEvents, e ∈ E.returned (E.run s.server during) := by
  obtain ⟨-, -, hanswers⟩ := he
  intro e he
  have hpolled : ((if s.client.forces (c.over E) i then [.poll 1000 i.lateEvents] else []) :
      List (EngineCall (SubmitKey κ) π)).flatMap EngineCall.polled = i.lateEvents := by
    cases hforces : s.client.forces (c.over E) i with
    | false => exact (hok.2.2 hforces).symm
    | true => exact List.append_nil _
  have hcalls : (s.client.calls c E (.drain i)).flatMap EngineCall.polled = i.engineEvents ++ i.lateEvents := by
    unfold Poller.calls
    rw [List.flatMap_append, List.flatMap_cons, List.flatMap_append, hpolled, E.polled_submissions, E.polled_submissions,
      List.append_nil, List.append_nil]
    rfl
  rw [E.returned_run, hanswers, hcalls]
  exact List.mem_append_right _ he

/-- **The consumer.** The engine makes the poller's steps truthful. -/
theorem consumer_reachable (h : (consumerMachine c E).ReachableBy (BesideOk E.toServer (ConsumerStepOk (c.over E)) q) s) :
    (pollerMachine κ π (c.over E)).ReachableBy TruthfulStep s.client := by
  induction h with
  | start hi => exact .start hi.1
  | @next s a hr he hok ih =>
    have hnext := consumer_pipeline (.next hr he hok)
    cases a with
    | server b => exact ih
    | client a during =>
      refine .next ih he.1 ⟨hok.1.1, ?_⟩
      cases a with
      | drain i =>
        refine ⟨fun e hpolled => ?_, hok.1.2.1⟩
        have hreturned := returned_of_polls he hok.1 e hpolled
        have haccepted := E.reports _ (pipeline_engine hnext) e hreturned
        rw [accepted_reachable hnext] at haccepted
        obtain ⟨x, hx, hidentity⟩ := List.mem_map.mp haccepted
        have hconsumed := (handedItems_sublist_consumedItems _).subset hx
        refine ⟨x, ?_, CompletionEvent.echoes_of_identity hidentity.symm⟩
        rw [← Poller.enqueuedItems_drain (c := c.over E) (s := s.client) i]
        exact (workInv_reachable (pipeline_work hnext)).items.consumed x hconsumed
      | _ => trivial

/-! ## Where a message is -/

/-- The places of a message. -/
inductive Place (E : ExecutionEngine (SubmitKey κ) π τ β) (s : Beside (Poller κ π) τ) (x : WorkItem (SubmitKey κ) π) : Prop where
  | queued (h : x ∈ s.client.wm.queueTopology.queueOf x.tp x.key)
  | engine (h : x.identity ∈ E.accepted s.server) (hreturned : x.identity ∉ (E.returned s.server).map (·.identity))
  | reported (e : CompletionEvent) (h : e ∈ s.client.wm.completionQueue) (hid : e.id = x.id)
  | covered (r : TrackerRef) (t : OffsetTracker) (hr : s.client.tracker? x.tp = some (r, t)) (hcov : t.core.Covers x.offset)
  | pending (h : s.client.pendingDlqEvents.contains (x.tp, x.offset) = true)

/-- **Every message has its place.** -/
theorem place_of_enqueued (h : (consumerMachine c E).ReachableBy (BesideOk E.toServer (ConsumerStepOk (c.over E)) q) s)
    {tp : TopicPartition} {key : SubmitKey κ} {x : WorkItem (SubmitKey κ) π} (hx : x ∈ enqueuedOf tp key s.client.wm.log) :
    Place E s x := by
  have hpipeline := consumer_pipeline h
  obtain ⟨⟨rfl, rfl⟩, -⟩ := mem_enqueuedOf _ hx
  by_cases hqueue : x ∈ s.client.wm.queueTopology.queueOf x.tp x.key
  · exact .queued hqueue
  by_cases hout : x ∈ outstanding s.client.wm.log
  · -- off its queue, with no event processed for it
    rcases (WorkManager.watched_reachable (pipeline_work hpipeline)).awaited x hout with hunfinished | ⟨e, he, hid⟩
    · obtain ⟨haccepted, hreturned⟩ := accepted_of_unfinished hpipeline hunfinished
      exact .engine haccepted hreturned
    · exact .reported e he hid
  · rcases (memory_reachable (consumer_reachable h)).resolved x ⟨hx, hqueue, hout⟩ with ⟨r, core, hr, hcore, hcov⟩ | hk
    · rw [show s.client.trackers.cores = s.client.wm.heap.map (·.core) from rfl, List.getElem?_map] at hcore
      obtain ⟨t, ht, rfl⟩ := Option.map_eq_some_iff.mp hcore
      exact .covered r t (Poller.tracker?_eq_some.mpr ⟨hr, ht⟩) hcov
    · exact .pending hk

end Runs

/-! ## What is marked -/

namespace Poller

variable {c : PollerConfig} {s : Poller κ π} {ok : CompletionEvent → Prop}

/-- The events that were marked or wait to be published are `ok`. -/
structure Marks (ok : CompletionEvent → Prop) (s : Poller κ π) : Prop where
  marked : ∀ r e changed, .marked r e changed ∈ s.log → ok e
  pending : ∀ k e, s.pendingDlqEvents.get? k = some e → ok e

theorem Marks.mono {ok' : CompletionEvent → Prop} (h : s.Marks ok) (hok : ∀ e, ok e → ok' e) : s.Marks ok' :=
  ⟨fun r e changed he => hok e (h.marked r e changed he), fun k e he => hok e (h.pending k e he)⟩

/-- **An action** marks events of its drain, and failures that waited. -/
theorem marks_next (h : s.Marks ok) (hsafe : SafetyInv c.dlq s) (a : PollerAction κ π)
    (hdrained : ∀ i, a = .drain i → ∀ e ∈ (s.drainedEvents c i).1, ok e) : ((pollerMachine κ π c).next s a).Marks ok := by
  have hprocessed : ∀ e, s.Processed c a e → ok e := by
    intro e he
    cases a with
    | drain i =>
      rcases he with he | he
      · exact hdrained i rfl e he
      · obtain ⟨k, hk⟩ := s.pendingDlqEvents.mem_values_iff.mp he
        exact h.pending k e hk
    | _ => exact he.elim
  refine ⟨?_, ?_⟩
  · refine TrackerRun.invariant (I := fun v => ∀ r e changed, .marked r e changed ∈ v.log → ok e)
      (trackerRun_next c s hsafe.shared hsafe.holds a) h.marked fun u w _ hu hstep r e changed he => ?_
    have hold : ∀ {entry : PollerEntry κ π}, .marked r e changed ∈ entry :: u.log → entry ≠ .marked r e changed → ok e :=
      fun he hne => hu r e changed ((List.mem_cons.mp he).resolve_left fun heq => hne heq.symm)
    cases hstep with
    | installed core hwf hepoch hE => exact hold he (by simp)
    | forgot tps hE => exact hu r e changed he
    | submitted r' x hr hE => exact hold he (by simp)
    | published r' e' outcome core hcur hneeds hE => exact hold he (by simp)
    | pended r' e' core hcur hneeds hE => exact hold he (by simp)
    | marked r' e' changed' core hcur hE hgate hchanged =>
      rcases List.mem_cons.mp he with heq | he
      · cases heq
        exact hprocessed e hE
      · exact hu r e changed he
    | advanced tp r' core o hr hcore ho => exact hu r e changed he
    | committed path r' position hV => exact hold he (by simp)
  · by_cases hdrain : ∃ i, a = .drain i
    · obtain ⟨i, rfl⟩ := hdrain
      have hafter := pending_processCompleted (c := c) (s := s.polled c i) h.pending i.publish (hdrained i rfl)
      show ∀ k e, (s.drain c i).pendingDlqEvents.get? k = some e → ok e
      rcases drain_cases c s i with heq | heq | ⟨s', hs', heq⟩
      · rw [heq]
        exact h.pending
      · rw [heq]
        exact hafter
      · rw [heq]
        show ∀ k e, s'.pendingDlqEvents.get? k = some e → ok e
        rw [hs']
        exact hafter
    · exact fun k e he => h.pending k e (ledger_next a (fun i hi => hdrain ⟨i, hi⟩) he)

/-- **The events of a drain** are those of its polls, those that waited, and failures. -/
theorem ok_drainedEvents (hok : ∀ e : CompletionEvent, e.status = .failure → ok e) (hw : WorkInv c.workManager s.wm.view)
    {i : DrainInput κ π} (hlaw : i.env.AcceptsPrefix) (h : s.wm.view.Sourced ok)
    (hevents : ∀ e ∈ i.engineEvents ++ i.lateEvents, ok e) : ∀ e ∈ (s.drainedEvents c i).1, ok e := by
  have hpolled : ∀ {wm : WorkManager (SubmitKey κ) π} {events : List CompletionEvent}, wm.view.Sourced ok →
      (∀ e ∈ events, ok e) → ∀ e ∈ (wm.pollCompletedEvents c.workManager i.env events true).1, ok e := by
    intro wm events hwm hev e he
    rcases (WorkManager.books_pollCompletedEvents wm events true).2 e he with he | ⟨x, -, -, hfailure⟩
    · exact (List.mem_append.mp he).elim (hwm.waiting e) (hev e)
    · exact hok e hfailure
  have hengine : ∀ e ∈ i.engineEvents, ok e := fun e he => hevents e (List.mem_append_left _ he)
  have hfirst : (s.polledWork c i).view.Sourced ok :=
    WorkManager.sourced_next (b := WorkAction.poll i.env i.engineEvents true) hok h hw hlaw
      fun env events after heq => by cases heq; exact hengine
  have hforced : (s.forcedWork c i).view.Sourced ok := by
    have hsteps : WorkSteps c NoPoll (s.polledWork c i) (s.forcedWork c i) :=
      workSteps_forceTimedOut restrictsPolls_noPoll s i.timedOut (s.polledWork c i)
    have hw₁ : WorkInv c.workManager (s.polledWork c i).view :=
      WorkManager.workInv_next (a := WorkAction.poll i.env i.engineEvents true) hw hlaw
    refine (Machine.Steps.invariant (I := fun wm => WorkInv c.workManager wm.view ∧ wm.view.Sourced ok) hsteps
      ⟨hw₁, hfirst⟩ fun wm b hwm he hb => ?_).2
    refine ⟨WorkManager.workInv_next hwm.1 he, WorkManager.sourced_next hok hwm.2 hwm.1 he fun env events after heq => ?_⟩
    exact absurd heq (hb env events after)
  unfold drainedEvents
  dsimp only
  split
  · intro e he
    rcases List.mem_append.mp he with he | he
    · exact hpolled h hengine e he
    · exact hpolled hforced (fun e he => hevents e (List.mem_append_right _ he)) e he
  · exact hpolled h hengine

end Poller

/-! ## What is committed -/

/-- The offset was marked from a failure that needed no publication, or whose publication was confirmed before. -/
def DeadLettered (c : DlqConfig) (log : List (PollerEntry κ π)) (tp : TopicPartition) (o : Int) : Prop :=
  ∃ newer r e changed older, log = newer ++ .marked r e changed :: older ∧ e.tp = tp ∧ e.offset = o ∧
    e.status = .failure ∧ (c.needsPublish e = false ∨ .published r e .delivered ∈ older)

section Commits

variable {τ β : Type} {c : PollerConfig} {E : ExecutionEngine (SubmitKey κ) π τ β} {q : τ → β → Prop}
  {s : Beside (Poller κ π) τ}

theorem ExecutionEngine.returned_mono {E : ExecutionEngine κ π τ β} {t : τ} (l : List β) {e : CompletionEvent}
    (he : e ∈ E.returned t) : e ∈ E.returned (E.run t l) := by
  rw [E.returned_run]
  exact List.mem_append_left _ he

/-- Whatever was marked or waits to be published, the engine has returned it or it is a failure. -/
theorem marks_reachable (h : (consumerMachine c E).ReachableBy (BesideOk E.toServer (ConsumerStepOk (c.over E)) q) s) :
    s.client.Marks fun e => e ∈ E.returned s.server ∨ e.status = .failure := by
  induction h with
  | @start s hi =>
    obtain ⟨poller, engine⟩ := s
    obtain ⟨⟨circuit, rfl⟩, -⟩ := hi
    exact ⟨(fun r e changed he => by cases he), (fun k e he => by cases he)⟩
  | @next s a hr he hok ih =>
    have hpipeline := consumer_pipeline hr
    cases a with
    | server b => exact ih.mono fun e he => he.imp_left (ExecutionEngine.returned_mono [b])
    | client a during =>
      have hlater := ih.mono fun e he => he.imp_left (ExecutionEngine.returned_mono during)
      have hw : WorkInv (c.over E).workManager s.client.wm.view := workInv_reachable (pipeline_work hpipeline)
      refine Poller.marks_next (c := c.over E) hlater (safetyInv_reachable (consumer_reachable hr)) a fun i hdrain => ?_
      subst hdrain
      have hlaw : i.env.AcceptsPrefix := he.1.2
      refine Poller.ok_drainedEvents (c := c.over E) (fun e he => .inr he) hw hlaw ?_
        fun e hpolled => .inl (returned_of_polls he hok.1 e hpolled)
      exact (pipelineInv_reachable hpipeline).sourced.mono fun e he =>
        he.imp_left (ExecutionEngine.returned_mono during)

/-- **Below a committed position** the partition was taken over so, or the engine has returned a success, or a failure
has passed the dead-letter gate. -/
theorem committed_cases (h : (consumerMachine c E).ReachableBy (BesideOk E.toServer (ConsumerStepOk (c.over E)) q) s)
    {newer older : List (PollerEntry κ π)} {path : CommitPath} {r : TrackerRef} {position : KafkaTopicPartition}
    (hlog : s.client.log = newer ++ .committed path r position :: older) {o : Int} (ho : o < position.offset) :
    Restored older position.toDto o ∨
      (∃ e ∈ E.returned s.server, e.tp = position.toDto ∧ e.offset = o ∧ e.status = .success) ∨
      DeadLettered c.dlq older position.toDto o := by
  have hhandled : Handled c.dlq older position.toDto o :=
    (safetyInv_reachable (consumer_reachable h)).safe.committed newer path r position older hlog o (by omega)
  rcases hhandled with ⟨newer', r', e, changed, older', rfl, htp, hoffset, hsuccess | ⟨hfailure, hgate⟩⟩ | hrestored
  · have hmarked : .marked r' e changed ∈ s.client.log := by
      rw [hlog]
      simp
    rcases (marks_reachable h).marked r' e changed hmarked with hreturned | hfailure
    · -- a success comes from the engine alone
      exact .inr (.inl ⟨e, hreturned, htp, hoffset, hsuccess⟩)
    · rw [hsuccess] at hfailure
      cases hfailure
  · exact .inr (.inr ⟨newer', r', e, changed, older', rfl, htp, hoffset, hfailure, hgate⟩)
  · exact .inl hrestored

end Commits

end PyrallelConsumer
