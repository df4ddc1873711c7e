import PyrallelConsumer.CompletionDelivery
import Mathlib.Data.List.Perm.Subperm

/-!
# PyrallelConsumer.RouteBatchRun

Everything that `_worker_loop` puts on its two queues for one route batch, in the order of the puts. The
worker does not recycle (`max_tasks_per_child = 0`) and every put succeeds. The measurements that it puts
besides are left out.

* `routeBatchLoop_append` — the items that succeed at the head of a batch put their starts only.
* `accounts_trace` — what the worker reports when it ends a batch, whatever ends it.
* `runPayload_routeBatch` — the two queues of a worker that works off the batch, each a part of the puts.
* `route_batch_accounted` — failure, timeout and success.
-/

namespace PyrallelConsumer

variable {κ π : Type}

/-! ## Puts -/

/-- A put of a worker. -/
inductive Put (κ π : Type) where
  | completion (m : CompletionMessage κ)
  | event (e : RegistryEvent κ π)
deriving DecidableEq, Repr

/-- How the worker leaves the batch. -/
inductive BatchEnd where
  | finished
  | exits
  | escapes
deriving DecidableEq, Repr

section Loop

variable (c : ProcessConfig κ π) (index batchId : Nat) (route : RouteIdentity κ)
  (outcomes : Nat → Nat → AttemptOutcome)

/-- `_flush_route_batch_completion`, then the deferred `done` events. -/
def flushPuts (results : List CompletionEvent) (deferred : List (InFlightRegistryKey × LogicalWorkIdentity)) :
    List (Put κ π) :=
  (Worker.flushRouteBatch c batchId route results).map .completion ++ (Worker.doneEvents deferred).map .event

/-- The item loop of `_worker_loop` from the item at place `i`, with what follows it. -/
def routeBatchLoop : Nat → List (WorkItem κ π) → List CompletionEvent →
    List (InFlightRegistryKey × LogicalWorkIdentity) → List (Put κ π) × BatchEnd
  | _, [], results, deferred => (flushPuts c batchId route results deferred, .finished)
  | i, x :: rest, results, deferred =>
    let start : Put κ π := .event (.start (x.registryKey index) x)
    match runAttempts c.maxRetries (outcomes i) with
    | (.finished, s) =>
      let results := results ++ [x.completion s]
      let deferred := deferred ++ [(x.registryKey index, x.identity)]
      if s.status = .failure then
        (start :: (Worker.notStarted batchId rest).map .event ++ flushPuts c batchId route results deferred,
          .finished)
      else
        let (puts, ending) := routeBatchLoop (i + 1) rest results deferred
        (start :: puts, ending)
    | (.timedOut, s) =>
      (start :: .event (.timeout (x.registryKey index) x s.attempt (s.error.getD (.text ""))) ::
        flushPuts c batchId route results deferred, .exits)
    | (.escaped, _) => ([start], .escapes)

/-- The puts for a route batch. -/
def routeBatchPuts (items : List (WorkItem κ π)) : List (Put κ π) :=
  (routeBatchLoop c index batchId route outcomes 0 items [] []).1

def routeBatchEnd (items : List (WorkItem κ π)) : BatchEnd :=
  (routeBatchLoop c index batchId route outcomes 0 items [] []).2

/-- The completions of items from place `i` on. -/
def completionsFrom : Nat → List (WorkItem κ π) → List CompletionEvent
  | _, [] => []
  | i, x :: rest => x.completion (runAttempts c.maxRetries (outcomes i)).2 :: completionsFrom (i + 1) rest

end Loop

/-- The item at place `i` ends in SUCCESS. -/
def SucceedsAt (c : ProcessConfig κ π) (outcomes : Nat → Nat → AttemptOutcome) (i : Nat) : Prop :=
  (runAttempts c.maxRetries (outcomes i)).1 = .finished ∧ (runAttempts c.maxRetries (outcomes i)).2.status = .success

def FailsAt (c : ProcessConfig κ π) (outcomes : Nat → Nat → AttemptOutcome) (i : Nat) : Prop :=
  (runAttempts c.maxRetries (outcomes i)).1 = .finished ∧ (runAttempts c.maxRetries (outcomes i)).2.status = .failure

def TimesOutAt (c : ProcessConfig κ π) (outcomes : Nat → Nat → AttemptOutcome) (i : Nat) : Prop :=
  (runAttempts c.maxRetries (outcomes i)).1 = .timedOut

/-! ## What puts report -/

namespace Put

def message? : Put κ π → Option (CompletionMessage κ)
  | completion m => some m
  | event _ => none

def event? : Put κ π → Option (RegistryEvent κ π)
  | completion _ => none
  | event e => some e

/-- The items whose end the put reports, as a completion or as a timeout. -/
def ended : Put κ π → List LogicalWorkIdentity
  | completion m => m.events.map (·.identity)
  | event (.timeout _ x _ _) => [x.identity]
  | event _ => []

end Put

section Projections

variable (puts : List (Put κ π))

def messagesOf : List (CompletionMessage κ) := puts.filterMap Put.message?

def eventsOf : List (RegistryEvent κ π) := puts.filterMap Put.event?

def completedOf : List CompletionEvent := (messagesOf puts).flatMap (·.events)

def startedOf : List (WorkItem κ π) :=
  (eventsOf puts).filterMap fun
    | .start _ x => some x
    | _ => none

def timedOutOf : List (WorkItem κ π) :=
  (eventsOf puts).filterMap fun
    | .timeout _ x _ _ => some x
    | _ => none

def notStartedOf : List (Nat × List (WorkItem κ π)) :=
  (eventsOf puts).filterMap fun
    | .notStarted batchId payloads => some (batchId, payloads)
    | _ => none

def endedOf : List LogicalWorkIdentity := puts.flatMap Put.ended

end Projections

/-- Each start stands before the end of its item, and each `done` event behind the completion of its item. -/
structure InOrder (puts : List (Put κ π)) : Prop where
  startFirst : ∀ before p after, puts = before ++ p :: after →
    (endedOf (before ++ [p])).Subperm ((startedOf before).map (·.identity))
  doneLast : ∀ before p after, puts = before ++ p :: after →
    doneIdentities (eventsOf (before ++ [p])) <+: (completedOf before).map (·.identity)

/-- What the puts for a batch report, kind by kind. -/
structure Accounts (puts : List (Put κ π)) (begun : List (WorkItem κ π)) (results : List CompletionEvent)
    (overdue : List (WorkItem κ π)) (tails : List (Nat × List (WorkItem κ π))) : Prop where
  started : startedOf puts = begun
  completed : completedOf puts = results
  timedOut : timedOutOf puts = overdue
  notStarted : notStartedOf puts = tails
  done : doneIdentities (eventsOf puts) = results.map (·.identity)
  inOrder : InOrder puts

section Append

variable (l l' : List (Put κ π))

@[simp] theorem messagesOf_append : messagesOf (l ++ l') = messagesOf l ++ messagesOf l' := List.filterMap_append

@[simp] theorem eventsOf_append : eventsOf (l ++ l') = eventsOf l ++ eventsOf l' := List.filterMap_append

@[simp] theorem messagesOf_event (e : RegistryEvent κ π) : messagesOf (.event e :: l) = messagesOf l := rfl

@[simp] theorem eventsOf_event (e : RegistryEvent κ π) : eventsOf (.event e :: l) = e :: eventsOf l := rfl

@[simp] theorem completedOf_append : completedOf (l ++ l') = completedOf l ++ completedOf l' := by
  simp [completedOf]

@[simp] theorem startedOf_append : startedOf (l ++ l') = startedOf l ++ startedOf l' := by
  simp [startedOf]

@[simp] theorem timedOutOf_append : timedOutOf (l ++ l') = timedOutOf l ++ timedOutOf l' := by
  simp [timedOutOf]

@[simp] theorem notStartedOf_append : notStartedOf (l ++ l') = notStartedOf l ++ notStartedOf l' := by
  simp [notStartedOf]

@[simp] theorem endedOf_append : endedOf (l ++ l') = endedOf l ++ endedOf l' := List.flatMap_append

end Append

/-! ## One end of a batch -/

/-- The starts of items. -/
def startPuts (index : Nat) (begun : List (WorkItem κ π)) : List (Put κ π) :=
  begun.map fun x => .event (.start (x.registryKey index) x)

section Segments

variable (index : Nat) (begun : List (WorkItem κ π)) (messages : List (CompletionMessage κ))
  (deferred : List (InFlightRegistryKey × LogicalWorkIdentity))

@[simp] theorem messagesOf_startPuts : messagesOf (startPuts index begun) = [] := by
  simp [messagesOf, startPuts, List.filterMap_map, Put.message?]

@[simp] theorem eventsOf_startPuts :
    eventsOf (startPuts index begun) = begun.map fun x => .start (x.registryKey index) x := by
  simp [eventsOf, startPuts, List.filterMap_map, Put.event?, Function.comp_def]

@[simp] theorem endedOf_startPuts : endedOf (startPuts index begun) = [] := by
  simp [endedOf, startPuts, List.flatMap_map, Put.ended]

@[simp] theorem messagesOf_completions : messagesOf (messages.map (Put.completion (π := π))) = messages := by
  simp [messagesOf, List.filterMap_map, Put.message?, Function.comp_def]

@[simp] theorem eventsOf_completions : eventsOf (messages.map (Put.completion (π := π))) = [] := by
  simp [eventsOf, List.filterMap_map, Put.event?]

@[simp] theorem messagesOf_events (events : List (RegistryEvent κ π)) : messagesOf (events.map Put.event) = [] := by
  simp [messagesOf, List.filterMap_map, Put.message?]

@[simp] theorem eventsOf_events (events : List (RegistryEvent κ π)) : eventsOf (events.map Put.event) = events := by
  simp [eventsOf, List.filterMap_map, Put.event?, Function.comp_def]

theorem endedOf_completions :
    endedOf (messages.map (Put.completion (π := π))) = (messages.flatMap (·.events)).map (·.identity) := by
  simp [endedOf, List.flatMap_map, List.map_flatMap, Put.ended]

theorem endedOf_events (events : List (RegistryEvent κ π)) :
    endedOf (events.map Put.event) = (timedOutOf (events.map Put.event)).map (·.identity) := by
  unfold timedOutOf
  rw [eventsOf_events]
  induction events with
  | nil => rfl
  | cons e events ih =>
    unfold endedOf at ih ⊢
    cases e <;> simp [Put.ended, ih]

end Segments

/-- A place in two lists one behind the other lies in the first or in the second. -/
theorem place_append {α : Type} {l l' before after : List α} {p : α} (h : l ++ l' = before ++ p :: after) :
    (∃ rest, l = before ++ p :: rest) ∨ ∃ inner, before = l ++ inner ∧ l' = inner ++ p :: after := by
  rcases List.append_eq_append_iff.mp h with ⟨inner, rfl, hright⟩ | ⟨inner, hleft, hright⟩
  · exact .inr ⟨inner, rfl, hright⟩
  · cases inner with
    | nil =>
      refine .inr ⟨[], ?_, hright.symm⟩
      simpa using hleft.symm
    | cons q inner =>
      obtain ⟨rfl, rfl⟩ := List.cons.inj hright
      exact .inl ⟨inner, hleft⟩

/-- Starts, then reports that name started items only, then the `done` events of what has been completed. -/
theorem inOrder_segments {starts reports dones : List (Put κ π)} (hstarts : endedOf starts = [])
    (hended : (endedOf (reports ++ dones)).Subperm ((startedOf starts).map (·.identity)))
    (hquiet : doneIdentities (eventsOf (starts ++ reports)) = [])
    (hdone : doneIdentities (eventsOf dones) = (completedOf (starts ++ reports)).map (·.identity)) :
    InOrder (starts ++ reports ++ dones) := by
  constructor
  · intro before p after h
    rw [List.append_assoc] at h
    rcases place_append h with ⟨rest, rfl⟩ | ⟨inner, rfl, hinner⟩
    · rw [List.append_cons, endedOf_append] at hstarts
      rw [(List.append_eq_nil_iff.mp hstarts).1]
      exact List.nil_subperm
    · have hsub : (endedOf (inner ++ [p])).Sublist (endedOf (reports ++ dones)) := by
        rw [hinner, List.append_cons inner p after, endedOf_append (inner ++ [p])]
        exact List.sublist_append_left _ _
      rw [List.append_assoc, endedOf_append starts, hstarts, List.nil_append, startedOf_append, List.map_append]
      exact (hsub.subperm.trans hended).trans (List.sublist_append_left _ _).subperm
  · intro before p after h
    rcases place_append h with ⟨rest, hrest⟩ | ⟨inner, rfl, rfl⟩
    · rw [hrest, List.append_cons, eventsOf_append, doneIdentities_append] at hquiet
      rw [(List.append_eq_nil_iff.mp hquiet).1]
      exact List.nil_prefix
    · have hprefix : doneIdentities (eventsOf (inner ++ [p])) <+:
          (completedOf (starts ++ reports)).map (·.identity) := by
        rw [← hdone, List.append_cons inner p after, eventsOf_append (inner ++ [p]), doneIdentities_append]
        exact List.prefix_append _ _
      rw [List.append_assoc, eventsOf_append (starts ++ reports), doneIdentities_append, hquiet, List.nil_append,
        completedOf_append (starts ++ reports), List.map_append]
      exact hprefix.trans (List.prefix_append _ _)

/-- **The end of a batch**: the items begun, an event for what is not completed, the flush. -/
theorem accounts_trace (index : Nat) {begun : List (WorkItem κ π)} {middle : List (RegistryEvent κ π)}
    {messages : List (CompletionMessage κ)} {results : List CompletionEvent}
    {deferred : List (InFlightRegistryKey × LogicalWorkIdentity)}
    (hmessages : messages.flatMap (·.events) = results)
    (hdeferred : deferred.map Prod.snd = results.map (·.identity))
    (hstarted : startedOf (middle.map Put.event) = []) (hdone : doneIdentities middle = [])
    (hended : ((timedOutOf (middle.map Put.event)).map (·.identity) ++ results.map (·.identity)).Subperm
      (begun.map (·.identity))) :
    Accounts (startPuts index begun ++ (middle.map .event ++ messages.map .completion) ++
        (Worker.doneEvents deferred).map .event)
      begun results (timedOutOf (middle.map Put.event)) (notStartedOf (middle.map Put.event)) := by
  have hbegun : startedOf (startPuts index begun) = begun := by
    simp [startedOf, List.filterMap_map]
  have hquiet : doneIdentities (begun.map fun x => RegistryEvent.start (x.registryKey index) x) = [] := by
    simp [doneIdentities, List.filterMap_map]
  have hdones : timedOutOf ((Worker.doneEvents deferred : List (RegistryEvent κ π)).map Put.event) = [] := by
    unfold timedOutOf
    rw [eventsOf_events]
    simp [Worker.doneEvents, List.filterMap_map]
  constructor
  · rw [startedOf_append, startedOf_append, startedOf_append, hbegun, hstarted]
    unfold startedOf
    rw [eventsOf_completions, eventsOf_events]
    simp [Worker.doneEvents, List.filterMap_map]
  · simp [completedOf, hmessages]
  · rw [timedOutOf_append, timedOutOf_append, timedOutOf_append, hdones]
    simp [timedOutOf, List.filterMap_map]
  · rw [notStartedOf_append, notStartedOf_append, notStartedOf_append]
    unfold notStartedOf
    rw [eventsOf_events (Worker.doneEvents deferred)]
    simp [Worker.doneEvents, List.filterMap_map]
  · rw [← hdeferred, eventsOf_append, eventsOf_events]
    simp [hquiet, hdone, Worker.doneIdentities_doneEvents]
  · refine inOrder_segments (by simp) ?_ ?_ ?_
    · rw [hbegun, endedOf_append, endedOf_append, endedOf_events, endedOf_events, endedOf_completions, hmessages, hdones]
      simpa using hended
    · simp [hquiet, hdone]
    · simp [completedOf, hmessages, Worker.doneIdentities_doneEvents, hdeferred]

/-! ## The item loop -/

section Cases

variable {c : ProcessConfig κ π} {index batchId : Nat} {route : RouteIdentity κ}
  {outcomes : Nat → Nat → AttemptOutcome}

/-- The deferred `done` events of items. -/
def deferredOf (index : Nat) (executed : List (WorkItem κ π)) : List (InFlightRegistryKey × LogicalWorkIdentity) :=
  executed.map fun x => (x.registryKey index, x.identity)

theorem completionsFrom_append (i : Nat) (l l' : List (WorkItem κ π)) :
    completionsFrom c outcomes i (l ++ l') =
      completionsFrom c outcomes i l ++ completionsFrom c outcomes (i + l.length) l' := by
  induction l generalizing i with
  | nil => rfl
  | cons x l ih =>
    simp only [List.cons_append, completionsFrom, ih, List.length_cons]
    rw [show i + 1 + l.length = i + (l.length + 1) by omega]

@[simp] theorem identity_completionsFrom (i : Nat) (l : List (WorkItem κ π)) :
    (completionsFrom c outcomes i l).map (·.identity) = l.map (·.identity) := by
  induction l generalizing i with
  | nil => rfl
  | cons x l ih => simp [completionsFrom, ih]

/-- **The head of a batch.** While items succeed, the worker puts their starts and collects their results. -/
theorem routeBatchLoop_append (head rest : List (WorkItem κ π)) :
    ∀ (i : Nat) (results : List CompletionEvent) (deferred : List (InFlightRegistryKey × LogicalWorkIdentity)),
      (∀ j < head.length, SucceedsAt c outcomes (i + j)) →
      routeBatchLoop c index batchId route outcomes i (head ++ rest) results deferred =
        let tail := routeBatchLoop c index batchId route outcomes (i + head.length) rest
          (results ++ completionsFrom c outcomes i head) (deferred ++ deferredOf index head)
        (startPuts index head ++ tail.1, tail.2) := by
  induction head with
  | nil =>
    intro i results deferred _
    simp [startPuts, completionsFrom, deferredOf]
  | cons x head ih =>
    intro i results deferred hhead
    obtain ⟨hend, hstatus⟩ := hhead 0 (by simp)
    have htail := ih (i + 1) (results ++ [x.completion (runAttempts c.maxRetries (outcomes i)).2])
      (deferred ++ [(x.registryKey index, x.identity)]) fun j hj => by
        rw [show i + 1 + j = i + (j + 1) by omega]
        exact hhead (j + 1) (by simpa using hj)
    rw [Nat.add_zero] at hend hstatus
    rw [List.cons_append, routeBatchLoop]
    cases hrun : runAttempts c.maxRetries (outcomes i) with
    | mk ending s =>
      rw [hrun] at hend hstatus htail
      subst hend
      have hstatus : s.status ≠ .failure := by simp [show s.status = .success from hstatus]
      simp only [hstatus, if_false, htail]
      rw [show i + (x :: head).length = i + 1 + head.length by simp only [List.length_cons]; omega]
      simp [startPuts, completionsFrom, deferredOf, hrun]

/-! ## Failure, timeout, success -/

theorem flatMap_flushRouteBatch {results : List CompletionEvent}
    (h : results ≠ [] → c.encodes (.batch batchId route results) = true) :
    (Worker.flushRouteBatch c batchId route results).flatMap (·.events) = results := by
  unfold Worker.flushRouteBatch
  split
  · rename_i hnil
    simp [hnil]
  · rename_i hsome
    rw [if_pos (h hsome)]
    simp [CompletionMessage.events]

theorem snd_deferredOf (executed : List (WorkItem κ π)) :
    (deferredOf index executed).map Prod.snd = executed.map (·.identity) := by
  simp [deferredOf, Function.comp_def]

variable {items : List (WorkItem κ π)}

/-- All items succeed. -/
theorem routeBatchLoop_success (h : ∀ i < items.length, SucceedsAt c outcomes i) :
    routeBatchLoop c index batchId route outcomes 0 items [] [] =
      (startPuts index items ++
        flushPuts c batchId route (completionsFrom c outcomes 0 items) (deferredOf index items), .finished) := by
  have hloop := @routeBatchLoop_append κ π c index batchId route outcomes items [] 0 [] []
    (by simpa using h)
  simpa [routeBatchLoop] using hloop

/-- Item `k` is the first that does not succeed. -/
theorem routeBatchLoop_first {k : Nat} {x : WorkItem κ π} (hx : items[k]? = some x)
    (h : ∀ i < k, SucceedsAt c outcomes i) :
    routeBatchLoop c index batchId route outcomes 0 items [] [] =
      let tail := routeBatchLoop c index batchId route outcomes k (x :: items.drop (k + 1))
        (completionsFrom c outcomes 0 (items.take k)) (deferredOf index (items.take k))
      (startPuts index (items.take k) ++ tail.1, tail.2) := by
  obtain ⟨hk, hget⟩ := List.getElem?_eq_some_iff.mp hx
  have hsplit : items.take k ++ x :: items.drop (k + 1) = items := by
    rw [← hget, List.getElem_cons_drop, List.take_append_drop]
  have hlength : (items.take k).length = k := by
    rw [List.length_take]
    omega
  have hloop := @routeBatchLoop_append κ π c index batchId route outcomes (items.take k)
    (x :: items.drop (k + 1)) 0 [] [] fun j hj => by simpa using h j (by omega)
  rw [hsplit, hlength] at hloop
  simpa using hloop

theorem take_succ_eq {k : Nat} {x : WorkItem κ π} (hx : items[k]? = some x) :
    items.take (k + 1) = items.take k ++ [x] := by
  rw [List.take_add_one, hx, Option.toList_some]

theorem completionsFrom_take_succ {k : Nat} {x : WorkItem κ π} (hx : items[k]? = some x) :
    completionsFrom c outcomes 0 (items.take (k + 1)) =
      completionsFrom c outcomes 0 (items.take k) ++ [x.completion (runAttempts c.maxRetries (outcomes k)).2] := by
  obtain ⟨hk, -⟩ := List.getElem?_eq_some_iff.mp hx
  have hlength : (items.take k).length = k := by
    rw [List.length_take]
    omega
  rw [take_succ_eq hx, completionsFrom_append, hlength, Nat.zero_add]
  rfl

theorem deferredOf_take_succ {k : Nat} {x : WorkItem κ π} (hx : items[k]? = some x) :
    deferredOf index (items.take (k + 1)) = deferredOf index (items.take k) ++ [(x.registryKey index, x.identity)] := by
  rw [take_succ_eq hx]
  simp [deferredOf]

/-- The tail that is given back is neither started nor overdue. -/
theorem notStarted_reports (batchId : Nat) (rest : List (WorkItem κ π)) :
    startedOf ((Worker.notStarted batchId rest).map Put.event) = [] ∧
      timedOutOf ((Worker.notStarted batchId rest).map Put.event) = [] ∧
      notStartedOf ((Worker.notStarted batchId rest).map Put.event) = if rest = [] then [] else [(batchId, rest)] := by
  unfold startedOf timedOutOf notStartedOf
  rw [eventsOf_events]
  unfold Worker.notStarted
  split
  · exact ⟨rfl, rfl, rfl⟩
  · exact ⟨rfl, rfl, rfl⟩

/-- The puts of a batch whose item at place `k` is the first to fail. -/
theorem routeBatchLoop_failure {k : Nat} {x : WorkItem κ π} (hx : items[k]? = some x)
    (h : ∀ i < k, SucceedsAt c outcomes i) (hfails : FailsAt c outcomes k) :
    routeBatchLoop c index batchId route outcomes 0 items [] [] =
      (startPuts index (items.take (k + 1)) ++ ((Worker.notStarted batchId (items.drop (k + 1))).map .event ++
        (Worker.flushRouteBatch c batchId route (completionsFrom c outcomes 0 (items.take (k + 1)))).map .completion) ++
          (Worker.doneEvents (deferredOf index (items.take (k + 1)))).map .event, .finished) := by
  obtain ⟨hend, hstatus⟩ := hfails
  rw [routeBatchLoop_first hx h, routeBatchLoop, completionsFrom_take_succ hx, deferredOf_take_succ hx, take_succ_eq hx]
  cases hrun : runAttempts c.maxRetries (outcomes k) with
  | mk ending s =>
    rw [hrun] at hend hstatus
    subst hend
    simp only [show s.status = .failure from hstatus, if_true]
    simp [startPuts, flushPuts]

/-- What the batch reports when its item at place `k` fails. -/
theorem accounts_failure {k : Nat} {x : WorkItem κ π} (hx : items[k]? = some x)
    (h : ∀ i < k, SucceedsAt c outcomes i) (hfails : FailsAt c outcomes k)
    (hencodes : c.encodes (.batch batchId route (completionsFrom c outcomes 0 (items.take (k + 1)))) = true) :
    routeBatchEnd c index batchId route outcomes items = .finished ∧
      Accounts (routeBatchPuts c index batchId route outcomes items) (items.take (k + 1))
        (completionsFrom c outcomes 0 (items.take (k + 1))) []
        (if k + 1 < items.length then [(batchId, items.drop (k + 1))] else []) := by
  obtain ⟨hstarted, htimedOut, htail⟩ := notStarted_reports batchId (items.drop (k + 1))
  have htail' : (if items.drop (k + 1) = [] then [] else [(batchId, items.drop (k + 1))]) =
      if k + 1 < items.length then [(batchId, items.drop (k + 1))] else [] := by
    simp only [List.drop_eq_nil_iff]
    split
    · rw [if_neg (by omega)]
    · rw [if_pos (by omega)]
  unfold routeBatchEnd routeBatchPuts
  rw [routeBatchLoop_failure hx h hfails]
  refine ⟨rfl, ?_⟩
  rw [← htail', ← htail, ← htimedOut]
  refine accounts_trace index (flatMap_flushRouteBatch fun _ => hencodes) (by simp [snd_deferredOf]) hstarted (by simp) ?_
  rw [htimedOut, identity_completionsFrom]
  exact List.Subperm.refl _

/-- What the batch reports when its item at place `k` times out. -/
theorem accounts_timeout {k : Nat} {x : WorkItem κ π} (hx : items[k]? = some x)
    (h : ∀ i < k, SucceedsAt c outcomes i) (htimeout : TimesOutAt c outcomes k)
    (hencodes : 0 < k →
      c.encodes (.batch batchId route (completionsFrom c outcomes 0 (items.take k))) = true) :
    routeBatchEnd c index batchId route outcomes items = .exits ∧
      Accounts (routeBatchPuts c index batchId route outcomes items) (items.take (k + 1))
        (completionsFrom c outcomes 0 (items.take k)) [x] [] := by
  have hloop : routeBatchLoop c index batchId route outcomes 0 items [] [] =
      (startPuts index (items.take (k + 1)) ++
        ([RegistryEvent.timeout (x.registryKey index) x (runAttempts c.maxRetries (outcomes k)).2.attempt
            ((runAttempts c.maxRetries (outcomes k)).2.error.getD (.text ""))].map .event ++
          (Worker.flushRouteBatch c batchId route (completionsFrom c outcomes 0 (items.take k))).map .completion) ++
        (Worker.doneEvents (deferredOf index (items.take k))).map .event, .exits) := by
    rw [routeBatchLoop_first hx h, routeBatchLoop, take_succ_eq hx]
    unfold TimesOutAt at htimeout
    cases hrun : runAttempts c.maxRetries (outcomes k) with
    | mk ending s =>
      rw [hrun] at htimeout
      subst htimeout
      simp [startPuts, flushPuts]
  have hnonempty : completionsFrom c outcomes 0 (items.take k) ≠ [] → 0 < k := by
    intro hne
    refine Nat.pos_of_ne_zero fun hzero => hne ?_
    subst hzero
    rfl
  unfold routeBatchEnd routeBatchPuts
  rw [hloop]
  refine ⟨rfl, ?_⟩
  refine accounts_trace index (flatMap_flushRouteBatch fun hne => hencodes (hnonempty hne)) (by simp [snd_deferredOf])
    rfl rfl ?_
  rw [take_succ_eq hx, List.map_append, identity_completionsFrom]
  exact List.perm_append_comm.subperm

/-- What the batch reports when all of its items succeed. -/
theorem accounts_success (h : ∀ i < items.length, SucceedsAt c outcomes i)
    (hencodes : items ≠ [] → c.encodes (.batch batchId route (completionsFrom c outcomes 0 items)) = true) :
    routeBatchEnd c index batchId route outcomes items = .finished ∧
      Accounts (routeBatchPuts c index batchId route outcomes items) items (completionsFrom c outcomes 0 items) []
        [] := by
  have hloop : routeBatchLoop c index batchId route outcomes 0 items [] [] =
      (startPuts index items ++ (([] : List (RegistryEvent κ π)).map .event ++
        (Worker.flushRouteBatch c batchId route (completionsFrom c outcomes 0 items)).map .completion) ++
          (Worker.doneEvents (deferredOf index items)).map .event, .finished) := by
    rw [routeBatchLoop_success h]
    simp [flushPuts]
  have hnonempty : completionsFrom c outcomes 0 items ≠ [] → items ≠ [] := by
    rintro hne rfl
    exact hne rfl
  unfold routeBatchEnd routeBatchPuts
  rw [hloop]
  refine ⟨rfl, ?_⟩
  refine accounts_trace index (flatMap_flushRouteBatch fun hne => hencodes (hnonempty hne)) (by simp [snd_deferredOf])
    rfl rfl ?_
  rw [identity_completionsFrom]
  exact List.Subperm.refl _

/-! ## The two queues -/

/-- The steps of a worker between two items put what the item loop puts. -/
theorem runItems_routeBatch (rest : List (WorkItem κ π)) :
    ∀ (i : Nat) (w : Worker κ π) (task : Task κ π), Worker.Stands w task rest → task.batch = some (batchId, route) →
      let w' := Worker.endPayload c (Worker.runItems c outcomes rest.length i w)
      let r := routeBatchLoop c w.index batchId route outcomes i rest task.results task.deferredDone
      w'.completions = w.completions ++ messagesOf r.1 ∧
        w'.registryEvents = w.registryEvents ++ eventsOf r.1 ∧ (w'.exiting = true ↔ r.2 ≠ .finished) := by
  induction rest with
  | nil =>
    intro i w task h hb
    simp [Worker.runItems, Worker.endPayload, h.running, Worker.endTask, h.holds, Worker.settleBatch, hb,
      routeBatchLoop, flushPuts]
  | cons x rest ih =>
    intro i w task h hb
    simp only [List.length_cons, Worker.runItems, h.running, Bool.false_eq_true, if_false]
    rw [Worker.finishItem_beginItem h, routeBatchLoop]
    cases hrun : runAttempts c.maxRetries (outcomes i) with
    | mk ending s =>
      cases ending with
      | finished =>
        simp only [hb, Worker.finishInBatch]
        split
        · rw [Worker.runItems_of_rest_nil rfl rfl rfl]
          simp [Worker.endPayload, h.running, Worker.endTask, Worker.settleBatch, flushPuts]
        · let task' : Task κ π :=
            { batch := some (batchId, route)
              current := none
              rest := rest
              results := task.results ++ [x.completion s]
              deferredDone := task.deferredDone ++ [(x.registryKey w.index, x.identity)] }
          let w' : Worker κ π :=
            { w with task := some task', registryEvents := w.registryEvents ++ [.start (x.registryKey w.index) x] }
          obtain ⟨hmessages, hevents, hexit⟩ := ih (i + 1) w' task' ⟨rfl, rfl, rfl, h.running⟩ rfl
          exact ⟨hmessages, hevents.trans (by simp [w', task']), hexit⟩
      | timedOut =>
        rw [Worker.runItems_of_exiting rfl]
        simp [Worker.endPayload, Worker.finishTimedOut, Worker.settleBatch, hb, flushPuts]
      | escaped =>
        rw [Worker.runItems_of_exiting rfl]
        simp [Worker.endPayload, messagesOf, eventsOf, Put.message?, Put.event?]

/-- **The queues of the worker** hold the puts for the batch, each queue its own. -/
theorem runPayload_routeBatch (index : Nat) {items : List (WorkItem κ π)}
    (hm : c.packs (.routeBatch batchId route items) = true) :
    let w := Worker.runPayload c outcomes index (.routeBatch batchId route items)
    w.completions = messagesOf (routeBatchPuts c index batchId route outcomes items) ∧
      w.registryEvents = eventsOf (routeBatchPuts c index batchId route outcomes items) ∧
      (w.exiting = true ↔ routeBatchEnd c index batchId route outcomes items ≠ .finished) := by
  obtain ⟨hstands, hcompletions, hevents⟩ := stands_receive index hm
  have hindex : (Worker.receive c { Worker.new index with pipe := [.routeBatch batchId route items] }).index = index := by
    simp only [Worker.receive, hm, if_true]
    rfl
  have hrun := @runItems_routeBatch κ π c batchId route outcomes items 0 _ _ hstands rfl
  rw [hcompletions, hevents, hindex] at hrun
  exact hrun

end Cases

/-- **A route batch is accounted for.** The first item that does not succeed fails or times out, or there is none. -/
theorem route_batch_accounted (c : ProcessConfig κ π) (index batchId : Nat) (route : RouteIdentity κ)
    (outcomes : Nat → Nat → AttemptOutcome) (items : List (WorkItem κ π)) :
    (∀ k x, items[k]? = some x → (∀ i < k, SucceedsAt c outcomes i) → FailsAt c outcomes k →
      c.encodes (.batch batchId route (completionsFrom c outcomes 0 (items.take (k + 1)))) = true →
      routeBatchEnd c index batchId route outcomes items = .finished ∧
        Accounts (routeBatchPuts c index batchId route outcomes items) (items.take (k + 1))
          (completionsFrom c outcomes 0 (items.take (k + 1))) []
          (if k + 1 < items.length then [(batchId, items.drop (k + 1))] else [])) ∧
    (∀ k x, items[k]? = some x → (∀ i < k, SucceedsAt c outcomes i) → TimesOutAt c outcomes k →
      (0 < k → c.encodes (.batch batchId route (completionsFrom c outcomes 0 (items.take k))) = true) →
      routeBatchEnd c index batchId route outcomes items = .exits ∧
        Accounts (routeBatchPuts c index batchId route outcomes items) (items.take (k + 1))
          (completionsFrom c outcomes 0 (items.take k)) [x] []) ∧
    ((∀ i < items.length, SucceedsAt c outcomes i) →
      (items ≠ [] → c.encodes (.batch batchId route (completionsFrom c outcomes 0 items)) = true) →
      routeBatchEnd c index batchId route outcomes items = .finished ∧
        Accounts (routeBatchPuts c index batchId route outcomes items) items (completionsFrom c outcomes 0 items) []
          []) :=
  ⟨fun _ _ hx h hfails hencodes => accounts_failure hx h hfails hencodes,
    fun _ _ hx h htimeout hencodes => accounts_timeout hx h htimeout hencodes,
    fun h hencodes => accounts_success h hencodes⟩

section Examples

/-- The second of three items fails in both of its attempts, and the third is given back. -/
theorem route_batch_accounted_secondFails :
    let items := [routeItem 0 5, routeItem 1 6, routeItem 2 7]
    let outcomes : Nat → Nat → AttemptOutcome := fun i _ => if i = 1 then .exception (.text "boom") else .success
    let route := (routeItem 0 5).routeIdentity
    routeBatchEnd (engineConfig 2) 0 9 route outcomes items = .finished ∧
      Accounts (routeBatchPuts (engineConfig 2) 0 9 route outcomes items) [routeItem 0 5, routeItem 1 6]
        (completionsFrom (engineConfig 2) outcomes 0 [routeItem 0 5, routeItem 1 6]) [] [(9, [routeItem 2 7])] := by
  intro items outcomes route
  refine (route_batch_accounted (engineConfig 2) 0 9 route outcomes items).1 1 (routeItem 1 6) rfl ?_ ⟨rfl, rfl⟩ (by decide)
  intro i hi
  obtain rfl : i = 0 := by omega
  exact ⟨rfl, rfl⟩

end Examples

end PyrallelConsumer
