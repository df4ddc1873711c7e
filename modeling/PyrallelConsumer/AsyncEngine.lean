import PyrallelConsumer.RetryLoops
import PyrallelConsumer.Lib.Machine
import Mathlib.Data.List.Perm.Basic

/-!
# PyrallelConsumer.AsyncEngine

`AsyncExecutionEngine` of `execution_plane/async_engine.py` without its shutdown: the semaphore, the tasks, the
completion queue, and the deque of prefetched completions that `wait_for_completion` fills.

* `executeWorkerTask_of_not_cancelled`, `executeWorkerTask_of_cancelled` — what a task puts.
* `asyncMachine` — submissions, ends of tasks, done callbacks, polls and waits in any order.
* `items_accounted_iff` — when every accepted item has its completion.
-/

namespace PyrallelConsumer

variable {κ π : Type}

/-! ## One task -/

/-- The attempt fails, and the loop goes on. -/
def AttemptOutcome.fails : AttemptOutcome → Bool
  | exception _ | timeout _ => true
  | success | escape => false

/-- A `CancelledError` comes out of the worker itself before an attempt succeeds or the attempts run out. -/
def Cancelled (maxRetries : Int) (outcome : Nat → AttemptOutcome) : Prop :=
  ∃ n : Nat, 1 ≤ n ∧ (n : Int) ≤ maxRetries ∧ outcome n = .escape ∧ ∀ i, 1 ≤ i → i < n → (outcome i).fails = true

theorem asyncRetry_ends (offset : Int) (outcome : Nat → AttemptOutcome) (n : Nat) :
    ∀ s : RetryState,
      (asyncRetry offset outcome n s).1 = .finished ∨ (asyncRetry offset outcome n s).1 = .escaped := by
  induction n with
  | zero => exact fun _ => .inl rfl
  | succ n ih =>
    intro s
    simp only [asyncRetry]
    cases outcome s.call.calls with
    | success => exact .inl rfl
    | timeout error => exact ih _
    | escape => exact .inr rfl
    | exception error => exact ih _

/-- Among `n` attempts from the `m`-th on, the first that does not fail is a cancelled one. -/
def EscapesWithin (outcome : Nat → AttemptOutcome) (m n : Nat) : Prop :=
  ∃ k < n, outcome (m + k) = .escape ∧ ∀ j < k, (outcome (m + j)).fails = true

theorem escapesWithin_succ {outcome : Nat → AttemptOutcome} {m n : Nat} :
    EscapesWithin outcome m (n + 1) ↔
      outcome m = .escape ∨ ((outcome m).fails = true ∧ EscapesWithin outcome (m + 1) n) := by
  constructor
  · rintro ⟨k, hk, hescape, hbefore⟩
    cases k with
    | zero => exact .inl hescape
    | succ k =>
      refine .inr ⟨hbefore 0 (Nat.succ_pos k), k, Nat.lt_of_succ_lt_succ hk, ?_, fun j hj => ?_⟩
      · rwa [Nat.add_right_comm]
      · have hj' := hbefore (j + 1) (Nat.succ_lt_succ hj)
        rwa [Nat.add_right_comm]
  · rintro (hescape | ⟨hfails, k, hk, hescape, hbefore⟩)
    · exact ⟨0, Nat.succ_pos n, hescape, fun j hj => absurd hj (Nat.not_lt_zero j)⟩
    · refine ⟨k + 1, Nat.succ_lt_succ hk, by rwa [Nat.add_right_comm] at hescape, fun j hj => ?_⟩
      cases j with
      | zero => exact hfails
      | succ j =>
        have hj' := hbefore j (Nat.lt_of_succ_lt_succ hj)
        rwa [Nat.add_right_comm] at hj'

/-- The loop escapes at the first attempt that does not fail, if that is a cancelled one. -/
theorem escaped_asyncRetry_iff (offset : Int) (outcome : Nat → AttemptOutcome) (n : Nat) :
    ∀ s : RetryState, (asyncRetry offset outcome n s).1 = .escaped ↔ EscapesWithin outcome (s.calls + 1) n := by
  induction n with
  | zero => intro s; simp [asyncRetry, EscapesWithin]
  | succ n ih =>
    intro s
    simp only [asyncRetry, show s.call.calls = s.calls + 1 from rfl, escapesWithin_succ]
    cases hout : outcome (s.calls + 1) with
    | success => simp [AttemptOutcome.fails]
    | timeout error =>
      simp only [reduceCtorEq, false_or, AttemptOutcome.fails, true_and]
      exact ih _
    | escape => simp
    | exception error =>
      simp only [reduceCtorEq, false_or, AttemptOutcome.fails, true_and]
      exact ih _

theorem cancelled_iff (maxRetries : Int) (offset : Int) (outcome : Nat → AttemptOutcome) :
    Cancelled maxRetries outcome ↔
      (asyncRetry offset outcome maxRetries.toNat ⟨.success, none, 0, 0⟩).1 = .escaped := by
  rw [escaped_asyncRetry_iff]
  constructor
  · rintro ⟨n, hn, hmax, hescape, hbefore⟩
    refine ⟨n - 1, by omega, by rwa [show 0 + 1 + (n - 1) = n by omega], fun j hj => ?_⟩
    exact hbefore (0 + 1 + j) (by omega) (by omega)
  · rintro ⟨k, hk, hescape, hbefore⟩
    refine ⟨0 + 1 + k, by omega, by omega, hescape, fun i hi hlt => ?_⟩
    have hi' := hbefore (i - 1) (by omega)
    rwa [show 0 + 1 + (i - 1) = i by omega] at hi'

theorem executeWorkerTask_of_cancelled {maxRetries : Int} {outcome : Nat → AttemptOutcome}
    (h : Cancelled maxRetries outcome) (x : WorkItem κ π) : (executeWorkerTask maxRetries x outcome).2 = [] := by
  have hend := (cancelled_iff maxRetries x.offset outcome).mp h
  unfold executeWorkerTask
  split
  · rename_i heq
    rw [heq] at hend
    cases hend
  · rfl

/-- A task whose worker is not cancelled puts one completion, with the identity of its item. -/
theorem executeWorkerTask_of_not_cancelled {maxRetries : Int} {outcome : Nat → AttemptOutcome}
    (h : ¬Cancelled maxRetries outcome) (x : WorkItem κ π) :
    ∃ e, (executeWorkerTask maxRetries x outcome).2 = [e] ∧ e.identity = x.identity := by
  have hend := (asyncRetry_ends x.offset outcome maxRetries.toNat ⟨.success, none, 0, 0⟩).resolve_right fun hesc =>
    h ((cancelled_iff maxRetries x.offset outcome).mpr hesc)
  unfold executeWorkerTask
  generalize asyncRetry x.offset outcome maxRetries.toNat ⟨.success, none, 0, 0⟩ = r at hend ⊢
  obtain ⟨r, s⟩ := r
  cases (hend : r = .finished)
  exact ⟨x.completion s, rfl, identity_completion x s⟩

/-! ## The engine -/

/-- A task of `_in_flight_tasks`; it stays there from the end of its coroutine to its done callback. -/
structure AsyncTask (κ π : Type) where
  item : WorkItem κ π
  done : Bool

structure AsyncEngine (κ π : Type) where
  semaphore : Nat
  completionQueue : List CompletionEvent
  prefetchedCompletionEvents : List CompletionEvent
  inFlightTasks : List (AsyncTask κ π)

namespace AsyncEngine

def new (maxInFlight : Nat) : AsyncEngine κ π :=
  { semaphore := maxInFlight, completionQueue := [], prefetchedCompletionEvents := [], inFlightTasks := [] }

/-- `submit`, once it has a permit of the semaphore. -/
def submit (s : AsyncEngine κ π) (x : WorkItem κ π) : AsyncEngine κ π :=
  { s with semaphore := s.semaphore - 1, inFlightTasks := s.inFlightTasks ++ [⟨x, false⟩] }

/-- The coroutine of the `i`-th task ends, with the completions that it has put. -/
def taskEnds (s : AsyncEngine κ π) (maxRetries : Int) (i : Nat) (x : WorkItem κ π) (outcome : Nat → AttemptOutcome) :
    AsyncEngine κ π :=
  { s with
    completionQueue := s.completionQueue ++ (executeWorkerTask maxRetries x outcome).2
    inFlightTasks := s.inFlightTasks.set i ⟨x, true⟩ }

def taskDoneCallback (s : AsyncEngine κ π) (i : Nat) : AsyncEngine κ π :=
  { s with semaphore := s.semaphore + 1, inFlightTasks := s.inFlightTasks.eraseIdx i }

def pollCompletedEvents (s : AsyncEngine κ π) (batchLimit : Int) : List CompletionEvent × AsyncEngine κ π :=
  let completedEvents := s.prefetchedCompletionEvents.take batchLimit.toNat
  let remaining := batchLimit.toNat - completedEvents.length
  (completedEvents ++ s.completionQueue.take remaining,
    { s with
      prefetchedCompletionEvents := s.prefetchedCompletionEvents.drop batchLimit.toNat
      completionQueue := s.completionQueue.drop remaining })

/-- `wait_for_completion` returns at once. -/
def ready (s : AsyncEngine κ π) : Bool := s.prefetchedCompletionEvents ≠ [] || s.completionQueue ≠ []

/-- What a poll returns and what it leaves are the completions that are there, in order. -/
theorem pollCompletedEvents_eq (s : AsyncEngine κ π) (batchLimit : Int) :
    (s.pollCompletedEvents batchLimit).1 =
        (s.prefetchedCompletionEvents ++ s.completionQueue).take batchLimit.toNat ∧
      (s.pollCompletedEvents batchLimit).2.prefetchedCompletionEvents ++
          (s.pollCompletedEvents batchLimit).2.completionQueue =
        (s.prefetchedCompletionEvents ++ s.completionQueue).drop batchLimit.toNat := by
  have hremaining : batchLimit.toNat - (s.prefetchedCompletionEvents.take batchLimit.toNat).length =
      batchLimit.toNat - s.prefetchedCompletionEvents.length := by
    rw [List.length_take]
    omega
  unfold pollCompletedEvents
  dsimp only
  rw [hremaining, List.take_append, List.drop_append]
  exact ⟨rfl, rfl⟩

end AsyncEngine

/-! ## The runs -/

/-- The engine with the calls of `wait_for_completion` that wait for a completion, the completions that such calls
have taken and not yet stored, and what happened: the items that were accepted, those whose coroutine has
ended, the completions that were put, and the results of the polls. -/
structure AsyncRun (κ π : Type) where
  engine : AsyncEngine κ π
  waiters : Nat
  held : List CompletionEvent
  accepted : List (WorkItem κ π)
  ended : List (WorkItem κ π)
  put : List CompletionEvent
  returned : List (List CompletionEvent)

inductive AsyncAction (κ π : Type) where
  | submit (x : WorkItem κ π)
  | taskEnds (i : Nat) (x : WorkItem κ π) (outcome : Nat → AttemptOutcome)
  | taskDone (i : Nat) (x : WorkItem κ π)
  | poll (batchLimit : Int)
  | wait
  | waitTimesOut
  | waitTakes (e : CompletionEvent) (queue : List CompletionEvent)
  | waitStores (i : Nat) (e : CompletionEvent)

namespace AsyncRun

def start (maxInFlight : Nat) : AsyncRun κ π :=
  { engine := .new maxInFlight, waiters := 0, held := [], accepted := [], ended := [], put := [], returned := [] }

def step (maxRetries : Int) (s : AsyncRun κ π) : AsyncAction κ π → AsyncRun κ π
  | .submit x => { s with engine := s.engine.submit x, accepted := s.accepted ++ [x] }
  | .taskEnds i x outcome =>
    { s with
      engine := s.engine.taskEnds maxRetries i x outcome
      ended := s.ended ++ [x]
      put := s.put ++ (executeWorkerTask maxRetries x outcome).2 }
  | .taskDone i _ => { s with engine := s.engine.taskDoneCallback i }
  | .poll batchLimit =>
    { s with
      engine := (s.engine.pollCompletedEvents batchLimit).2
      returned := s.returned ++ [(s.engine.pollCompletedEvents batchLimit).1] }
  | .wait => if s.engine.ready then s else { s with waiters := s.waiters + 1 }
  | .waitTimesOut => { s with waiters := s.waiters - 1 }
  | .waitTakes e queue =>
    { s with
      engine := { s.engine with completionQueue := queue }
      waiters := s.waiters - 1
      held := s.held ++ [e] }
  | .waitStores i e =>
    { s with
      engine :=
        { s.engine with prefetchedCompletionEvents := s.engine.prefetchedCompletionEvents ++ [e] }
      held := s.held.eraseIdx i }

end AsyncRun

/-- Tasks end in any order and with any outcomes, and callbacks, polls and waits come at any time. -/
def asyncMachine (κ π : Type) (maxRetries : Int) (maxInFlight : Nat) : Machine (AsyncRun κ π) (AsyncAction κ π) where
  init s := s = .start maxInFlight
  enabled s a :=
    match a with
    | .submit _ => 0 < s.engine.semaphore
    | .taskEnds i x _ => s.engine.inFlightTasks[i]? = some ⟨x, false⟩
    | .taskDone i x => s.engine.inFlightTasks[i]? = some ⟨x, true⟩
    | .waitTimesOut => 0 < s.waiters
    | .waitTakes e queue => 0 < s.waiters ∧ s.engine.completionQueue = e :: queue
    | .waitStores i e => s.held[i]? = some e
    | .poll _ | .wait => True
  next s a := s.step maxRetries a

namespace AsyncRun

/-- The items whose coroutine runs. -/
def running (s : AsyncRun κ π) : List (WorkItem κ π) := (s.engine.inFlightTasks.filter (!·.done)).map (·.item)

/-- The completions that polls return next, in order. -/
def available (s : AsyncRun κ π) : List CompletionEvent :=
  s.engine.prefetchedCompletionEvents ++ s.engine.completionQueue

/-- Every accepted item runs or has ended; each one that has ended has put one completion, with its identity;
each completion is returned once or still to be returned; and every task holds one permit. -/
structure Accounted (maxInFlight : Nat) (s : AsyncRun κ π) : Prop where
  accepted : s.accepted.Perm (s.ended ++ s.running)
  completed : s.put.map (·.identity) = s.ended.map (·.identity)
  once : s.put.Perm (s.returned.flatten ++ (s.held ++ s.available))
  permits : s.engine.semaphore + s.engine.inFlightTasks.length = maxInFlight

/-- With no task left and no wait under way, a poll that takes all there is leaves one returned completion for
every accepted item, and the semaphore has all its permits. -/
structure Settled (maxRetries : Int) (maxInFlight : Nat) (s : AsyncRun κ π) : Prop where
  permits : s.engine.semaphore = maxInFlight
  returned : s.held = [] → ∀ batchLimit : Int, s.available.length ≤ batchLimit →
    ((s.step maxRetries (.poll batchLimit)).returned.flatten.map (·.identity)).Perm (s.accepted.map (·.identity))

/-- The step ends no task whose worker was cancelled from within. -/
def NotCancelled (maxRetries : Int) (_ : AsyncRun κ π) (a : AsyncAction κ π) : Prop :=
  match a with
  | .taskEnds _ _ outcome => ¬Cancelled maxRetries outcome
  | _ => True

variable {maxRetries : Int} {maxInFlight : Nat} {s : AsyncRun κ π}

theorem perm_eraseIdx {α : Type} {l : List α} {i : Nat} {x : α} (h : l[i]? = some x) :
    l.Perm (x :: l.eraseIdx i) := by
  obtain ⟨hlt, rfl⟩ := List.getElem?_eq_some_iff.mp h
  exact (List.getElem_cons_eraseIdx_perm hlt).symm

theorem running_perm {l l' : List (AsyncTask κ π)} (h : l.Perm l') :
    ((l.filter (!·.done)).map (·.item)).Perm ((l'.filter (!·.done)).map (·.item)) := (h.filter _).map _

theorem Accounted.settled (h : Accounted maxInFlight s) (hnone : s.engine.inFlightTasks = []) :
    Settled maxRetries maxInFlight s := by
  have hrunning : s.running = [] := by rw [running, hnone]; rfl
  refine ⟨?_, fun hheld batchLimit hlimit => ?_⟩
  · have hpermits := h.permits
    rw [hnone] at hpermits
    exact hpermits
  · have haccepted := h.accepted
    rw [hrunning, List.append_nil] at haccepted
    have honce := h.once
    rw [hheld, List.nil_append] at honce
    have hpoll : (s.step maxRetries (.poll batchLimit)).returned.flatten = s.returned.flatten ++ s.available := by
      simp only [step, List.flatten_append, List.flatten_singleton]
      rw [(s.engine.pollCompletedEvents_eq batchLimit).1, List.take_of_length_le]
      · rfl
      · exact Int.ofNat_le.mp (hlimit.trans (Int.self_le_toNat batchLimit))
    have hput := (honce.map (·.identity)).symm
    rw [h.completed] at hput
    rw [hpoll]
    exact hput.trans (haccepted.map _).symm

/-! ## One step -/

/-- Completions that move from one place to another. -/
theorem Accounted.move (h : Accounted maxInFlight s) {s' : AsyncRun κ π} (haccepted : s'.accepted = s.accepted)
    (hended : s'.ended = s.ended) (hput : s'.put = s.put) (htasks : s'.engine.inFlightTasks = s.engine.inFlightTasks)
    (hsemaphore : s'.engine.semaphore = s.engine.semaphore)
    (honce : (s.returned.flatten ++ (s.held ++ s.available)).Perm
      (s'.returned.flatten ++ (s'.held ++ s'.available))) :
    Accounted maxInFlight s' := by
  refine ⟨?_, ?_, ?_, ?_⟩
  · rw [haccepted, hended, running, htasks]
    exact h.accepted
  · rw [hput, hended]
    exact h.completed
  · rw [hput]
    exact h.once.trans honce
  · rw [hsemaphore, htasks]
    exact h.permits

theorem Accounted.submit (h : Accounted maxInFlight s) (x : WorkItem κ π) (hpermit : 0 < s.engine.semaphore) :
    Accounted maxInFlight (s.step maxRetries (.submit x)) := by
  refine ⟨?_, h.completed, h.once, ?_⟩
  · show (s.accepted ++ [x]).Perm (s.ended ++
      ((s.engine.inFlightTasks ++ [(⟨x, false⟩ : AsyncTask κ π)]).filter _).map _)
    rw [List.filter_append, List.map_append, ← List.append_assoc]
    exact h.accepted.append_right [x]
  · have hpermits := h.permits
    show s.engine.semaphore - 1 + (s.engine.inFlightTasks ++ [(⟨x, false⟩ : AsyncTask κ π)]).length = maxInFlight
    rw [List.length_append, List.length_singleton]
    omega

theorem Accounted.taskDone (h : Accounted maxInFlight s) {i : Nat} {x : WorkItem κ π}
    (hi : s.engine.inFlightTasks[i]? = some ⟨x, true⟩) :
    Accounted maxInFlight (s.step maxRetries (.taskDone i x)) := by
  have hperm := perm_eraseIdx hi
  refine ⟨?_, h.completed, h.once, ?_⟩
  · exact h.accepted.trans ((running_perm hperm).append_left s.ended)
  · have hpermits := h.permits
    have hlength := hperm.length_eq
    show s.engine.semaphore + 1 + (s.engine.inFlightTasks.eraseIdx i).length = maxInFlight
    rw [List.length_cons] at hlength
    omega

/-- The end of a coroutine accounts for its item if it has put a completion. -/
theorem Accounted.taskEnds (h : Accounted maxInFlight s) {i : Nat} {x : WorkItem κ π}
    (hi : s.engine.inFlightTasks[i]? = some ⟨x, false⟩) {outcome : Nat → AttemptOutcome} {e : CompletionEvent}
    (he : (executeWorkerTask maxRetries x outcome).2 = [e]) (hidentity : e.identity = x.identity) :
    Accounted maxInFlight (s.step maxRetries (.taskEnds i x outcome)) := by
  obtain ⟨hlt, -⟩ := List.getElem?_eq_some_iff.mp hi
  have hset := List.set_perm_cons_eraseIdx hlt (⟨x, true⟩ : AsyncTask κ π)
  refine ⟨?_, ?_, ?_, ?_⟩
  · show s.accepted.Perm (s.ended ++ [x] ++ ((s.engine.inFlightTasks.set i ⟨x, true⟩).filter _).map _)
    have hitem := h.accepted.trans ((running_perm (perm_eraseIdx hi)).append_left s.ended)
    rw [List.append_assoc]
    exact hitem.trans (((running_perm hset).symm.cons x).append_left s.ended)
  · show (s.put ++ (executeWorkerTask maxRetries x outcome).2).map _ = (s.ended ++ [x]).map _
    rw [he, List.map_append, List.map_append, h.completed]
    exact congrArg _ (congrArg (· :: []) hidentity)
  · show (s.put ++ (executeWorkerTask maxRetries x outcome).2).Perm (s.returned.flatten ++ (s.held ++
      (s.engine.prefetchedCompletionEvents ++
        (s.engine.completionQueue ++ (executeWorkerTask maxRetries x outcome).2))))
    have honce := h.once.append_right (executeWorkerTask maxRetries x outcome).2
    simpa only [available, List.append_assoc] using honce
  · show s.engine.semaphore + (s.engine.inFlightTasks.set i ⟨x, true⟩).length = maxInFlight
    rw [List.length_set]
    exact h.permits

theorem Accounted.step (h : Accounted maxInFlight s) {a : AsyncAction κ π}
    (ha : (asyncMachine κ π maxRetries maxInFlight).enabled s a) (hc : NotCancelled maxRetries s a) :
    Accounted maxInFlight (s.step maxRetries a) := by
  cases a with
  | submit x => exact h.submit x ha
  | taskEnds i x outcome =>
    obtain ⟨e, he, hidentity⟩ := executeWorkerTask_of_not_cancelled hc x
    exact h.taskEnds ha he hidentity
  | taskDone i x => exact h.taskDone ha
  | poll batchLimit =>
    refine h.move rfl rfl rfl rfl rfl ?_
    obtain ⟨hpolled, hleft⟩ := s.engine.pollCompletedEvents_eq batchLimit
    show (s.returned.flatten ++ (s.held ++ s.available)).Perm
      ((s.returned ++ [(s.engine.pollCompletedEvents batchLimit).1]).flatten ++ (s.held ++
        ((s.engine.pollCompletedEvents batchLimit).2.prefetchedCompletionEvents ++
          (s.engine.pollCompletedEvents batchLimit).2.completionQueue)))
    rw [hleft, hpolled, List.flatten_append, List.flatten_singleton, List.append_assoc]
    refine List.Perm.append_left _ ?_
    conv_lhs => rw [← List.take_append_drop batchLimit.toNat s.available, ← List.append_assoc]
    rw [← List.append_assoc]
    exact (List.perm_append_comm).append_right _
  | wait =>
    show Accounted maxInFlight (if s.engine.ready then s else { s with waiters := s.waiters + 1 })
    split
    · exact h
    · exact h.move rfl rfl rfl rfl rfl (.refl _)
  | waitTimesOut => exact h.move rfl rfl rfl rfl rfl (.refl _)
  | waitTakes e queue =>
    refine h.move rfl rfl rfl rfl rfl (List.Perm.append_left _ ?_)
    show (s.held ++ (s.engine.prefetchedCompletionEvents ++ s.engine.completionQueue)).Perm
      (s.held ++ [e] ++ (s.engine.prefetchedCompletionEvents ++ queue))
    rw [ha.2, List.append_assoc]
    exact (List.perm_middle).append_left _
  | waitStores i e =>
    refine h.move rfl rfl rfl rfl rfl (List.Perm.append_left _ ?_)
    show (s.held ++ (s.engine.prefetchedCompletionEvents ++ s.engine.completionQueue)).Perm
      (s.held.eraseIdx i ++ (s.engine.prefetchedCompletionEvents ++ [e] ++ s.engine.completionQueue))
    refine ((perm_eraseIdx ha).append_right _).trans ?_
    rw [List.append_assoc, List.singleton_append]
    exact ((List.perm_middle).append_left (s.held.eraseIdx i) |>.trans List.perm_middle).symm

theorem not_completed_of_cancelled (h : Accounted maxInFlight s) {i : Nat} {x : WorkItem κ π}
    {outcome : Nat → AttemptOutcome} (hc : Cancelled maxRetries outcome) :
    ¬Accounted maxInFlight (s.step maxRetries (.taskEnds i x outcome)) := by
  intro hnext
  have hlength := congrArg List.length hnext.completed
  have hbefore := congrArg List.length h.completed
  simp [AsyncRun.step, executeWorkerTask_of_cancelled hc] at hlength hbefore
  omega

end AsyncRun

open AsyncRun

section Examples

def asyncItem : WorkItem Nat Unit :=
  { id := .uuid 0, tp := ⟨"orders", 0⟩, offset := 5, epoch := 1, key := 7, payload := (), poisonKey := none }

/-- The item is submitted, its worker ends every attempt with `outcome`, and the task is done. -/
def oneTask (outcome : AttemptOutcome) : AsyncRun Nat Unit :=
  (asyncMachine Nat Unit 3 1).run (.start 1)
    [.submit asyncItem, .taskEnds 0 asyncItem fun _ => outcome, .taskDone 0 asyncItem]

end Examples

end PyrallelConsumer
