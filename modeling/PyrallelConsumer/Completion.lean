import PyrallelConsumer.Dispatch

/-!
# PyrallelConsumer.Completion

`BrokerCompletionSupport.process_completed_events` of `control_plane/broker_completion_support.py`:
the zombie check, the dead-letter gate, the ledger of events whose publication failed, and the marking
of offsets as complete. The cached raw payload only fills the dead-letter record and is left out.

* `processEvent_cases` — everything that one event can do, stated once.
* `process_induction` — what every disposed event preserves, a whole call preserves.
-/

set_option linter.unusedSectionVars false

namespace PyrallelConsumer

/-- Where a position was handed to `consumer.commit`. -/
inductive CommitPath where
  | direct
  | coordinator
  | revoke
deriving DecidableEq, Repr

/-- How `publish_to_dlq` ends: `True`, `False` or an exception. -/
inductive PublishOutcome where
  | delivered
  | failed
  | raised
deriving DecidableEq, Repr

/-- What happened to a partition, newest first in a history. A tracker is created for one assignment,
so its reference names the assignment. -/
inductive PollerEntry (κ π : Type) where
  | installed (r : TrackerRef) (core : OffsetTracker.Core)
  | submitted (r : TrackerRef) (item : WorkItem (SubmitKey κ) π)
  | published (r : TrackerRef) (event : CompletionEvent) (outcome : PublishOutcome)
  | pended (r : TrackerRef) (event : CompletionEvent)
  | marked (r : TrackerRef) (event : CompletionEvent) (changed : Bool)
  | committed (path : CommitPath) (r : TrackerRef) (position : KafkaTopicPartition)
deriving DecidableEq, Repr

structure DlqConfig where
  dlqEnabled : Bool
  maxRetries : Int
deriving DecidableEq, Repr

/-- A failure is published first when dead letters are enabled and no attempt is left. -/
def DlqConfig.needsPublish (c : DlqConfig) (e : CompletionEvent) : Bool :=
  e.status = .failure && c.dlqEnabled && decide (e.attempt ≥ c.maxRetries)

namespace CompletionSupport

variable {κ π : Type} [DecidableEq κ]

/-- The state of the loop of `process_completed_events`. -/
structure Processing (κ π : Type) [DecidableEq κ] where
  wm : WorkManager (SubmitKey κ) π
  pendingDlqEvents : Dict (TopicPartition × Int) CompletionEvent
  resolvedPendingKeys : List (TopicPartition × Int)
  publishes : Nat
  completedOffsets : Dict TopicPartition (List Int)
  log : List (PollerEntry κ π)

/-- An event with its place in the ledger, if it comes from there. -/
structure Sourced where
  event : CompletionEvent
  fromPendingLedger : Bool
deriving DecidableEq, Repr

def pendingKey (e : CompletionEvent) : TopicPartition × Int := (e.tp, e.offset)

/-- A dropped event leaves the ledger. -/
def drop (s : Processing κ π) (x : Sourced) : Processing κ π :=
  if x.fromPendingLedger then
    { s with pendingDlqEvents := s.pendingDlqEvents.erase (pendingKey x.event) }
  else s

/-- The end of the loop body: the offset is marked and the event leaves the ledger. -/
def complete (s : Processing κ π) (x : Sourced) (r : TrackerRef) (tracker : OffsetTracker) :
    Processing κ π :=
  let e := x.event
  let changed := (tracker.markComplete e.offset).completedOffsets.size ≠ tracker.completedOffsets.size
  { s with
    wm := s.wm.modifyTracker r (·.markComplete e.offset)
    completedOffsets :=
      if changed then
        s.completedOffsets.set e.tp ((s.completedOffsets.get? e.tp).getD [] ++ [e.offset])
      else s.completedOffsets
    resolvedPendingKeys :=
      if x.fromPendingLedger then appendKey s.resolvedPendingKeys (pendingKey e)
      else s.resolvedPendingKeys
    pendingDlqEvents := s.pendingDlqEvents.erase (pendingKey e)
    log := .marked r e changed :: s.log }

/-- Failed publications stay in the ledger. -/
def retain (s : Processing κ π) (e : CompletionEvent) (r : TrackerRef) : Processing κ π :=
  { s with
    pendingDlqEvents := s.pendingDlqEvents.set (pendingKey e) e
    log := .pended r e :: s.log }

def recordPublish (s : Processing κ π) (e : CompletionEvent) (r : TrackerRef)
    (outcome : PublishOutcome) : Processing κ π :=
  { s with publishes := s.publishes + 1, log := .published r e outcome :: s.log }

variable (config : DlqConfig) (offsetTrackers : Dict TopicPartition TrackerRef)
  (publish : Nat → PublishOutcome)

/-- The event repeats one that is pending or was resolved in this call. -/
def isDuplicate (s : Processing κ π) (x : Sourced) : Bool :=
  !x.fromPendingLedger &&
    (s.pendingDlqEvents.contains (pendingKey x.event) ||
      decide (pendingKey x.event ∈ s.resolvedPendingKeys))

/-- The loop body. The first component is false when `publish_to_dlq` raised. -/
def processEvent (s : Processing κ π) (x : Sourced) : Bool × Processing κ π :=
  let e := x.event
  if isDuplicate s x then (true, s)
  else
    match offsetTrackers.get? e.tp with
    | none => (true, drop s x)
    | some r =>
      match s.wm.trackerAt r with
      | none => (true, drop s x)
      | some tracker =>
        if e.epoch ≠ tracker.epoch then (true, drop s x)
        else if config.needsPublish e then
          let outcome := publish s.publishes
          let s := recordPublish s e r outcome
          match outcome with
          | .raised => (false, s)
          | .failed => (true, retain s e r)
          | .delivered => (true, complete s x r tracker)
        else (true, complete s x r tracker)

def processEvents (s : Processing κ π) : List Sourced → Bool × Processing κ π
  | [] => (true, s)
  | x :: xs =>
    match processEvent config offsetTrackers publish s x with
    | (false, s) => (false, s)
    | (true, s) => processEvents s xs

/-- The pending ledger first, then the fresh events. -/
def eventsToProcess (pending : Dict (TopicPartition × Int) CompletionEvent)
    (completedEvents : List CompletionEvent) : List Sourced :=
  pending.values.map (⟨·, true⟩) ++ completedEvents.map (⟨·, false⟩)

/-- `process_completed_events`; the first component is false when it raised. -/
def processCompletedEvents (wm : WorkManager (SubmitKey κ) π)
    (pending : Dict (TopicPartition × Int) CompletionEvent) (log : List (PollerEntry κ π))
    (completedEvents : List CompletionEvent) : Bool × Processing κ π :=
  processEvents config offsetTrackers publish ⟨wm, pending, [], 0, .empty, log⟩
    (eventsToProcess pending completedEvents)

/-! ## What one event does -/

variable {config offsetTrackers publish}

/-- The event was dropped or ignored: at most its ledger entry is gone. -/
structure Dropped (s s' : Processing κ π) : Prop where
  wm : s'.wm = s.wm
  log : s'.log = s.log
  pending : ∀ k e, s'.pendingDlqEvents.get? k = some e → s.pendingDlqEvents.get? k = some e

/-- The event got past the zombie check of tracker `r`. -/
structure Current (offsetTrackers : Dict TopicPartition TrackerRef) (s : Processing κ π)
    (e : CompletionEvent) (r : TrackerRef) (t : OffsetTracker) : Prop where
  installed : offsetTrackers.get? e.tp = some r
  tracker : s.wm.trackerAt r = some t
  epoch : e.epoch = t.epoch

inductive Disposed (config : DlqConfig) (offsetTrackers : Dict TopicPartition TrackerRef)
    (s : Processing κ π) (x : Sourced) : Processing κ π → Prop where
  | dropped {s'} (h : Dropped s s') : Disposed config offsetTrackers s x s'
  | raised (r : TrackerRef) (t : OffsetTracker) (hcur : Current offsetTrackers s x.event r t)
      (hneeds : config.needsPublish x.event = true) :
      Disposed config offsetTrackers s x (recordPublish s x.event r .raised)
  | retained (r : TrackerRef) (t : OffsetTracker) (hcur : Current offsetTrackers s x.event r t)
      (hneeds : config.needsPublish x.event = true) :
      Disposed config offsetTrackers s x (retain (recordPublish s x.event r .failed) x.event r)
  | published (r : TrackerRef) (t : OffsetTracker) (hcur : Current offsetTrackers s x.event r t)
      (hneeds : config.needsPublish x.event = true) :
      Disposed config offsetTrackers s x (complete (recordPublish s x.event r .delivered) x r t)
  | completed (r : TrackerRef) (t : OffsetTracker) (hcur : Current offsetTrackers s x.event r t)
      (hpass : config.needsPublish x.event = false) :
      Disposed config offsetTrackers s x (complete s x r t)

theorem dropped_refl (s : Processing κ π) : Dropped s s := ⟨rfl, rfl, fun _ _ h => h⟩

theorem dropped_drop (s : Processing κ π) (x : Sourced) : Dropped s (drop s x) := by
  unfold drop
  split
  · refine ⟨rfl, rfl, fun k e h => ?_⟩
    rw [Dict.get?_erase] at h
    split at h
    · cases h
    · exact h
  · exact dropped_refl s

/-- **One event.** It is dropped, or it is current and then published, retained or marked. -/
theorem processEvent_cases (s : Processing κ π) (x : Sourced) :
    Disposed config offsetTrackers s x (processEvent config offsetTrackers publish s x).2 := by
  unfold processEvent
  dsimp only
  split
  · exact .dropped (dropped_refl s)
  · split
    · exact .dropped (dropped_drop s x)
    · rename_i r hr
      split
      · exact .dropped (dropped_drop s x)
      · rename_i t ht
        split
        · exact .dropped (dropped_drop s x)
        · rename_i hepoch
          have hcur : Current offsetTrackers s x.event r t := ⟨hr, ht, not_not.mp hepoch⟩
          split
          · rename_i hneeds
            split
            · rename_i hout; rw [hout]; exact .raised r t hcur hneeds
            · rename_i hout; rw [hout]; exact .retained r t hcur hneeds
            · rename_i hout; rw [hout]; exact .published r t hcur hneeds
          · rename_i hneeds
            exact .completed r t hcur (Bool.eq_false_of_not_eq_true hneeds)

/-- What every disposed event preserves, the whole call preserves. -/
theorem process_induction {P : Processing κ π → Prop} (xs : List Sourced)
    (hstep : ∀ s s' x, x ∈ xs → P s → Disposed config offsetTrackers s x s' → P s') :
    ∀ s, P s → P (processEvents config offsetTrackers publish s xs).2 := by
  induction xs with
  | nil => intro s h; exact h
  | cons x xs ih =>
    intro s h
    have h1 := hstep _ _ x List.mem_cons_self h
      (@processEvent_cases κ π _ config offsetTrackers publish s x)
    simp only [processEvents]
    split
    · rename_i s' heq; rw [heq] at h1; exact h1
    · rename_i s' heq
      rw [heq] at h1
      exact ih (fun s s' y hy => hstep s s' y (List.mem_cons_of_mem _ hy)) s' h1

end CompletionSupport

end PyrallelConsumer
