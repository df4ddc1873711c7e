import PyrallelConsumer.DlqPublisher

/-!
# PyrallelConsumer.CompletionLoop

`process_completed_events` with `publish_to_dlq` in its place. How a publication ends depends on the event,
whose error text becomes a header, and on the producer. The events were taken from the engine before, so
an exception that leaves the loop loses all those behind it.

* `processEvent_step` — what one event does, with the branch that it takes.
* `processEventsBy_eq` — the loop is one of those over publication outcomes.
* `processEventsBy_induction` — an invariant over the events that were disposed of.
* `processEventsBy_raised` — where an exception comes from.
-/

set_option linter.unusedSectionVars false

namespace PyrallelConsumer

/-- `event.error or "Unknown error"`. -/
def CompletionEvent.errorText (e : CompletionEvent) : PyStr :=
  match e.error with
  | none => .text "Unknown error"
  | some error => if error = .text "" then .text "Unknown error" else error

/-- What `process_completed_events` asks `publish_to_dlq` for, with the cached raw payload if there is one. -/
def CompletionEvent.dlqRequest {β : Type} (e : CompletionEvent) (cached : Option (Option β × Option β)) :
    DlqRequest β :=
  { tp := e.tp
    offset := e.offset
    epoch := e.epoch
    key := (cached.getD (none, none)).1
    value := (cached.getD (none, none)).2
    error := e.errorText
    attempt := e.attempt }

namespace CompletionSupport

variable {κ π : Type} [DecidableEq κ]

section Loop

variable (config : DlqConfig) (offsetTrackers : Dict TopicPartition TrackerRef)
  (publisher : Nat → CompletionEvent → PublishOutcome)

/-- The loop of `process_completed_events`; the `n`-th publication is `publisher n` of its event. -/
def processEventsBy (s : Processing κ π) : List Sourced → Bool × Processing κ π
  | [] => (true, s)
  | x :: xs =>
    match processEvent config offsetTrackers (fun n => publisher n x.event) s x with
    | (false, s) => (false, s)
    | (true, s) => processEventsBy s xs

end Loop

/-! ## One event -/

variable {config : DlqConfig} {offsetTrackers : Dict TopicPartition TrackerRef} {publish : Nat → PublishOutcome}

/-- The branches of the loop body. -/
inductive EventStep (config : DlqConfig) (offsetTrackers : Dict TopicPartition TrackerRef)
    (publish : Nat → PublishOutcome) (s : Processing κ π) (x : Sourced) : Bool × Processing κ π → Prop where
  | ignored (hdup : isDuplicate s x = true) : EventStep config offsetTrackers publish s x (true, s)
  | untracked (hdup : isDuplicate s x = false) (h : (offsetTrackers.get? x.event.tp).bind s.wm.trackerAt = none) :
      EventStep config offsetTrackers publish s x (true, drop s x)
  | stale (hdup : isDuplicate s x = false) (r : TrackerRef) (t : OffsetTracker)
      (hr : offsetTrackers.get? x.event.tp = some r) (ht : s.wm.trackerAt r = some t)
      (hepoch : x.event.epoch ≠ t.epoch) : EventStep config offsetTrackers publish s x (true, drop s x)
  | raised (hdup : isDuplicate s x = false) (r : TrackerRef) (t : OffsetTracker)
      (hcur : Current offsetTrackers s x.event r t) (hneeds : config.needsPublish x.event = true)
      (hout : publish s.publishes = .raised) :
      EventStep config offsetTrackers publish s x (false, recordPublish s x.event r .raised)
  | failed (hdup : isDuplicate s x = false) (r : TrackerRef) (t : OffsetTracker)
      (hcur : Current offsetTrackers s x.event r t) (hneeds : config.needsPublish x.event = true)
      (hout : publish s.publishes = .failed) :
      EventStep config offsetTrackers publish s x (true, retain (recordPublish s x.event r .failed) x.event r)
  | delivered (hdup : isDuplicate s x = false) (r : TrackerRef) (t : OffsetTracker)
      (hcur : Current offsetTrackers s x.event r t) (hneeds : config.needsPublish x.event = true)
      (hout : publish s.publishes = .delivered) :
      EventStep config offsetTrackers publish s x (true, complete (recordPublish s x.event r .delivered) x r t)
  | completed (hdup : isDuplicate s x = false) (r : TrackerRef) (t : OffsetTracker)
      (hcur : Current offsetTrackers s x.event r t) (hpass : config.needsPublish x.event = false) :
      EventStep config offsetTrackers publish s x (true, complete s x r t)

theorem processEvent_step (s : Processing κ π) (x : Sourced) :
    EventStep config offsetTrackers publish s x (processEvent config offsetTrackers publish s x) := by
  unfold processEvent
  dsimp only
  split
  · rename_i hdup
    exact .ignored hdup
  · rename_i hdup
    have hdup := Bool.eq_false_of_not_eq_true hdup
    split
    · rename_i hr
      exact .untracked hdup (by rw [hr]; rfl)
    · rename_i r hr
      split
      · rename_i ht
        exact .untracked hdup (by rw [hr]; exact ht)
      · rename_i t ht
        split
        · rename_i hepoch
          exact .stale hdup r t hr ht hepoch
        · rename_i hepoch
          have hcur : Current offsetTrackers s x.event r t := ⟨hr, ht, not_not.mp hepoch⟩
          split
          · rename_i hneeds
            split
            · rename_i hout
              rw [hout]
              exact .raised hdup r t hcur hneeds hout
            · rename_i hout
              rw [hout]
              exact .failed hdup r t hcur hneeds hout
            · rename_i hout
              rw [hout]
              exact .delivered hdup r t hcur hneeds hout
          · rename_i hneeds
            exact .completed hdup r t hcur (Bool.eq_false_of_not_eq_true hneeds)

/-- What every turn of the loop preserves holds at its end, also when an exception leaves it. -/
theorem processEvents_turns {P : Processing κ π → Prop} {s : Processing κ π} {xs : List Sourced}
    (hstep : ∀ pre x post q ok q', xs = pre ++ x :: post →
      processEvents config offsetTrackers publish s pre = (true, q) → P q →
      EventStep config offsetTrackers publish q x (ok, q') → P q')
    (h : P s) : P (processEvents config offsetTrackers publish s xs).2 := by
  induction xs generalizing s with
  | nil => exact h
  | cons x xs ih =>
    have hone := @processEvent_step κ π _ config offsetTrackers publish s x
    simp only [processEvents]
    split
    · rename_i s' heq
      rw [heq] at hone
      exact hstep [] x xs s false s' rfl rfl h hone
    · rename_i s' heq
      rw [heq] at hone
      refine ih (fun pre y post q ok q' hxs hrun => ?_) (hstep [] x xs s true s' rfl rfl h hone)
      refine hstep (x :: pre) y post q ok q' (by rw [hxs]; rfl) ?_
      simp only [processEvents, heq]
      exact hrun

/-- What every branch of the body preserves, the loop preserves. -/
theorem processEvents_invariant {P : Processing κ π → Prop} (xs : List Sourced)
    (hstep : ∀ s x ok s', x ∈ xs → P s → EventStep config offsetTrackers publish s x (ok, s') → P s')
    (s : Processing κ π) (h : P s) : P (processEvents config offsetTrackers publish s xs).2 := by
  refine processEvents_turns (fun pre x post q ok q' hxs _ => ?_) h
  exact hstep q x ok q' (hxs ▸ List.mem_append_right _ List.mem_cons_self)

/-! ## The loop -/

variable {publisher : Nat → CompletionEvent → PublishOutcome}

/-- The publisher need not look at the event. -/
theorem processEventsBy_const (xs : List Sourced) : ∀ s : Processing κ π,
    processEventsBy config offsetTrackers (fun n _ => publish n) s xs =
      processEvents config offsetTrackers publish s xs := by
  induction xs with
  | nil => intro s; rfl
  | cons x xs ih =>
    intro s
    simp only [processEventsBy, processEvents]
    cases processEvent config offsetTrackers publish s x with
    | mk ok s' =>
      cases ok with
      | false => rfl
      | true => exact ih s'

theorem processEventsBy_append (xs ys : List Sourced) :
    ∀ s s' : Processing κ π, processEventsBy config offsetTrackers publisher s xs = (true, s') →
      processEventsBy config offsetTrackers publisher s (xs ++ ys) =
        processEventsBy config offsetTrackers publisher s' ys := by
  induction xs with
  | nil => intro s s' h; cases h; rfl
  | cons x xs ih =>
    intro s s' h
    simp only [processEventsBy, List.cons_append] at h ⊢
    split at h
    · cases h
    · rename_i s₁ _
      exact ih s₁ s' h

/-- The loop gets through a prefix, or the exception comes from there. -/
theorem processEventsBy_prefix {xs ys : List Sourced} {s : Processing κ π}
    (h : (processEventsBy config offsetTrackers publisher s (xs ++ ys)).1 = true) :
    ∃ s', processEventsBy config offsetTrackers publisher s xs = (true, s') := by
  induction xs generalizing s with
  | nil => exact ⟨s, rfl⟩
  | cons x xs ih =>
    simp only [processEventsBy, List.cons_append] at h ⊢
    split at h
    · cases h
    · exact ih h

/-- What every event of the list preserves, together with the events before it, holds after the loop. -/
theorem processEventsBy_induction {P : List Sourced → Processing κ π → Prop} {xs : List Sourced}
    (hstep : ∀ done x post s s', xs = done ++ x :: post → P done s →
      EventStep config offsetTrackers (fun n => publisher n x.event) s x (true, s') → P (done ++ [x]) s')
    {s s' : Processing κ π} (h : P [] s) (hrun : processEventsBy config offsetTrackers publisher s xs = (true, s')) :
    P xs s' := by
  suffices ∀ rest done s, xs = done ++ rest → P done s →
      processEventsBy config offsetTrackers publisher s rest = (true, s') → P xs s' from this xs [] s rfl h hrun
  intro rest
  induction rest with
  | nil =>
    intro done s hxs h hrun
    cases hrun
    rw [hxs, List.append_nil]
    exact h
  | cons x rest ih =>
    intro done s hxs h hrun
    simp only [processEventsBy] at hrun
    split at hrun
    · cases hrun
    · rename_i s₁ heq
      refine ih (done ++ [x]) s₁ (by rw [hxs, List.append_assoc]; rfl) ?_ hrun
      exact hstep done x rest s s₁ hxs h (heq ▸ processEvent_step s x)

/-- **An exception** leaves the loop at the first event whose body raises. -/
theorem processEventsBy_raised (xs : List Sourced) :
    ∀ s : Processing κ π, (processEventsBy config offsetTrackers publisher s xs).1 = false →
      ∃ pre x post s', xs = pre ++ x :: post ∧ processEventsBy config offsetTrackers publisher s pre = (true, s') ∧
        (processEvent config offsetTrackers (fun n => publisher n x.event) s' x).1 = false := by
  induction xs with
  | nil => intro s h; cases h
  | cons x xs ih =>
    intro s h
    simp only [processEventsBy] at h
    split at h
    · rename_i s' heq
      exact ⟨[], x, xs, s, rfl, rfl, by rw [heq]⟩
    · rename_i s' heq
      obtain ⟨pre, y, post, s'', rfl, hpre, hy⟩ := ih s' h
      refine ⟨x :: pre, y, post, s'', rfl, ?_, hy⟩
      simp only [processEventsBy, heq]
      exact hpre

/-! ## Publications by number -/

/-- The body reads only the outcome of the next publication. -/
theorem processEvent_congr {publish' : Nat → PublishOutcome} {s : Processing κ π}
    (h : publish s.publishes = publish' s.publishes) (x : Sourced) :
    processEvent config offsetTrackers publish s x = processEvent config offsetTrackers publish' s x := by
  simp only [processEvent, h]

/-- An event without a publication does not depend on the outcomes. -/
theorem processEvent_quiet {s : Processing κ π} {x : Sourced}
    (h : (processEvent config offsetTrackers publish s x).2.publishes = s.publishes) (publish' : Nat → PublishOutcome) :
    processEvent config offsetTrackers publish' s x = processEvent config offsetTrackers publish s x := by
  unfold processEvent at h ⊢
  dsimp only at h ⊢
  split
  · rfl
  · rename_i hdup
    rw [if_neg hdup] at h
    split
    · rfl
    · rename_i r hr
      rw [hr] at h
      dsimp only at h
      split
      · rfl
      · rename_i t ht
        rw [ht] at h
        dsimp only at h
        split
        · rfl
        · rename_i hepoch
          rw [if_neg hepoch] at h
          split
          · rename_i hneeds
            rw [if_pos hneeds] at h
            cases hout : publish s.publishes <;> rw [hout] at h <;>
              exact absurd h (Nat.succ_ne_self s.publishes)
          · rfl

theorem publishes_processEvent (s : Processing κ π) (x : Sourced) :
    (processEvent config offsetTrackers publish s x).2.publishes = s.publishes ∨
      (processEvent config offsetTrackers publish s x).2.publishes = s.publishes + 1 := by
  have hdrop : (drop s x).publishes = s.publishes := by
    unfold drop
    split <;> rfl
  cases h : processEvent config offsetTrackers publish s x with
  | mk ok s' =>
    have hstep := @processEvent_step κ π _ config offsetTrackers publish s x
    rw [h] at hstep
    cases hstep with
    | ignored _ => exact .inl rfl
    | untracked _ _ => exact .inl hdrop
    | stale _ _ _ _ _ _ => exact .inl hdrop
    | raised _ _ _ _ _ _ => exact .inr rfl
    | failed _ _ _ _ _ _ => exact .inr rfl
    | delivered _ _ _ _ _ _ => exact .inr rfl
    | completed _ _ _ _ _ => exact .inl rfl

theorem processEvents_congr {publish' : Nat → PublishOutcome} (xs : List Sourced) :
    ∀ s : Processing κ π, (∀ n, s.publishes ≤ n → publish n = publish' n) →
      processEvents config offsetTrackers publish s xs = processEvents config offsetTrackers publish' s xs := by
  induction xs with
  | nil => intro s _; rfl
  | cons x xs ih =>
    intro s h
    simp only [processEvents]
    rw [processEvent_congr (h s.publishes (Nat.le_refl _)) x]
    have hpub := @publishes_processEvent κ π _ config offsetTrackers publish' s x
    split
    · rfl
    · rename_i s' heq
      rw [heq] at hpub
      exact ih s' fun n hn => h n (by dsimp only at hpub; omega)

/-- **The two loops.** Whatever the publisher makes of the events, some sequence of outcomes is the same. -/
theorem processEventsBy_eq (xs : List Sourced) :
    ∀ s : Processing κ π, ∃ publish : Nat → PublishOutcome,
      processEventsBy config offsetTrackers publisher s xs = processEvents config offsetTrackers publish s xs := by
  induction xs with
  | nil => intro s; exact ⟨fun _ => .raised, rfl⟩
  | cons x xs ih =>
    intro s
    have hpub := @publishes_processEvent κ π _ config offsetTrackers (fun n => publisher n x.event) s x
    cases heq : processEvent config offsetTrackers (fun n => publisher n x.event) s x with
    | mk ok s' =>
      rw [heq] at hpub
      dsimp only at hpub
      obtain ⟨publish, hrest⟩ := ih s'
      let publish' : Nat → PublishOutcome := fun n => if n < s'.publishes then publisher n x.event else publish n
      have hbody : processEvent config offsetTrackers publish' s x = (ok, s') := by
        rw [← heq]
        rcases hpub with hpub | hpub
        · exact processEvent_quiet (by rw [heq]; exact hpub) publish'
        · refine processEvent_congr ?_ x
          simp only [publish']
          rw [if_pos (by omega)]
      refine ⟨publish', ?_⟩
      simp only [processEventsBy, processEvents, heq, hbody]
      cases ok with
      | false => rfl
      | true =>
        refine hrest.trans (processEvents_congr xs s' fun n hn => ?_)
        simp only [publish']
        rw [if_neg (by omega)]

end CompletionSupport

end PyrallelConsumer
