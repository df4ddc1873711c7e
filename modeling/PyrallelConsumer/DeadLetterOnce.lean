import PyrallelConsumer.CompletionConservation
import PyrallelConsumer.CommitProgress
import PyrallelConsumer.CommitPaths

/-!
# PyrallelConsumer.DeadLetterOnce

`process_completed_events` looks for duplicates in the ledger of pending publications only, never in the
tracker. A message that a blocking timeout failed and that a worker reports later is published again.

* `covers_of_done` — what a tracker covers in the middle of a call, it covered before, or an event of the
  call has marked it.
* `sparesFinished_iff` — exactly which events make a drain publish nothing that is finished, whatever
  becomes of its publications.
* `finished_never_published` — along every run whose drains get such events only.
-/

set_option linter.unusedSectionVars false

namespace PyrallelConsumer

variable {κ π : Type} [DecidableEq κ]

namespace CompletionSupport

/-! ## What a call covers -/

theorem Grown.covers {t t' : OffsetTracker} (h : Grown t t') {o : Int} (ho : t.core.Covers o) :
    t'.core.Covers o := by
  rcases ho with hle | hmem
  · exact .inl (le_of_le_of_eq hle h.lastCommittedOffset.symm)
  · exact .inr (h.completed o hmem)

section Call

variable {config : DlqConfig} {offsetTrackers : Dict TopicPartition TrackerRef} {publish : Nat → PublishOutcome}
  {wm : WorkManager (SubmitKey κ) π} {pending : Dict (TopicPartition × Int) CompletionEvent}
  {log : List (PollerEntry κ π)} {completedEvents : List CompletionEvent}

theorem EventStep.kept {s s' : Processing κ π} {x : Sourced} {ok : Bool}
    (h : EventStep config offsetTrackers publish s x (ok, s')) : Kept s.wm s'.wm := by
  have hdrop : (drop s x).wm = s.wm := (dropped_drop s x).wm
  cases h with
  | ignored _ => exact kept_refl _
  | untracked _ _ => exact hdrop ▸ kept_refl _
  | stale _ _ _ _ _ _ => exact hdrop ▸ kept_refl _
  | raised _ _ _ _ _ _ => exact kept_refl _
  | failed _ _ _ _ _ _ => exact kept_refl _
  | delivered _ r _ _ _ _ => exact kept_markComplete s.wm r x.event.offset
  | completed _ r _ _ _ => exact kept_markComplete s.wm r x.event.offset

/-- A step covers nothing but the offset of its event, and that only when the event is current. -/
theorem EventStep.covers {s s' : Processing κ π} {x : Sourced} {ok : Bool}
    (h : EventStep config offsetTrackers publish s x (ok, s')) {r : TrackerRef} {t t' : OffsetTracker}
    (ht : s.wm.trackerAt r = some t) (ht' : s'.wm.trackerAt r = some t') {o : Int} (ho : t'.core.Covers o) :
    t.core.Covers o ∨ (o = x.event.offset ∧ Current offsetTrackers s x.event r t) := by
  have hsame : s'.wm = s.wm → t.core.Covers o := by
    intro hwm
    rw [hwm, ht] at ht'
    cases ht'
    exact ho
  have hmark : ∀ r₁ t₁, Current offsetTrackers s x.event r₁ t₁ →
      s'.wm = s.wm.modifyTracker r₁ (·.markComplete x.event.offset) →
      t.core.Covers o ∨ (o = x.event.offset ∧ Current offsetTrackers s x.event r t) := by
    intro r₁ t₁ hcur hwm
    rw [hwm, WorkManager.trackerAt_modifyTracker] at ht'
    split at ht'
    · rename_i heq
      subst heq
      rw [ht, Option.map_some, Option.some.injEq] at ht'
      rw [← ht', OffsetTracker.core_markComplete] at ho
      rcases OffsetTracker.Core.covers_markComplete.mp ho with ho | ho
      · exact .inl ho
      · rw [hcur.tracker] at ht
        cases ht
        exact .inr ⟨ho, hcur⟩
    · rw [ht] at ht'
      cases ht'
      exact .inl ho
  have hdrop : (drop s x).wm = s.wm := (dropped_drop s x).wm
  cases h with
  | ignored _ => exact .inl (hsame rfl)
  | untracked _ _ => exact .inl (hsame hdrop)
  | stale _ _ _ _ _ _ => exact .inl (hsame hdrop)
  | raised _ _ _ _ _ _ => exact .inl (hsame rfl)
  | failed _ _ _ _ _ _ => exact .inl (hsame rfl)
  | delivered _ r₁ t₁ hcur _ _ => exact hmark r₁ t₁ hcur rfl
  | completed _ r₁ t₁ hcur _ => exact hmark r₁ t₁ hcur rfl

/-- **Coverage in the middle of a call.** -/
theorem covers_of_done (hsep : Separate offsetTrackers) {pre : List Sourced} {q : Processing κ π}
    (hrun : processEvents config offsetTrackers publish (entering wm pending log) pre = (true, q))
    {tp : TopicPartition} {r : TrackerRef} {t t' : OffsetTracker} (hr : offsetTrackers.get? tp = some r)
    (ht : wm.trackerAt r = some t) (ht' : q.wm.trackerAt r = some t') {o : Int} (ho : t'.core.Covers o) :
    t.core.Covers o ∨ ∃ y ∈ pre, pendingKey y.event = (tp, o) ∧ y.event.epoch = t.epoch := by
  let P : List Sourced → Processing κ π → Prop := fun done q => Kept wm q.wm ∧
    ∀ t', q.wm.trackerAt r = some t' → t'.core.Covers o →
      t.core.Covers o ∨ ∃ y ∈ done, pendingKey y.event = (tp, o) ∧ y.event.epoch = t.epoch
  have hall : P pre q := by
    rw [← processEventsBy_const] at hrun
    refine processEventsBy_induction (fun done x post q q' _ h hstep => ?_) ⟨kept_refl wm, ?_⟩ hrun
    · refine ⟨h.1.trans hstep.kept, fun t' ht' ho => ?_⟩
      obtain ⟨t₁, ht₁, -⟩ := hstep.kept.exists_before ht'
      rcases hstep.covers ht₁ ht' ho with ho | ⟨rfl, hcur⟩
      · refine (h.2 t₁ ht₁ ho).imp_right ?_
        rintro ⟨y, hy, hrest⟩
        exact ⟨y, List.mem_append_left _ hy, hrest⟩
      · refine .inr ⟨x, List.mem_append_right _ List.mem_cons_self, ?_, ?_⟩
        · rw [hsep tp x.event.tp r hr hcur.installed]
          rfl
        · exact hcur.epoch.trans (h.1.grown ht ht₁).epoch
    · intro t' ht' ho
      rw [show (entering wm pending log).wm.trackerAt r = some t from ht] at ht'
      cases ht'
      exact .inl ho
  exact hall.2 t' ht' ho

/-- The event is published at its turn, or an entry is made in the ledger. -/
def DeadLetters (q q' : Processing κ π) : Prop :=
  q'.publishes ≠ q.publishes ∨
    ∃ k e, q'.pendingDlqEvents.get? k = some e ∧ q.pendingDlqEvents.get? k ≠ some e

/-- The loop body gets as far as the call of `publish_to_dlq`. -/
structure Reaches (config : DlqConfig) (offsetTrackers : Dict TopicPartition TrackerRef) (q : Processing κ π)
    (x : Sourced) (r : TrackerRef) (t : OffsetTracker) : Prop where
  unseen : isDuplicate q x = false
  current : Current offsetTrackers q x.event r t
  needs : config.needsPublish x.event = true

/-- An entry is made only for an event whose publication failed. -/
theorem deadLetters_iff {q : Processing κ π} {x : Sourced} :
    DeadLetters q (processEvent config offsetTrackers publish q x).2 ↔
      ∃ r t, Reaches config offsetTrackers q x r t := by
  have herase : ∀ (q : Processing κ π) k k' e, (q.pendingDlqEvents.erase k).get? k' = some e →
      q.pendingDlqEvents.get? k' = some e := by
    intro q k k' e hk
    rw [Dict.get?_erase] at hk
    split at hk
    · cases hk
    · exact hk
  have hquiet : ∀ q' : Processing κ π, q'.publishes = q.publishes →
      (∀ k e, q'.pendingDlqEvents.get? k = some e → q.pendingDlqEvents.get? k = some e) → ¬DeadLetters q q' := by
    rintro q' hpub hpending (hne | ⟨k, e, he, hne⟩)
    · exact hne hpub
    · exact hne (hpending k e he)
  have hdrop : (drop q x).publishes = q.publishes := by
    unfold drop
    split <;> rfl
  have hstep := @processEvent_step κ π _ config offsetTrackers publish q x
  generalize processEvent config offsetTrackers publish q x = result at hstep
  have hpublished : ∀ r t, Reaches config offsetTrackers q x r t → result.2.publishes = q.publishes + 1 →
      (DeadLetters q result.2 ↔ ∃ r t, Reaches config offsetTrackers q x r t) := fun r t h hpub =>
    ⟨fun _ => ⟨r, t, h⟩, fun _ => .inl (by rw [hpub]; exact Nat.succ_ne_self _)⟩
  cases hstep with
  | ignored hdup =>
    refine ⟨fun h => absurd h (hquiet q rfl fun _ _ h => h), ?_⟩
    rintro ⟨r, t, h⟩
    rw [h.unseen] at hdup
    cases hdup
  | untracked hdup hnone =>
    refine ⟨fun h => absurd h (hquiet _ hdrop (dropped_drop q x).pending), ?_⟩
    rintro ⟨r, t, h⟩
    rw [h.current.installed, Option.bind_some, h.current.tracker] at hnone
    cases hnone
  | stale hdup r t hr ht hepoch =>
    refine ⟨fun h => absurd h (hquiet _ hdrop (dropped_drop q x).pending), ?_⟩
    rintro ⟨r', t', h⟩
    have hr' := h.current.installed
    rw [hr] at hr'
    cases hr'
    have ht' := h.current.tracker
    rw [ht] at ht'
    cases ht'
    exact absurd h.current.epoch hepoch
  | raised hdup r t hcur hneeds _ => exact hpublished r t ⟨hdup, hcur, hneeds⟩ rfl
  | failed hdup r t hcur hneeds _ => exact hpublished r t ⟨hdup, hcur, hneeds⟩ rfl
  | delivered hdup r t hcur hneeds _ => exact hpublished r t ⟨hdup, hcur, hneeds⟩ rfl
  | completed hdup r t hcur hpass =>
    refine ⟨fun h => absurd h (hquiet _ rfl fun k e hk => herase q _ k e hk), ?_⟩
    rintro ⟨r', t', h⟩
    rw [h.needs] at hpass
    cases hpass

/-- The loop comes to `x` in state `q`, after the events `pre`. -/
structure Turn (config : DlqConfig) (offsetTrackers : Dict TopicPartition TrackerRef)
    (publish : Nat → PublishOutcome) (wm : WorkManager (SubmitKey κ) π)
    (pending : Dict (TopicPartition × Int) CompletionEvent) (log : List (PollerEntry κ π))
    (completedEvents : List CompletionEvent) (pre : List Sourced) (x : Sourced) (q : Processing κ π) : Prop where
  split : ∃ post, eventsToProcess pending completedEvents = pre ++ x :: post
  reached : processEvents config offsetTrackers publish (entering wm pending log) pre = (true, q)

/-- The call publishes nothing, and puts nothing into the ledger, that the tracker covers at that time. -/
def SparesFinished (config : DlqConfig) (offsetTrackers : Dict TopicPartition TrackerRef)
    (publish : Nat → PublishOutcome) (wm : WorkManager (SubmitKey κ) π)
    (pending : Dict (TopicPartition × Int) CompletionEvent) (log : List (PollerEntry κ π))
    (completedEvents : List CompletionEvent) : Prop :=
  ∀ pre x q, Turn config offsetTrackers publish wm pending log completedEvents pre x q →
    DeadLetters q (processEvent config offsetTrackers publish q x).2 →
    ∀ r t, offsetTrackers.get? x.event.tp = some r → q.wm.trackerAt r = some t → ¬t.core.Covers x.event.offset

/-- A failure that is due for the dead letters is not hidden by the ledger's entry for the same message
and assignment. -/
def Unhidden (pending : Dict (TopicPartition × Int) CompletionEvent) (x : Sourced) : Prop :=
  x.fromPendingLedger = false → ∀ e, pending.get? (pendingKey x.event) = some e → e.epoch ≠ x.event.epoch

/-- Every failure that is due is of an offset that is not covered, and the first event of the call for its
message and assignment. -/
def FreshFailures (config : DlqConfig) (offsetTrackers : Dict TopicPartition TrackerRef)
    (wm : WorkManager (SubmitKey κ) π) (pending : Dict (TopicPartition × Int) CompletionEvent)
    (completedEvents : List CompletionEvent) : Prop :=
  ∀ pre x post, eventsToProcess pending completedEvents = pre ++ x :: post → config.needsPublish x.event = true →
    Unhidden pending x → ∀ r t, offsetTrackers.get? x.event.tp = some r → wm.trackerAt r = some t →
      x.event.epoch = t.epoch → ¬t.core.Covers x.event.offset ∧
        ∀ y ∈ pre, pendingKey y.event = pendingKey x.event → y.event.epoch ≠ x.event.epoch

/-- **Enough.** -/
theorem sparesFinished_of_freshFailures (hsep : Separate offsetTrackers) (hkeyed : Keyed pending)
    (h : FreshFailures config offsetTrackers wm pending completedEvents) (publish : Nat → PublishOutcome) :
    SparesFinished config offsetTrackers publish wm pending log completedEvents := by
  rintro pre x q ⟨⟨post, hsplit⟩, hrun⟩ hdead r t hr ht hcov
  obtain ⟨r', t', hreach⟩ := deadLetters_iff.mp hdead
  have hr' := hreach.current.installed
  rw [hr] at hr'
  cases hr'
  have ht' := hreach.current.tracker
  rw [ht] at ht'
  cases ht'
  have hconserving := conserving_processEventsBy hsep hkeyed hsplit
    ((@processEventsBy_const κ π _ config offsetTrackers publish pre _).trans hrun)
  obtain ⟨t₀, ht₀, hgrown⟩ := hconserving.kept.exists_before ht
  have hepoch : x.event.epoch = t₀.epoch := hreach.current.epoch.trans hgrown.epoch
  have hunhidden : Unhidden pending x := by
    intro hfresh e he hsame
    -- the entry comes first, and hides its key from then on
    have hkey : pendingKey x.event = pendingKey e := hkeyed _ e he
    have hmem := mem_pre_of_ledger hkeyed hsplit hfresh he
    have hcur : CurrentAt offsetTrackers wm e :=
      currentAt_of_same (e := x.event) ⟨r, t₀, hr, ht₀, hepoch⟩ hkey.symm hsame
    have hdup := isDuplicate_iff.mpr ⟨hfresh, hkey ▸ hconserving.shadows ⟨e, true⟩ hmem rfl hcur⟩
    rw [hreach.unseen] at hdup
    cases hdup
  obtain ⟨huncovered, hfirst⟩ := h pre x post hsplit hreach.needs hunhidden r t₀ hr ht₀ hepoch
  rcases covers_of_done hsep hrun hr ht₀ ht hcov with hcov | ⟨y, hy, hkey, hsame⟩
  · exact huncovered hcov
  · exact hfirst y hy hkey (hsame.trans hepoch.symm)

theorem processEvents_returns (hpub : ∀ n, publish n ≠ .raised) (s : Processing κ π) (xs : List Sourced) :
    ∃ q, processEvents config offsetTrackers publish s xs = (true, q) := by
  rw [← processEventsBy_const]
  cases hrun : processEventsBy config offsetTrackers (fun n _ => publish n) s xs with
  | mk ok q =>
    cases ok with
    | true => exact ⟨q, rfl⟩
    | false =>
      obtain ⟨pre, x, post, s', -, -, hraised⟩ := processEventsBy_raised xs s (by rw [hrun])
      have hstep := @processEvent_step κ π _ config offsetTrackers publish s' x
      cases heq : processEvent config offsetTrackers publish s' x with
      | mk ok q' =>
        rw [heq] at hraised hstep
        cases hraised
        cases hstep with
        | raised _ _ _ _ _ hout => exact absurd hout (hpub _)

/-- Where no publication fails, only the ledger hides an event. -/
theorem unseen_of_unhidden (hkeyed : Keyed pending) {c : DlqPublisherConfig} (hmax : 0 < c.maxRetries)
    {pre post : List Sourced} {x : Sourced} {q : Processing κ π}
    (horigins : Origins config c offsetTrackers wm pending pre q)
    (hsplit : eventsToProcess pending completedEvents = pre ++ x :: post)
    (hcur : CurrentAt offsetTrackers wm x.event) (hunhidden : Unhidden pending x) : isDuplicate q x = false := by
  cases hdup : isDuplicate q x with
  | false => rfl
  | true =>
    obtain ⟨y, hy, hfresh, hkey, hepoch, hledger | ⟨hle, -⟩⟩ := hides_of_duplicate hkeyed horigins hsplit hcur hdup
    · have hmem : y ∈ eventsToProcess pending completedEvents := by
        rw [hsplit]
        exact List.mem_append_left _ hy
      exact absurd hepoch (hunhidden hfresh y.event (hkey ▸ contains_of_mem hkeyed hmem hledger))
    · omega

/-- Where every publication is delivered, every current event that is not hidden gets covered. -/
theorem covered_of_delivered (hkeyed : Keyed pending) (hpub : ∀ n, publish n = .delivered)
    {pre post : List Sourced} (hsplit : eventsToProcess pending completedEvents = pre ++ post)
    {q : Processing κ π}
    (hrun : processEvents config offsetTrackers publish (entering wm pending log) pre = (true, q)) :
    ∀ y ∈ pre, CurrentAt offsetTrackers wm y.event → Unhidden pending y →
      ∃ r t, offsetTrackers.get? y.event.tp = some r ∧ q.wm.trackerAt r = some t ∧
        t.core.Covers y.event.offset := by
  let P : List Sourced → Processing κ π → Prop := fun done q =>
    Origins config samplePublisher offsetTrackers wm pending done q ∧
      ∀ y ∈ done, CurrentAt offsetTrackers wm y.event → Unhidden pending y →
        ∃ r t, offsetTrackers.get? y.event.tp = some r ∧ q.wm.trackerAt r = some t ∧
          t.core.Covers y.event.offset
  have hnever : ∀ n, publish n = .failed → samplePublisher.maxRetries ≤ 0 := by
    intro n hn
    rw [hpub n] at hn
    cases hn
  have hall : P pre q := by
    rw [← processEventsBy_const] at hrun
    refine processEventsBy_induction (fun done x rest q q' hpre h hstep => ?_)
      ⟨⟨kept_refl wm, fun k e hk => .inl ⟨hk, by simp⟩, fun k hk => by cases hk⟩, fun y hy => by cases hy⟩ hrun
    refine ⟨origins_step hkeyed hnever h.1 hstep, fun y hy hcur hunhidden => ?_⟩
    rcases List.mem_append.mp hy with hy | hy
    · obtain ⟨r, t, hr, ht, hcov⟩ := h.2 y hy hcur hunhidden
      obtain ⟨t', ht', hgrown⟩ := hstep.kept.exists_after ht
      exact ⟨r, t', hr, ht', hgrown.covers hcov⟩
    · rw [List.mem_singleton.mp hy] at hcur hunhidden ⊢
      have hsplit' : eventsToProcess pending completedEvents = done ++ x :: (rest ++ post) := by
        rw [hsplit, hpre, List.append_assoc, List.cons_append]
      have hunseen := unseen_of_unhidden hkeyed (by decide) h.1 hsplit' hcur hunhidden
      have hcur' := (currentAt_iff_of_kept h.1.kept x.event).mpr hcur
      have hmark : ∀ r t, Current offsetTrackers q x.event r t →
          q'.wm = q.wm.modifyTracker r (·.markComplete x.event.offset) →
          ∃ r t, offsetTrackers.get? x.event.tp = some r ∧ q'.wm.trackerAt r = some t ∧
            t.core.Covers x.event.offset := by
        intro r t hc hwm
        refine ⟨r, t.markComplete x.event.offset, hc.installed, ?_, ?_⟩
        · rw [hwm, WorkManager.trackerAt_modifyTracker, if_pos rfl, hc.tracker]
          rfl
        · rw [OffsetTracker.core_markComplete]
          exact OffsetTracker.Core.covers_markComplete.mpr (.inr rfl)
      cases hstep with
      | ignored hdup => rw [hunseen] at hdup; cases hdup
      | untracked _ hnone =>
        obtain ⟨r, t, hr, ht, -⟩ := hcur'
        rw [hr, Option.bind_some, ht] at hnone
        cases hnone
      | stale _ r t hr ht hepoch =>
        obtain ⟨r', t', hr', ht', he⟩ := hcur'
        rw [hr] at hr'
        cases hr'
        rw [ht] at ht'
        cases ht'
        exact absurd he hepoch
      | failed _ r t _ _ hout => rw [hpub] at hout; cases hout
      | delivered _ r t hc _ _ => exact hmark r t hc rfl
      | completed _ r t hc _ => exact hmark r t hc rfl
  exact hall.2

/-- **Exactly when** a call spares what is finished, whatever becomes of its publications. -/
theorem sparesFinished_iff (hsep : Separate offsetTrackers) (hkeyed : Keyed pending) :
    (∀ publish, SparesFinished config offsetTrackers publish wm pending log completedEvents) ↔
      FreshFailures config offsetTrackers wm pending completedEvents := by
  refine ⟨fun h pre x post hsplit hneeds hunhidden r t hr ht hepoch => ?_,
    fun h publish => sparesFinished_of_freshFailures hsep hkeyed h publish⟩
  -- with publications that are all delivered, the event gets to its own
  let publish : Nat → PublishOutcome := fun _ => .delivered
  obtain ⟨q, hrun⟩ := @processEvents_returns κ π _ config offsetTrackers publish (fun _ h => by cases h)
    (entering wm pending log) pre
  have hrun' := (@processEventsBy_const κ π _ config offsetTrackers publish pre _).trans hrun
  have horigins : Origins config samplePublisher offsetTrackers wm pending pre q :=
    origins_processEventsBy hkeyed (fun n e hn => by cases hn) hrun'
  have hunseen := unseen_of_unhidden hkeyed (by decide) horigins hsplit ⟨r, t, hr, ht, hepoch⟩ hunhidden
  obtain ⟨t', ht', hgrown⟩ := horigins.kept.exists_after ht
  have huncovered : ¬t'.core.Covers x.event.offset :=
    h publish pre x q ⟨⟨post, hsplit⟩, hrun⟩
      (deadLetters_iff.mpr ⟨r, t', hunseen, ⟨hr, ht', hepoch.trans hgrown.epoch.symm⟩, hneeds⟩) r t' hr ht'
  refine ⟨fun hcov => huncovered (hgrown.covers hcov), fun y hy hkey hsame => ?_⟩
  have hfresh : x.fromPendingLedger = false := by
    cases hx : x.fromPendingLedger with
    | false => rfl
    | true => exact absurd hkey (inOrder_of_split hkeyed hsplit y hy hx).2
  obtain ⟨r', t'', hr', ht'', hcov⟩ := covered_of_delivered hkeyed (fun _ => rfl) hsplit hrun y hy
    (currentAt_of_same (e := x.event) ⟨r, t, hr, ht, hepoch⟩ hkey hsame)
    fun _ e he => by rw [hsame]; exact hunhidden hfresh e (hkey ▸ he)
  rw [show y.event.tp = x.event.tp from congrArg Prod.fst hkey, hr] at hr'
  cases hr'
  rw [ht'] at ht''
  cases ht''
  rw [show y.event.offset = x.event.offset from congrArg Prod.snd hkey] at hcov
  exact huncovered hcov

end Call

end CompletionSupport

/-! ## The history -/

/-- From this entry on the offset is finished for the assignment of tracker `r`. -/
def PollerEntry.Finishes : PollerEntry κ π → TrackerRef → Int → Prop
  | .installed r' core, r, o => r' = r ∧ core.Covers o
  | .marked r' e _, r, o => r' = r ∧ e.offset = o
  | .published r' e .delivered, r, o => r' = r ∧ e.offset = o
  | _, _, _ => False

def Finished (log : List (PollerEntry κ π)) (r : TrackerRef) (o : Int) : Prop :=
  ∃ entry ∈ log, entry.Finishes r o

/-- The entry is a call of `publish_to_dlq` for the event, or an entry for it in the ledger. -/
def PollerEntry.IsDeadLetter (entry : PollerEntry κ π) (r : TrackerRef) (e : CompletionEvent) : Prop :=
  entry = .pended r e ∨ ∃ outcome, entry = .published r e outcome

/-- Nothing that was finished became a dead letter. -/
def NeverAgain (log : List (PollerEntry κ π)) : Prop :=
  ∀ newer entry older r e, log = newer ++ entry :: older → entry.IsDeadLetter r e → ¬Finished older r e.offset

theorem finished_cons {log : List (PollerEntry κ π)} {entry : PollerEntry κ π} {r : TrackerRef} {o : Int} :
    Finished (entry :: log) r o ↔ entry.Finishes r o ∨ Finished log r o := by
  simp [Finished]

theorem NeverAgain.cons {log : List (PollerEntry κ π)} (h : NeverAgain log) {entry : PollerEntry κ π}
    (hentry : ∀ r e, entry.IsDeadLetter r e → ¬Finished log r e.offset) : NeverAgain (entry :: log) := by
  intro newer entry' older r e heq hdead
  cases newer with
  | nil =>
    rw [List.nil_append] at heq
    cases heq
    exact hentry r e hdead
  | cons x newer =>
    rw [List.cons_append] at heq
    cases heq
    exact h newer entry' older r e rfl hdead

theorem NeverAgain.cons_other {log : List (PollerEntry κ π)} (h : NeverAgain log) {entry : PollerEntry κ π}
    (hentry : ∀ r e, ¬entry.IsDeadLetter r e) : NeverAgain (entry :: log) :=
  h.cons fun r e hdead => absurd hdead (hentry r e)

/-- What is finished, its tracker covers. -/
def FinishedCovered (cores : List OffsetTracker.Core) (log : List (PollerEntry κ π)) : Prop :=
  ∀ r o, Finished log r o → ∃ core, cores[r]? = some core ∧ core.Covers o

/-- **One change** that is no part of processing events. -/
theorem finished_step {c : DlqConfig} {V : TopicPartition → Int → Prop} {E : CompletionEvent → Prop}
    (hE : ∀ e, ¬E e) {v v' : TrackerView κ π} (hcovered : FinishedCovered v.cores v.log) (hnever : NeverAgain v.log)
    (hstep : TrackerStep c V E v v') : FinishedCovered v'.cores v'.log ∧ NeverAgain v'.log := by
  have hgrows : ∀ r o, Finished v.log r o → ∃ core, v'.cores[r]? = some core ∧ core.Covers o := by
    intro r o ho
    obtain ⟨core, hcore, hcov⟩ := hcovered r o ho
    obtain ⟨core', hcore', hgrow⟩ := hstep.grows.cores r core hcore
    exact ⟨core', hcore', hgrow.covers o hcov⟩
  cases hstep with
  | installed core hwf hepoch _ =>
    refine ⟨fun r o ho => ?_, hnever.cons_other fun _ _ hdead => by rcases hdead with h | ⟨_, h⟩ <;> cases h⟩
    rcases finished_cons.mp ho with ⟨rfl, hcov⟩ | ho
    · exact ⟨core, by simp, hcov⟩
    · exact hgrows r o ho
  | forgot tps _ => exact ⟨hgrows, hnever⟩
  | submitted r x hr _ =>
    refine ⟨fun r o ho => hgrows r o ((finished_cons.mp ho).resolve_left id),
      hnever.cons_other fun _ _ hdead => by rcases hdead with h | ⟨_, h⟩ <;> cases h⟩
  | published r e outcome core hcur hneeds he => exact absurd he (hE e)
  | pended r e core hcur hneeds he => exact absurd he (hE e)
  | marked r e changed core hcur he hgate hchanged => exact absurd he (hE e)
  | advanced tp r core o hr hcore ho => exact ⟨hgrows, hnever⟩
  | committed path r position hV =>
    refine ⟨fun r o ho => hgrows r o ((finished_cons.mp ho).resolve_left id),
      hnever.cons_other fun _ _ hdead => by rcases hdead with h | ⟨_, h⟩ <;> cases h⟩

namespace CompletionSupport

variable {config : DlqConfig} {offsetTrackers : Dict TopicPartition TrackerRef} {publish : Nat → PublishOutcome}

theorem FinishedCovered.kept {wm wm' : WorkManager (SubmitKey κ) π} {log : List (PollerEntry κ π)}
    (h : FinishedCovered (wm.heap.map (·.core)) log) (hkept : Kept wm wm') :
    FinishedCovered (wm'.heap.map (·.core)) log := by
  intro r o ho
  obtain ⟨core, hcore, hcov⟩ := h r o ho
  rw [List.getElem?_map] at hcore
  obtain ⟨t, ht, rfl⟩ := Option.map_eq_some_iff.mp hcore
  obtain ⟨t', ht', hgrown⟩ := hkept.exists_after ht
  exact ⟨t'.core, Poller.cores_eq_of_trackerAt ht', hgrown.covers hcov⟩

/-- **One event** that is published only while its offset is not covered. -/
theorem finished_eventStep {q q' : Processing κ π} {x : Sourced} {ok : Bool}
    (hcovered : FinishedCovered (q.wm.heap.map (·.core)) q.log) (hnever : NeverAgain q.log)
    (hspares : ∀ r t, Reaches config offsetTrackers q x r t → ¬t.core.Covers x.event.offset)
    (hstep : EventStep config offsetTrackers publish q x (ok, q')) :
    FinishedCovered (q'.wm.heap.map (·.core)) q'.log ∧ NeverAgain q'.log := by
  have hdrop := dropped_drop q x
  have hopen : ∀ r t, Reaches config offsetTrackers q x r t → ¬Finished q.log r x.event.offset := by
    intro r t hreach hfinished
    obtain ⟨core, hcore, hcov⟩ := hcovered r _ hfinished
    rw [Poller.cores_eq_of_trackerAt hreach.current.tracker] at hcore
    cases hcore
    exact hspares r t hreach hcov
  have hpublished : ∀ r t outcome, Reaches config offsetTrackers q x r t →
      NeverAgain (.published r x.event outcome :: q.log) := by
    intro r t outcome hreach
    refine hnever.cons fun r' e hdead => ?_
    rcases hdead with h | ⟨_, h⟩
    · cases h
    · cases h
      exact hopen r t hreach
  have hmarked : ∀ (log : List (PollerEntry κ π)) r t changed, Current offsetTrackers q x.event r t →
      (∀ r' o, Finished log r' o → Finished q.log r' o ∨ (r' = r ∧ x.event.offset = o)) →
      FinishedCovered ((q.wm.modifyTracker r (·.markComplete x.event.offset)).heap.map (·.core))
        (.marked r x.event changed :: log) := by
    intro log r t changed hcur hlog r' o ho
    have ho : Finished q.log r' o ∨ (r' = r ∧ x.event.offset = o) := by
      rcases finished_cons.mp ho with ⟨hr, hx⟩ | ho
      · exact .inr ⟨hr.symm, hx⟩
      · exact hlog r' o ho
    rcases ho with ho | ⟨rfl, rfl⟩
    · exact FinishedCovered.kept hcovered (kept_markComplete q.wm r x.event.offset) r' o ho
    · refine ⟨(t.markComplete x.event.offset).core, Poller.cores_eq_of_trackerAt ?_, ?_⟩
      · rw [WorkManager.trackerAt_modifyTracker, if_pos rfl, hcur.tracker]
        rfl
      · rw [OffsetTracker.core_markComplete]
        exact OffsetTracker.Core.covers_markComplete.mpr (.inr rfl)
  cases hstep with
  | ignored _ => exact ⟨hcovered, hnever⟩
  | untracked _ _ => exact ⟨hdrop.wm ▸ hdrop.log ▸ hcovered, hdrop.log ▸ hnever⟩
  | stale _ _ _ _ _ _ => exact ⟨hdrop.wm ▸ hdrop.log ▸ hcovered, hdrop.log ▸ hnever⟩
  | raised hdup r t hcur hneeds _ =>
    exact ⟨fun r' o ho => hcovered r' o ((finished_cons.mp ho).resolve_left id),
      hpublished r t .raised ⟨hdup, hcur, hneeds⟩⟩
  | failed hdup r t hcur hneeds _ =>
    have hsame : ∀ r' o, Finished (.pended r x.event :: .published r x.event .failed :: q.log) r' o →
        Finished q.log r' o := fun r' o ho =>
      (finished_cons.mp ((finished_cons.mp ho).resolve_left id)).resolve_left id
    refine ⟨fun r' o ho => hcovered r' o (hsame r' o ho), ?_⟩
    refine (hpublished r t .failed ⟨hdup, hcur, hneeds⟩).cons fun r' e hdead hfinished => ?_
    rcases hdead with h | ⟨_, h⟩
    · cases h
      exact hopen r t ⟨hdup, hcur, hneeds⟩ ((finished_cons.mp hfinished).resolve_left id)
    · cases h
  | delivered hdup r t hcur hneeds _ =>
    refine ⟨hmarked _ r t _ hcur fun r' o ho => ?_, ?_⟩
    · rcases finished_cons.mp ho with ⟨hr, hx⟩ | ho
      · exact .inr ⟨hr.symm, hx⟩
      · exact .inl ho
    · refine (hpublished r t .delivered ⟨hdup, hcur, hneeds⟩).cons_other fun _ _ hdead => ?_
      rcases hdead with h | ⟨_, h⟩ <;> cases h
  | completed _ r t hcur _ =>
    refine ⟨hmarked _ r t _ hcur fun r' o ho => .inl ho, hnever.cons_other fun _ _ hdead => ?_⟩
    rcases hdead with h | ⟨_, h⟩ <;> cases h

theorem keyed_eventStep {q q' : Processing κ π} {x : Sourced} {ok : Bool} (h : Keyed q.pendingDlqEvents)
    (hstep : EventStep config offsetTrackers publish q x (ok, q')) : Keyed q'.pendingDlqEvents := by
  have herase : Keyed (q.pendingDlqEvents.erase (pendingKey x.event)) := by
    intro k e hk
    rw [Dict.get?_erase] at hk
    split at hk
    · cases hk
    · exact h k e hk
  have hdrop : Keyed (drop q x).pendingDlqEvents := fun k e hk => h k e ((dropped_drop q x).pending k e hk)
  cases hstep with
  | ignored _ => exact h
  | untracked _ _ => exact hdrop
  | stale _ _ _ _ _ _ => exact hdrop
  | raised _ _ _ _ _ _ => exact h
  | failed _ _ _ _ _ _ =>
    intro k e hk
    change (Dict.set _ _ _).get? k = some e at hk
    rw [Dict.get?_set] at hk
    split at hk
    · rename_i heq
      cases hk
      exact heq.symm
    · exact h k e hk
  | delivered _ _ _ _ _ _ => exact herase
  | completed _ _ _ _ _ => exact herase

end CompletionSupport

/-! ## Every run -/

namespace Poller

variable {c : PollerConfig} {s : Poller κ π}

open CompletionSupport

/-- What the step needs to spare what is finished: of a drain, that the failures it gets are fresh. -/
def FreshFailures (c : PollerConfig) (s : Poller κ π) : PollerAction κ π → Prop
  | .drain i =>
    CompletionSupport.FreshFailures c.dlq s.offsetTrackers s.wm s.pendingDlqEvents (s.drainedEvents c i).1
  | _ => True

/-- A drain publishes nothing that is finished at that time. -/
def SparesFinished (c : PollerConfig) (s : Poller κ π) (i : DrainInput κ π) : Prop :=
  CompletionSupport.SparesFinished c.dlq s.offsetTrackers i.publish (s.polled c i).wm s.pendingDlqEvents s.log
    (s.drainedEvents c i).1

structure OnceInv (s : Poller κ π) : Prop where
  keyed : Keyed s.pendingDlqEvents
  covered : FinishedCovered s.trackers.cores s.log
  never : NeverAgain s.log

/-- Polling changes no tracker that the condition reads. -/
theorem freshFailures_polled (hshared : s.wm.AllShared) (i : DrainInput κ π) :
    CompletionSupport.FreshFailures c.dlq s.offsetTrackers (s.polled c i).wm s.pendingDlqEvents
      (s.drainedEvents c i).1 ↔ s.FreshFailures c (.drain i) := by
  have hcores : (s.polled c i).wm.heap.map (·.core) = s.wm.heap.map (·.core) :=
    congrArg TrackerView.cores (trackers_polled c s hshared i)
  have hsame : ∀ {wm wm' : WorkManager (SubmitKey κ) π}, wm'.heap.map (·.core) = wm.heap.map (·.core) →
      ∀ {r t}, wm'.trackerAt r = some t → ∃ t', wm.trackerAt r = some t' ∧ t'.core = t.core := by
    intro wm wm' heq r t ht
    have hcore := cores_eq_of_trackerAt ht
    rw [heq, List.getElem?_map] at hcore
    exact Option.map_eq_some_iff.mp hcore
  have hmono : ∀ {wm wm' : WorkManager (SubmitKey κ) π}, wm'.heap.map (·.core) = wm.heap.map (·.core) →
      CompletionSupport.FreshFailures c.dlq s.offsetTrackers wm s.pendingDlqEvents (s.drainedEvents c i).1 →
      CompletionSupport.FreshFailures c.dlq s.offsetTrackers wm' s.pendingDlqEvents (s.drainedEvents c i).1 := by
    intro wm wm' heq h pre x post hsplit hneeds hunhidden r t hr ht hepoch
    obtain ⟨t', ht', hcore⟩ := hsame heq ht
    have hepoch' : t'.epoch = t.epoch := congrArg OffsetTracker.Core.epoch hcore
    rw [← hcore]
    exact h pre x post hsplit hneeds hunhidden r t' hr ht' (hepoch.trans hepoch'.symm)
  exact ⟨hmono hcores.symm, hmono hcores⟩

theorem separate_offsetTrackers (hsafe : s.trackers.Safe c.dlq) : Separate s.offsetTrackers :=
  fun _ _ _ hr hr' => installed_inj hsafe hr hr'

/-- **One drain.** -/
theorem sparesFinished_drain_iff (hsafety : SafetyInv c.dlq s) (hkeyed : Keyed s.pendingDlqEvents)
    (i : DrainInput κ π) :
    (∀ publish, s.SparesFinished c { i with publish := publish }) ↔ s.FreshFailures c (.drain i) :=
  (sparesFinished_iff (separate_offsetTrackers hsafety.safe) hkeyed).trans (freshFailures_polled hsafety.shared i)

theorem onceInv_drain (h : s.OnceInv) (hsafety : SafetyInv c.dlq s) {i : DrainInput κ π}
    (hspares : s.SparesFinished c i) : (s.drain c i).OnceInv := by
  have hpolled : (s.polled c i).OnceInv :=
    ⟨h.keyed, trackers_polled c s hsafety.shared i ▸ h.covered, h.never⟩
  have hprocessed : ((s.polled c i).processCompleted c i.publish (s.drainedEvents c i).1).2.OnceInv := by
    let P : Processing κ π → Prop := fun q =>
      Keyed q.pendingDlqEvents ∧ FinishedCovered (q.wm.heap.map (·.core)) q.log ∧ NeverAgain q.log
    have hend : P (processCompletedEvents c.dlq s.offsetTrackers i.publish (s.polled c i).wm s.pendingDlqEvents s.log
        (s.drainedEvents c i).1).2 := by
      refine processEvents_turns (fun pre x post q ok q' hsplit hrun hq hstep => ?_)
        ⟨h.keyed, hpolled.covered, h.never⟩
      refine ⟨keyed_eventStep hq.1 hstep, finished_eventStep hq.2.1 hq.2.2 (fun r t hreach => ?_) hstep⟩
      exact hspares pre x q ⟨⟨post, hsplit⟩, hrun⟩ (deadLetters_iff.mpr ⟨r, t, hreach⟩) r t
        hreach.current.installed hreach.current.tracker
    exact ⟨hend.1, hend.2.1, hend.2.2⟩
  rcases drain_cases c s i with heq | heq | ⟨s', hs', heq⟩
  · rw [heq]
    exact hpolled
  · rw [heq]
    exact hprocessed
  · rw [heq]
    rw [← hs'] at hprocessed
    have hshared : s'.wm.AllShared := hs' ▸ allShared_processCompleted c (s.polled c i)
      ((trackerFrame_drainedEvents c s hsafety.shared i).allShared hsafety.shared) _ _
    have hframe : ({ s' with wm := s'.wm.schedule c.workManager i.env } : Poller κ π).trackers = s'.trackers :=
      trackers_of_frame (WorkManager.trackerFrame_schedule s'.wm hshared) rfl rfl
    exact ⟨hprocessed.keyed, hframe ▸ hprocessed.covered, hprocessed.never⟩

/-- Only drains and the end of a revocation change the ledger. -/
theorem pendingDlqEvents_next (a : PollerAction κ π) (hdrain : ∀ i, a ≠ .drain i) (hcleanup : a ≠ .cleanupRevoke) :
    ((pollerMachine κ π c).next s a).pendingDlqEvents = s.pendingDlqEvents := by
  have hcommit : ∀ (s : Poller κ π) tp o, (s.commitTracker tp o).pendingDlqEvents = s.pendingDlqEvents := by
    intro s tp o
    unfold commitTracker
    split <;> rfl
  cases a with
  | consumeBegin => rfl
  | consumeEnd => rfl
  | assign committed partitions =>
    show (s.assign c committed partitions).pendingDlqEvents = s.pendingDlqEvents
    unfold assign
    split <;> rfl
  | prepareRevoke tps =>
    have hfold : ∀ (candidates : Dict TopicPartition CommitCandidate) (l : List TopicPartition)
        (a : Poller κ π × List (TrackerRef × KafkaTopicPartition)),
        (l.foldl (prepareRevokeOne c candidates) a).1.pendingDlqEvents = a.1.pendingDlqEvents := by
      intro candidates l
      induction l with
      | nil => intro a; rfl
      | cons tp l ih =>
        intro a
        refine (ih _).trans ?_
        rcases prepareRevokeOne_cases c candidates a tp with ⟨-, heq⟩ | ⟨r, t, -, heq, -⟩
        · rw [heq]
        · rw [heq]
    exact hfold _ tps (s.stopRevoked c tps, [])
  | revokeCommit =>
    show s.revokeCommit.pendingDlqEvents = s.pendingDlqEvents
    unfold revokeCommit
    split <;> rfl
  | cleanupRevoke => exact absurd rfl hcleanup
  | dispatch messages => rfl
  | schedule env => rfl
  | drain i => exact absurd rfl (hdrain i)
  | scan force => rfl
  | route =>
    show (s.route c).pendingDlqEvents = s.pendingDlqEvents
    unfold route
    split
    · split
      · dsimp only
        split
        · rfl
        · split <;> rfl
      · rfl
    · rfl
  | capture =>
    show (s.capture c).pendingDlqEvents = s.pendingDlqEvents
    unfold capture
    split
    · dsimp only
      split <;> rfl
    · rfl
  | directCommit outcome =>
    show (s.directCommit outcome).pendingDlqEvents = s.pendingDlqEvents
    unfold directCommit
    split <;> rfl
  | directSettle =>
    show s.directSettle.pendingDlqEvents = s.pendingDlqEvents
    have hall : ∀ (l : List Captured) (s : Poller κ π),
        (l.foldl (fun s e => s.commitTracker e.tp e.safeOffset) s).pendingDlqEvents = s.pendingDlqEvents := by
      intro l
      induction l with
      | nil => intro s; rfl
      | cons e l ih => intro s; exact (ih _).trans (hcommit s e.tp e.safeOffset)
    unfold directSettle
    split
    · rename_i commits tracked _
      exact hall tracked s
    · rfl
  | workerStart => rfl
  | workerPrepare =>
    show (s.workerPrepare c).pendingDlqEvents = s.pendingDlqEvents
    unfold workerPrepare
    split <;> rfl
  | workerCheck =>
    show s.workerCheck.pendingDlqEvents = s.pendingDlqEvents
    unfold workerCheck
    split
    · split <;> rfl
    · rfl
  | workerCommit outcome =>
    show (s.workerCommit outcome).pendingDlqEvents = s.pendingDlqEvents
    unfold workerCommit
    split <;> rfl
  | workerResume =>
    show s.workerResume.pendingDlqEvents = s.pendingDlqEvents
    unfold workerResume
    split
    · dsimp only
      split <;> rfl
    all_goals rfl
  | workerSettle =>
    show s.workerSettle.pendingDlqEvents = s.pendingDlqEvents
    have hall : ∀ (l : List CommitCandidate) (a : Poller κ π × List TopicPartition),
        (l.foldl settleOne a).1.pendingDlqEvents = a.1.pendingDlqEvents := by
      intro l
      induction l with
      | nil => intro a; rfl
      | cons b l ih =>
        intro a
        refine (ih _).trans ?_
        unfold settleOne
        split
        · rfl
        · split
          · rfl
          · split
            · rfl
            · split
              · rfl
              · exact hcommit a.1 b.tp b.safeOffset
    unfold workerSettle
    split
    · rename_i settlements _
      exact hall settlements (s, [])
    · rfl
  | workerRetain =>
    show s.workerRetain.pendingDlqEvents = s.pendingDlqEvents
    unfold workerRetain
    split <;> rfl

/-- Only drains make entries in the ledger. -/
theorem ledger_next (a : PollerAction κ π) (ha : ∀ i, a ≠ .drain i) {k : TopicPartition × Int}
    {e : CompletionEvent} (he : ((pollerMachine κ π c).next s a).pendingDlqEvents.get? k = some e) :
    s.pendingDlqEvents.get? k = some e := by
  by_cases hcleanup : a = .cleanupRevoke
  · subst hcleanup
    change s.cleanupRevokeSync.pendingDlqEvents.get? k = some e at he
    unfold cleanupRevokeSync at he
    split at he
    · exact he
    · rw [Dict.get?_filter] at he
      exact (Option.filter_eq_some_iff.mp he).1
  · exact pendingDlqEvents_next a ha hcleanup ▸ he

/-- **One step** of the poller. -/
theorem onceInv_next (h : s.OnceInv) (hsafety : SafetyInv c.dlq s) {a : PollerAction κ π}
    (ha : s.FreshFailures c a) : ((pollerMachine κ π c).next s a).OnceInv := by
  by_cases hdrain : ∃ i, a = .drain i
  · obtain ⟨i, rfl⟩ := hdrain
    exact onceInv_drain h hsafety ((sparesFinished_drain_iff hsafety h.keyed i).mpr ha i.publish)
  · have hquiet : ∀ e, ¬s.Processed c a e := by
      intro e he
      cases a with
      | drain i => exact hdrain ⟨i, rfl⟩
      | _ => exact he
    have hrun := trackerRun_next c s hsafety.shared hsafety.holds a
    have hend := TrackerRun.invariant (I := fun v => FinishedCovered v.cores v.log ∧ NeverAgain v.log) hrun
      ⟨h.covered, h.never⟩ fun u w _ hu hstep => finished_step hquiet hu.1 hu.2 hstep
    refine ⟨fun k e he => h.keyed k e ?_, hend.1, hend.2⟩
    exact ledger_next a (fun i heq => hdrain ⟨i, heq⟩) he

theorem onceInv_reachable (h : (pollerMachine κ π c).ReachableBy (FreshFailures c) s) :
    SafetyInv c.dlq s ∧ s.OnceInv := by
  refine (pollerMachine κ π c).invariant (I := fun s => SafetyInv c.dlq s ∧ s.OnceInv) ?_
    (fun s a hs _ ha => ⟨safetyInv_next hs.1 a, onceInv_next hs.2 hs.1 ha⟩) h
  rintro s ⟨circuit, rfl⟩
  refine ⟨safetyInv_reachable (c := c) (p := fun _ _ => True) (.start ⟨circuit, rfl⟩), ?_, ?_, ?_⟩
  · intro k e he
    cases he
  · rintro r o ⟨entry, hentry, -⟩
    cases hentry
  · intro newer entry older r e hlog
    cases newer <;> cases hlog

end Poller

/-- **A finished offset is never published.** In every state of a run whose drains get fresh failures only:
such a drain publishes nothing, and puts nothing into the ledger, that is finished at that time, and only
such a drain does so whatever becomes of its publications; nothing in the history was published or made
pending after it was delivered, marked or restored for the same assignment. -/
theorem finished_never_published {c : PollerConfig} {s : Poller κ π}
    (h : (pollerMachine κ π c).ReachableBy (Poller.FreshFailures c) s) :
    (∀ i, (∀ publish, s.SparesFinished c { i with publish := publish }) ↔ s.FreshFailures c (.drain i)) ∧
    NeverAgain s.log := by
  obtain ⟨hsafety, honce⟩ := Poller.onceInv_reachable h
  exact ⟨Poller.sparesFinished_drain_iff hsafety honce.keyed, honce.never⟩

section Examples

def failedFive (error : String) : CompletionEvent :=
  { id := .uuid 0, tp := ⟨"t", 0⟩, offset := 5, epoch := 1, status := .failure, error := some (.text error)
    attempt := 1 }

/-- Offset 5 has blocked for too long; its failure is published. -/
def timedOutFive : List (PollerAction Nat Unit) :=
  sampleAssign 5 ++ sampleDispatch [5] ++
    [.drain
      { env := acceptingEnv _ _, engineEvents := [], timedOut := [(⟨"t", 0⟩, 5, "blocked")], lateEvents := []
        publish := fun _ => .delivered }]

theorem finished_never_published_timedOutFive :
    let s := (pollerMachine Nat Unit (sampleConfig false)).run (.new none) timedOutFive
    .published 0 (failedFive "blocked") .delivered ∈ s.log ∧ NeverAgain s.log := by
  intro s
  have hreach : (pollerMachine Nat Unit (sampleConfig false)).ReachableBy
      (Poller.FreshFailures (sampleConfig false)) s := by
    refine (pollerMachine Nat Unit (sampleConfig false)).reachableBy_run timedOutFive
      (.start ⟨none, rfl⟩) ⟨⟨rfl, trivial⟩, trivial, ⟨by decide, trivial⟩, trivial, ⟨by decide, trivial⟩, trivial,
        ⟨rfl, trivial⟩, trivial, ⟨rfl, acceptsPrefix_acceptingEnv⟩, trivial,
        ⟨rfl, acceptsPrefix_acceptingEnv⟩, ?_, trivial⟩
    intro pre x post hsplit _ _ r t hr ht _
    let before := (pollerMachine Nat Unit (sampleConfig false)).run (.new none) (sampleAssign 5 ++ sampleDispatch [5])
    -- the forced failure is the only event
    have hpre : pre = [] ∧ x.event = failedFive "blocked" := by
      cases pre with
      | nil => cases hsplit; exact ⟨rfl, rfl⟩
      | cons _ pre => cases pre <;> cases hsplit
    obtain ⟨rfl, hx⟩ := hpre
    rw [hx] at hr ⊢
    have hopen : (before.wm.trackerAt 0).all
        (fun t => decide (t.lastCommittedOffset < 5) && decide (5 ∉ t.completedOffsets)) = true := by decide
    cases (show some 0 = some r from hr)
    rw [show before.wm.trackerAt 0 = some t from ht, Option.all_some, Bool.and_eq_true, decide_eq_true_eq,
      decide_eq_true_eq] at hopen
    refine ⟨fun hcov => hcov.elim (fun hle => ?_) hopen.2, fun y hy => by cases hy⟩
    exact absurd hopen.1 (not_lt.mpr hle)
  exact ⟨by decide, (finished_never_published hreach).2⟩

/-- After that the worker reports its own failure. -/
def reportedTwice : List (PollerAction Nat Unit) := timedOutFive ++ [sampleDrain [failedFive "late"]]

theorem finished_published_again :
    let s := (pollerMachine Nat Unit (sampleConfig false)).run (.new none) reportedTwice
    (pollerMachine Nat Unit (sampleConfig false)).Reachable s ∧
    (∃ newer older, s.log = newer ++ .published 0 (failedFive "late") .delivered :: older ∧
      .published 0 (failedFive "blocked") .delivered ∈ older ∧
      .marked 0 (failedFive "blocked") true ∈ older) ∧
    ¬NeverAgain s.log := by
  intro s
  have hlog : s.log = [.marked 0 (failedFive "late") false] ++ .published 0 (failedFive "late") .delivered ::
      ((pollerMachine Nat Unit (sampleConfig false)).run (.new none) timedOutFive).log := by decide
  refine ⟨reachable_of_readyRun (by decide) ?_, ⟨_, _, hlog, by decide, by decide⟩, fun h => ?_⟩
  · simp [reportedTwice, timedOutFive, sampleAssign, sampleDispatch, sampleDrain, PollerAction.Lawful,
      acceptsPrefix_acceptingEnv]
  · refine h _ _ _ 0 (failedFive "late") hlog (.inr ⟨_, rfl⟩) ?_
    exact ⟨.marked 0 (failedFive "blocked") true, by decide, rfl, rfl⟩

end Examples

end PyrallelConsumer
