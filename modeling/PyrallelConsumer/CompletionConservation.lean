import PyrallelConsumer.CompletionLoop

/-!
# PyrallelConsumer.CompletionConservation

What one call of `process_completed_events` does with its events and with the ledger of pending
publications. As long as no publication raises, each event ends as one of: marked, retained in the ledger,
or dropped for a reason; and the call reports exactly the offsets that it added to the trackers.

* `Conserving` — the invariant over the events that the loop has come to.
* `conserving_step`, `conserving_processEventsBy` — one event, and the whole loop.
* `completions_conserved_iff` — when a call conserves its events.
-/

set_option linter.unusedSectionVars false

namespace PyrallelConsumer

namespace CompletionSupport

variable {κ π : Type} [DecidableEq κ]

/-! ## What is to be shown -/

/-- What became of an event of the call, in the state after it. -/
inductive Fate (offsetTrackers : Dict TopicPartition TrackerRef)
    (pending : Dict (TopicPartition × Int) CompletionEvent) (s : Processing κ π) (x : Sourced) : Prop where
  | marked (r : TrackerRef) (t : OffsetTracker) (hr : offsetTrackers.get? x.event.tp = some r)
      (ht : s.wm.trackerAt r = some t)
      (h : x.event.offset ∈ t.completedOffsets ∨ x.event.offset ≤ t.lastCommittedOffset)
  | retained (h : s.pendingDlqEvents.get? (pendingKey x.event) = some x.event)
  | untracked (h : (offsetTrackers.get? x.event.tp).bind s.wm.trackerAt = none)
  | stale (r : TrackerRef) (t : OffsetTracker) (hr : offsetTrackers.get? x.event.tp = some r)
      (ht : s.wm.trackerAt r = some t) (h : x.event.epoch ≠ t.epoch)
  | duplicate (hfresh : x.fromPendingLedger = false)
      (h : pending.contains (pendingKey x.event) = true ∨ s.pendingDlqEvents.contains (pendingKey x.event) = true)

/-- The offset was not in the completed set of the partition's tracker, and now it is. -/
def NewlyCompleted (offsetTrackers : Dict TopicPartition TrackerRef) (wm wm' : WorkManager (SubmitKey κ) π)
    (tp : TopicPartition) (offset : Int) : Prop :=
  ∃ r t t', offsetTrackers.get? tp = some r ∧ wm.trackerAt r = some t ∧ wm'.trackerAt r = some t' ∧
    offset ∉ t.completedOffsets ∧ offset ∈ t'.completedOffsets

/-- The offsets that a call reports for a partition. -/
def Processing.reported (s : Processing κ π) (tp : TopicPartition) : List Int :=
  (s.completedOffsets.get? tp).getD []

def PollerEntry.isChange : PollerEntry κ π → Bool
  | .marked _ _ changed => changed
  | _ => false

/-- `completed_count`: one for every mark that changed a completed set. -/
def changes (log : List (PollerEntry κ π)) : Nat := log.countP PollerEntry.isChange

/-- One call disposes of all its events and reports what it did. -/
structure Conserved (offsetTrackers : Dict TopicPartition TrackerRef) (wm : WorkManager (SubmitKey κ) π)
    (pending : Dict (TopicPartition × Int) CompletionEvent) (log : List (PollerEntry κ π))
    (completedEvents : List CompletionEvent) (result : Bool × Processing κ π) : Prop where
  returned : result.1 = true
  disposed : ∀ x ∈ eventsToProcess pending completedEvents, Fate offsetTrackers pending result.2 x
  exact : ∀ tp, (result.2.reported tp).Nodup ∧
    ∀ offset, offset ∈ result.2.reported tp ↔ NewlyCompleted offsetTrackers wm result.2.wm tp offset
  counted : changes result.2.log = changes log + result.2.completedOffsets.sum List.length

/-! ## Trackers -/

/-- The tracker only gained completed offsets. -/
structure Grown (t t' : OffsetTracker) : Prop where
  epoch : t'.epoch = t.epoch
  lastCommittedOffset : t'.lastCommittedOffset = t.lastCommittedOffset
  completed : ∀ offset ∈ t.completedOffsets, offset ∈ t'.completedOffsets

/-- Every tracker is there as before, grown. -/
def Kept (wm wm' : WorkManager (SubmitKey κ) π) : Prop :=
  ∀ r, match wm.trackerAt r, wm'.trackerAt r with
    | none, none => True
    | some t, some t' => Grown t t'
    | _, _ => False

theorem kept_refl (wm : WorkManager (SubmitKey κ) π) : Kept wm wm := by
  intro r
  cases wm.trackerAt r with
  | none => trivial
  | some t => exact ⟨rfl, rfl, fun _ h => h⟩

theorem Kept.trans {wm wm' wm'' : WorkManager (SubmitKey κ) π} (h : Kept wm wm') (h' : Kept wm' wm'') :
    Kept wm wm'' := by
  intro r
  have h := h r
  have h' := h' r
  cases h₀ : wm.trackerAt r <;> cases h₁ : wm'.trackerAt r <;> cases h₂ : wm''.trackerAt r <;>
    simp only [h₀, h₁, h₂] at h h' ⊢
  exact ⟨h'.epoch.trans h.epoch, h'.lastCommittedOffset.trans h.lastCommittedOffset,
    fun o ho => h'.completed o (h.completed o ho)⟩

theorem Kept.none_iff {wm wm' : WorkManager (SubmitKey κ) π} (h : Kept wm wm') (r : TrackerRef) :
    wm'.trackerAt r = none ↔ wm.trackerAt r = none := by
  have h := h r
  cases h₀ : wm.trackerAt r <;> cases h₁ : wm'.trackerAt r <;> simp_all

theorem Kept.grown {wm wm' : WorkManager (SubmitKey κ) π} (h : Kept wm wm') {r : TrackerRef} {t t' : OffsetTracker}
    (ht : wm.trackerAt r = some t) (ht' : wm'.trackerAt r = some t') : Grown t t' := by
  have h := h r
  rw [ht, ht'] at h
  exact h

theorem Kept.exists_after {wm wm' : WorkManager (SubmitKey κ) π} (h : Kept wm wm') {r : TrackerRef}
    {t : OffsetTracker} (ht : wm.trackerAt r = some t) : ∃ t', wm'.trackerAt r = some t' ∧ Grown t t' := by
  have h := h r
  rw [ht] at h
  cases h₁ : wm'.trackerAt r with
  | none => rw [h₁] at h; cases h
  | some t' => rw [h₁] at h; exact ⟨t', rfl, h⟩

theorem Kept.exists_before {wm wm' : WorkManager (SubmitKey κ) π} (h : Kept wm wm') {r : TrackerRef}
    {t' : OffsetTracker} (ht' : wm'.trackerAt r = some t') : ∃ t, wm.trackerAt r = some t ∧ Grown t t' := by
  have h := h r
  rw [ht'] at h
  cases h₀ : wm.trackerAt r with
  | none => rw [h₀] at h; cases h
  | some t => rw [h₀] at h; exact ⟨t, rfl, h⟩

theorem kept_markComplete (wm : WorkManager (SubmitKey κ) π) (r : TrackerRef) (offset : Int) :
    Kept wm (wm.modifyTracker r (·.markComplete offset)) := by
  intro r'
  rw [WorkManager.trackerAt_modifyTracker]
  by_cases hr : r = r'
  · rw [if_pos hr]
    cases wm.trackerAt r' with
    | none => trivial
    | some t => exact ⟨by simp, by simp, fun o ho => OffsetTracker.mem_markComplete.mpr (.inl ho)⟩
  · rw [if_neg hr]
    exact kept_refl wm r'

/-- The size of the completed set tells whether the offset is new. -/
theorem markComplete_changes_iff (t : OffsetTracker) (offset : Int) :
    (t.markComplete offset).completedOffsets.size ≠ t.completedOffsets.size ↔
      t.lastCommittedOffset < offset ∧ offset ∉ t.completedOffsets := by
  rw [OffsetTracker.markComplete_completedOffsets]
  split
  · rename_i h
    rw [SortedSet.size_add_ne_iff]
    exact (and_iff_right h).symm
  · rename_i h
    simp only [ne_eq, not_true_eq_false, false_iff, not_and]
    exact fun h' => absurd h' h

/-! ## The invariant -/

section Invariant

variable {config : DlqConfig} {offsetTrackers : Dict TopicPartition TrackerRef} {publish : Nat → PublishOutcome}
  {wm : WorkManager (SubmitKey κ) π} {pending : Dict (TopicPartition × Int) CompletionEvent}
  {log : List (PollerEntry κ π)} {done : List Sourced} {s s' : Processing κ π} {x : Sourced}

/-- The event is of the assignment whose tracker is installed. -/
def CurrentAt (offsetTrackers : Dict TopicPartition TrackerRef) (wm : WorkManager (SubmitKey κ) π)
    (e : CompletionEvent) : Prop :=
  ∃ r t, offsetTrackers.get? e.tp = some r ∧ wm.trackerAt r = some t ∧ e.epoch = t.epoch

theorem currentAt_iff_of_kept {wm' : WorkManager (SubmitKey κ) π} (h : Kept wm wm') (e : CompletionEvent) :
    CurrentAt offsetTrackers wm' e ↔ CurrentAt offsetTrackers wm e := by
  constructor
  · rintro ⟨r, t', hr, ht', he⟩
    obtain ⟨t, ht, hg⟩ := h.exists_before ht'
    exact ⟨r, t, hr, ht, he.trans hg.epoch⟩
  · rintro ⟨r, t, hr, ht, he⟩
    obtain ⟨t', ht', hg⟩ := h.exists_after ht
    exact ⟨r, t', hr, ht', he.trans hg.epoch.symm⟩

/-- What holds after the events `done` of a call that began with `wm`, `pending` and `log`. -/
structure Conserving (offsetTrackers : Dict TopicPartition TrackerRef) (wm : WorkManager (SubmitKey κ) π)
    (pending : Dict (TopicPartition × Int) CompletionEvent) (log : List (PollerEntry κ π)) (done : List Sourced)
    (s : Processing κ π) : Prop where
  kept : Kept wm s.wm
  resolved : ∀ k ∈ s.resolvedPendingKeys, pending.contains k = true
  fates : ∀ x ∈ done, Fate offsetTrackers pending s x
  /-- A ledger entry that is current keeps fresh events of its key away. -/
  shadows : ∀ x ∈ done, x.fromPendingLedger = true → CurrentAt offsetTrackers wm x.event →
    s.pendingDlqEvents.contains (pendingKey x.event) = true ∨ pendingKey x.event ∈ s.resolvedPendingKeys
  exact : ∀ tp, (s.reported tp).Nodup ∧
    ∀ offset, offset ∈ s.reported tp ↔ NewlyCompleted offsetTrackers wm s.wm tp offset
  counted : changes s.log = changes log + s.completedOffsets.sum List.length

/-- A ledger event comes before the fresh ones and has a key of its own. -/
def InOrder (y x : Sourced) : Prop :=
  x.fromPendingLedger = true → y.fromPendingLedger = true ∧ pendingKey y.event ≠ pendingKey x.event

/-- A fate that does not rest on the ledger, or on a key that stayed as it was, is kept. -/
theorem Fate.stable {y : Sourced} (h : Fate offsetTrackers pending s y) (hkept : Kept s.wm s'.wm)
    (hpending : s.pendingDlqEvents.get? (pendingKey y.event) = none ∨
      s'.pendingDlqEvents.get? (pendingKey y.event) = s.pendingDlqEvents.get? (pendingKey y.event)) :
    Fate offsetTrackers pending s' y := by
  cases h with
  | marked r t hr ht h =>
    obtain ⟨t', ht', hg⟩ := hkept.exists_after ht
    refine .marked r t' hr ht' ?_
    rw [hg.lastCommittedOffset]
    exact h.imp_left (hg.completed _)
  | retained h =>
    rcases hpending with hnone | heq
    · rw [hnone] at h; cases h
    · exact .retained (heq.trans h)
  | untracked h =>
    refine .untracked ?_
    cases hr : offsetTrackers.get? y.event.tp with
    | none => rfl
    | some r =>
      rw [hr] at h
      exact (hkept.none_iff r).mpr h
  | stale r t hr ht h =>
    obtain ⟨t', ht', hg⟩ := hkept.exists_after ht
    exact .stale r t' hr ht' (by rw [hg.epoch]; exact h)
  | duplicate hfresh h =>
    refine .duplicate hfresh (h.imp_right fun h => ?_)
    unfold Dict.contains at h ⊢
    rcases hpending with hnone | heq
    · rw [hnone] at h; cases h
    · rw [heq]; exact h

/-- Where the step of an event that is not ignored touches the key of an earlier event, the ledger had no
entry under it. -/
theorem pending_of_step {y : Sourced} (hdup : isDuplicate s x = false) (horder : InOrder y x)
    (hother : pendingKey x.event ≠ pendingKey y.event →
      s'.pendingDlqEvents.get? (pendingKey y.event) = s.pendingDlqEvents.get? (pendingKey y.event)) :
    s.pendingDlqEvents.get? (pendingKey y.event) = none ∨
      s'.pendingDlqEvents.get? (pendingKey y.event) = s.pendingDlqEvents.get? (pendingKey y.event) := by
  by_cases hkey : pendingKey x.event = pendingKey y.event
  · left
    have hfresh : x.fromPendingLedger = false := by
      cases hx : x.fromPendingLedger with
      | false => rfl
      | true => exact absurd hkey.symm (horder hx).2
    unfold isDuplicate at hdup
    simp only [hfresh, Bool.not_false, Bool.true_and, Bool.or_eq_false_iff] at hdup
    rw [← hkey]
    have := hdup.1
    unfold Dict.contains at this
    simpa using this
  · exact .inr (hother hkey)

/-- A step touches the ledger only under the key of its event, and forgets no resolved key. -/
theorem EventStep.others (h : EventStep config offsetTrackers publish s x (true, s')) :
    (∀ k, pendingKey x.event ≠ k → s'.pendingDlqEvents.get? k = s.pendingDlqEvents.get? k) ∧
      ∀ k ∈ s.resolvedPendingKeys, k ∈ s'.resolvedPendingKeys := by
  have hdrop : (∀ k, pendingKey x.event ≠ k → (drop s x).pendingDlqEvents.get? k = s.pendingDlqEvents.get? k) ∧
      ∀ k ∈ s.resolvedPendingKeys, k ∈ (drop s x).resolvedPendingKeys := by
    unfold drop
    split
    · exact ⟨fun k hk => (Dict.get?_erase _ _ _).trans (if_neg hk), fun _ h => h⟩
    · exact ⟨fun _ _ => rfl, fun _ h => h⟩
  have hcomplete : ∀ (s : Processing κ π) r t,
      (∀ k, pendingKey x.event ≠ k → (complete s x r t).pendingDlqEvents.get? k = s.pendingDlqEvents.get? k) ∧
        ∀ k ∈ s.resolvedPendingKeys, k ∈ (complete s x r t).resolvedPendingKeys := by
    intro s r t
    refine ⟨fun k hk => (Dict.get?_erase _ _ _).trans (if_neg hk), fun k hk => ?_⟩
    show k ∈ (if x.fromPendingLedger = true then _ else _)
    split
    · exact mem_appendKey.mpr (.inl hk)
    · exact hk
  cases h with
  | ignored hdup => exact ⟨fun _ _ => rfl, fun _ h => h⟩
  | untracked hdup hnone => exact hdrop
  | stale hdup r t hr ht hepoch => exact hdrop
  | failed hdup r t hcur hneeds hout =>
    exact ⟨fun k hk => (Dict.get?_set _ _ _ _).trans (if_neg hk), fun _ h => h⟩
  | delivered hdup r t hcur hneeds hout => exact hcomplete (recordPublish s x.event r .delivered) r t
  | completed hdup r t hcur hpass => exact hcomplete s r t

/-- A key that is shadowed stays so. -/
theorem shadow_stable {y : Sourced} (hdup : isDuplicate s x = false) (horder : InOrder y x)
    (hother : ∀ k, pendingKey x.event ≠ k → s'.pendingDlqEvents.get? k = s.pendingDlqEvents.get? k)
    (hresolved : ∀ k ∈ s.resolvedPendingKeys, k ∈ s'.resolvedPendingKeys)
    (h : s.pendingDlqEvents.contains (pendingKey y.event) = true ∨ pendingKey y.event ∈ s.resolvedPendingKeys) :
    s'.pendingDlqEvents.contains (pendingKey y.event) = true ∨ pendingKey y.event ∈ s'.resolvedPendingKeys := by
  refine h.imp (fun h => ?_) (hresolved _)
  unfold Dict.contains at h ⊢
  rcases pending_of_step hdup horder (hother _) with hnone | heq
  · rw [hnone] at h; cases h
  · rw [heq]; exact h

/-- A step that leaves the trackers and the report alone. -/
theorem Conserving.next (h : Conserving offsetTrackers wm pending log done s) (hdup : isDuplicate s x = false)
    (horder : ∀ y ∈ done, InOrder y x) (hwm : s'.wm = s.wm)
    (hresolved : s'.resolvedPendingKeys = s.resolvedPendingKeys)
    (hoffsets : s'.completedOffsets = s.completedOffsets) (hlog : changes s'.log = changes s.log)
    (hother : ∀ k, pendingKey x.event ≠ k → s'.pendingDlqEvents.get? k = s.pendingDlqEvents.get? k)
    (hfate : Fate offsetTrackers pending s' x)
    (hshadow : CurrentAt offsetTrackers wm x.event → s'.pendingDlqEvents.contains (pendingKey x.event) = true) :
    Conserving offsetTrackers wm pending log (done ++ [x]) s' := by
  have hkept : Kept s.wm s'.wm := by rw [hwm]; exact kept_refl _
  refine ⟨h.kept.trans hkept, by rw [hresolved]; exact h.resolved, fun y hy => ?_, fun y hy hledger hcur => ?_, ?_, ?_⟩
  · rcases List.mem_append.mp hy with hy | hy
    · exact (h.fates y hy).stable hkept (pending_of_step hdup (horder y hy) (hother _))
    · rw [List.mem_singleton.mp hy]
      exact hfate
  · rcases List.mem_append.mp hy with hy | hy
    · exact shadow_stable hdup (horder y hy) hother (by rw [hresolved]; exact fun _ h => h) (h.shadows y hy hledger hcur)
    · rw [List.mem_singleton.mp hy] at hcur ⊢
      exact .inl (hshadow hcur)
  · unfold Processing.reported
    rw [hoffsets, hwm]
    exact h.exact
  · rw [hlog, hoffsets]
    exact h.counted

/-- An ignored event. -/
theorem Conserving.ignored (h : Conserving offsetTrackers wm pending log done s) (hdup : isDuplicate s x = true) :
    Conserving offsetTrackers wm pending log (done ++ [x]) s := by
  unfold isDuplicate at hdup
  simp only [Bool.and_eq_true, Bool.not_eq_true', Bool.or_eq_true, decide_eq_true_eq] at hdup
  refine { h with
    fates := fun y hy => ?_
    shadows := fun y hy hledger hcur => ?_ }
  · rcases List.mem_append.mp hy with hy | hy
    · exact h.fates y hy
    · rw [List.mem_singleton.mp hy]
      exact .duplicate hdup.1 (hdup.2.elim .inr fun hk => .inl (h.resolved _ hk))
  · rcases List.mem_append.mp hy with hy | hy
    · exact h.shadows y hy hledger hcur
    · rw [List.mem_singleton.mp hy, hdup.1] at hledger
      cases hledger

/-- A dropped event. -/
theorem Conserving.dropped (h : Conserving offsetTrackers wm pending log done s) (hdup : isDuplicate s x = false)
    (horder : ∀ y ∈ done, InOrder y x) (hfate : Fate offsetTrackers pending (drop s x) x)
    (hnot : ¬CurrentAt offsetTrackers s.wm x.event) :
    Conserving offsetTrackers wm pending log (done ++ [x]) (drop s x) := by
  have hframe : (drop s x).wm = s.wm ∧ (drop s x).resolvedPendingKeys = s.resolvedPendingKeys ∧
      (drop s x).completedOffsets = s.completedOffsets ∧ (drop s x).log = s.log := by
    unfold drop
    split <;> exact ⟨rfl, rfl, rfl, rfl⟩
  obtain ⟨hwm, hresolved, hoffsets, hlog⟩ := hframe
  refine h.next hdup horder hwm hresolved hoffsets (by rw [hlog]) (fun k hk => ?_) hfate fun hcur => ?_
  · unfold drop
    split
    · exact (Dict.get?_erase _ _ _).trans (if_neg hk)
    · rfl
  · exact absurd ((currentAt_iff_of_kept h.kept _).mpr hcur) hnot

theorem Conserving.recordPublish (h : Conserving offsetTrackers wm pending log done s) (e : CompletionEvent)
    (r : TrackerRef) (outcome : PublishOutcome) :
    Conserving offsetTrackers wm pending log done (recordPublish s e r outcome) :=
  ⟨h.kept, h.resolved, fun y hy => (h.fates y hy).stable (kept_refl _) (.inr rfl), h.shadows, h.exact, h.counted⟩

/-- A failed publication. -/
theorem Conserving.retain (h : Conserving offsetTrackers wm pending log done s) (hdup : isDuplicate s x = false)
    (horder : ∀ y ∈ done, InOrder y x) (r : TrackerRef) :
    Conserving offsetTrackers wm pending log (done ++ [x]) (retain s x.event r) := by
  refine h.next hdup horder rfl rfl rfl rfl (fun k hk => ?_) (.retained ?_) fun _ => ?_
  · exact (Dict.get?_set _ _ _ _).trans (if_neg hk)
  · exact Dict.get?_set_self _ _ _
  · show (Dict.get? (Dict.set _ _ _) _).isSome = true
    rw [Dict.get?_set_self]
    rfl

/-- Distinct partitions have distinct trackers. -/
def Separate (offsetTrackers : Dict TopicPartition TrackerRef) : Prop :=
  ∀ tp tp' r, offsetTrackers.get? tp = some r → offsetTrackers.get? tp' = some r → tp = tp'

/-- The mark of an event adds its offset to the new ones of its partition, unless it was covered. -/
theorem newlyCompleted_markComplete {e : CompletionEvent} {r : TrackerRef} {t : OffsetTracker}
    (hsep : Separate offsetTrackers) (hkept : Kept wm s.wm) (hcur : Current offsetTrackers s e r t)
    (tp : TopicPartition) (offset : Int) :
    NewlyCompleted offsetTrackers wm (s.wm.modifyTracker r (·.markComplete e.offset)) tp offset ↔
      NewlyCompleted offsetTrackers wm s.wm tp offset ∨
        (tp = e.tp ∧ offset = e.offset ∧ t.lastCommittedOffset < e.offset ∧ e.offset ∉ t.completedOffsets) := by
  unfold NewlyCompleted
  constructor
  · rintro ⟨r', t₀, t', hr', ht₀, ht', hnew, hmem⟩
    rw [WorkManager.trackerAt_modifyTracker] at ht'
    split at ht'
    · rename_i heq
      subst heq
      rw [hcur.tracker, Option.map_some, Option.some.injEq] at ht'
      subst ht'
      rcases OffsetTracker.mem_markComplete.mp hmem with hold | ⟨rfl, hlt⟩
      · exact .inl ⟨r, t₀, t, hr', ht₀, hcur.tracker, hnew, hold⟩
      · by_cases hold : e.offset ∈ t.completedOffsets
        · exact .inl ⟨r, t₀, t, hr', ht₀, hcur.tracker, hnew, hold⟩
        · exact .inr ⟨hsep _ _ r hr' hcur.installed, rfl, hlt, hold⟩
    · exact .inl ⟨r', t₀, t', hr', ht₀, ht', hnew, hmem⟩
  · rintro (⟨r', t₀, t', hr', ht₀, ht', hnew, hmem⟩ | ⟨rfl, rfl, hlt, hnew⟩)
    · obtain ⟨t'', ht'', hg⟩ := (kept_markComplete s.wm r e.offset).exists_after ht'
      exact ⟨r', t₀, t'', hr', ht₀, ht'', hnew, hg.completed _ hmem⟩
    · obtain ⟨t₀, ht₀, hg⟩ := hkept.exists_before hcur.tracker
      refine ⟨r, t₀, t.markComplete e.offset, hcur.installed, ht₀, ?_, fun h => hnew (hg.completed _ h),
        OffsetTracker.mem_markComplete.mpr (.inr ⟨rfl, hlt⟩)⟩
      rw [WorkManager.trackerAt_modifyTracker, if_pos rfl, hcur.tracker]
      rfl

/-- What a marked event adds to the report. -/
theorem reported_complete (s : Processing κ π) (x : Sourced) (r : TrackerRef) (t : OffsetTracker)
    (tp : TopicPartition) :
    (complete s x r t).reported tp =
      if tp = x.event.tp ∧ t.lastCommittedOffset < x.event.offset ∧ x.event.offset ∉ t.completedOffsets then
        s.reported tp ++ [x.event.offset]
      else s.reported tp := by
  unfold complete Processing.reported
  dsimp only
  by_cases hchanged : (t.markComplete x.event.offset).completedOffsets.size ≠ t.completedOffsets.size
  · rw [if_pos hchanged, Dict.get?_set]
    have hnew := (markComplete_changes_iff t x.event.offset).mp hchanged
    by_cases htp : tp = x.event.tp
    · rw [if_pos htp.symm, if_pos ⟨htp, hnew⟩, htp]
      rfl
    · rw [if_neg (Ne.symm htp), if_neg (fun h => htp h.1)]
  · rw [if_neg hchanged, if_neg (fun h => hchanged ((markComplete_changes_iff t x.event.offset).mpr h.2))]

theorem counted_complete (s : Processing κ π) (x : Sourced) (r : TrackerRef) (t : OffsetTracker) {n : Nat}
    (h : changes s.log = n + s.completedOffsets.sum List.length) :
    changes (complete s x r t).log = n + (complete s x r t).completedOffsets.sum List.length := by
  unfold complete changes
  dsimp only
  by_cases hchanged : (t.markComplete x.event.offset).completedOffsets.size ≠ t.completedOffsets.size
  · rw [if_pos hchanged, List.countP_cons_of_pos (by simpa [PollerEntry.isChange] using hchanged)]
    have hsum := Dict.sum_set s.completedOffsets List.length x.event.tp
      ((s.completedOffsets.get? x.event.tp).getD [] ++ [x.event.offset])
    unfold changes at h
    cases hget : s.completedOffsets.get? x.event.tp with
    | none =>
      rw [hget] at hsum
      simp only [Option.elim_none, Option.getD_none, List.nil_append, List.length_singleton] at hsum ⊢
      omega
    | some l =>
      rw [hget] at hsum
      simp only [Option.elim_some, Option.getD_some, List.length_append, List.length_singleton] at hsum ⊢
      omega
  · rw [if_neg hchanged, List.countP_cons_of_neg (by simpa [PollerEntry.isChange] using hchanged)]
    exact h

/-- A marked event. -/
theorem Conserving.complete (h : Conserving offsetTrackers wm pending log done s) (hdup : isDuplicate s x = false)
    (horder : ∀ y ∈ done, InOrder y x) (hsep : Separate offsetTrackers)
    (hledger : x.fromPendingLedger = true → pending.contains (pendingKey x.event) = true) {r : TrackerRef}
    {t : OffsetTracker} (hcur : Current offsetTrackers s x.event r t) :
    Conserving offsetTrackers wm pending log (done ++ [x]) (complete s x r t) := by
  have hkept : Kept s.wm (CompletionSupport.complete s x r t).wm := kept_markComplete s.wm r x.event.offset
  have hother : ∀ k, pendingKey x.event ≠ k →
      (CompletionSupport.complete s x r t).pendingDlqEvents.get? k = s.pendingDlqEvents.get? k := fun k hk =>
    (Dict.get?_erase _ _ _).trans (if_neg hk)
  have hmem : ∀ k, k ∈ (CompletionSupport.complete s x r t).resolvedPendingKeys ↔
      k ∈ s.resolvedPendingKeys ∨ (x.fromPendingLedger = true ∧ k = pendingKey x.event) := by
    intro k
    show k ∈ (if x.fromPendingLedger = true then _ else _) ↔ _
    split
    · rename_i hx
      rw [mem_appendKey]
      simp [hx]
    · rename_i hx
      simp [hx]
  refine ⟨h.kept.trans hkept, fun k hk => ?_, fun y hy => ?_, fun y hy hy' hcur' => ?_, fun tp => ?_,
    counted_complete s x r t h.counted⟩
  · rcases (hmem k).mp hk with hk | ⟨hx, rfl⟩
    · exact h.resolved k hk
    · exact hledger hx
  · rcases List.mem_append.mp hy with hy | hy
    · exact (h.fates y hy).stable hkept (pending_of_step hdup (horder y hy) (hother _))
    · rw [List.mem_singleton.mp hy]
      refine .marked r (t.markComplete x.event.offset) hcur.installed ?_ ?_
      · show (WorkManager.modifyTracker _ _ _).trackerAt r = _
        rw [WorkManager.trackerAt_modifyTracker, if_pos rfl, hcur.tracker]
        rfl
      · rw [OffsetTracker.markComplete_lastCommittedOffset]
        by_cases hlt : t.lastCommittedOffset < x.event.offset
        · exact .inl (OffsetTracker.mem_markComplete.mpr (.inr ⟨rfl, hlt⟩))
        · exact .inr (not_lt.mp hlt)
  · rcases List.mem_append.mp hy with hy | hy
    · exact shadow_stable hdup (horder y hy) hother (fun k hk => (hmem k).mpr (.inl hk)) (h.shadows y hy hy' hcur')
    · rw [List.mem_singleton.mp hy] at hy' ⊢
      exact .inr ((hmem _).mpr (.inr ⟨hy', rfl⟩))
  · obtain ⟨hnodup, hiff⟩ := h.exact tp
    have hnew := newlyCompleted_markComplete hsep h.kept hcur tp
    rw [reported_complete]
    split
    · rename_i hx
      constructor
      · refine List.Nodup.append hnodup (List.nodup_singleton _) ?_
        rw [List.disjoint_singleton, hiff]
        rintro ⟨r', t₀, t', hr', -, ht', -, hmem'⟩
        rw [hx.1, hcur.installed] at hr'
        cases hr'
        rw [hcur.tracker] at ht'
        cases ht'
        exact hx.2.2 hmem'
      · intro offset
        show _ ↔ NewlyCompleted offsetTrackers wm (s.wm.modifyTracker r (·.markComplete x.event.offset)) tp offset
        rw [hnew, List.mem_append, List.mem_singleton, hiff]
        constructor
        · rintro (ho | rfl)
          · exact .inl ho
          · exact .inr ⟨hx.1, rfl, hx.2⟩
        · rintro (ho | ⟨-, ho, -⟩)
          · exact .inl ho
          · exact .inr ho
    · rename_i hx
      refine ⟨hnodup, fun offset => ?_⟩
      show _ ↔ NewlyCompleted offsetTrackers wm (s.wm.modifyTracker r (·.markComplete x.event.offset)) tp offset
      rw [hnew, hiff]
      exact ⟨.inl, fun ho => ho.elim id fun ho => absurd ⟨ho.1, ho.2.2⟩ hx⟩

/-- **One event.** -/
theorem conserving_step (h : Conserving offsetTrackers wm pending log done s) (horder : ∀ y ∈ done, InOrder y x)
    (hsep : Separate offsetTrackers)
    (hledger : x.fromPendingLedger = true → pending.contains (pendingKey x.event) = true)
    (hstep : EventStep config offsetTrackers publish s x (true, s')) :
    Conserving offsetTrackers wm pending log (done ++ [x]) s' := by
  cases hstep with
  | ignored hdup => exact h.ignored hdup
  | untracked hdup hnone =>
    refine h.dropped hdup horder (.untracked ?_) ?_
    · have hwm : (drop s x).wm = s.wm := by
        unfold drop
        split <;> rfl
      rw [hwm]
      exact hnone
    · rintro ⟨r, t, hr, ht, -⟩
      rw [hr, Option.bind_some, ht] at hnone
      cases hnone
  | stale hdup r t hr ht hepoch =>
    refine h.dropped hdup horder (.stale r t hr ?_ hepoch) ?_
    · have hwm : (drop s x).wm = s.wm := by
        unfold drop
        split <;> rfl
      rw [hwm]
      exact ht
    · rintro ⟨r', t', hr', ht', he⟩
      rw [hr] at hr'
      cases hr'
      rw [ht] at ht'
      cases ht'
      exact hepoch he
  | failed hdup r t hcur hneeds hout => exact (h.recordPublish x.event r .failed).retain hdup horder r
  | delivered hdup r t hcur hneeds hout =>
    exact (h.recordPublish x.event r .delivered).complete hdup horder hsep hledger
      ⟨hcur.installed, hcur.tracker, hcur.epoch⟩
  | completed hdup r t hcur hpass => exact h.complete hdup horder hsep hledger hcur

end Invariant

/-! ## A call -/

section Call

variable {config : DlqConfig} {offsetTrackers : Dict TopicPartition TrackerRef}
  {publisher : Nat → CompletionEvent → PublishOutcome} {wm : WorkManager (SubmitKey κ) π}
  {pending : Dict (TopicPartition × Int) CompletionEvent} {log : List (PollerEntry κ π)}
  {completedEvents : List CompletionEvent}

/-- The state in which a call enters its loop. -/
def entering (wm : WorkManager (SubmitKey κ) π) (pending : Dict (TopicPartition × Int) CompletionEvent)
    (log : List (PollerEntry κ π)) : Processing κ π := ⟨wm, pending, [], 0, .empty, log⟩

/-- `process_completed_events` with a publisher. -/
def processCompletedEventsBy (config : DlqConfig) (offsetTrackers : Dict TopicPartition TrackerRef)
    (publisher : Nat → CompletionEvent → PublishOutcome) (wm : WorkManager (SubmitKey κ) π)
    (pending : Dict (TopicPartition × Int) CompletionEvent) (log : List (PollerEntry κ π))
    (completedEvents : List CompletionEvent) : Bool × Processing κ π :=
  processEventsBy config offsetTrackers publisher (entering wm pending log)
    (eventsToProcess pending completedEvents)

/-- The ledger stores every event under its partition and offset. -/
def Keyed (pending : Dict (TopicPartition × Int) CompletionEvent) : Prop :=
  ∀ k e, pending.get? k = some e → k = pendingKey e

theorem mem_eventsToProcess {x : Sourced} (h : x ∈ eventsToProcess pending completedEvents)
    (hledger : x.fromPendingLedger = true) : ∃ k, pending.get? k = some x.event := by
  rcases List.mem_append.mp h with h | h
  · obtain ⟨e, he, rfl⟩ := List.mem_map.mp h
    exact (pending.mem_values_iff).mp he
  · obtain ⟨e, -, rfl⟩ := List.mem_map.mp h
    cases hledger

theorem contains_of_mem (hkeyed : Keyed pending) {x : Sourced} (h : x ∈ eventsToProcess pending completedEvents)
    (hledger : x.fromPendingLedger = true) : pending.get? (pendingKey x.event) = some x.event := by
  obtain ⟨k, hk⟩ := mem_eventsToProcess h hledger
  rwa [hkeyed k _ hk] at hk

/-- The ledger comes first, and its keys are distinct. -/
theorem inOrder_eventsToProcess (hkeyed : Keyed pending) (completedEvents : List CompletionEvent) :
    (eventsToProcess pending completedEvents).Pairwise InOrder := by
  refine List.pairwise_append.mpr ⟨?_, ?_, ?_⟩
  · have hvalues : pending.values.map (fun e => (⟨e, true⟩ : Sourced)) =
        pending.entries.map fun entry => ⟨entry.2, true⟩ := by
      simp [Dict.values, List.map_map, Function.comp_def]
    rw [hvalues, List.pairwise_map]
    refine (List.pairwise_map.mp pending.nodup).imp_of_mem fun {a b} ha hb hne _ => ⟨rfl, ?_⟩
    rwa [← hkeyed _ _ ((pending.mem_entries_iff).mp ha), ← hkeyed _ _ ((pending.mem_entries_iff).mp hb)]
  · rw [List.pairwise_map]
    exact List.pairwise_of_forall fun a b h => by cases h
  · intro a ha b hb hledger
    obtain ⟨e, -, rfl⟩ := List.mem_map.mp hb
    cases hledger

theorem inOrder_of_split (hkeyed : Keyed pending) {pre post : List Sourced} {x : Sourced}
    (h : eventsToProcess pending completedEvents = pre ++ x :: post) : ∀ y ∈ pre, InOrder y x := by
  have hpair := inOrder_eventsToProcess hkeyed completedEvents
  rw [h] at hpair
  exact fun y hy => (List.pairwise_append.mp hpair).2.2 y hy x List.mem_cons_self

theorem mem_of_split {pre post : List Sourced} {x : Sourced}
    (h : eventsToProcess pending completedEvents = pre ++ x :: post) :
    x ∈ eventsToProcess pending completedEvents := by
  rw [h]
  simp

/-- A ledger entry comes before every fresh event. -/
theorem mem_pre_of_ledger (hkeyed : Keyed pending) {pre post : List Sourced} {x : Sourced}
    (h : eventsToProcess pending completedEvents = pre ++ x :: post) (hfresh : x.fromPendingLedger = false)
    {k : TopicPartition × Int} {e : CompletionEvent} (he : pending.get? k = some e) : (⟨e, true⟩ : Sourced) ∈ pre := by
  have hmem : (⟨e, true⟩ : Sourced) ∈ eventsToProcess pending completedEvents :=
    List.mem_append_left _ (List.mem_map.mpr ⟨e, pending.mem_values_iff.mpr ⟨k, he⟩, rfl⟩)
  rw [h] at hmem
  rcases List.mem_append.mp hmem with hmem | hmem
  · exact hmem
  · rcases List.mem_cons.mp hmem with rfl | hmem
    · cases hfresh
    · have hpair := inOrder_eventsToProcess hkeyed completedEvents
      rw [h] at hpair
      have := (List.pairwise_cons.mp (List.pairwise_append.mp hpair).2.1).1 _ hmem rfl
      rw [hfresh] at this
      cases this.1

theorem conserving_entering : Conserving offsetTrackers wm pending log [] (entering wm pending log) := by
  refine ⟨kept_refl wm, ?_, ?_, ?_, fun tp => ⟨List.nodup_nil, fun offset => ?_⟩, rfl⟩
  · intro k hk
    cases hk
  · intro x hx
    cases hx
  · intro x hx
    cases hx
  · refine ⟨fun h => (by cases h), ?_⟩
    rintro ⟨r, t, t', -, ht, ht', hnew, hmem⟩
    rw [show (entering wm pending log).wm = wm from rfl, ht] at ht'
    cases ht'
    exact absurd hmem hnew

/-- **The loop.** -/
theorem conserving_processEventsBy (hsep : Separate offsetTrackers) (hkeyed : Keyed pending) {pre post : List Sourced}
    (hsplit : eventsToProcess pending completedEvents = pre ++ post) {s' : Processing κ π}
    (hrun : processEventsBy config offsetTrackers publisher (entering wm pending log) pre = (true, s')) :
    Conserving offsetTrackers wm pending log pre s' := by
  refine processEventsBy_induction (fun done x rest s s' hpre h hstep => ?_) conserving_entering hrun
  have hsplit' : eventsToProcess pending completedEvents = done ++ x :: (rest ++ post) := by
    rw [hsplit, hpre, List.append_assoc, List.cons_append]
  refine conserving_step h (inOrder_of_split hkeyed hsplit') hsep (fun hledger => ?_) hstep
  unfold Dict.contains
  rw [contains_of_mem hkeyed (mem_of_split hsplit') hledger]
  rfl

/-- A call that returns conserves its events. -/
theorem conserved_of_returned (hsep : Separate offsetTrackers) (hkeyed : Keyed pending)
    (h : (processCompletedEventsBy config offsetTrackers publisher wm pending log completedEvents).1 = true) :
    Conserved offsetTrackers wm pending log completedEvents
      (processCompletedEventsBy config offsetTrackers publisher wm pending log completedEvents) := by
  unfold processCompletedEventsBy at h ⊢
  cases hrun : processEventsBy config offsetTrackers publisher (entering wm pending log)
      (eventsToProcess pending completedEvents) with
  | mk ok s' =>
    rw [hrun] at h
    cases h
    have hc := conserving_processEventsBy hsep hkeyed (List.append_nil _).symm hrun
    exact ⟨rfl, hc.fates, hc.exact, hc.counted⟩

/-! ## The publisher -/

variable {β : Type}

/-- The outcome of the `n`-th publication of a call. -/
def dlqPublisher (c : DlqPublisherConfig) (cached : Nat → Option (Option β × Option β))
    (rounds : Nat → Nat → ProducerRound) (n : Nat) (e : CompletionEvent) : PublishOutcome :=
  (publishToDlq c (e.dlqRequest (cached n)) (rounds n)).1

/-- The headers of the event can be built. -/
def publishable (c : DlqPublisherConfig) (e : CompletionEvent) : Bool :=
  validateTopicName c.consumeTopic && validateTopicName c.dlqTopicSuffix && e.errorText.encodable

theorem dlqPublisher_raised_iff (c : DlqPublisherConfig) (cached : Nat → Option (Option β × Option β))
    (rounds : Nat → Nat → ProducerRound) (n : Nat) (e : CompletionEvent) :
    dlqPublisher c cached rounds n e = .raised ↔ publishable c e = false := by
  have hsome : (c.record (e.dlqRequest (cached n))).isSome = publishable c e := c.isSome_record _
  rw [← hsome]
  unfold dlqPublisher publishToDlq
  cases c.record (e.dlqRequest (cached n)) with
  | none => simp
  | some record => dsimp only; split <;> simp

/-- Without a round no publication is delivered. -/
theorem dlqPublisher_not_delivered {c : DlqPublisherConfig} (hmax : c.maxRetries ≤ 0)
    (cached : Nat → Option (Option β × Option β)) (rounds : Nat → Nat → ProducerRound) (n : Nat)
    (e : CompletionEvent) : dlqPublisher c cached rounds n e ≠ .delivered := by
  unfold dlqPublisher publishToDlq
  rw [Int.toNat_of_nonpos hmax]
  cases c.record (e.dlqRequest (cached n)) with
  | none => simp
  | some record => simp [publishLoop]

/-- A producer that delivers at once. -/
theorem dlqPublisher_not_failed {c : DlqPublisherConfig} (hmax : 1 ≤ c.maxRetries)
    (cached : Nat → Option (Option β × Option β)) (n : Nat) (e : CompletionEvent) :
    dlqPublisher c cached (fun _ _ => .flushed 0) n e ≠ .failed := by
  unfold dlqPublisher publishToDlq
  obtain ⟨m, hm⟩ : ∃ m, c.maxRetries.toNat = m + 1 := ⟨c.maxRetries.toNat - 1, by omega⟩
  rw [hm]
  cases c.record (e.dlqRequest (cached n)) with
  | none => simp
  | some record => simp [publishLoop]

/-- The earlier event keeps the later one from being looked at: it is a ledger entry of the same message
and assignment, or its publication cannot but fail. -/
def Hides (config : DlqConfig) (c : DlqPublisherConfig) (y x : Sourced) : Prop :=
  x.fromPendingLedger = false ∧ pendingKey y.event = pendingKey x.event ∧ y.event.epoch = x.event.epoch ∧
    (y.fromPendingLedger = true ∨ (c.maxRetries ≤ 0 ∧ config.needsPublish y.event = true))

/-- Every event that gets to its publication has headers that can be built. -/
def Acceptable (config : DlqConfig) (c : DlqPublisherConfig) (offsetTrackers : Dict TopicPartition TrackerRef)
    (wm : WorkManager (SubmitKey κ) π) (pending : Dict (TopicPartition × Int) CompletionEvent)
    (completedEvents : List CompletionEvent) : Prop :=
  ∀ pre x post, eventsToProcess pending completedEvents = pre ++ x :: post →
    CurrentAt offsetTrackers wm x.event → config.needsPublish x.event = true →
    (∀ y ∈ pre, ¬Hides config c y x) → publishable c x.event = true

/-- The event is of the same assignment as one of the same message that is current. -/
theorem currentAt_of_same {e e' : CompletionEvent} (h : CurrentAt offsetTrackers wm e)
    (hkey : pendingKey e' = pendingKey e) (hepoch : e'.epoch = e.epoch) : CurrentAt offsetTrackers wm e' := by
  obtain ⟨r, t, hr, ht, he⟩ := h
  have htp : e'.tp = e.tp := congrArg Prod.fst hkey
  exact ⟨r, t, by rw [htp]; exact hr, ht, hepoch.trans he⟩

/-- The key is in the ledger or was resolved in this call, so fresh events of it are ignored. -/
def Hidden (s : Processing κ π) (k : TopicPartition × Int) : Prop :=
  s.pendingDlqEvents.contains k = true ∨ k ∈ s.resolvedPendingKeys

theorem isDuplicate_iff {s : Processing κ π} {x : Sourced} :
    isDuplicate s x = true ↔ x.fromPendingLedger = false ∧ Hidden s (pendingKey x.event) := by
  simp [isDuplicate, Hidden]

/-- Where nothing is delivered, an event that needs publication hides its key. -/
theorem hidden_of_not_delivered (hsep : Separate offsetTrackers) (hkeyed : Keyed pending)
    (hpub : ∀ n e, publisher n e ≠ .delivered) {pre post : List Sourced}
    (hsplit : eventsToProcess pending completedEvents = pre ++ post) {s' : Processing κ π}
    (hrun : processEventsBy config offsetTrackers publisher (entering wm pending log) pre = (true, s')) :
    ∀ y ∈ pre, CurrentAt offsetTrackers wm y.event → config.needsPublish y.event = true →
      Hidden s' (pendingKey y.event) := by
  let P : List Sourced → Processing κ π → Prop := fun done s =>
    Conserving offsetTrackers wm pending log done s ∧
      ∀ y ∈ done, CurrentAt offsetTrackers wm y.event → config.needsPublish y.event = true →
        Hidden s (pendingKey y.event)
  have hall : P pre s' := by
    refine processEventsBy_induction (fun done x rest s s' hpre h hstep => ?_)
      ⟨conserving_entering, fun y hy => by cases hy⟩ hrun
    have hsplit' : eventsToProcess pending completedEvents = done ++ x :: (rest ++ post) := by
      rw [hsplit, hpre, List.append_assoc, List.cons_append]
    have horder := inOrder_of_split hkeyed hsplit'
    refine ⟨conserving_step h.1 horder hsep (fun hledger => ?_) hstep, fun y hy hcur hneeds => ?_⟩
    · unfold Dict.contains
      rw [contains_of_mem hkeyed (mem_of_split hsplit') hledger]
      rfl
    have hcur' := (currentAt_iff_of_kept h.1.kept y.event).mpr hcur
    rcases List.mem_append.mp hy with hy | hy
    · cases hdup : isDuplicate s x with
      | true =>
        cases hstep <;> first | exact h.2 y hy hcur hneeds | simp_all
      | false => exact shadow_stable hdup (horder y hy) hstep.others.1 hstep.others.2 (h.2 y hy hcur hneeds)
    · rw [List.mem_singleton.mp hy] at hcur' hneeds ⊢
      cases hstep with
      | ignored hdup => exact (isDuplicate_iff.mp hdup).2
      | untracked hdup hnone =>
        obtain ⟨r, t, hr, ht, -⟩ := hcur'
        rw [hr, Option.bind_some, ht] at hnone
        cases hnone
      | stale hdup r t hr ht hepoch =>
        obtain ⟨r', t', hr', ht', he⟩ := hcur'
        rw [hr] at hr'
        cases hr'
        rw [ht] at ht'
        cases ht'
        exact absurd he hepoch
      | failed hdup r t hcur hneeds hout =>
        left
        show (Dict.get? (Dict.set _ _ _) _).isSome = true
        rw [Dict.get?_set_self]
        rfl
      | delivered hdup r t hcur hneeds hout => exact absurd hout (hpub _ _)
      | completed hdup r t hcur hpass => rw [hpass] at hneeds; cases hneeds
  exact hall.2

/-- Where entries and resolved keys come from, when a publication fails only for want of rounds. -/
structure Origins (config : DlqConfig) (c : DlqPublisherConfig) (offsetTrackers : Dict TopicPartition TrackerRef)
    (wm : WorkManager (SubmitKey κ) π) (pending : Dict (TopicPartition × Int) CompletionEvent) (done : List Sourced)
    (s : Processing κ π) : Prop where
  kept : Kept wm s.wm
  entries : ∀ k e, s.pendingDlqEvents.get? k = some e →
    (pending.get? k = some e ∧ (⟨e, true⟩ : Sourced) ∉ done) ∨
      (c.maxRetries ≤ 0 ∧ ∃ y ∈ done, pendingKey y.event = k ∧ CurrentAt offsetTrackers wm y.event ∧
        config.needsPublish y.event = true)
  resolved : ∀ k ∈ s.resolvedPendingKeys, ∃ y ∈ done, y.fromPendingLedger = true ∧ pendingKey y.event = k ∧
    CurrentAt offsetTrackers wm y.event

variable {c : DlqPublisherConfig}

/-- A step that removes the entry of its event at most. -/
theorem Origins.next {done : List Sourced} {s s' : Processing κ π} {x : Sourced} (hkeyed : Keyed pending)
    (h : Origins config c offsetTrackers wm pending done s) (hkept : Kept s.wm s'.wm)
    (hentries : ∀ k e, s'.pendingDlqEvents.get? k = some e → s.pendingDlqEvents.get? k = some e ∧
      (x.fromPendingLedger = true → k ≠ pendingKey x.event))
    (hresolved : ∀ k ∈ s'.resolvedPendingKeys, k ∈ s.resolvedPendingKeys ∨
      (x.fromPendingLedger = true ∧ k = pendingKey x.event ∧ CurrentAt offsetTrackers wm x.event)) :
    Origins config c offsetTrackers wm pending (done ++ [x]) s' := by
  refine ⟨h.kept.trans hkept, fun k e hk => ?_, fun k hk => ?_⟩
  · obtain ⟨hk, hne⟩ := hentries k e hk
    rcases h.entries k e hk with ⟨hp, hnot⟩ | ⟨hmax, y, hy, hrest⟩
    · refine .inl ⟨hp, fun hmem => ?_⟩
      rcases List.mem_append.mp hmem with hmem | hmem
      · exact hnot hmem
      · have hx := List.mem_singleton.mp hmem
        exact hne (by rw [← hx]) (by rw [← hx]; exact hkeyed k e hp)
    · exact .inr ⟨hmax, y, List.mem_append_left _ hy, hrest⟩
  · rcases hresolved k hk with hk | ⟨hx, rfl, hcur⟩
    · obtain ⟨y, hy, hrest⟩ := h.resolved k hk
      exact ⟨y, List.mem_append_left _ hy, hrest⟩
    · exact ⟨x, List.mem_append_right _ List.mem_cons_self, hx, rfl, hcur⟩

theorem origins_step {done : List Sourced} {publish : Nat → PublishOutcome} {s s' : Processing κ π} {x : Sourced}
    (hkeyed : Keyed pending) (hfailed : ∀ n, publish n = .failed → c.maxRetries ≤ 0)
    (h : Origins config c offsetTrackers wm pending done s)
    (hstep : EventStep config offsetTrackers publish s x (true, s')) :
    Origins config c offsetTrackers wm pending (done ++ [x]) s' := by
  have hdrop : Origins config c offsetTrackers wm pending (done ++ [x]) (drop s x) := by
    unfold drop
    split
    · refine h.next hkeyed (kept_refl _) (fun k e hk => ?_) fun k hk => .inl hk
      dsimp only at hk
      rw [Dict.get?_erase] at hk
      split at hk
      · cases hk
      · rename_i hne
        exact ⟨hk, fun _ => Ne.symm hne⟩
    · rename_i hx
      exact h.next hkeyed (kept_refl _) (fun k e hk => ⟨hk, fun h => absurd h hx⟩) fun k hk => .inl hk
  have hcomplete : ∀ (s₁ : Processing κ π) r t, s₁.wm = s.wm → s₁.pendingDlqEvents = s.pendingDlqEvents →
      s₁.resolvedPendingKeys = s.resolvedPendingKeys → CurrentAt offsetTrackers wm x.event →
      Origins config c offsetTrackers wm pending (done ++ [x]) (complete s₁ x r t) := by
    intro s₁ r t hwm hpending hresolved hcur
    refine h.next hkeyed ?_ (fun k e hk => ?_) fun k hk => ?_
    · rw [← hwm]
      exact kept_markComplete s₁.wm r x.event.offset
    · change (Dict.erase _ _).get? k = some e at hk
      rw [Dict.get?_erase, hpending] at hk
      split at hk
      · cases hk
      · rename_i hne
        exact ⟨hk, fun _ => Ne.symm hne⟩
    · change k ∈ (if x.fromPendingLedger = true then _ else _) at hk
      rw [hresolved] at hk
      split at hk
      · rename_i hx
        rcases mem_appendKey.mp hk with hk | hk
        · exact .inl hk
        · exact .inr ⟨hx, hk, hcur⟩
      · exact .inl hk
  have hcurrent : ∀ r t, Current offsetTrackers s x.event r t → CurrentAt offsetTrackers wm x.event :=
    fun r t hcur => (currentAt_iff_of_kept h.kept _).mp ⟨r, t, hcur.installed, hcur.tracker, hcur.epoch⟩
  cases hstep with
  | ignored hdup =>
    refine h.next hkeyed (kept_refl _) (fun k e hk => ⟨hk, fun hx => ?_⟩) fun k hk => .inl hk
    rw [(isDuplicate_iff.mp hdup).1] at hx
    cases hx
  | untracked hdup hnone => exact hdrop
  | stale hdup r t hr ht hepoch => exact hdrop
  | failed hdup r t hcur hneeds hout =>
    have hnext : Origins config c offsetTrackers wm pending (done ++ [x]) { s with
        pendingDlqEvents := s.pendingDlqEvents.erase (pendingKey x.event) } := by
      refine h.next hkeyed (kept_refl _) (fun k e hk => ?_) fun k hk => .inl hk
      dsimp only at hk
      rw [Dict.get?_erase] at hk
      split at hk
      · cases hk
      · rename_i hne
        exact ⟨hk, fun _ => Ne.symm hne⟩
    refine ⟨hnext.kept, fun k e hk => ?_, hnext.resolved⟩
    change (Dict.set _ _ _).get? k = some e at hk
    rw [Dict.get?_set] at hk
    split at hk
    · rename_i heq
      exact .inr ⟨hfailed _ hout, x, List.mem_append_right _ List.mem_cons_self, heq, hcurrent r t hcur, hneeds⟩
    · rename_i hne
      exact hnext.entries k e ((Dict.get?_erase _ _ _).trans ((if_neg hne).trans hk))
  | delivered hdup r t hcur hneeds hout =>
    exact hcomplete (recordPublish s x.event r .delivered) r t rfl rfl rfl (hcurrent r t hcur)
  | completed hdup r t hcur hpass => exact hcomplete s r t rfl rfl rfl (hcurrent r t hcur)

/-- The two events are current, so they are of the same assignment. -/
theorem epoch_eq_of_currentAt {e e' : CompletionEvent} (h : CurrentAt offsetTrackers wm e)
    (h' : CurrentAt offsetTrackers wm e') (hkey : pendingKey e = pendingKey e') : e.epoch = e'.epoch := by
  obtain ⟨r, t, hr, ht, he⟩ := h
  obtain ⟨r', t', hr', ht', he'⟩ := h'
  have htp : e.tp = e'.tp := congrArg Prod.fst hkey
  rw [htp, hr'] at hr
  cases hr
  rw [ht'] at ht
  cases ht
  exact he.trans he'.symm

/-- A hidden event is ignored. -/
theorem duplicate_of_hides (hsep : Separate offsetTrackers) (hkeyed : Keyed pending)
    (hdelivered : c.maxRetries ≤ 0 → ∀ n e, publisher n e ≠ .delivered) {pre post : List Sourced} {x y : Sourced}
    (hsplit : eventsToProcess pending completedEvents = pre ++ x :: post) {s' : Processing κ π}
    (hrun : processEventsBy config offsetTrackers publisher (entering wm pending log) pre = (true, s'))
    (hcur : CurrentAt offsetTrackers wm x.event) (hy : y ∈ pre) (hides : Hides config c y x) :
    isDuplicate s' x = true := by
  obtain ⟨hfresh, hkey, hepoch, hwhy⟩ := hides
  have hcury := currentAt_of_same hcur hkey hepoch
  refine isDuplicate_iff.mpr ⟨hfresh, ?_⟩
  rw [← hkey]
  rcases hwhy with hledger | ⟨hmax, hneeds⟩
  · exact (conserving_processEventsBy hsep hkeyed hsplit hrun).shadows y hy hledger hcury
  · exact hidden_of_not_delivered hsep hkeyed (hdelivered hmax) hsplit hrun y hy hcury hneeds

theorem origins_processEventsBy (hkeyed : Keyed pending)
    (hfailed : ∀ n e, publisher n e = .failed → c.maxRetries ≤ 0) {done : List Sourced} {s' : Processing κ π}
    (hrun : processEventsBy config offsetTrackers publisher (entering wm pending log) done = (true, s')) :
    Origins config c offsetTrackers wm pending done s' := by
  refine processEventsBy_induction (fun done y rest s s' _ h hstep => ?_)
    ⟨kept_refl wm, fun k e hk => .inl ⟨hk, by simp⟩, fun k hk => by cases hk⟩ hrun
  exact origins_step hkeyed (fun n => hfailed n y.event) h hstep

/-- An ignored event is hidden by one before it. -/
theorem hides_of_duplicate (hkeyed : Keyed pending) {pre post : List Sourced} {x : Sourced} {s' : Processing κ π}
    (horigins : Origins config c offsetTrackers wm pending pre s')
    (hsplit : eventsToProcess pending completedEvents = pre ++ x :: post)
    (hcur : CurrentAt offsetTrackers wm x.event) (hdup : isDuplicate s' x = true) :
    ∃ y ∈ pre, Hides config c y x := by
  obtain ⟨hfresh, hentry | hresolved⟩ := isDuplicate_iff.mp hdup
  · obtain ⟨e, he⟩ := Option.isSome_iff_exists.mp hentry
    rcases horigins.entries _ e he with ⟨hp, hnot⟩ | ⟨hmax, y, hy, hkey, hcury, hneeds⟩
    · exact absurd (mem_pre_of_ledger hkeyed hsplit hfresh hp) hnot
    · exact ⟨y, hy, hfresh, hkey, epoch_eq_of_currentAt hcury hcur hkey, .inr ⟨hmax, hneeds⟩⟩
  · obtain ⟨y, hy, hledger, hkey, hcury⟩ := horigins.resolved _ hresolved
    exact ⟨y, hy, hfresh, hkey, epoch_eq_of_currentAt hcury hcur hkey, .inl hledger⟩

/-- **Completion conservation.** Whatever the producer does, a call disposes of its events and reports what
it did, exactly when every event that gets to its publication has headers that can be built. -/
theorem completions_conserved_iff (config : DlqConfig) (c : DlqPublisherConfig)
    (offsetTrackers : Dict TopicPartition TrackerRef) (hsep : Separate offsetTrackers)
    (wm : WorkManager (SubmitKey κ) π) (pending : Dict (TopicPartition × Int) CompletionEvent)
    (hkeyed : Keyed pending) (log : List (PollerEntry κ π)) (completedEvents : List CompletionEvent)
    (cached : Nat → Option (Option β × Option β)) :
    (∀ rounds, Conserved offsetTrackers wm pending log completedEvents
      (processCompletedEventsBy config offsetTrackers (dlqPublisher c cached rounds) wm pending log completedEvents)) ↔
      Acceptable config c offsetTrackers wm pending completedEvents := by
  constructor
  · -- with a producer that delivers at once, nothing but an exception could keep the event from its publication
    intro h pre x post hsplit hcur hneeds hfree
    let publisher := dlqPublisher c cached fun _ _ => .flushed 0
    have hfailed : ∀ n e, publisher n e = .failed → c.maxRetries ≤ 0 := by
      intro n e hout
      by_contra hmax
      exact dlqPublisher_not_failed (by omega) cached n e hout
    have hreturned := (h fun _ _ => .flushed 0).returned
    unfold processCompletedEventsBy at hreturned
    rw [hsplit] at hreturned
    obtain ⟨s', hrun⟩ := processEventsBy_prefix hreturned
    rw [processEventsBy_append pre (x :: post) _ s' hrun] at hreturned
    have hkept := (conserving_processEventsBy hsep hkeyed hsplit hrun).kept
    obtain ⟨r, t, hr, ht, hepoch⟩ := (currentAt_iff_of_kept hkept x.event).mpr hcur
    by_contra hbad
    have hraised : publisher s'.publishes x.event = .raised :=
      (dlqPublisher_raised_iff c cached _ _ _).mpr (Bool.eq_false_of_not_eq_true hbad)
    simp only [processEventsBy] at hreturned
    split at hreturned
    · cases hreturned
    · rename_i s'' heq
      have hstep : EventStep config offsetTrackers (fun n => publisher n x.event) s' x (true, s'') :=
        heq ▸ processEvent_step s' x
      cases hstep with
      | ignored hdup =>
        obtain ⟨y, hy, hides⟩ :=
          hides_of_duplicate hkeyed (origins_processEventsBy hkeyed hfailed hrun) hsplit hcur hdup
        exact hfree y hy hides
      | untracked hdup hnone => rw [hr, Option.bind_some, ht] at hnone; cases hnone
      | stale hdup r' t' hr' ht' hne =>
        rw [hr] at hr'
        cases hr'
        rw [ht] at ht'
        cases ht'
        exact hne hepoch
      | failed hdup r' t' hcur' hneeds' hout => rw [hraised] at hout; cases hout
      | delivered hdup r' t' hcur' hneeds' hout => rw [hraised] at hout; cases hout
      | completed hdup r' t' hcur' hpass => rw [hpass] at hneeds; cases hneeds
  · intro h rounds
    refine conserved_of_returned hsep hkeyed ?_
    by_contra hfalse
    obtain ⟨pre, x, post, s', hsplit, hrun, hbody⟩ := processEventsBy_raised _ _ (Bool.eq_false_of_not_eq_true hfalse)
    have hkept := (conserving_processEventsBy hsep hkeyed hsplit hrun).kept
    cases heq : processEvent config offsetTrackers (fun n => dlqPublisher c cached rounds n x.event) s' x with
    | mk ok s'' =>
      rw [heq] at hbody
      cases hbody
      have hstep : EventStep config offsetTrackers (fun n => dlqPublisher c cached rounds n x.event) s' x (false, s'') :=
        heq ▸ processEvent_step s' x
      cases hstep with
      | raised hdup r t hcur hneeds hout =>
        have hcurrent : CurrentAt offsetTrackers wm x.event :=
          (currentAt_iff_of_kept hkept x.event).mp ⟨r, t, hcur.installed, hcur.tracker, hcur.epoch⟩
        have hgood := h pre x post hsplit hcurrent hneeds fun y hy hides => by
          have := duplicate_of_hides hsep hkeyed (fun hmax n e => dlqPublisher_not_delivered hmax cached rounds n e)
            hsplit hrun hcurrent hy hides
          rw [hdup] at this
          cases this
        rw [(dlqPublisher_raised_iff c cached rounds _ _).mp hout] at hgood
        cases hgood

section Examples

/-- One partition, assigned at offset 5. -/
def onePartition : Dict TopicPartition TrackerRef := Dict.empty.set ⟨"t", 0⟩ 0

def oneTracker : WorkManager (SubmitKey Nat) Unit :=
  { WorkManager.new none with heap := [(OffsetTracker.new ⟨"t", 0⟩ 5 500 .empty).incrementEpoch] }

theorem separate_onePartition : Separate onePartition := by
  intro tp tp' r h h'
  unfold onePartition at h h'
  rw [Dict.get?_set] at h h'
  split at h
  · rename_i heq
    split at h'
    · rename_i heq'
      exact heq.symm.trans heq'
    · cases h'
  · cases h

def failedWith (error : PyStr) : CompletionEvent := ⟨.uuid 0, ⟨"t", 0⟩, 5, 1, .failure, some error, 3⟩

def succeeded : CompletionEvent := ⟨.uuid 1, ⟨"t", 0⟩, 6, 1, .success, none, 1⟩

def threeRetries : DlqConfig := ⟨true, 3⟩

/-- The call for a failure and the success behind it. -/
def callWith (error : PyStr) : Bool × Processing Nat Unit :=
  processCompletedEventsBy threeRetries onePartition
    (dlqPublisher samplePublisher (fun _ => (none : Option (Option Unit × Option Unit))) fun _ _ => .flushed 0)
    oneTracker .empty [] [failedWith error, succeeded]

theorem completions_conserved_iff_plain :
    Conserved onePartition oneTracker .empty [] [failedWith (.text "boom"), succeeded] (callWith (.text "boom")) := by
  refine (completions_conserved_iff threeRetries samplePublisher onePartition separate_onePartition oneTracker .empty
    (fun k e h => by cases h) [] [failedWith (.text "boom"), succeeded] fun _ => none).mpr ?_ fun _ _ => .flushed 0
  intro pre x post hsplit _ _ _
  have hx : x ∈ eventsToProcess .empty [failedWith (.text "boom"), succeeded] := mem_of_split hsplit
  have hall : ∀ x ∈ eventsToProcess .empty [failedWith (.text "boom"), succeeded],
      publishable samplePublisher x.event = true := by decide
  exact hall x hx

/-- **The lost success**: the text of the failure before it has a lone surrogate. -/
theorem success_lost_behind_surrogate :
    ¬Conserved onePartition oneTracker .empty [] [failedWith (.broken "boom " 0 []), succeeded]
      (callWith (.broken "boom " 0 [])) := by
  intro h
  cases h.disposed ⟨succeeded, false⟩ (by decide) with
  | marked r t hr ht hmarked =>
    cases (show some 0 = some r from hr)
    cases (show some (OffsetTracker.new ⟨"t", 0⟩ 5 500 .empty).incrementEpoch = some t from ht)
    exact absurd hmarked (by decide)
  | retained hr => cases (show none = some succeeded from hr)
  | untracked hnone => cases hnone
  | stale r t hr ht hepoch =>
    cases (show some 0 = some r from hr)
    cases (show some (OffsetTracker.new ⟨"t", 0⟩ 5 500 .empty).incrementEpoch = some t from ht)
    exact hepoch rfl
  | duplicate _ hdup => exact absurd hdup (by decide)

end Examples

end Call

end CompletionSupport

end PyrallelConsumer
