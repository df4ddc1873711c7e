import PyrallelConsumer.WorkTrackers

/-!
# PyrallelConsumer.Dispatch

`BrokerDispatchSupport` of `control_plane/broker_dispatch_support.py`: consumed messages become work
manager submissions, and the trackers yield the offsets that may be committed.

* `mem_skipped` — only offsets in the completed set of their partition's tracker are skipped.
* `mem_buildCommitCandidates` — a candidate is above the last committed offset and everything up to it
  is committed or completed.
-/

set_option linter.unusedSectionVars false

namespace PyrallelConsumer

/-- The virtual-queue key of a message: its partition number under partition ordering, its own key
otherwise. -/
inductive SubmitKey (κ : Type) where
  | partition (number : Int)
  | message (key : κ)
deriving DecidableEq, Repr

/-- A consumed `confluent_kafka.Message`; `error` says whether `error()` is set. -/
structure Message (κ π : Type) where
  error : Bool := false
  topic : Option String
  partition : Option Int
  offset : Option Int
  key : κ
  value : π
deriving DecidableEq, Repr

/-- The partition and offset of a message that is not skipped as malformed. -/
def Message.target {κ π : Type} (m : Message κ π) : Option (TopicPartition × Int) :=
  if m.error then none
  else
    match m.topic, m.partition, m.offset with
    | some topic, some partition, some offset => some (⟨topic, partition⟩, offset)
    | _, _, _ => none

namespace DispatchSupport

variable {κ π : Type} [DecidableEq κ]

abbrev GroupedMessages (κ π : Type) [DecidableEq κ] :=
  Dict (QueueKey (SubmitKey κ)) (List (QueuedMessage (SubmitKey κ) π))

def submitKey (mode : OrderingMode) (tp : TopicPartition) (key : κ) : SubmitKey κ :=
  match mode with
  | .partition => .partition tp.partition
  | _ => .message key

/-- `grouped_messages.setdefault(key, []).append(message)`. -/
def addGrouped (grouped : GroupedMessages κ π) (k : QueueKey (SubmitKey κ))
    (m : QueuedMessage (SubmitKey κ) π) : GroupedMessages κ π :=
  grouped.set k ((grouped.get? k).getD [] ++ [m])

/-- The state of the loop of `dispatch_messages`: the work manager, the groups collected so far and
the completed offsets skipped so far, as `record_completed_offset_skip` is told. -/
structure Loop (κ π : Type) [DecidableEq κ] where
  wm : WorkManager (SubmitKey κ) π
  grouped : GroupedMessages κ π
  skipped : List (TopicPartition × Int)

variable (mode : OrderingMode) (offsetTrackers : Dict TopicPartition TrackerRef)

/-- One iteration of the loop; the error is the `ValueError` of an unordered submission. -/
def dispatchOne (l : Loop κ π) (m : Message κ π) : Loop κ π × Except String Unit :=
  match m.target with
  | none => (l, .ok ())
  | some (tp, offset) =>
    match (offsetTrackers.get? tp).bind l.wm.trackerAt with
    | none => (l, .ok ())
    | some tracker =>
      if tracker.isCompletedUncommitted offset then
        ({ l with skipped := l.skipped ++ [(tp, offset)] }, .ok ())
      else
        match mode with
        | .unordered =>
          let (wm, result) :=
            l.wm.submitMessage tp offset tracker.epoch (submitKey mode tp m.key) m.value
          ({ l with wm := wm }, result)
        | _ =>
          ({ l with
            grouped := addGrouped l.grouped (tp, submitKey mode tp m.key)
              ⟨offset, tracker.epoch, m.value, some (.message m.key)⟩ }, .ok ())

def dispatchLoop (l : Loop κ π) : List (Message κ π) → Loop κ π × Except String Unit
  | [] => (l, .ok ())
  | m :: ms =>
    match dispatchOne mode offsetTrackers l m with
    | (l, .error e) => (l, .error e)
    | (l, .ok ()) => dispatchLoop l ms

/-- `dispatch_messages`: the work manager, the skipped offsets and whether it raised. -/
def dispatchMessages (wm : WorkManager (SubmitKey κ) π) (messages : List (Message κ π)) :
    WorkManager (SubmitKey κ) π × List (TopicPartition × Int) × Except String Unit :=
  match dispatchLoop mode offsetTrackers ⟨wm, .empty, []⟩ messages with
  | (l, .error e) => (l.wm, l.skipped, .error e)
  | (l, .ok ()) =>
    if l.grouped.entries = [] then (l.wm, l.skipped, .ok ())
    else
      let (wm, result) := l.wm.submitMessageBatch l.grouped.entries
      (wm, l.skipped, result)

/-- `build_commit_candidates`. -/
def buildCommitCandidates (wm : WorkManager (SubmitKey κ) π) : List (TopicPartition × Int) :=
  offsetTrackers.entries.filterMap fun (tp, r) =>
    match wm.trackerAt r with
    | none => none
    | some tracker =>
      let potentialHwm := tracker.getCommittableHighWaterMark (wm.getMinInFlightOffset tp)
      if potentialHwm > tracker.lastCommittedOffset then some (tp, potentialHwm) else none

/-! ## Dispatch -/

open WorkManager

variable {mode offsetTrackers}

theorem trackerFrame_dispatchOne (l : Loop κ π) (m : Message κ π) :
    TrackerFrame l.wm (dispatchOne mode offsetTrackers l m).1.wm := by
  unfold dispatchOne
  split
  · exact .refl _
  · split
    · exact .refl _
    · split
      · exact .refl _
      · cases mode with
        | unordered => exact trackerFrame_submitMessageBatch _ _
        | keyHash => exact .refl _
        | partition => exact .refl _

/-- An iteration skips at most the offset of its message, and only if the tracker of its partition
holds it as completed. -/
theorem skipped_dispatchOne (l : Loop κ π) (m : Message κ π) :
    (dispatchOne mode offsetTrackers l m).1.skipped = l.skipped ∨
    ∃ tp o r t, (dispatchOne mode offsetTrackers l m).1.skipped = l.skipped ++ [(tp, o)] ∧
      offsetTrackers.get? tp = some r ∧ l.wm.trackerAt r = some t ∧
      t.isCompletedUncommitted o = true := by
  unfold dispatchOne
  split
  · exact .inl rfl
  · rename_i tp o htarget
    split
    · exact .inl rfl
    · rename_i t ht
      obtain ⟨r, hr, htr⟩ := Option.bind_eq_some_iff.mp ht
      split
      · rename_i hskip
        exact .inr ⟨tp, o, r, t, rfl, hr, htr, hskip⟩
      · cases mode <;> exact .inl rfl

theorem dispatchLoop_spec (ms : List (Message κ π)) :
    ∀ l : Loop κ π,
      TrackerFrame l.wm (dispatchLoop mode offsetTrackers l ms).1.wm ∧
      ∀ e ∈ (dispatchLoop mode offsetTrackers l ms).1.skipped, e ∈ l.skipped ∨
        ∃ r core, offsetTrackers.get? e.1 = some r ∧ l.wm.coreAt r = some core ∧
          e.2 ∈ core.completedOffsets := by
  induction ms with
  | nil => intro l; exact ⟨.refl _, fun e he => .inl he⟩
  | cons m ms ih =>
    intro l
    have hframe := @trackerFrame_dispatchOne κ π _ mode offsetTrackers l m
    have hone : ∀ e ∈ (dispatchOne mode offsetTrackers l m).1.skipped, e ∈ l.skipped ∨
        ∃ r core, offsetTrackers.get? e.1 = some r ∧ l.wm.coreAt r = some core ∧
          e.2 ∈ core.completedOffsets := by
      intro e he
      rcases @skipped_dispatchOne κ π _ mode offsetTrackers l m with
        heq | ⟨tp, o, r, t, heq, hr, ht, hskip⟩
      · rw [heq] at he; exact .inl he
      · rw [heq] at he
        rcases List.mem_append.mp he with he | he
        · exact .inl he
        · rw [List.mem_singleton.mp he]
          refine .inr ⟨r, t.core, hr, coreAt_eq_some ht, ?_⟩
          simp only [OffsetTracker.isCompletedUncommitted, Bool.and_eq_true, decide_eq_true_eq] at hskip
          exact hskip.2
    simp only [dispatchLoop]
    split
    · rename_i l1 err heq
      rw [heq] at hframe hone
      exact ⟨hframe, hone⟩
    · rename_i l1 heq
      rw [heq] at hframe hone
      obtain ⟨h1, h2⟩ := ih l1
      refine ⟨hframe.trans h1, fun e he => ?_⟩
      rcases h2 e he with he | ⟨r, core, hr, hcore, hmem⟩
      · exact hone e he
      · exact .inr ⟨r, core, hr, by rw [← hframe.coreAt]; exact hcore, hmem⟩

theorem trackerFrame_dispatchMessages (wm : WorkManager (SubmitKey κ) π) (ms : List (Message κ π)) :
    TrackerFrame wm (dispatchMessages mode offsetTrackers wm ms).1 := by
  have h := (@dispatchLoop_spec κ π _ mode offsetTrackers ms
    ⟨wm, .empty, []⟩).1
  unfold dispatchMessages
  split
  · rename_i l e heq; rw [heq] at h; exact h
  · rename_i l heq
    rw [heq] at h
    split
    · exact h
    · exact h.trans (trackerFrame_submitMessageBatch _ _)

/-- **Only completed offsets are skipped.** Every offset that `dispatch_messages` skips is in the
completed set that the tracker of its partition had before the call. -/
theorem mem_skipped {wm : WorkManager (SubmitKey κ) π} {ms : List (Message κ π)}
    {tp : TopicPartition} {o : Int}
    (h : (tp, o) ∈ (dispatchMessages mode offsetTrackers wm ms).2.1) :
    ∃ r core, offsetTrackers.get? tp = some r ∧ wm.coreAt r = some core ∧
      o ∈ core.completedOffsets := by
  have hspec := (@dispatchLoop_spec κ π _ mode offsetTrackers ms
    ⟨wm, .empty, []⟩).2
  have hmem : (tp, o) ∈ (dispatchLoop mode offsetTrackers ⟨wm, .empty, []⟩ ms).1.skipped := by
    unfold dispatchMessages at h
    split at h
    · rename_i l e heq; rw [heq]; exact h
    · rename_i l heq
      rw [heq]
      split at h
      · exact h
      · exact h
  rcases hspec (tp, o) hmem with hnil | hfound
  · cases hnil
  · exact hfound

/-! ## Commit candidates -/

theorem mem_buildCommitCandidates {wm : WorkManager (SubmitKey κ) π} {tp : TopicPartition} {o : Int} :
    (tp, o) ∈ buildCommitCandidates offsetTrackers wm ↔
      ∃ r t, offsetTrackers.get? tp = some r ∧ wm.trackerAt r = some t ∧
        o = t.getCommittableHighWaterMark (wm.getMinInFlightOffset tp) ∧ t.lastCommittedOffset < o := by
  unfold buildCommitCandidates
  rw [List.mem_filterMap]
  constructor
  · rintro ⟨⟨tp', r⟩, hmem, hsome⟩
    have hr := (Dict.mem_entries_iff offsetTrackers).mp hmem
    dsimp only at hsome
    split at hsome
    · cases hsome
    · rename_i t ht
      split at hsome
      · rename_i hlt
        cases hsome
        exact ⟨r, t, hr, ht, rfl, hlt⟩
      · cases hsome
  · rintro ⟨r, t, hr, ht, rfl, hlt⟩
    refine ⟨(tp, r), (Dict.mem_entries_iff offsetTrackers).mpr hr, ?_⟩
    simp only [ht]
    rw [if_pos hlt]

end DispatchSupport

end PyrallelConsumer
