import PyrallelConsumer.Dto
import PyrallelConsumer.Lib.Dict
import PyrallelConsumer.Lib.SortedSet
import Mathlib.Algebra.Order.Ring.Int

/-!
# PyrallelConsumer.OffsetTracker

The per-partition offset tracker of `control_plane/offset_tracker.py`: the last committed offset,
the sparse set of completed offsets above it, the last fetched offset, the epoch, and the gap state
derived from them (a cached first gap head, a one-entry gap cache and the timestamps of blocking
gap heads).

* `mem_of_le_contiguousEnd` / `contiguousEnd_succ_not_mem` — the high-water-mark walk stops at the
  end of the completed run that starts after the last committed offset, and nowhere earlier.
* `WellFormed` — completed offsets lie above the last committed one; every operation keeps it.
-/

namespace PyrallelConsumer

/-- `Repeated gap pattern` counters are only logged and are left out. -/
structure OffsetTracker where
  topicPartition : TopicPartition
  lastCommittedOffset : Int
  completedOffsets : SortedSet Int
  lastFetchedOffset : Int
  maxRevokeGraceMs : Int
  epoch : Int
  blockingOffsetTimestamps : Dict Int Time
  stateVersion : Nat
  gapsCache : Option ((Int × Int × Nat) × List OffsetRange)
  firstGapHead : Option Int
deriving DecidableEq, Repr

namespace OffsetTracker

/-- The `while` loop of `_calculate_first_gap_head`, with `n` offsets left up to the last fetched
one. -/
def firstGapFrom (completed : SortedSet Int) : Nat → Int → Option Int
  | 0, _ => none
  | n + 1, current => if current ∈ completed then firstGapFrom completed n (current + 1) else some current

def calculateFirstGapHead (t : OffsetTracker) : Option Int :=
  firstGapFrom t.completedOffsets (t.lastFetchedOffset - t.lastCommittedOffset).toNat
    (t.lastCommittedOffset + 1)

def bumpVersion (t : OffsetTracker) : OffsetTracker :=
  { t with
    stateVersion := t.stateVersion + 1
    gapsCache := none
    firstGapHead := t.calculateFirstGapHead }

/-- `OffsetTracker.__init__`. -/
def new (tp : TopicPartition) (startingOffset maxRevokeGraceMs : Int)
    (initialCompletedOffsets : SortedSet Int) : OffsetTracker :=
  let t : OffsetTracker :=
    { topicPartition := tp
      lastCommittedOffset := startingOffset - 1
      completedOffsets := initialCompletedOffsets
      lastFetchedOffset := startingOffset - 1
      maxRevokeGraceMs := maxRevokeGraceMs
      epoch := 0
      blockingOffsetTimestamps := .empty
      stateVersion := 0
      gapsCache := none
      firstGapHead := none }
  { t with firstGapHead := t.calculateFirstGapHead }

def incrementEpoch (t : OffsetTracker) : OffsetTracker := { t with epoch := t.epoch + 1 }

/-- `rehydrate_assignment_state`; the error is the `ValueError` text. -/
def rehydrateAssignmentState (t : OffsetTracker) (lastCommitted lastFetched : Int) :
    Except String OffsetTracker :=
  if lastFetched < lastCommitted then
    .error "last_fetched_offset must be greater than or equal to last_committed_offset"
  else
    .ok { t with lastCommittedOffset := lastCommitted, lastFetchedOffset := lastFetched }.bumpVersion

def markComplete (t : OffsetTracker) (offset : Int) : OffsetTracker :=
  if offset > t.lastCommittedOffset then
    let t' := { t with completedOffsets := t.completedOffsets.add offset }
    if t'.completedOffsets.size ≠ t.completedOffsets.size then t'.bumpVersion else t'
  else t

def isCompletedUncommitted (t : OffsetTracker) (offset : Int) : Bool :=
  t.lastCommittedOffset < offset && offset ≤ t.lastFetchedOffset && offset ∈ t.completedOffsets

/-- The `for` loop of `get_committable_high_water_mark`: walk the completed offsets while each is
the successor of the one before. -/
def contiguousEnd : Int → List Int → Int
  | hwm, [] => hwm
  | hwm, o :: os => if o = hwm + 1 then contiguousEnd o os else hwm

def getCommittableHighWaterMark (t : OffsetTracker) (minInflightOffset : Option Int) : Int :=
  let potentialHwm := contiguousEnd t.lastCommittedOffset t.completedOffsets.elems
  match minInflightOffset with
  | some m => if m ≤ potentialHwm then m - 1 else potentialHwm
  | none => potentialHwm

def commitThrough (t : OffsetTracker) (committedOffset : Int) : OffsetTracker :=
  if committedOffset ≤ t.lastCommittedOffset then t
  else
    { t with
      completedOffsets := t.completedOffsets.filter fun o =>
        !(decide (t.lastCommittedOffset + 1 ≤ o) && decide (o ≤ committedOffset))
      lastCommittedOffset := committedOffset }.bumpVersion

def advanceHighWaterMark (t : OffsetTracker) : OffsetTracker :=
  t.commitThrough (t.getCommittableHighWaterMark none)

def updateLastFetchedOffset (t : OffsetTracker) (offset : Int) : OffsetTracker :=
  if offset > t.lastFetchedOffset then { t with lastFetchedOffset := offset }.bumpVersion else t

/-! ## Fields under the operations -/

@[simp] theorem bumpVersion_lastCommittedOffset (t : OffsetTracker) :
    t.bumpVersion.lastCommittedOffset = t.lastCommittedOffset := rfl
@[simp] theorem bumpVersion_completedOffsets (t : OffsetTracker) :
    t.bumpVersion.completedOffsets = t.completedOffsets := rfl
@[simp] theorem bumpVersion_lastFetchedOffset (t : OffsetTracker) :
    t.bumpVersion.lastFetchedOffset = t.lastFetchedOffset := rfl
@[simp] theorem bumpVersion_epoch (t : OffsetTracker) : t.bumpVersion.epoch = t.epoch := rfl

@[simp] theorem markComplete_lastCommittedOffset (t : OffsetTracker) (o : Int) :
    (t.markComplete o).lastCommittedOffset = t.lastCommittedOffset := by
  unfold markComplete
  dsimp only
  split
  · split <;> rfl
  · rfl

@[simp] theorem markComplete_epoch (t : OffsetTracker) (o : Int) :
    (t.markComplete o).epoch = t.epoch := by
  unfold markComplete
  dsimp only
  split
  · split <;> rfl
  · rfl

theorem markComplete_completedOffsets (t : OffsetTracker) (o : Int) :
    (t.markComplete o).completedOffsets =
      if o > t.lastCommittedOffset then t.completedOffsets.add o else t.completedOffsets := by
  unfold markComplete
  dsimp only
  split
  · split <;> rfl
  · rfl

theorem mem_markComplete {t : OffsetTracker} {o x : Int} :
    x ∈ (t.markComplete o).completedOffsets ↔
      x ∈ t.completedOffsets ∨ (x = o ∧ t.lastCommittedOffset < o) := by
  rw [markComplete_completedOffsets]
  split
  · rename_i h
    rw [SortedSet.mem_add]
    constructor
    · rintro (rfl | hx)
      · exact .inr ⟨rfl, h⟩
      · exact .inl hx
    · rintro (hx | ⟨rfl, -⟩)
      · exact .inr hx
      · exact .inl rfl
  · rename_i h
    exact ⟨.inl, fun hx => hx.elim id fun hx => absurd hx.2 h⟩

theorem commitThrough_lastCommittedOffset (t : OffsetTracker) (c : Int) :
    (t.commitThrough c).lastCommittedOffset = max t.lastCommittedOffset c := by
  unfold commitThrough
  split
  · rw [max_eq_left ‹_›]
  · rw [max_eq_right (by omega)]; rfl

@[simp] theorem commitThrough_epoch (t : OffsetTracker) (c : Int) :
    (t.commitThrough c).epoch = t.epoch := by
  unfold commitThrough; split <;> rfl

@[simp] theorem updateLastFetchedOffset_epoch (t : OffsetTracker) (o : Int) :
    (t.updateLastFetchedOffset o).epoch = t.epoch := by
  unfold updateLastFetchedOffset; split <;> rfl

theorem mem_commitThrough {t : OffsetTracker} {c x : Int} :
    x ∈ (t.commitThrough c).completedOffsets ↔
      x ∈ t.completedOffsets ∧ (x ≤ t.lastCommittedOffset ∨ c < x) := by
  unfold commitThrough
  split
  · refine ⟨fun hx => ⟨hx, ?_⟩, And.left⟩
    omega
  · rw [bumpVersion_completedOffsets, SortedSet.mem_filter]
    simp only [Bool.not_eq_true', Bool.and_eq_false_iff, decide_eq_false_iff_not]
    refine and_congr_right fun _ => ?_
    omega

/-! ## The high-water-mark walk -/

theorem le_contiguousEnd (l : List Int) : ∀ h, h ≤ contiguousEnd h l := by
  induction l with
  | nil => intro h; exact le_refl h
  | cons o os ih =>
    intro h
    simp only [contiguousEnd]
    split
    · have := ih o; omega
    · exact le_refl h

/-- Everything the walk passes is in the list. -/
theorem mem_of_le_contiguousEnd (l : List Int) :
    ∀ h x, h < x → x ≤ contiguousEnd h l → x ∈ l := by
  induction l with
  | nil => intro h x h1 h2; simp only [contiguousEnd] at h2; omega
  | cons o os ih =>
    intro h x h1 h2
    simp only [contiguousEnd] at h2
    split at h2
    · by_cases hx : x = o
      · simp [hx]
      · exact List.mem_cons_of_mem _ (ih o x (by omega) h2)
    · omega

/-- The walk over an increasing list above `h` stops only before a missing offset. -/
theorem contiguousEnd_succ_not_mem (l : List Int) :
    ∀ h, l.Pairwise (· < ·) → (∀ x ∈ l, h < x) → contiguousEnd h l + 1 ∉ l := by
  induction l with
  | nil => intro h _ _; simp
  | cons o os ih =>
    intro h hs hl
    obtain ⟨ho, hs⟩ := List.pairwise_cons.mp hs
    simp only [contiguousEnd]
    split
    · have h1 := ih o hs ho
      have h2 := le_contiguousEnd os o
      intro hmem
      rcases List.mem_cons.mp hmem with h3 | h3
      · omega
      · exact h1 h3
    · rename_i hne
      intro hmem
      rcases List.mem_cons.mp hmem with h3 | h3
      · exact hne h3.symm
      · have := ho _ h3
        have := hl o (by simp)
        omega

/-- The committable mark, clamped or not, is reached through completed offsets only. -/
theorem mem_of_le_getCommittableHighWaterMark {t : OffsetTracker} {m : Option Int} {x : Int}
    (h1 : t.lastCommittedOffset < x) (h2 : x ≤ t.getCommittableHighWaterMark m) :
    x ∈ t.completedOffsets := by
  refine mem_of_le_contiguousEnd _ t.lastCommittedOffset x h1 ?_
  unfold getCommittableHighWaterMark at h2
  cases m with
  | none => exact h2
  | some m =>
    simp only at h2
    split at h2 <;> omega

/-! ## Well-formedness -/

/-- Completed offsets lie above the last committed offset. -/
def WellFormed (t : OffsetTracker) : Prop := ∀ x ∈ t.completedOffsets, t.lastCommittedOffset < x

theorem WellFormed.markComplete {t : OffsetTracker} (h : t.WellFormed) (o : Int) :
    (t.markComplete o).WellFormed := by
  intro x hx
  rw [markComplete_lastCommittedOffset]
  rcases mem_markComplete.mp hx with hx | ⟨rfl, hx⟩
  · exact h x hx
  · exact hx

theorem WellFormed.commitThrough {t : OffsetTracker} (h : t.WellFormed) (c : Int) :
    (t.commitThrough c).WellFormed := by
  intro x hx
  obtain ⟨hx, hc⟩ := mem_commitThrough.mp hx
  have := h x hx
  rw [commitThrough_lastCommittedOffset]
  omega

end OffsetTracker

end PyrallelConsumer
