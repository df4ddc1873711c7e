import PyrallelConsumer.OffsetTracker

/-!
# PyrallelConsumer.TrackerCore

The part of a tracker that decides what is committed, and the offsets it covers: those at or below the
last committed one and those completed above it. Every operation only ever adds to what is covered.

* `covers_markComplete`, `covers_commitThrough` — what completing and committing add.
* `le_mark_iff` — the unclamped committable mark is the greatest offset up to which everything is
  covered.
-/

namespace PyrallelConsumer

namespace OffsetTracker

structure Core where
  topicPartition : TopicPartition
  lastCommittedOffset : Int
  completedOffsets : SortedSet Int
  epoch : Int
deriving DecidableEq, Repr

def core (t : OffsetTracker) : Core :=
  { topicPartition := t.topicPartition
    lastCommittedOffset := t.lastCommittedOffset
    completedOffsets := t.completedOffsets
    epoch := t.epoch }

namespace Core

def Covers (c : Core) (o : Int) : Prop := o ≤ c.lastCommittedOffset ∨ o ∈ c.completedOffsets

/-- Everything up to `s` is covered. -/
def CoversUpTo (c : Core) (s : Int) : Prop := ∀ o ≤ s, c.Covers o

def WellFormed (c : Core) : Prop := ∀ o ∈ c.completedOffsets, c.lastCommittedOffset < o

/-- The unclamped committable mark. -/
def mark (c : Core) : Int := contiguousEnd c.lastCommittedOffset c.completedOffsets.elems

theorem coversUpTo_of_le {c : Core} {s s' : Int} (h : c.CoversUpTo s) (hle : s' ≤ s) :
    c.CoversUpTo s' := fun o ho => h o (le_trans ho hle)

theorem coversUpTo_lastCommittedOffset (c : Core) : c.CoversUpTo c.lastCommittedOffset :=
  fun _ ho => .inl ho

theorem coversUpTo_mark (c : Core) : c.CoversUpTo c.mark := by
  intro o ho
  by_cases hle : o ≤ c.lastCommittedOffset
  · exact .inl hle
  · exact .inr (mem_of_le_contiguousEnd _ _ o (not_le.mp hle) ho)

/-- The mark is the greatest offset up to which everything is covered. -/
theorem le_mark_iff {c : Core} (h : c.WellFormed) (s : Int) : s ≤ c.mark ↔ c.CoversUpTo s := by
  refine ⟨fun hs => coversUpTo_of_le c.coversUpTo_mark hs, fun hs => ?_⟩
  by_contra hlt
  have hge : c.lastCommittedOffset ≤ c.mark := le_contiguousEnd _ _
  rcases hs (c.mark + 1) (by omega) with hc | hc
  · omega
  · exact contiguousEnd_succ_not_mem _ _ c.completedOffsets.sorted h hc

/-! ## Completing and committing -/

def markComplete (c : Core) (o : Int) : Core :=
  { c with
    completedOffsets := if o > c.lastCommittedOffset then c.completedOffsets.add o else c.completedOffsets }

def commitThrough (c : Core) (s : Int) : Core :=
  if s ≤ c.lastCommittedOffset then c
  else
    { c with
      completedOffsets := c.completedOffsets.filter fun o =>
        !(decide (c.lastCommittedOffset + 1 ≤ o) && decide (o ≤ s))
      lastCommittedOffset := s }

@[simp] theorem commitThrough_topicPartition (c : Core) (s : Int) :
    (c.commitThrough s).topicPartition = c.topicPartition := by
  unfold commitThrough; split <;> rfl

@[simp] theorem commitThrough_epoch (c : Core) (s : Int) : (c.commitThrough s).epoch = c.epoch := by
  unfold commitThrough; split <;> rfl

theorem commitThrough_lastCommittedOffset (c : Core) (s : Int) :
    (c.commitThrough s).lastCommittedOffset = max c.lastCommittedOffset s := by
  unfold commitThrough
  split
  · rw [max_eq_left ‹_›]
  · rw [max_eq_right (by omega)]

theorem mem_commitThrough {c : Core} {s x : Int} :
    x ∈ (c.commitThrough s).completedOffsets ↔
      x ∈ c.completedOffsets ∧ (x ≤ c.lastCommittedOffset ∨ s < x) := by
  unfold commitThrough
  split
  · refine ⟨fun hx => ⟨hx, ?_⟩, And.left⟩
    omega
  · rw [SortedSet.mem_filter]
    simp only [Bool.not_eq_true', Bool.and_eq_false_iff, decide_eq_false_iff_not]
    refine and_congr_right fun _ => ?_
    omega

theorem mem_markComplete {c : Core} {o x : Int} :
    x ∈ (c.markComplete o).completedOffsets ↔
      x ∈ c.completedOffsets ∨ (x = o ∧ c.lastCommittedOffset < o) := by
  unfold markComplete
  dsimp only
  split
  · rename_i h
    rw [SortedSet.mem_add]
    constructor
    · rintro (rfl | hx)
      · exact .inr ⟨rfl, h⟩
      · exact .inl hx
    · rintro (hx | ⟨rfl, -⟩)
      · exact .inr hx
      · exact .inl rfl
  · rename_i h
    exact ⟨.inl, fun hx => hx.elim id fun hx => absurd hx.2 h⟩

theorem covers_markComplete {c : Core} {o x : Int} :
    (c.markComplete o).Covers x ↔ c.Covers x ∨ x = o := by
  unfold Covers
  rw [mem_markComplete]
  show (x ≤ c.lastCommittedOffset ∨ _) ↔ _
  constructor
  · rintro (h | h | ⟨h, -⟩)
    · exact .inl (.inl h)
    · exact .inl (.inr h)
    · exact .inr h
  · rintro ((h | h) | rfl)
    · exact .inl h
    · exact .inr (.inl h)
    · by_cases hle : x ≤ c.lastCommittedOffset
      · exact .inl hle
      · exact .inr (.inr ⟨rfl, not_le.mp hle⟩)

theorem covers_commitThrough {c : Core} {s x : Int} :
    (c.commitThrough s).Covers x ↔ c.Covers x ∨ x ≤ s := by
  unfold Covers
  rw [mem_commitThrough, commitThrough_lastCommittedOffset, le_max_iff]
  constructor
  · rintro ((h | h) | ⟨h, -⟩)
    · exact .inl (.inl h)
    · exact .inr h
    · exact .inl (.inr h)
  · rintro ((h | h) | h)
    · exact .inl (.inl h)
    · by_cases hs : x ≤ s
      · exact .inl (.inr hs)
      · exact .inr ⟨h, .inr (not_le.mp hs)⟩
    · exact .inl (.inr h)

theorem WellFormed.markComplete {c : Core} (h : c.WellFormed) (o : Int) :
    (c.markComplete o).WellFormed := by
  intro x hx
  rcases mem_markComplete.mp hx with hx | ⟨rfl, hx⟩
  · exact h x hx
  · exact hx

theorem WellFormed.commitThrough {c : Core} (h : c.WellFormed) (s : Int) :
    (c.commitThrough s).WellFormed := by
  intro x hx
  obtain ⟨hx, hs⟩ := mem_commitThrough.mp hx
  rw [commitThrough_lastCommittedOffset]
  have := h x hx
  rcases hs with hs | hs <;> omega

end Core

theorem getCommittableHighWaterMark_le_mark (t : OffsetTracker) (m : Option Int) :
    t.getCommittableHighWaterMark m ≤ t.core.mark := by
  unfold getCommittableHighWaterMark Core.mark core
  cases m with
  | none => exact le_refl _
  | some m =>
    dsimp only
    split
    · omega
    · exact le_refl _

theorem coversUpTo_getCommittableHighWaterMark (t : OffsetTracker) (m : Option Int) :
    t.core.CoversUpTo (t.getCommittableHighWaterMark m) :=
  Core.coversUpTo_of_le t.core.coversUpTo_mark (t.getCommittableHighWaterMark_le_mark m)

/-! ## The operations on cores -/

theorem core_updateLastFetchedOffset (t : OffsetTracker) (o : Int) :
    (t.updateLastFetchedOffset o).core = t.core := by
  unfold updateLastFetchedOffset; split <;> rfl

theorem core_markComplete (t : OffsetTracker) (o : Int) :
    (t.markComplete o).core = t.core.markComplete o := by
  unfold markComplete Core.markComplete core
  dsimp only
  split
  · split <;> rfl
  · rfl

theorem core_commitThrough (t : OffsetTracker) (s : Int) :
    (t.commitThrough s).core = t.core.commitThrough s := by
  unfold commitThrough Core.commitThrough core; dsimp only; split <;> rfl

theorem core_advanceHighWaterMark (t : OffsetTracker) :
    t.advanceHighWaterMark.core = t.core.commitThrough t.core.mark := core_commitThrough t _

/-- A completion that changes the size of the completed set is of an offset that was not covered. -/
theorem not_covers_of_markComplete_size {t : OffsetTracker} {o : Int}
    (h : (t.markComplete o).completedOffsets.size ≠ t.completedOffsets.size) : ¬ t.core.Covers o := by
  rw [markComplete_completedOffsets] at h
  rintro (hle | hmem)
  · have hlt : ¬ o > t.lastCommittedOffset := not_lt.mpr hle
    exact h (by rw [if_neg hlt])
  · have hadd : t.completedOffsets.add o = t.completedOffsets := SortedSet.add_of_mem hmem
    exact h (by rw [hadd, ite_self])

end OffsetTracker

end PyrallelConsumer
