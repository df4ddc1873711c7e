import PyrallelConsumer.TrackerCore
import Mathlib.Order.Bounds.Defs

/-!
# PyrallelConsumer.TrackerConfluence

The workers complete offsets in any order, and commits land anywhere between the completions. What a
tracker covers only depends on which offsets were completed, since a commit up to the committable mark
covers nothing new; and after `advance_high_water_mark` the tracker only depends on what it covers.

* `covers_runAll` — what is covered after any steps.
* `advanced_eq_of_covers` — the same offsets covered, the same tracker after the final advance.
-/

namespace PyrallelConsumer

namespace OffsetTracker

/-- A step between two fetches of the consumer loop: commits are clamped by any in-flight offset. -/
inductive Progress where
  | markComplete (offset : Int)
  | advanceHighWaterMark
  | commitMark (minInflightOffset : Option Int)
  | updateLastFetchedOffset (offset : Int)
deriving DecidableEq, Repr

namespace Progress

def apply (t : OffsetTracker) : Progress → OffsetTracker
  | markComplete o => t.markComplete o
  | advanceHighWaterMark => t.advanceHighWaterMark
  | commitMark m => t.commitThrough (t.getCommittableHighWaterMark m)
  | updateLastFetchedOffset o => t.updateLastFetchedOffset o

/-- The offset a step completes. -/
def completes : Progress → Option Int
  | markComplete o => some o
  | _ => none

end Progress

def runAll (t : OffsetTracker) (steps : List Progress) : OffsetTracker := steps.foldl Progress.apply t

/-- The offsets completed by the steps, in their order. -/
def completions (steps : List Progress) : List Int := steps.filterMap Progress.completes

/-- The committable mark is the end of the completed run, and a clamp within it cuts it off below. -/
structure MarkExact (t : OffsetTracker) : Prop where
  greatest : IsGreatest
    {h | t.lastCommittedOffset ≤ h ∧ ∀ o, t.lastCommittedOffset < o → o ≤ h → o ∈ t.completedOffsets}
    (t.getCommittableHighWaterMark none)
  clamped : ∀ m ≤ t.getCommittableHighWaterMark none, t.getCommittableHighWaterMark (some m) = m - 1

/-! ## One step -/

theorem lastCommittedOffset_le_apply (t : OffsetTracker) (a : Progress) :
    t.lastCommittedOffset ≤ (a.apply t).lastCommittedOffset := by
  cases a with
  | markComplete o => exact le_of_eq (t.markComplete_lastCommittedOffset o).symm
  | advanceHighWaterMark => exact le_of_le_of_eq (le_max_left _ _) (t.commitThrough_lastCommittedOffset _).symm
  | commitMark m => exact le_of_le_of_eq (le_max_left _ _) (t.commitThrough_lastCommittedOffset _).symm
  | updateLastFetchedOffset o =>
    exact le_of_eq (congrArg Core.lastCommittedOffset (t.core_updateLastFetchedOffset o)).symm

theorem WellFormed.apply {t : OffsetTracker} (h : t.WellFormed) (a : Progress) : (a.apply t).WellFormed := by
  cases a with
  | markComplete o => exact h.markComplete o
  | advanceHighWaterMark => exact h.commitThrough _
  | commitMark m => exact h.commitThrough _
  | updateLastFetchedOffset o =>
    have hcore : (t.updateLastFetchedOffset o).core.WellFormed := by
      rw [core_updateLastFetchedOffset]
      exact h
    exact hcore

/-- A commit up to a mark covers nothing new. -/
theorem covers_commitThrough_mark {t : OffsetTracker} {s x : Int} (hs : s ≤ t.core.mark) :
    (t.commitThrough s).core.Covers x ↔ t.core.Covers x := by
  rw [core_commitThrough, Core.covers_commitThrough]
  exact or_iff_left_of_imp fun hx => t.core.coversUpTo_mark x (le_trans hx hs)

theorem covers_apply {t : OffsetTracker} (a : Progress) {x : Int} :
    (a.apply t).core.Covers x ↔ t.core.Covers x ∨ a.completes = some x := by
  cases a with
  | markComplete o =>
    show (t.markComplete o).core.Covers x ↔ _
    rw [core_markComplete, Core.covers_markComplete]
    simp only [Progress.completes, Option.some.injEq, eq_comm]
  | advanceHighWaterMark =>
    rw [or_iff_left (by simp [Progress.completes])]
    exact covers_commitThrough_mark (t.getCommittableHighWaterMark_le_mark none)
  | commitMark m =>
    rw [or_iff_left (by simp [Progress.completes])]
    exact covers_commitThrough_mark (t.getCommittableHighWaterMark_le_mark m)
  | updateLastFetchedOffset o =>
    rw [or_iff_left (by simp [Progress.completes])]
    show (t.updateLastFetchedOffset o).core.Covers x ↔ _
    rw [core_updateLastFetchedOffset]

/-! ## Runs of steps -/

theorem lastCommittedOffset_le_runAll (steps : List Progress) :
    ∀ t : OffsetTracker, t.lastCommittedOffset ≤ (t.runAll steps).lastCommittedOffset := by
  induction steps with
  | nil => intro t; exact le_refl _
  | cons a steps ih => intro t; exact le_trans (t.lastCommittedOffset_le_apply a) (ih (a.apply t))

theorem WellFormed.runAll (steps : List Progress) :
    ∀ {t : OffsetTracker}, t.WellFormed → (t.runAll steps).WellFormed := by
  induction steps with
  | nil => intro t h; exact h
  | cons a steps ih => intro t h; exact ih (h.apply a)

theorem covers_runAll (steps : List Progress) :
    ∀ {t : OffsetTracker} {x : Int},
      (t.runAll steps).core.Covers x ↔ t.core.Covers x ∨ x ∈ completions steps := by
  induction steps with
  | nil => intro t x; simp [runAll, completions]
  | cons a steps ih =>
    intro t x
    have hmem : x ∈ completions (a :: steps) ↔ a.completes = some x ∨ x ∈ completions steps := by
      simp [completions]
    rw [hmem, ← or_assoc, ← covers_apply a]
    exact ih

/-! ## The final advance -/

theorem mem_advanceHighWaterMark {t : OffsetTracker} (h : t.WellFormed) {x : Int} :
    x ∈ t.advanceHighWaterMark.completedOffsets ↔ t.core.Covers x ∧ t.core.mark < x := by
  have hge : t.lastCommittedOffset ≤ t.core.mark := le_contiguousEnd _ _
  refine mem_commitThrough.trans ?_
  show x ∈ t.completedOffsets ∧ (x ≤ t.lastCommittedOffset ∨ t.core.mark < x) ↔ _
  constructor
  · rintro ⟨hmem, hle | hlt⟩
    · exact absurd (h x hmem) (not_lt.mpr hle)
    · exact ⟨.inr hmem, hlt⟩
  · rintro ⟨hle | hmem, hlt⟩
    · have hle : x ≤ t.lastCommittedOffset := hle
      omega
    · exact ⟨hmem, .inr hlt⟩

theorem lastCommittedOffset_advanceHighWaterMark (t : OffsetTracker) :
    t.advanceHighWaterMark.lastCommittedOffset = t.core.mark := by
  refine (t.commitThrough_lastCommittedOffset _).trans (max_eq_right ?_)
  exact le_contiguousEnd _ _

/-- What a tracker covers fixes its committable mark. -/
theorem mark_eq_of_covers {t t' : OffsetTracker} (h : t.WellFormed) (h' : t'.WellFormed)
    (hcovers : ∀ x, t.core.Covers x ↔ t'.core.Covers x) : t.core.mark = t'.core.mark := by
  have hupto : ∀ s, t.core.CoversUpTo s ↔ t'.core.CoversUpTo s := fun s =>
    forall_congr' fun o => imp_congr_right fun _ => hcovers o
  have hle : ∀ s, s ≤ t.core.mark ↔ s ≤ t'.core.mark := fun s =>
    (Core.le_mark_iff (c := t.core) h s).trans ((hupto s).trans (Core.le_mark_iff (c := t'.core) h' s).symm)
  exact le_antisymm ((hle _).mp (le_refl _)) ((hle _).mpr (le_refl _))

theorem advanced_eq_of_covers {t t' : OffsetTracker} (h : t.WellFormed) (h' : t'.WellFormed)
    (hcovers : ∀ x, t.core.Covers x ↔ t'.core.Covers x) :
    t.advanceHighWaterMark.lastCommittedOffset = t'.advanceHighWaterMark.lastCommittedOffset ∧
      t.advanceHighWaterMark.completedOffsets = t'.advanceHighWaterMark.completedOffsets := by
  have hmark := mark_eq_of_covers h h' hcovers
  constructor
  · rw [lastCommittedOffset_advanceHighWaterMark, lastCommittedOffset_advanceHighWaterMark, hmark]
  · refine SortedSet.ext_mem fun x => ?_
    rw [mem_advanceHighWaterMark h, mem_advanceHighWaterMark h', hcovers x, hmark]

/-! ## The mark -/

theorem WellFormed.markExact {t : OffsetTracker} (h : t.WellFormed) : t.MarkExact := by
  have hwf : t.core.WellFormed := h
  refine ⟨⟨⟨le_contiguousEnd _ _, fun o hlt hle => ?_⟩, ?_⟩, fun m hm => ?_⟩
  · exact mem_of_le_getCommittableHighWaterMark hlt hle
  · rintro s ⟨-, hall⟩
    refine (Core.le_mark_iff hwf s).mpr fun o ho => ?_
    by_cases hle : o ≤ t.lastCommittedOffset
    · exact .inl hle
    · exact .inr (hall o (not_le.mp hle) ho)
  · exact if_pos hm

/-- The order of the completions, and where commits and fetches land between them, does not change what
the final advance makes of the tracker. -/
theorem tracker_confluence {t : OffsetTracker} (h : t.WellFormed) :
    (∀ steps steps' : List Progress, (completions steps).Perm (completions steps') →
      (t.runAll steps).advanceHighWaterMark.lastCommittedOffset =
          (t.runAll steps').advanceHighWaterMark.lastCommittedOffset ∧
        (t.runAll steps).advanceHighWaterMark.completedOffsets =
          (t.runAll steps').advanceHighWaterMark.completedOffsets) ∧
    ∀ steps more : List Progress,
      (t.runAll steps).lastCommittedOffset ≤ (t.runAll (steps ++ more)).lastCommittedOffset ∧
        (t.runAll steps).WellFormed ∧ (t.runAll steps).MarkExact := by
  refine ⟨fun steps steps' hperm => ?_, fun steps more => ?_⟩
  · refine advanced_eq_of_covers (WellFormed.runAll steps h) (WellFormed.runAll steps' h) fun x => ?_
    rw [covers_runAll, covers_runAll, hperm.mem_iff]
  · have hwf := WellFormed.runAll steps h
    have hsplit : t.runAll (steps ++ more) = (t.runAll steps).runAll more := List.foldl_append
    refine ⟨?_, hwf, hwf.markExact⟩
    rw [hsplit]
    exact lastCommittedOffset_le_runAll more _

/-- Offsets 5, 6 and 8 in two orders, one of them with a commit clamped at 6 after the first completion. -/
theorem tracker_confluence_at_orders :
    let t := new ⟨"orders", 0⟩ 5 0 (SortedSet.ofList [9])
    let steps : List Progress := [.markComplete 5, .commitMark (some 6), .markComplete 8, .markComplete 6]
    let steps' : List Progress := [.markComplete 8, .markComplete 6, .markComplete 5]
    (t.runAll steps).advanceHighWaterMark.completedOffsets =
        (t.runAll steps').advanceHighWaterMark.completedOffsets ∧
      (t.runAll steps).advanceHighWaterMark.lastCommittedOffset = 6 := by
  intro t steps steps'
  have hwf : t.WellFormed := by
    intro x hx
    have hx : x = 9 := by simpa [t, new] using hx
    subst hx
    decide
  exact ⟨((tracker_confluence hwf).1 steps steps' (by decide)).2, by decide⟩

end OffsetTracker

end PyrallelConsumer
