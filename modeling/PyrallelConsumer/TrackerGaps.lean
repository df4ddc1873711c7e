import PyrallelConsumer.OffsetTracker
import PyrallelConsumer.Lib.Machine
import PyrallelConsumer.Lib.Runs

/-!
# PyrallelConsumer.TrackerGaps

`get_gaps` of `control_plane/offset_tracker.py`: the offsets that were fetched and are not completed, as
ranges. It starts at the first gap head, which is kept from one change to the next, and keeps its last
result in a cache for one key. It also stamps the gap heads, for the blocking timeouts.

* `mem_gapsFrom` — the loop finds the maximal runs.
* `Cached` — what the first gap head and the cache hold. `cached_apply` — every call keeps it.
* `gaps_exact` — in every run `get_gaps` and `get_first_gap_head` tell the truth.
-/

namespace PyrallelConsumer

namespace OffsetTracker

/-! ## The loop -/

/-- The loop of `get_gaps` over the completed offsets from `current` on. -/
def gapsFrom (stop : Int) : Int → List Int → List OffsetRange
  | current, [] => if current ≤ stop then [⟨current, stop⟩] else []
  | current, o :: os =>
    if o > current then ⟨current, o - 1⟩ :: gapsFrom stop (o + 1) os else gapsFrom stop (o + 1) os

/-- `completed_offsets.irange(minimum, maximum)`. -/
def irange (s : SortedSet Int) (minimum maximum : Int) : List Int :=
  s.elems.filter fun o => decide (minimum ≤ o) && decide (o ≤ maximum)

def clearBlocking (t : OffsetTracker) : OffsetTracker := { t with blockingOffsetTimestamps := .empty }

/-- Stamp the new gap heads and forget those that are none any more. `clock o` is the reading for `o`. -/
def reconcile (timestamps : Dict Int Time) (clock : Int → Time) (heads : List Int) : Dict Int Time :=
  (heads.foldl (fun d o => if d.contains o then d else d.set o (clock o)) timestamps).filter
    fun o _ => decide (o ∈ heads)

def cacheKey (t : OffsetTracker) : Int × Int × Nat :=
  (t.lastCommittedOffset, t.lastFetchedOffset, t.stateVersion)

/-- `self._gaps_cache.get(cache_key)`. -/
def cachedGaps (t : OffsetTracker) : Option (List OffsetRange) :=
  match t.gapsCache with
  | some (key, gaps) => if key = t.cacheKey then some gaps else none
  | none => none

/-- `get_gaps` without its cache. -/
def computeGaps (t : OffsetTracker) (clock : Int → Time) : List OffsetRange × OffsetTracker :=
  match t.firstGapHead with
  | none => ([], t.clearBlocking)
  | some start =>
    if start > t.lastFetchedOffset then ([], t.clearBlocking)
    else
      let gaps := gapsFrom t.lastFetchedOffset start (irange t.completedOffsets start t.lastFetchedOffset)
      if gaps = [] then ([], t.clearBlocking)
      else
        (gaps, { t with
          blockingOffsetTimestamps := reconcile t.blockingOffsetTimestamps clock (gaps.map (·.start))
          gapsCache := some (t.cacheKey, gaps) })

def getGaps (t : OffsetTracker) (clock : Int → Time) : List OffsetRange × OffsetTracker :=
  match t.cachedGaps with
  | some gaps => (gaps, t)
  | none => t.computeGaps clock

def getFirstGapHead (t : OffsetTracker) : Option Int := t.firstGapHead

/-- The offset was fetched, and it is neither committed nor completed. -/
def Missing (t : OffsetTracker) (o : Int) : Prop :=
  t.lastCommittedOffset < o ∧ o ≤ t.lastFetchedOffset ∧ o ∉ t.completedOffsets

/-- The loop finds the runs of the offsets from `current` to `stop` that are not in the list. -/
theorem mem_gapsFrom {stop : Int} (os : List Int) :
    ∀ {current : Int} {r : OffsetRange}, os.Pairwise (· < ·) → (∀ o ∈ os, current ≤ o ∧ o ≤ stop) →
      (r ∈ gapsFrom stop current os ↔ IsRun (fun x => (current ≤ x ∧ x ≤ stop) ∧ x ∉ os) r.start r.stop) := by
  induction os with
  | nil =>
    intro current r _ _
    have hrun : IsRun (fun x => (current ≤ x ∧ x ≤ stop) ∧ x ∉ ([] : List Int)) r.start r.stop ↔
        current ≤ stop ∧ r.start = current ∧ r.stop = stop :=
      (isRun_congr fun x => and_iff_left (by simp)).trans isRun_interval
    rw [hrun]
    obtain ⟨a, b⟩ := r
    simp only [gapsFrom]
    split
    · rename_i hle
      simp [hle]
    · rename_i hle
      simp [hle]
  | cons o os ih =>
    intro current r hsorted hbounds
    obtain ⟨ho, hsorted⟩ := List.pairwise_cons.mp hsorted
    have hcur := hbounds o List.mem_cons_self
    have hos : ∀ x ∈ os, o + 1 ≤ x ∧ x ≤ stop := fun x hx =>
      ⟨ho x hx, (hbounds x (List.mem_cons_of_mem _ hx)).2⟩
    have hbelow : ∀ x, ((current ≤ x ∧ x ≤ stop) ∧ x ∉ o :: os) ∧ x < o ↔ current ≤ x ∧ x ≤ o - 1 := by
      intro x
      constructor
      · rintro ⟨⟨h, -⟩, hlt⟩
        omega
      · rintro ⟨h₁, h₂⟩
        refine ⟨⟨by omega, fun hmem => ?_⟩, by omega⟩
        rcases List.mem_cons.mp hmem with rfl | hmem
        · omega
        · have := ho x hmem
          omega
    have habove : ∀ x, ((current ≤ x ∧ x ≤ stop) ∧ x ∉ o :: os) ∧ o < x ↔ (o + 1 ≤ x ∧ x ≤ stop) ∧ x ∉ os := by
      intro x
      constructor
      · rintro ⟨⟨h, hnot⟩, hlt⟩
        exact ⟨by omega, fun hmem => hnot (List.mem_cons_of_mem _ hmem)⟩
      · rintro ⟨h, hnot⟩
        refine ⟨⟨by omega, fun hmem => ?_⟩, by omega⟩
        rcases List.mem_cons.mp hmem with rfl | hmem
        · omega
        · exact hnot hmem
    rw [isRun_split (o := o) (fun h => h.2 List.mem_cons_self), isRun_congr hbelow, isRun_congr habove,
      isRun_interval, ← ih hsorted hos]
    obtain ⟨a, b⟩ := r
    simp only [gapsFrom]
    split
    · rename_i hlt
      simp only [List.mem_cons, OffsetRange.mk.injEq]
      refine or_congr ?_ Iff.rfl
      omega
    · rename_i hlt
      refine (or_iff_right ?_).symm
      omega

theorem le_start_of_mem_gapsFrom {stop : Int} (os : List Int) :
    ∀ {current : Int} {r : OffsetRange}, (∀ o ∈ os, current ≤ o) → os.Pairwise (· < ·) →
      r ∈ gapsFrom stop current os → current ≤ r.start := by
  induction os with
  | nil =>
    intro current r _ _ hr
    simp only [gapsFrom] at hr
    split at hr
    · rw [List.mem_singleton.mp hr]
    · cases hr
  | cons o os ih =>
    intro current r hle hsorted hr
    obtain ⟨ho, hsorted⟩ := List.pairwise_cons.mp hsorted
    have hcur := hle o List.mem_cons_self
    have hrest : r ∈ gapsFrom stop (o + 1) os → current ≤ r.start := by
      intro hr
      have := ih (fun x hx => ho x hx) hsorted hr
      omega
    simp only [gapsFrom] at hr
    split at hr
    · rcases List.mem_cons.mp hr with rfl | hr
      · exact le_refl _
      · exact hrest hr
    · exact hrest hr

theorem pairwise_gapsFrom {stop : Int} (os : List Int) :
    ∀ {current : Int}, (∀ o ∈ os, current ≤ o) → os.Pairwise (· < ·) →
      (gapsFrom stop current os).Pairwise (fun r r' => r.stop < r'.start) := by
  induction os with
  | nil =>
    intro current _ _
    simp only [gapsFrom]
    split
    · exact List.pairwise_singleton _ _
    · exact List.Pairwise.nil
  | cons o os ih =>
    intro current hle hsorted
    obtain ⟨ho, hsorted⟩ := List.pairwise_cons.mp hsorted
    have hrest := @ih (o + 1) (fun x hx => ho x hx) hsorted
    simp only [gapsFrom]
    split
    · refine List.pairwise_cons.mpr ⟨fun r hr => ?_, hrest⟩
      have := le_start_of_mem_gapsFrom os (fun x hx => ho x hx) hsorted hr
      show o - 1 < r.start
      omega
    · exact hrest

/-- A loop that starts at a missing offset finds a range from there on. -/
theorem head_gapsFrom {stop : Int} {os : List Int} {current : Int} (hle : current ≤ stop)
    (hlt : ∀ o ∈ os, current < o) : (gapsFrom stop current os).head?.map (·.start) = some current := by
  cases os with
  | nil =>
    rw [gapsFrom, if_pos hle]
    rfl
  | cons o os =>
    rw [gapsFrom, if_pos (hlt o List.mem_cons_self)]
    rfl

/-! ## The first gap head -/

/-- The walk passes completed offsets only. -/
theorem firstGapFrom_none {completed : SortedSet Int} (n : Nat) :
    ∀ {current : Int}, firstGapFrom completed n current = none →
      ∀ o, current ≤ o → o < current + n → o ∈ completed := by
  induction n with
  | zero =>
    intro current _ o h₁ h₂
    simp only [Nat.cast_zero, add_zero] at h₂
    omega
  | succ n ih =>
    intro current hnone o h₁ h₂
    simp only [firstGapFrom] at hnone
    split at hnone
    · rename_i hmem
      by_cases ho : o = current
      · exact ho ▸ hmem
      · exact ih hnone o (by omega) (by push_cast at h₂; omega)
    · cases hnone

/-- The walk stops at the first offset that is not completed. -/
theorem firstGapFrom_some {completed : SortedSet Int} (n : Nat) :
    ∀ {current h : Int}, firstGapFrom completed n current = some h →
      current ≤ h ∧ h < current + n ∧ h ∉ completed ∧ ∀ o, current ≤ o → o < h → o ∈ completed := by
  induction n with
  | zero => intro current h hsome; cases hsome
  | succ n ih =>
    intro current h hsome
    simp only [firstGapFrom] at hsome
    split at hsome
    · rename_i hmem
      obtain ⟨h₁, h₂, hnot, hall⟩ := ih hsome
      refine ⟨by omega, by push_cast; omega, hnot, fun o ho₁ ho₂ => ?_⟩
      by_cases ho : o = current
      · exact ho ▸ hmem
      · exact hall o (by omega) ho₂
    · rename_i hmem
      cases hsome
      exact ⟨le_refl _, by push_cast; omega, hmem, fun o h₁ h₂ => by omega⟩

theorem calculateFirstGapHead_none {t : OffsetTracker} (h : t.calculateFirstGapHead = none) (o : Int) :
    ¬t.Missing o := by
  rintro ⟨h₁, h₂, hnot⟩
  exact hnot (firstGapFrom_none _ h o (by omega) (by omega))

theorem calculateFirstGapHead_some {t : OffsetTracker} {h : Int} (hh : t.calculateFirstGapHead = some h) :
    t.Missing h ∧ ∀ o < h, ¬t.Missing o := by
  obtain ⟨h₁, h₂, hnot, hall⟩ := firstGapFrom_some _ hh
  refine ⟨⟨by omega, by omega, hnot⟩, fun o ho hmissing => ?_⟩
  obtain ⟨hlow, -, hnot⟩ := hmissing
  exact hnot (hall o (by omega) ho)

/-! ## The result -/

/-- What `get_gaps` returns when its cache is empty. -/
def gapList (t : OffsetTracker) : List OffsetRange :=
  match t.firstGapHead with
  | none => []
  | some start =>
    if start > t.lastFetchedOffset then []
    else gapsFrom t.lastFetchedOffset start (irange t.completedOffsets start t.lastFetchedOffset)

/-- The first gap head is that of the current offsets, and the cache holds the current gaps or nothing. -/
structure Cached (t : OffsetTracker) : Prop where
  head : t.firstGapHead = t.calculateFirstGapHead
  cache : ∀ key gaps, t.gapsCache = some (key, gaps) → key = t.cacheKey ∧ gaps = t.gapList

theorem computeGaps_fst (t : OffsetTracker) (clock : Int → Time) : (t.computeGaps clock).1 = t.gapList := by
  unfold computeGaps gapList
  split
  · rfl
  · split
    · rfl
    · dsimp only
      split
      · rename_i h
        exact h.symm
      · rfl

theorem Cached.getGaps_fst {t : OffsetTracker} (h : t.Cached) (clock : Int → Time) :
    (t.getGaps clock).1 = t.gapList := by
  unfold getGaps
  split
  · rename_i gaps hgaps
    unfold cachedGaps at hgaps
    split at hgaps
    · rename_i key gaps' hcache
      split at hgaps
      · cases hgaps
        exact (h.cache _ _ hcache).2
      · cases hgaps
    · cases hgaps
  · exact t.computeGaps_fst clock

/-- The gaps are the maximal runs of missing offsets, in increasing order, and the first one starts at the
first gap head. -/
structure ExactGaps (t : OffsetTracker) (gaps : List OffsetRange) : Prop where
  runs : ∀ r, r ∈ gaps ↔ IsRun t.Missing r.start r.stop
  increasing : gaps.Pairwise fun r r' => r.stop < r'.start
  first : t.getFirstGapHead = gaps.head?.map (·.start)

theorem mem_irange {s : SortedSet Int} {a b o : Int} : o ∈ irange s a b ↔ o ∈ s ∧ a ≤ o ∧ o ≤ b := by
  simp only [irange, List.mem_filter, Bool.and_eq_true, decide_eq_true_eq]
  exact Iff.rfl

theorem Cached.exactGaps {t : OffsetTracker} (h : t.Cached) : t.ExactGaps t.gapList := by
  unfold gapList
  cases hhead : t.firstGapHead with
  | none =>
    have hnone := h.head
    rw [hhead] at hnone
    refine ⟨fun r => iff_of_false List.not_mem_nil ?_, List.Pairwise.nil, hhead⟩
    exact not_isRun_of_forall_not (calculateFirstGapHead_none hnone.symm)
  | some start =>
    have hsome := h.head
    rw [hhead] at hsome
    obtain ⟨hmissing, hfirst⟩ := calculateFirstGapHead_some hsome.symm
    have hsorted : (irange t.completedOffsets start t.lastFetchedOffset).Pairwise (· < ·) :=
      t.completedOffsets.sorted.filter _
    have hbounds : ∀ o ∈ irange t.completedOffsets start t.lastFetchedOffset,
        start ≤ o ∧ o ≤ t.lastFetchedOffset := fun o ho => (mem_irange.mp ho).2
    have hstart : ∀ o ∈ irange t.completedOffsets start t.lastFetchedOffset, start < o := by
      intro o ho
      obtain ⟨hmem, hle, -⟩ := mem_irange.mp ho
      exact lt_of_le_of_ne hle fun heq => hmissing.2.2 (heq ▸ hmem)
    have hmissing_iff : ∀ x, ((start ≤ x ∧ x ≤ t.lastFetchedOffset) ∧
        x ∉ irange t.completedOffsets start t.lastFetchedOffset) ↔ t.Missing x := by
      intro x
      constructor
      · rintro ⟨hx, hnot⟩
        refine ⟨lt_of_lt_of_le hmissing.1 hx.1, hx.2, fun hmem => hnot (mem_irange.mpr ⟨hmem, hx⟩)⟩
      · intro hx
        refine ⟨⟨not_lt.mp fun hlt => hfirst x hlt hx, hx.2.1⟩, fun hmem => hx.2.2 (mem_irange.mp hmem).1⟩
    dsimp only
    rw [if_neg (not_lt.mpr hmissing.2.1)]
    refine ⟨fun r => ?_, pairwise_gapsFrom _ (fun o ho => (hbounds o ho).1) hsorted, ?_⟩
    · rw [mem_gapsFrom _ hsorted hbounds]
      exact isRun_congr hmissing_iff
    · exact hhead.trans (head_gapsFrom hmissing.2.1 hstart).symm

/-! ## Every operation keeps the head and the cache -/

theorem cached_bumpVersion (t : OffsetTracker) : t.bumpVersion.Cached :=
  ⟨rfl, fun key gaps h => by cases h⟩

theorem cached_new (tp : TopicPartition) (start grace : Int) (completed : SortedSet Int) :
    (new tp start grace completed).Cached :=
  ⟨rfl, fun key gaps h => by cases h⟩

theorem Cached.markComplete {t : OffsetTracker} (h : t.Cached) (o : Int) : (t.markComplete o).Cached := by
  unfold OffsetTracker.markComplete
  dsimp only
  split
  · split
    · exact cached_bumpVersion _
    · rename_i hsize
      have hmem : o ∈ t.completedOffsets := not_not.mp fun hnot => hsize (SortedSet.size_add_ne_iff.mpr hnot)
      rw [SortedSet.add_of_mem hmem]
      exact h
  · exact h

theorem Cached.commitThrough {t : OffsetTracker} (h : t.Cached) (c : Int) : (t.commitThrough c).Cached := by
  unfold OffsetTracker.commitThrough
  split
  · exact h
  · exact cached_bumpVersion _

theorem Cached.updateLastFetchedOffset {t : OffsetTracker} (h : t.Cached) (o : Int) :
    (t.updateLastFetchedOffset o).Cached := by
  unfold OffsetTracker.updateLastFetchedOffset
  split
  · exact cached_bumpVersion _
  · exact h

/-- What `get_gaps` leaves behind when its cache is empty. -/
theorem computeGaps_snd (t : OffsetTracker) (clock : Int → Time) :
    (t.computeGaps clock).2 =
      if t.gapList = [] then t.clearBlocking
      else
        { t with
          blockingOffsetTimestamps :=
            reconcile t.blockingOffsetTimestamps clock (t.gapList.map (·.start))
          gapsCache := some (t.cacheKey, t.gapList) } := by
  unfold computeGaps gapList
  cases t.firstGapHead with
  | none => rfl
  | some start =>
    dsimp only
    by_cases hstart : start > t.lastFetchedOffset
    · simp only [if_pos hstart, if_true]
    · simp only [if_neg hstart]
      exact apply_ite Prod.snd _ _ _

theorem Cached.getGaps {t : OffsetTracker} (h : t.Cached) (clock : Int → Time) : (t.getGaps clock).2.Cached := by
  unfold OffsetTracker.getGaps
  split
  · exact h
  · rw [computeGaps_snd]
    split
    · exact ⟨h.head, h.cache⟩
    · refine ⟨h.head, fun key gaps hcache => ?_⟩
      cases hcache
      exact ⟨rfl, rfl⟩

end OffsetTracker

/-! ## Runs -/

/-- The calls of one tracker. A `rehydrate_assignment_state` that raises leaves the tracker as it is. -/
inductive TrackerCall where
  | markComplete (offset : Int)
  | updateLastFetchedOffset (offset : Int)
  | commitThrough (committedOffset : Int)
  | advanceHighWaterMark
  | rehydrateAssignmentState (lastCommitted lastFetched : Int)
  | incrementEpoch
  | getGaps (clock : Int → Time)

namespace TrackerCall

def apply (t : OffsetTracker) : TrackerCall → OffsetTracker
  | markComplete o => t.markComplete o
  | updateLastFetchedOffset o => t.updateLastFetchedOffset o
  | commitThrough c => t.commitThrough c
  | advanceHighWaterMark => t.advanceHighWaterMark
  | rehydrateAssignmentState c f => (t.rehydrateAssignmentState c f).toOption.getD t
  | incrementEpoch => t.incrementEpoch
  | getGaps clock => (t.getGaps clock).2

end TrackerCall

def trackerMachine : Machine OffsetTracker TrackerCall where
  init t := ∃ tp start grace completed, t = .new tp start grace completed
  enabled _ _ := True
  next := TrackerCall.apply

namespace OffsetTracker

theorem cached_apply {t : OffsetTracker} (h : t.Cached) (a : TrackerCall) : (a.apply t).Cached := by
  cases a with
  | markComplete o => exact h.markComplete o
  | updateLastFetchedOffset o => exact h.updateLastFetchedOffset o
  | commitThrough c => exact h.commitThrough c
  | advanceHighWaterMark => exact h.commitThrough _
  | rehydrateAssignmentState c f =>
    unfold TrackerCall.apply rehydrateAssignmentState
    dsimp only
    split
    · exact h
    · exact cached_bumpVersion _
  | incrementEpoch => exact ⟨h.head, h.cache⟩
  | getGaps clock => exact h.getGaps clock

theorem cached_reachable {t : OffsetTracker} (h : trackerMachine.Reachable t) : t.Cached := by
  refine trackerMachine.invariant (I := Cached) ?_ (fun s a hs _ _ => cached_apply hs a) h
  rintro s ⟨tp, start, grace, completed, rfl⟩
  exact cached_new tp start grace completed

/-- After any calls `get_gaps` returns the maximal runs of the missing offsets, whatever is in the cache. -/
theorem gaps_exact {t : OffsetTracker} (h : trackerMachine.Reachable t) (clock : Int → Time) :
    t.ExactGaps (t.getGaps clock).1 := by
  have hcached := cached_reachable h
  rw [hcached.getGaps_fst clock]
  exact hcached.exactGaps

/-- Offsets 5 to 9 are fetched, 6 is completed and asked for twice, and the commit passes what was fetched. -/
theorem gaps_exact_at_run :
    let t := trackerMachine.run (.new ⟨"orders", 0⟩ 5 0 (SortedSet.ofList [12]))
      [.updateLastFetchedOffset 9, .markComplete 6, .getGaps fun _ => 1, .getGaps fun _ => 2, .commitThrough 5]
    t.ExactGaps (t.getGaps fun _ => 3).1 ∧ (t.getGaps fun _ => 3).1 = [⟨7, 9⟩] :=
  ⟨gaps_exact (trackerMachine.reachableBy_run _ (.start ⟨_, _, _, _, rfl⟩)
      (by simp [Machine.Allowed, trackerMachine])) _, by decide⟩

end OffsetTracker

end PyrallelConsumer
