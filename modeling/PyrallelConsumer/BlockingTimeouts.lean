import PyrallelConsumer.TrackerGaps

/-!
# PyrallelConsumer.BlockingTimeouts

`handle_blocking_timeouts` of `control_plane/broker_completion_support.py` reads the timestamps of a
tracker, which only a `get_gaps` call brings up to date. The loop of the consumer calls it for metrics and
diagnostics alone, so a check sees the gap heads of the last such call.

* `BlockingInv` — what the timestamps are, in terms of the `get_gaps` calls so far.
* `watchesBlockers_iff` — one check.
* `timeouts_watch_blockers_iff` — a whole run of calls and checks.
-/

namespace PyrallelConsumer

namespace OffsetTracker

/-- `get_blocking_offset_durations` at a reading of the clock. -/
def getBlockingOffsetDurations (t : OffsetTracker) (currentTime : Time) : List (Int × Int) :=
  t.blockingOffsetTimestamps.entries.map fun (offset, startTime) => (offset, currentTime - startTime)

def gapHeads (t : OffsetTracker) : List Int := t.gapList.map (·.start)

/-- The offset starts a maximal run of missing offsets. -/
def IsGapHead (t : OffsetTracker) (o : Int) : Prop := ∃ stop, IsRun t.Missing o stop

theorem Cached.mem_gapHeads {t : OffsetTracker} (h : t.Cached) {o : Int} : o ∈ t.gapHeads ↔ t.IsGapHead o := by
  unfold gapHeads IsGapHead
  rw [List.mem_map]
  constructor
  · rintro ⟨r, hr, rfl⟩
    exact ⟨r.stop, (h.exactGaps.runs r).mp hr⟩
  · rintro ⟨stop, hrun⟩
    exact ⟨⟨o, stop⟩, (h.exactGaps.runs ⟨o, stop⟩).mpr hrun, rfl⟩

end OffsetTracker

/-! ## The check -/

/-- A call of `force_fail`; its error text prints the offset and the duration. -/
structure ForceFailCall where
  tp : TopicPartition
  offset : Int
  epoch : Int
  duration : Int
  attempt : Int
deriving DecidableEq, Repr

/-- The `force_fail` calls of `handle_blocking_timeouts`. The clock reads milliseconds. -/
def handleBlockingTimeouts (maxBlockingDurationMs maxRetries : Int)
    (trackers : Dict TopicPartition OffsetTracker) (clock : TopicPartition → Time) : List ForceFailCall :=
  if maxBlockingDurationMs ≤ 0 then []
  else
    trackers.entries.flatMap fun (tp, tracker) =>
      (tracker.getBlockingOffsetDurations (clock tp)).filterMap fun (offset, duration) =>
        if duration < maxBlockingDurationMs then none
        else
          some
            { tp := tp
              offset := offset
              epoch := tracker.epoch
              duration := duration
              attempt := maxRetries }

/-- Offered is what has its timestamp for long enough. -/
theorem mem_handleBlockingTimeouts {maxMs maxRetries : Int} (hmax : 0 < maxMs)
    {trackers : Dict TopicPartition OffsetTracker} {clock : TopicPartition → Time} {tp : TopicPartition}
    {t : OffsetTracker} (ht : trackers.get? tp = some t) {o : Int} :
    (∃ call ∈ handleBlockingTimeouts maxMs maxRetries trackers clock, call.tp = tp ∧ call.offset = o) ↔
      ∃ since, t.blockingOffsetTimestamps.get? o = some since ∧ maxMs ≤ clock tp - since := by
  unfold handleBlockingTimeouts
  rw [if_neg (not_le.mpr hmax)]
  constructor
  · rintro ⟨call, hcall, rfl, rfl⟩
    obtain ⟨⟨tp', t'⟩, hentry, hcall⟩ := List.mem_flatMap.mp hcall
    obtain ⟨⟨o', duration⟩, hduration, hsome⟩ := List.mem_filterMap.mp hcall
    obtain ⟨⟨o'', since⟩, hstamp, heq⟩ := List.mem_map.mp hduration
    cases heq
    dsimp only at hsome
    split at hsome
    · cases hsome
    · rename_i hlong
      cases hsome
      have htt : t' = t := Option.some.inj (((Dict.mem_entries_iff trackers).mp hentry).symm.trans ht)
      subst htt
      exact ⟨since, (Dict.mem_entries_iff _).mp hstamp, not_lt.mp hlong⟩
  · rintro ⟨since, hstamp, hlong⟩
    have hentry := (Dict.mem_entries_iff trackers).mpr ht
    have hduration : (o, clock tp - since) ∈ t.getBlockingOffsetDurations (clock tp) :=
      List.mem_map.mpr ⟨(o, since), (Dict.mem_entries_iff _).mpr hstamp, rfl⟩
    exact ⟨_, List.mem_flatMap.mpr
      ⟨_, hentry, List.mem_filterMap.mpr ⟨_, hduration, if_neg (not_lt.mpr hlong)⟩⟩, rfl, rfl⟩

/-! ## Runs -/

/-- The gap heads after a call, with its clock readings and whether it was `get_gaps`. -/
structure HeadRecord where
  reading : Int → Time
  heads : List Int
  asked : Bool

/-- The reading of the oldest of the newest records that all have the offset among their heads. -/
def streakStart : List HeadRecord → Int → Option Time
  | [], _ => none
  | r :: rs, o => if o ∈ r.heads then some ((streakStart rs o).getD (r.reading o)) else none

/-- Since when the offset has been a gap head without a break. -/
def blockedSince (records : List HeadRecord) (o : Int) : Option Time := streakStart records o

/-- Since when every `get_gaps` call has found the offset among the gap heads. -/
def watchedSince (records : List HeadRecord) (o : Int) : Option Time :=
  streakStart (records.filter (·.asked)) o

/-- The gap heads that the last `get_gaps` call found. -/
def lastWatched (records : List HeadRecord) : List Int :=
  ((records.filter (·.asked)).head?.map (·.heads)).getD []

/-- A tracker with the records of its calls, the newest first. -/
structure BlockingRun where
  tracker : OffsetTracker
  records : List HeadRecord

/-- One check: the key of the tracker, the other trackers, and the readings of the clock. -/
structure TimeoutCheck where
  tp : TopicPartition
  others : Dict TopicPartition OffsetTracker
  clock : TopicPartition → Time

def TimeoutCheck.now (i : TimeoutCheck) : Time := i.clock i.tp

inductive BlockingStep where
  | call (now : Time) (a : TrackerCall)
  | check (i : TimeoutCheck)

namespace TrackerCall

/-- `get_gaps` reads the clock for each offset. -/
def record (now : Time) (a : TrackerCall) (t : OffsetTracker) : HeadRecord :=
  match a with
  | getGaps clock => ⟨clock, t.gapHeads, true⟩
  | _ => ⟨fun _ => now, t.gapHeads, false⟩

end TrackerCall

namespace BlockingRun

def start (tp : TopicPartition) (startingOffset maxRevokeGraceMs : Int) (completed : SortedSet Int) : BlockingRun :=
  { tracker := .new tp startingOffset maxRevokeGraceMs completed, records := [] }

/-- A check only reads. -/
def step (s : BlockingRun) : BlockingStep → BlockingRun
  | .call now a => { tracker := a.apply s.tracker, records := a.record now (a.apply s.tracker) :: s.records }
  | .check _ => s

def runAll (s : BlockingRun) (steps : List BlockingStep) : BlockingRun := steps.foldl step s

/-- The check offers the offset to `force_fail`. -/
def Offers (maxMs maxRetries : Int) (s : BlockingRun) (i : TimeoutCheck) (o : Int) : Prop :=
  ∃ call ∈ handleBlockingTimeouts maxMs maxRetries (i.others.set i.tp s.tracker) i.clock,
    call.tp = i.tp ∧ call.offset = o

/-- What a check should do: it sees the current gap heads, and it offers those that have blocked for the
limit and no other offset. -/
structure WatchesBlockers (maxMs maxRetries : Int) (s : BlockingRun) (i : TimeoutCheck) : Prop where
  keys : ∀ o, o ∈ (s.tracker.getBlockingOffsetDurations i.now).map Prod.fst ↔ s.tracker.IsGapHead o
  offered : ∀ o since, s.tracker.IsGapHead o → blockedSince s.records o = some since → maxMs ≤ i.now - since →
    s.Offers maxMs maxRetries i o
  others : ∀ o, s.Offers maxMs maxRetries i o → s.tracker.IsGapHead o

/-- The last `get_gaps` call found the current gap heads, and those that have blocked for the limit were
already found by a call that long ago and by every call since. -/
structure Watched (maxMs : Int) (s : BlockingRun) (i : TimeoutCheck) : Prop where
  current : ∀ o, o ∈ lastWatched s.records ↔ s.tracker.IsGapHead o
  early : ∀ o since, s.tracker.IsGapHead o → blockedSince s.records o = some since → maxMs ≤ i.now - since →
    ∃ watched, watchedSince s.records o = some watched ∧ maxMs ≤ i.now - watched

end BlockingRun

/-! ## The timestamps -/

theorem isSome_streakStart (records : List HeadRecord) (o : Int) :
    (streakStart records o).isSome ↔ o ∈ (records.head?.map (·.heads)).getD [] := by
  cases records with
  | nil => simp [streakStart]
  | cons r rs => by_cases h : o ∈ r.heads <;> simp [streakStart, h]

namespace OffsetTracker

theorem get?_stampAll (clock : Int → Time) (heads : List Int) :
    ∀ (timestamps : Dict Int Time) (o : Int),
      (heads.foldl (fun d x => if d.contains x then d else d.set x (clock x)) timestamps).get? o =
        if o ∈ heads then some ((timestamps.get? o).getD (clock o)) else timestamps.get? o := by
  induction heads with
  | nil => intro timestamps o; simp
  | cons x heads ih =>
    intro timestamps o
    rw [List.foldl_cons, ih]
    by_cases hx : timestamps.contains x = true
    · rw [if_pos hx]
      obtain ⟨since, hsince⟩ := Option.isSome_iff_exists.mp hx
      by_cases ho : o = x
      · simp [ho, hsince]
      · simp [ho]
    · have hnone : timestamps.get? x = none := by simpa [Dict.contains] using hx
      rw [if_neg hx, Dict.get?_set]
      by_cases ho : o = x
      · simp [ho, hnone]
      · simp [ho, Ne.symm ho]

theorem get?_reconcile (timestamps : Dict Int Time) (clock : Int → Time) (heads : List Int) (o : Int) :
    (reconcile timestamps clock heads).get? o =
      if o ∈ heads then some ((timestamps.get? o).getD (clock o)) else none := by
  unfold reconcile
  rw [Dict.get?_filter, get?_stampAll]
  by_cases ho : o ∈ heads
  · simp [ho]
  · cases timestamps.get? o <;> simp [ho]

/-- A `get_gaps` call without a cached result stamps the gap heads. -/
theorem get?_computeGaps (t : OffsetTracker) (clock : Int → Time) (o : Int) :
    (t.computeGaps clock).2.blockingOffsetTimestamps.get? o =
      if o ∈ t.gapHeads then some ((t.blockingOffsetTimestamps.get? o).getD (clock o)) else none := by
  rw [computeGaps_snd]
  split
  · rename_i hempty
    simp [gapHeads, hempty, clearBlocking]
  · exact get?_reconcile _ _ _ o

theorem gapHeads_computeGaps (t : OffsetTracker) (clock : Int → Time) :
    (t.computeGaps clock).2.gapHeads = t.gapHeads := by
  rw [computeGaps_snd]
  split <;> rfl

/-- The other calls leave the timestamps, and drop the cached result unless the gaps stay as they are. -/
theorem apply_timestamps {t : OffsetTracker} {a : TrackerCall} (ha : ∀ clock, a ≠ .getGaps clock) :
    (a.apply t).blockingOffsetTimestamps = t.blockingOffsetTimestamps ∧
      ((a.apply t).gapsCache = none ∨
        (a.apply t).gapsCache = t.gapsCache ∧ (a.apply t).gapHeads = t.gapHeads) := by
  have hcommit : ∀ c, (t.commitThrough c).blockingOffsetTimestamps = t.blockingOffsetTimestamps ∧
      ((t.commitThrough c).gapsCache = none ∨
        (t.commitThrough c).gapsCache = t.gapsCache ∧ (t.commitThrough c).gapHeads = t.gapHeads) := by
    intro c
    unfold commitThrough
    split
    · exact ⟨rfl, .inr ⟨rfl, rfl⟩⟩
    · exact ⟨rfl, .inl rfl⟩
  cases a with
  | markComplete o =>
    show (t.markComplete o).blockingOffsetTimestamps = _ ∧ _
    unfold TrackerCall.apply markComplete
    dsimp only
    split
    · split
      · exact ⟨rfl, .inl rfl⟩
      · rename_i hsize
        have hmem : o ∈ t.completedOffsets := not_not.mp fun hnot => hsize (SortedSet.size_add_ne_iff.mpr hnot)
        rw [SortedSet.add_of_mem hmem]
        exact ⟨rfl, .inr ⟨rfl, rfl⟩⟩
    · exact ⟨rfl, .inr ⟨rfl, rfl⟩⟩
  | updateLastFetchedOffset o =>
    unfold TrackerCall.apply updateLastFetchedOffset
    dsimp only
    split
    · exact ⟨rfl, .inl rfl⟩
    · exact ⟨rfl, .inr ⟨rfl, rfl⟩⟩
  | commitThrough c => exact hcommit c
  | advanceHighWaterMark => exact hcommit _
  | rehydrateAssignmentState c f =>
    unfold TrackerCall.apply rehydrateAssignmentState
    dsimp only
    split
    · exact ⟨rfl, .inr ⟨rfl, rfl⟩⟩
    · exact ⟨rfl, .inl rfl⟩
  | incrementEpoch => exact ⟨rfl, .inr ⟨rfl, rfl⟩⟩
  | getGaps clock => exact absurd rfl (ha clock)

end OffsetTracker

namespace BlockingRun

/-- The timestamps are those of the `get_gaps` calls, a cached result goes with the heads stamped, and the
newest record has the current heads. -/
structure BlockingInv (s : BlockingRun) : Prop where
  cached : s.tracker.Cached
  stamps : ∀ o, s.tracker.blockingOffsetTimestamps.get? o = watchedSince s.records o
  hit : s.tracker.gapsCache ≠ none →
    ∀ o, (s.tracker.blockingOffsetTimestamps.get? o).isSome ↔ o ∈ s.tracker.gapHeads
  newest : (s.records.head?.map (·.heads)).getD [] = s.tracker.gapHeads

theorem inv_start (tp : TopicPartition) (startingOffset maxRevokeGraceMs : Int) (completed : SortedSet Int) :
    (start tp startingOffset maxRevokeGraceMs completed).BlockingInv := by
  have hnone : (OffsetTracker.new tp startingOffset maxRevokeGraceMs completed).firstGapHead = none := by
    simp [OffsetTracker.new, OffsetTracker.calculateFirstGapHead, OffsetTracker.firstGapFrom]
  refine ⟨OffsetTracker.cached_new _ _ _ _, fun o => rfl, fun hcache => absurd rfl hcache, ?_⟩
  unfold start OffsetTracker.gapHeads OffsetTracker.gapList
  simp only [hnone]
  rfl

theorem inv_getGaps {s : BlockingRun} (h : s.BlockingInv) (now : Time) (clock : Int → Time) :
    (s.step (.call now (.getGaps clock))).BlockingInv := by
  have hcached := OffsetTracker.cached_apply h.cached (.getGaps clock)
  have hstamps : ∀ o, (s.tracker.getGaps clock).2.blockingOffsetTimestamps.get? o =
      if o ∈ s.tracker.gapHeads then some ((watchedSince s.records o).getD (clock o)) else none := by
    intro o
    unfold OffsetTracker.getGaps
    split
    · rename_i gaps hgaps
      have hcache : s.tracker.gapsCache ≠ none := by
        intro hnone
        simp [OffsetTracker.cachedGaps, hnone] at hgaps
      have hsome := h.hit hcache o
      rw [h.stamps o] at hsome ⊢
      cases hwatched : watchedSince s.records o with
      | none => simp [hwatched] at hsome; simp [hsome]
      | some w => simp [hwatched] at hsome; simp [hsome]
    · rw [OffsetTracker.get?_computeGaps, h.stamps o]
  have hheads : (s.tracker.getGaps clock).2.gapHeads = s.tracker.gapHeads := by
    unfold OffsetTracker.getGaps
    split
    · rfl
    · exact s.tracker.gapHeads_computeGaps clock
  refine ⟨hcached, fun o => ?_, fun _ o => ?_, rfl⟩
  · refine (hstamps o).trans ?_
    show _ = streakStart (⟨clock, (s.tracker.getGaps clock).2.gapHeads, true⟩ :: s.records.filter (·.asked)) o
    rw [hheads]
    rfl
  · show ((s.tracker.getGaps clock).2.blockingOffsetTimestamps.get? o).isSome ↔
      o ∈ (s.tracker.getGaps clock).2.gapHeads
    rw [hstamps o, hheads]
    by_cases ho : o ∈ s.tracker.gapHeads <;> simp [ho]

theorem inv_step {s : BlockingRun} (h : s.BlockingInv) (step : BlockingStep) : (s.step step).BlockingInv := by
  cases step with
  | check i => exact h
  | call now a =>
    by_cases ha : ∃ clock, a = .getGaps clock
    · obtain ⟨clock, rfl⟩ := ha
      exact inv_getGaps h now clock
    · have hother : ∀ clock, a ≠ .getGaps clock := fun clock heq => ha ⟨clock, heq⟩
      obtain ⟨hstamps, hcache⟩ := OffsetTracker.apply_timestamps (t := s.tracker) hother
      have hrecord : a.record now (a.apply s.tracker) =
          ⟨fun _ => now, (a.apply s.tracker).gapHeads, false⟩ := by
        cases a <;> first | rfl | exact absurd rfl (hother _)
      refine ⟨OffsetTracker.cached_apply h.cached a, fun o => ?_, fun hsome o => ?_, ?_⟩
      · show (a.apply s.tracker).blockingOffsetTimestamps.get? o = watchedSince (_ :: s.records) o
        rw [hstamps, h.stamps o, hrecord]
        rfl
      · show ((a.apply s.tracker).blockingOffsetTimestamps.get? o).isSome ↔ o ∈ (a.apply s.tracker).gapHeads
        rcases hcache with hnone | ⟨hsame, hheads⟩
        · exact absurd hnone hsome
        · rw [hstamps, hheads]
          exact h.hit (hsame ▸ hsome) o
      · show (a.record now (a.apply s.tracker)).heads = _
        rw [hrecord]
        rfl

theorem inv_runAll (steps : List BlockingStep) :
    ∀ {s : BlockingRun}, s.BlockingInv → (s.runAll steps).BlockingInv := by
  induction steps with
  | nil => intro s h; exact h
  | cons step steps ih => intro s h; exact ih (inv_step h step)

/-- A gap head has blocked since some reading. -/
theorem BlockingInv.blockedSince {s : BlockingRun} (h : s.BlockingInv) {o : Int} (ho : s.tracker.IsGapHead o) :
    ∃ since, blockedSince s.records o = some since := by
  refine Option.isSome_iff_exists.mp ((isSome_streakStart s.records o).mpr ?_)
  rw [h.newest]
  exact h.cached.mem_gapHeads.mpr ho

/-! ## Checks -/

theorem BlockingInv.offers_iff {s : BlockingRun} (h : s.BlockingInv) {maxMs maxRetries : Int} (hmax : 0 < maxMs)
    {i : TimeoutCheck} {o : Int} :
    s.Offers maxMs maxRetries i o ↔ ∃ w, watchedSince s.records o = some w ∧ maxMs ≤ i.now - w := by
  rw [← h.stamps o]
  exact mem_handleBlockingTimeouts hmax (Dict.get?_set_self _ _ _)

theorem BlockingInv.mem_keys_iff {s : BlockingRun} (h : s.BlockingInv) {now : Time} {o : Int} :
    o ∈ (s.tracker.getBlockingOffsetDurations now).map Prod.fst ↔ o ∈ lastWatched s.records := by
  have hkeys : (s.tracker.getBlockingOffsetDurations now).map Prod.fst = s.tracker.blockingOffsetTimestamps.keys := by
    simp [OffsetTracker.getBlockingOffsetDurations, Dict.keys]
  rw [hkeys, Dict.mem_keys_iff, h.stamps o]
  exact isSome_streakStart _ o

/-- One check does what it should exactly when `get_gaps` was called in time. -/
theorem watchesBlockers_iff {s : BlockingRun} (h : s.BlockingInv) {maxMs maxRetries : Int} (hmax : 0 < maxMs)
    (i : TimeoutCheck) : s.WatchesBlockers maxMs maxRetries i ↔ s.Watched maxMs i := by
  constructor
  · intro hwatches
    refine ⟨fun o => h.mem_keys_iff.symm.trans (hwatches.keys o), fun o since ho hsince hlong => ?_⟩
    exact (h.offers_iff hmax).mp (hwatches.offered o since ho hsince hlong)
  · intro hwatched
    refine ⟨fun o => h.mem_keys_iff.trans (hwatched.current o), fun o since ho hsince hlong => ?_, fun o ho => ?_⟩
    · exact (h.offers_iff hmax).mpr (hwatched.early o since ho hsince hlong)
    · obtain ⟨w, hw, -⟩ := (h.offers_iff hmax).mp ho
      refine (hwatched.current o).mp ((isSome_streakStart _ o).mp ?_)
      exact Option.isSome_iff_exists.mpr ⟨w, hw⟩

end BlockingRun

open BlockingRun in
/-- Every check of a run sees and offers the current blockers exactly when before each of them `get_gaps`
was called after the last change of the gap heads, and early enough for those that have blocked for long. -/
theorem timeouts_watch_blockers_iff {maxMs : Int} (hmax : 0 < maxMs) (maxRetries : Int) (tp : TopicPartition)
    (startingOffset maxRevokeGraceMs : Int) (completed : SortedSet Int) (steps : List BlockingStep) :
    (∀ done i rest, steps = done ++ .check i :: rest →
      ((start tp startingOffset maxRevokeGraceMs completed).runAll done).WatchesBlockers maxMs maxRetries i) ↔
    ∀ done i rest, steps = done ++ .check i :: rest →
      ((start tp startingOffset maxRevokeGraceMs completed).runAll done).Watched maxMs i := by
  have hinv : ∀ done, ((start tp startingOffset maxRevokeGraceMs completed).runAll done).BlockingInv :=
    fun done => inv_runAll done (inv_start _ _ _ _)
  exact ⟨fun h done i rest hsteps => (watchesBlockers_iff (hinv done) hmax i).mp (h done i rest hsteps),
    fun h done i rest hsteps => (watchesBlockers_iff (hinv done) hmax i).mpr (h done i rest hsteps)⟩

section Examples

open BlockingRun

/-- A check ten seconds in, of the partition alone. -/
def lateCheck : TimeoutCheck := { tp := ⟨"demo", 0⟩, others := .empty, clock := fun _ => 10000 }

/-- Offset 0 is fetched at once and blocks; nobody asks for the gaps. -/
theorem blocker_not_watched :
    let s := (start ⟨"demo", 0⟩ 0 0 .empty).runAll [.call 0 (.updateLastFetchedOffset 0)]
    s.tracker.IsGapHead 0 ∧ blockedSince s.records 0 = some 0 ∧
      handleBlockingTimeouts 500 3 (lateCheck.others.set lateCheck.tp s.tracker) lateCheck.clock = [] ∧
      ¬s.WatchesBlockers 500 3 lateCheck := by
  intro s
  have hhead : s.tracker.IsGapHead 0 :=
    (inv_runAll _ (inv_start ⟨"demo", 0⟩ 0 0 .empty)).cached.mem_gapHeads.mp (by decide)
  have hnone : handleBlockingTimeouts 500 3 (lateCheck.others.set lateCheck.tp s.tracker) lateCheck.clock = [] := by
    decide
  refine ⟨hhead, by decide, hnone, fun h => ?_⟩
  obtain ⟨call, hcall, -⟩ := h.offered 0 0 hhead (by decide) (by decide)
  rw [hnone] at hcall
  cases hcall

/-- With one `get_gaps` call in the first second offset 0 is offered. -/
theorem blocker_watched :
    ((start ⟨"demo", 0⟩ 0 0 .empty).runAll
      [.call 0 (.updateLastFetchedOffset 0), .call 1000 (.getGaps fun _ => 1000)]).WatchesBlockers 500 3 lateCheck := by
  refine (timeouts_watch_blockers_iff (by decide) 3 ⟨"demo", 0⟩ 0 0 .empty
    [.call 0 (.updateLastFetchedOffset 0), .call 1000 (.getGaps fun _ => 1000), .check lateCheck]).mpr
    (fun done i rest hsteps => ?_) _ lateCheck [] rfl
  obtain ⟨rfl, rfl⟩ : done = [.call 0 (.updateLastFetchedOffset 0), .call 1000 (.getGaps fun _ => 1000)] ∧
      i = lateCheck := by
    rcases done with _ | ⟨a, _ | ⟨b, _ | ⟨c, done⟩⟩⟩ <;> simp at hsteps
    obtain ⟨rfl, rfl, rfl, -⟩ := hsteps
    exact ⟨rfl, rfl⟩
  have hcached := (inv_runAll [.call 0 (.updateLastFetchedOffset 0), .call 1000 (.getGaps fun _ => 1000)]
    (inv_start ⟨"demo", 0⟩ 0 0 .empty)).cached
  refine ⟨fun o => hcached.mem_gapHeads, fun o since ho hsince hlong => ?_⟩
  have ho : o ∈ [(0 : Int)] := hcached.mem_gapHeads.mpr ho
  rw [List.mem_singleton.mp ho]
  exact ⟨1000, by decide, by decide⟩

end Examples

end PyrallelConsumer
