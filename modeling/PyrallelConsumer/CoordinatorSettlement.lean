import PyrallelConsumer.CoordinatorLeases
import PyrallelConsumer.PollerTrackers

/-!
# PyrallelConsumer.CoordinatorSettlement

Success settlements of the commit coordinator: they come from a batch whose `commit_sync` returned,
once for a lease that was neither cancelled nor coalesced, with growing offsets for a partition; and
`settle_committed_offsets` moves a tracker only for such a settlement.

* `SettlementInv` — the invariant of the recorded offsets and the log.
* `settlementInv_step` — it is kept by every part of a step.
* `tracker_settled` — what `settle_committed_offsets` does to a tracker.
* `settlements_safe` — the settlements of every run.
-/

namespace PyrallelConsumer

open CommitCoordinator

/-! ## Where a settlement comes from -/

/-- Every success settlement in the log follows the normal return of its own batch, with nothing but
other settlements of that batch in between, and its lease was not dropped before. -/
def SettledAfterCommit (log : List CoordinatorEvent) : Prop :=
  ∀ newer c older, log = newer ++ .settled c :: older →
    (∃ batch rest earlier, older = rest ++ .committed batch :: earlier ∧ c ∈ batch ∧
      ∀ e ∈ rest, ∃ d ∈ batch, e = .settled d) ∧
    ∀ d ∈ droppedIn older, d.leaseId ≠ c.leaseId

theorem settledAfterCommit_cons {log : List CoordinatorEvent} (h : SettledAfterCommit log)
    {e : CoordinatorEvent} (he : ∀ c, e = .settled c →
      (∃ batch rest earlier, log = rest ++ .committed batch :: earlier ∧ c ∈ batch ∧
        ∀ e ∈ rest, ∃ d ∈ batch, e = .settled d) ∧
      ∀ d ∈ droppedIn log, d.leaseId ≠ c.leaseId) : SettledAfterCommit (e :: log) := by
  intro newer c older heq
  cases newer with
  | nil =>
    rw [List.nil_append, List.cons.injEq] at heq
    obtain ⟨rfl, rfl⟩ := heq
    exact he c rfl
  | cons e' newer =>
    rw [List.cons_append, List.cons.injEq] at heq
    exact h newer c older heq.2

theorem settledAfterCommit_append {log : List CoordinatorEvent} (h : SettledAfterCommit log)
    (l : List CoordinatorEvent) (hl : settledIn l = []) : SettledAfterCommit (l ++ log) := by
  induction l with
  | nil => exact h
  | cons e l ih =>
    have hrest : settledIn l = [] ∧ ∀ c, e ≠ .settled c := by
      cases e with
      | settled c => cases hl
      | accepted c => exact ⟨hl, fun _ h => by cases h⟩
      | coalesced c => exact ⟨hl, fun _ h => by cases h⟩
      | cancelled c => exact ⟨hl, fun _ h => by cases h⟩
      | committed batch => exact ⟨hl, fun _ h => by cases h⟩
    exact settledAfterCommit_cons (ih hrest.1) fun c hc => absurd hc (hrest.2 c)

/-- The settlements of a batch come right after its return. -/
theorem settledAfterCommit_batch {log : List CoordinatorEvent} {batch : List CommitCandidate}
    (h : SettledAfterCommit log) (l : List CommitCandidate) (hl : ∀ c ∈ l, c ∈ batch)
    (hfree : ∀ c ∈ l, ∀ d ∈ droppedIn log, d.leaseId ≠ c.leaseId) :
    SettledAfterCommit (l.map .settled ++ .committed batch :: log) := by
  induction l with
  | nil => exact settledAfterCommit_append h [.committed batch] rfl
  | cons c l ih =>
    have hrest := ih (fun d hd => hl d (List.mem_cons_of_mem _ hd))
      (fun d hd => hfree d (List.mem_cons_of_mem _ hd))
    refine settledAfterCommit_cons hrest fun c' hc' => ?_
    cases hc'
    refine ⟨⟨batch, l.map .settled, log, rfl, hl c List.mem_cons_self, fun e he => ?_⟩, ?_⟩
    · obtain ⟨d, hd, rfl⟩ := List.mem_map.mp he
      exact ⟨d, hl d (List.mem_cons_of_mem _ hd), rfl⟩
    · intro d hd
      rw [droppedIn_append, (settled_events l).2.1] at hd
      exact hfree c List.mem_cons_self d hd

/-! ## The recorded offsets -/

/-- The recorded offsets are the last ones stored, and they grew. -/
structure Recorded (latest : Dict TopicPartition Int) (settled : List CommitCandidate) : Prop where
  last : ∀ tp, latest.get? tp = ((settled.filter (·.tp = tp)).map (·.safeOffset)).head?
  increasing : ∀ tp, ((settled.filter (·.tp = tp)).map (·.safeOffset)).Pairwise (· > ·)

/-- No stored offset is above the last one. -/
theorem Recorded.le_last {latest : Dict TopicPartition Int} {settled : List CommitCandidate}
    (h : Recorded latest settled) {c : CommitCandidate} (hc : c ∈ settled) :
    ∃ last, latest.get? c.tp = some last ∧ c.safeOffset ≤ last := by
  have hmem : c.safeOffset ∈ (settled.filter (·.tp = c.tp)).map (·.safeOffset) :=
    List.mem_map.mpr ⟨c, List.mem_filter.mpr ⟨hc, by simp⟩, rfl⟩
  have hinc := h.increasing c.tp
  rw [h.last]
  cases hl : (settled.filter (·.tp = c.tp)).map (·.safeOffset) with
  | nil => rw [hl] at hmem; cases hmem
  | cons last l =>
    rw [hl] at hmem hinc
    refine ⟨last, rfl, ?_⟩
    rcases List.mem_cons.mp hmem with heq | hmem
    · exact Int.le_of_eq heq
    · exact Int.le_of_lt ((List.pairwise_cons.mp hinc).1 _ hmem)

theorem Recorded.store {latest : Dict TopicPartition Int} {settled : List CommitCandidate}
    (h : Recorded latest settled) {c : CommitCandidate}
    (hc : ∀ v, latest.get? c.tp = some v → v < c.safeOffset) :
    Recorded (latest.set c.tp c.safeOffset) (c :: settled) := by
  refine ⟨fun tp => ?_, fun tp => ?_⟩
  · rw [Dict.get?_set]
    by_cases htp : c.tp = tp
    · rw [if_pos htp, List.filter_cons_of_pos (by simpa using htp)]
      rfl
    · rw [if_neg htp, List.filter_cons_of_neg (by simpa using htp)]
      exact h.last tp
  · by_cases htp : c.tp = tp
    · subst htp
      rw [List.filter_cons_of_pos (by simp), List.map_cons, List.pairwise_cons]
      refine ⟨fun v hv => ?_, h.increasing c.tp⟩
      obtain ⟨d, hd, rfl⟩ := List.mem_map.mp hv
      obtain ⟨hd, htp⟩ := List.mem_filter.mp hd
      obtain ⟨last, hlast, hle⟩ := h.le_last hd
      rw [of_decide_eq_true htp] at hlast
      exact Int.lt_of_le_of_lt hle (hc last hlast)
    · rw [List.filter_cons_of_neg (by simpa using htp)]
      exact h.increasing tp

theorem Recorded.storeAll (l : List CommitCandidate) :
    ∀ {latest : Dict TopicPartition Int} {settled : List CommitCandidate}, Recorded latest settled →
      (l.map (·.tp)).Nodup → (∀ c ∈ l, ∀ v, latest.get? c.tp = some v → v < c.safeOffset) →
      Recorded (l.foldl (fun d c => d.set c.tp c.safeOffset) latest) (l.reverse ++ settled) := by
  induction l with
  | nil => intro latest settled h _ _; exact h
  | cons c l ih =>
    intro latest settled h hn hc
    rw [List.map_cons, List.nodup_cons] at hn
    rw [List.foldl_cons, List.reverse_cons, List.append_assoc]
    refine ih (h.store (hc c List.mem_cons_self)) hn.2 fun d hd v hv => ?_
    have hne : c.tp ≠ d.tp := fun heq => hn.1 (heq ▸ List.mem_map.mpr ⟨d, hd, rfl⟩)
    rw [Dict.get?_set, if_neg hne] at hv
    exact hc d (List.mem_cons_of_mem _ hd) v hv

/-! ## The invariant -/

/-- The settlements of a run. -/
structure SettlementInv (s : CommitCoordinator) (w : CoordinatorPc) (log : List CoordinatorEvent) :
    Prop where
  once : ((settledIn log).map (·.leaseId)).Nodup
  recorded : Recorded s.latestSettledOffsets (settledIn log)
  pending : ∀ tp p, s.pending.get? tp = some p →
    ∀ v, s.latestSettledOffsets.get? tp = some v → v < p.safeOffset
  inFlight : w.isSettling = false → ∀ tp f, s.inFlight.get? tp = some f →
    ∀ v, s.latestSettledOffsets.get? tp = some v → v < f.safeOffset
  emitted : ∀ batch settlements, w = .settling batch settlements →
    ∀ c ∈ settlements, c ∈ settledIn log
  explained : SettledAfterCommit log

namespace SettlementInv

variable {config : CommitCoordinatorConfig} {s s' : CommitCoordinator} {w w' : CoordinatorPc}
  {log : List CoordinatorEvent}

/-- Nothing is settled, and the candidates of the outbox were there before. -/
theorem drop (h : SettlementInv s w log) {l : List CoordinatorEvent} (hl : settledIn l = [])
    (hlatest : s'.latestSettledOffsets = s.latestSettledOffsets)
    (hp : ∀ tp c, s'.pending.get? tp = some c → s.pending.get? tp = some c)
    (hf : w'.isSettling = false → ∀ tp c, s'.inFlight.get? tp = some c →
      w.isSettling = false ∧ s.inFlight.get? tp = some c)
    (hw : ∀ batch settlements, w' = .settling batch settlements → w' = w) :
    SettlementInv s' w' (l ++ log) := by
  have hset : settledIn (l ++ log) = settledIn log := by
    rw [settledIn_append, hl, List.nil_append]
  refine ⟨?_, ?_, ?_, ?_, ?_, settledAfterCommit_append h.explained l hl⟩
  · rw [hset]; exact h.once
  · rw [hset, hlatest]; exact h.recorded
  · rw [hlatest]; exact fun tp p hc => h.pending tp p (hp tp p hc)
  · rw [hlatest]
    intro hs tp f hc
    obtain ⟨hs, hc⟩ := hf hs tp f hc
    exact h.inFlight hs tp f hc
  · rw [hset]
    intro batch settlements heq
    exact h.emitted batch settlements (hw batch settlements heq ▸ heq)

theorem accept (h : SettlementInv s w log) {c : CommitCandidate} (hadm : Admitted config s c) :
    SettlementInv ((s.cancelPending c.tp).accept c) w (s.acceptEvents c ++ log) := by
  have haccepts := accepts_accept s c
  have hset := (CommitLeases.acceptEvents_cases s c).2.1
  have hset' : settledIn (s.acceptEvents c ++ log) = settledIn log := by
    rw [settledIn_append, hset, List.nil_append]
  have hlatest := haccepts.frame.settled
  refine ⟨?_, ?_, ?_, ?_, ?_, settledAfterCommit_append h.explained _ hset⟩
  · rw [hset']; exact h.once
  · rw [hset', hlatest]; exact h.recorded
  · intro tp p hp v hv
    rw [hlatest] at hv
    rw [haccepts.pending, Dict.get?_set] at hp
    split at hp
    · rename_i heq
      cases hp
      subst heq
      have hnew := hadm.unsettled
      rw [hv] at hnew
      exact hnew
    · exact h.pending tp p hp v hv
  · rw [hlatest, haccepts.frame.inFlight]; exact h.inFlight
  · rw [hset']; exact h.emitted

theorem enqueueCall (h : SettlementInv s w log) (cs : List CommitCandidate) :
    SettlementInv (s.enqueueCall config cs).coordinator w
      ((s.enqueueCall config cs).events ++ log) := by
  refine enqueueCall_induction (P := fun s events => SettlementInv s w (events ++ log)) ?_ ?_ h cs
  · exact fun s n events h => ⟨h.once, h.recorded, h.pending, h.inFlight, h.emitted, h.explained⟩
  · intro s c events h hadm
    rw [List.append_assoc]
    exact h.accept hadm

theorem takeBatch (h : SettlementInv s w log) (hk : s.Keyed) :
    SettlementInv s.takeBatch.2 (.committing s.takeBatch.1) log := by
  refine ⟨h.once, h.recorded, fun tp p hp => (by cases hp), fun _ tp f hf => ?_,
    fun _ _ heq => (by cases heq), h.explained⟩
  obtain ⟨hmem, htp⟩ := takeBatch_inFlight hf
  obtain ⟨tp', htp'⟩ := mem_takeBatch.mp hmem
  have heq : tp' = tp := by rw [← hk.pending tp' f htp', htp]
  rw [heq] at htp'
  exact h.pending tp f htp'

theorem retryBatch (h : SettlementInv s w log) (hl : CommitLeases s w log) (hw : w.isSettling = false) :
    SettlementInv (s.retryBatch w.batch) .idle log := by
  have hlatest := (CommitLeases.retryBatch_frame s w.batch).1
  have hfl := (retryBatch_fields s w.batch).1
  refine ⟨h.once, hlatest ▸ h.recorded, ?_, ?_, fun _ _ heq => (by cases heq), h.explained⟩
  · rw [hlatest]
    intro tp p hp
    rcases retryBatch_pending hl.batchNodup hp with hp | ⟨hmem, htp, hactive⟩
    · exact h.pending tp p hp
    · rw [← htp]
      exact h.inFlight hw _ p ((hl.activeIn_iff hmem).mp hactive)
  · intro _ tp f hf; rw [hfl] at hf; cases hf

/-- `commit_sync` returned for a batch: the candidates in flight are recorded and settled. -/
theorem settle {batch : List CommitCandidate} (h : SettlementInv s (.committing batch) log)
    (hl : CommitLeases s (.committing batch) log) :
    SettlementInv (s.recordSettled (s.activeOf batch)) (.settling batch (s.activeOf batch))
      ((s.activeOf batch).reverse.map .settled ++ .committed batch :: log) := by
  have hsub : ∀ c ∈ s.activeOf batch, c ∈ batch ∧ s.inFlight.get? c.tp = some c := by
    intro c hc
    obtain ⟨hc, hactive⟩ := List.mem_filter.mp hc
    exact ⟨hc, (hl.activeIn_iff hc).mp hactive⟩
  have hnodup : ((s.activeOf batch).map (·.tp)).Nodup :=
    hl.batchNodup.sublist (List.filter_sublist.map _)
  have hset : settledIn ((s.activeOf batch).reverse.map .settled ++ .committed batch :: log) =
      (s.activeOf batch).reverse ++ settledIn log := by
    rw [settledIn_append, (settled_events _).2.2]; rfl
  have hrec := h.recorded.storeAll (s.activeOf batch) hnodup
    (fun c hc => h.inFlight rfl c.tp c (hsub c hc).2)
  refine ⟨?_, ?_, ?_, fun hw => (by cases hw), ?_, ?_⟩
  · -- a lease in flight is not settled yet
    rw [hset, List.map_append, List.nodup_append]
    refine ⟨?_, h.once, fun n hn m hm heq => ?_⟩
    · rw [List.map_reverse, List.nodup_reverse]
      refine hnodup.of_map _ |>.map_on fun c hc d hd heq => ?_
      exact hl.unique (hl.batch c (hsub c hc).1) (hl.batch d (hsub d hd).1) heq
    · obtain ⟨c, hc, rfl⟩ := List.mem_map.mp hn
      obtain ⟨d, hd, rfl⟩ := List.mem_map.mp hm
      obtain ⟨hcb, hcf⟩ := hsub c (List.mem_reverse.mp hc)
      have hcd := hl.unique (hl.batch c hcb) (hl.settled d hd) heq
      exact (hl.inFlight _ c hcf).2.2 rfl (hcd ▸ hd)
  · rw [hset]; exact hrec
  · intro tp p hp v hv
    change ((s.activeOf batch).foldl (fun d c => d.set c.tp c.safeOffset)
      s.latestSettledOffsets).get? tp = some v at hv
    have hstored : v ∈ (((s.activeOf batch).reverse ++ settledIn log).filter (·.tp = tp)).map
        (·.safeOffset) := by
      rw [hrec.last] at hv
      exact List.mem_of_mem_head? hv
    obtain ⟨c, hc, rfl⟩ := List.mem_map.mp hstored
    obtain ⟨hc, htp⟩ := List.mem_filter.mp hc
    have htp := of_decide_eq_true htp
    rcases List.mem_append.mp hc with hc | hc
    · -- a newer candidate of the partition is pending
      have hcf := (hsub c (List.mem_reverse.mp hc)).2
      rw [htp] at hcf
      exact hl.order tp p c hp hcf
    · obtain ⟨last, hlast, hle⟩ := h.recorded.le_last hc
      rw [htp] at hlast
      exact Int.lt_of_le_of_lt hle (h.pending tp p hp last hlast)
  · rw [hset]
    intro b settlements heq c hc
    cases heq
    exact List.mem_append_left _ (List.mem_reverse.mpr hc)
  · refine settledAfterCommit_batch h.explained _ (fun c hc => ?_) (fun c hc d hd heq => ?_)
    · exact (hsub c (List.mem_reverse.mp hc)).1
    · obtain ⟨hcb, hcf⟩ := hsub c (List.mem_reverse.mp hc)
      have hdc := hl.unique (hl.dropped d hd) (hl.batch c hcb) heq
      exact (hl.inFlight _ c hcf).2.1 (hdc ▸ hd)

end SettlementInv

/-! ## Every run -/

theorem settlementInv_step {config : CommitCoordinatorConfig} {r r' : CoordinatorRun}
    (hl : CommitLeases r.coordinator r.worker r.log) (h : SettlementInv r.coordinator r.worker r.log)
    (hstep : CoordinatorStep config r r') : SettlementInv r'.coordinator r'.worker r'.log := by
  cases hstep with
  | enqueue candidates => exact h.enqueueCall candidates
  | flags stopped accepting healthy =>
    exact ⟨h.once, h.recorded, h.pending, h.inFlight, h.emitted, h.explained⟩
  | stop tps =>
    have hf := (stopAcceptingPartitions_spec tps r.coordinator).2.1
    exact h.drop (cancelled_events _).2.2 (latest_stopAcceptingPartitions _ tps)
      (fun _ _ hc => (pending_of_stopAcceptingPartitions hc).2) (fun hs _ _ hc => ⟨hs, hf ▸ hc⟩)
      (fun _ _ _ => rfl)
  | cancel tps =>
    exact h.drop (cancelled_events _).2.2 (latest_cancelLeases _ tps)
      (fun _ _ hc => (pending_of_cancelLeases hc).2)
      (fun hs _ _ hc => ⟨hs, (inFlight_of_cancelLeases hc).2⟩) (fun _ _ _ => rfl)
  | take hw => exact h.takeBatch hl.keyed
  | settle batch hw =>
    rw [hw] at h hl
    exact h.settle hl
  | wait batch settlements reason hw =>
    rw [hw] at h
    exact ⟨h.once, h.recorded, h.pending, h.inFlight, fun _ _ heq => (by cases heq), h.explained⟩
  | clear _ =>
    exact h.drop (l := []) rfl rfl (fun _ _ hc => hc) (fun _ _ _ hc => by cases hc)
      (fun _ _ heq => by cases heq)
  | retry hw => exact h.retryBatch hl hw
  | abort =>
    obtain ⟨hp, hf, -, -⟩ := abortBatch_fields r.coordinator r.worker.batch
    refine h.drop (cancelled_events _).2.2 (latest_abortBatch _ _) (fun tp c hc => hp ▸ hc)
      (fun _ tp c hc => ?_) (fun _ _ heq => by cases heq)
    change (r.coordinator.abortBatch r.worker.batch).inFlight.get? tp = some c at hc
    rw [hf] at hc; cases hc

theorem settlementInv_reachable {config : CommitCoordinatorConfig} {r : CoordinatorRun}
    (h : (coordinatorMachine config).Reachable r) : SettlementInv r.coordinator r.worker r.log := by
  refine (CoordinatorRun.invariant_of_steps (I := fun r => CommitLeases r.coordinator r.worker r.log ∧
    SettlementInv r.coordinator r.worker r.log) ⟨commitLeases_start, ?_⟩
    (fun _ _ hI hstep => ⟨commitLeases_step hI.1 hstep, settlementInv_step hI.1 hI.2 hstep⟩) h).2
  refine ⟨List.nodup_nil, ⟨fun _ => rfl, fun _ => .nil⟩, ?_, ?_, ?_, ?_⟩
  · exact fun _ _ hc => by cases hc
  · exact fun _ _ _ hc => by cases hc
  · exact fun _ _ hc => by cases hc
  · exact fun newer c older heq => by cases newer <;> cases heq

/-! ## `settle_committed_offsets` -/

namespace Poller

variable {κ π : Type} [DecidableEq κ]

/-- The tracker with the committed offset, the completed offsets and what is computed from them taken
from `t`. -/
def withProgress (t u : OffsetTracker) : OffsetTracker :=
  { u with
    lastCommittedOffset := t.lastCommittedOffset
    completedOffsets := t.completedOffsets
    stateVersion := t.stateVersion
    gapsCache := t.gapsCache
    firstGapHead := t.firstGapHead }

theorem withProgress_commitThrough (t u : OffsetTracker) (o : Int) :
    withProgress t (u.commitThrough o) = withProgress t u := by
  unfold OffsetTracker.commitThrough
  split <;> rfl

/-- The settlement moved its tracker, the one installed for its partition: the committed offset is now
the settled one, and the completed offsets up to it are gone. -/
structure TrackerSettled (s : Poller κ π) (e : CommitCandidate) (i : TrackerRef)
    (t t' : OffsetTracker) : Prop where
  installed : s.offsetTrackers.get? e.tp = some i
  epoch : t.epoch = e.assignmentEpoch
  active : CommitCandidate.activeIn s.coordinator e = true
  raised : t.lastCommittedOffset < e.safeOffset
  committed : t'.lastCommittedOffset = e.safeOffset
  trimmed : ∀ x, x ∈ t'.completedOffsets ↔
    x ∈ t.completedOffsets ∧ (x ≤ t.lastCommittedOffset ∨ e.safeOffset < x)
  rest : withProgress t t' = t

theorem settleOne_cases (a : Poller κ π × List TopicPartition) (e : CommitCandidate) :
    (settleOne a e).1 = a.1 ∨ ∃ r t, a.1.offsetTrackers.get? e.tp = some r ∧
      a.1.wm.trackerAt r = some t ∧ t.epoch = e.assignmentEpoch ∧
      CommitCandidate.activeIn a.1.coordinator e = true ∧ t.lastCommittedOffset < e.safeOffset ∧
      (settleOne a e).1.wm = a.1.wm.modifyTracker r (·.commitThrough e.safeOffset) := by
  unfold settleOne
  split
  · exact .inl rfl
  · rename_i r t htracker
    unfold tracker? at htracker
    obtain ⟨r', hr, ht⟩ := Option.bind_eq_some_iff.mp htracker
    obtain ⟨t', ht, heq⟩ := Option.map_eq_some_iff.mp ht
    cases heq
    split
    · exact .inl rfl
    · rename_i hepoch
      split
      · exact .inl rfl
      · rename_i hactive
        split
        · exact .inl rfl
        · rename_i hraised
          refine .inr ⟨r, t, hr, ht, Decidable.not_not.mp hepoch, by simpa using hactive, by omega, ?_⟩
          unfold commitTracker
          rw [hr]

/-- A tracker is as it was, or one of the settlements moved it. -/
theorem tracker_settled (l : List CommitCandidate) (s : Poller κ π) {i : TrackerRef}
    {t : OffsetTracker} (ht : s.wm.trackerAt i = some t) :
    ∃ t', (l.foldl settleOne (s, [])).1.wm.trackerAt i = some t' ∧
      (t' = t ∨ ∃ e ∈ l, TrackerSettled s e i t t') := by
  -- the loop keeps this of what it has done
  have hloop : ∀ (l done : List CommitCandidate) (a : Poller κ π × List TopicPartition),
      Settles s a.1 →
      (∃ t', a.1.wm.trackerAt i = some t' ∧ (t' = t ∨ ∃ e ∈ done, TrackerSettled s e i t t')) →
      ∃ t', (l.foldl settleOne a).1.wm.trackerAt i = some t' ∧
        (t' = t ∨ ∃ e ∈ done ++ l, TrackerSettled s e i t t') := by
    intro l
    induction l with
    | nil => intro done a _ h; rw [List.append_nil]; exact h
    | cons e l ih =>
      intro done a hs h
      have hone : Settles s (settleOne a e).1 := hs.trans (settles_settleAll [e] a)
      obtain ⟨t', ht', hdone⟩ := h
      have hmore : (t' = t ∨ ∃ e' ∈ done, TrackerSettled s e' i t t') →
          (t' = t ∨ ∃ e' ∈ done ++ [e], TrackerSettled s e' i t t') :=
        Or.imp_right fun ⟨e', he', hsettled⟩ => ⟨e', List.mem_append_left _ he', hsettled⟩
      rw [List.foldl_cons, show done ++ e :: l = (done ++ [e]) ++ l by simp]
      refine ih _ _ hone ?_
      rcases settleOne_cases a e with heq | ⟨r, u, hr, hu, hepoch, hactive, hraised, hwm⟩
      · rw [heq]; exact ⟨t', ht', hmore hdone⟩
      · rw [hwm, WorkManager.trackerAt_modifyTracker]
        by_cases hri : r = i
        · subst hri
          rw [ht'] at hu
          cases hu
          rw [if_pos rfl, ht']
          rw [hs.offsetTrackers] at hr
          rw [hs.coordinator] at hactive
          have hmax : (t'.commitThrough e.safeOffset).lastCommittedOffset = e.safeOffset := by
            rw [OffsetTracker.commitThrough_lastCommittedOffset]; omega
          refine ⟨_, rfl, .inr ⟨e, by simp, ?_⟩⟩
          rcases hdone with rfl | ⟨e', -, hbefore⟩
          · exact ⟨hr, hepoch, hactive, hraised, hmax, fun x => OffsetTracker.mem_commitThrough,
              withProgress_commitThrough t' t' _⟩
          · have hsame : t'.epoch = t.epoch := congrArg (·.epoch) hbefore.rest
            have hbelow := hbefore.raised
            have hat := hbefore.committed
            refine ⟨hr, hsame ▸ hepoch, hactive, by omega, hmax, fun x => ?_,
              (withProgress_commitThrough t t' _).trans hbefore.rest⟩
            rw [OffsetTracker.mem_commitThrough, hbefore.trimmed x, and_assoc]
            refine and_congr_right fun _ => ?_
            omega
        · rw [if_neg hri]
          exact ⟨t', ht', hmore hdone⟩
  exact hloop l [] (s, []) (.refl s) ⟨t, ht, .inl rfl⟩

end Poller

/-- **Settlement safety.** In every state of every run of the coordinator: the leases of the accepted
candidates are distinct; every success settlement follows the normal return of `commit_sync` for its
own batch, for a lease that was not cancelled or coalesced before; a lease is settled once; the offsets
stored for a partition grew. And when the settlements then reach `settle_committed_offsets`, it leaves
a tracker alone or moves it to the offset of one of them, whose epoch is the tracker's and whose lease
is active. -/
theorem settlements_safe {κ π : Type} [DecidableEq κ] (config : CommitCoordinatorConfig)
    (r : CoordinatorRun) (h : (coordinatorMachine config).Reachable r) :
    ((acceptedIn r.log).map (·.leaseId)).Nodup ∧
    SettledAfterCommit r.log ∧
    ((settledIn r.log).map (·.leaseId)).Nodup ∧
    (∀ tp, r.coordinator.latestSettledOffsets.get? tp = (storedIn r.log tp).head? ∧
      (storedIn r.log tp).Pairwise (· > ·)) ∧
    ∀ (s : Poller κ π) (batch settlements : List CommitCandidate),
      r.worker = .settling batch settlements → s.worker = .settling settlements →
      s.coordinator = r.coordinator → ∀ i t, s.wm.trackerAt i = some t →
      ∃ t', s.workerSettle.wm.trackerAt i = some t' ∧
        (t' = t ∨ ∃ e ∈ settledIn r.log, CommitCandidate.activeIn r.coordinator e = true ∧
          s.TrackerSettled e i t t') := by
  have hlease := commitLeases_reachable h
  have hsettle := settlementInv_reachable h
  refine ⟨hlease.leases, hsettle.explained, hsettle.once,
    fun tp => ⟨hsettle.recorded.last tp, hsettle.recorded.increasing tp⟩, ?_⟩
  intro s batch settlements hr hs hcoord i t ht
  obtain ⟨t', ht', hcase⟩ := Poller.tracker_settled settlements s ht
  refine ⟨t', ?_, hcase.imp_right fun ⟨e, he, hset⟩ =>
    ⟨e, hsettle.emitted batch settlements hr e he, hcoord ▸ hset.active, hset⟩⟩
  unfold Poller.workerSettle
  rw [hs]
  exact ht'

section Examples

open CoordinatorRun

/-- A candidate is settled while a newer one is pending. -/
def firstSettled : CoordinatorRun :=
  (coordinatorMachine outboxOfTwo).run {}
    [.enqueue [sampleCandidate 0 5], .takeBatch, .enqueue [sampleCandidate 0 7], .commitSync .returned]

/-- A tracker at offset 2. -/
def sampleTracker : OffsetTracker :=
  { OffsetTracker.new ⟨"topic", 0⟩ 3 500 .empty with epoch := 1 }

/-- The consumer that awaits `settle_committed_offsets` then. -/
def settlingPoller : Poller Nat Unit :=
  let s : Poller Nat Unit := .new none
  { s with
    wm := { s.wm with heap := [sampleTracker] }
    offsetTrackers := Dict.empty.set ⟨"topic", 0⟩ 0
    coordinator := firstSettled.coordinator
    worker := .settling [{ sampleCandidate 0 5 with leaseId := 1 }] }

theorem settlements_safe_firstSettled :
    storedIn firstSettled.log ⟨"topic", 0⟩ = [5] ∧
    sampleTracker.lastCommittedOffset = 2 ∧
    (settlingPoller.workerSettle.wm.trackerAt 0).map (·.lastCommittedOffset) = some 5 ∧
    ∃ t', settlingPoller.workerSettle.wm.trackerAt 0 = some t' ∧
      (t' = sampleTracker ∨ ∃ e ∈ settledIn firstSettled.log,
        CommitCandidate.activeIn firstSettled.coordinator e = true ∧
        settlingPoller.TrackerSettled e 0 sampleTracker t') := by
  have hreach : (coordinatorMachine outboxOfTwo).Reachable firstSettled :=
    (coordinatorMachine outboxOfTwo).reachableBy_run _ (.start rfl)
      ⟨rfl, trivial, rfl, trivial, rfl, trivial, rfl, trivial, trivial⟩
  obtain ⟨-, -, -, -, hsettle⟩ := @settlements_safe Nat Unit _ outboxOfTwo firstSettled hreach
  exact ⟨by decide, by decide, by decide,
    hsettle settlingPoller [{ sampleCandidate 0 5 with leaseId := 1 }]
      [{ sampleCandidate 0 5 with leaseId := 1 }] (by decide) rfl rfl 0 sampleTracker rfl⟩

end Examples

end PyrallelConsumer
