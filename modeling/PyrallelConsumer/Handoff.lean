import PyrallelConsumer.RebalanceSupport
import PyrallelConsumer.Dispatch

/-!
# PyrallelConsumer.Handoff

The `metadata_snapshot` hand-off of a partition between two owners: the old owner commits a position
together with the completed offsets beyond it, and the new owner rebuilds a tracker from the pair.

* `Written` — the pair comes from one of the two writers, `build_offsets_to_commit` or the revoke path.
* `metadata_snapshot_handoff` — the new tracker starts at the position with completed offsets of the
  old owner only, so dispatch skips nothing that the old owner had not completed.
-/

set_option linter.unusedSectionVars false

namespace PyrallelConsumer

open RebalanceSupport BrokerCommitPlanner

/-- The pair committed for `tp` at safe offset `s` by an owner with tracker `t`. -/
inductive Written (p : BrokerCommitPlanner) (tp : TopicPartition) (t : OffsetTracker) (s : Int)
    (position : KafkaTopicPartition) : Prop where
  | commit (commits : List (TopicPartition × Int)) (trackers : TopicPartition → Option OffsetTracker)
      (out : List KafkaTopicPartition) (ht : trackers tp = some t)
      (hs : ∀ s', (tp, s') ∈ commits → s' = s)
      (hout : p.buildOffsetsToCommit commits trackers .metadataSnapshot = some out)
      (hmem : position ∈ out) (htp : position.toDto = tp)
  | revoke (h : position =
      { topic := tp.topic, partition := tp.partition, offset := s + 1
        metadata := some (p.encodeRevokeMetadata .metadataSnapshot t (s + 1)) })

theorem mem_of_mapM_eq_some {α β : Type} {f : α → Option β} {y : β} (l : List α) :
    ∀ out, l.mapM f = some out → y ∈ out → ∃ x ∈ l, f x = some y := by
  induction l with
  | nil =>
    intro out h hy
    cases h
    cases hy
  | cons x l ih =>
    intro out h hy
    rw [List.mapM_cons] at h
    obtain ⟨b, hb, h⟩ := Option.bind_eq_some_iff.mp h
    obtain ⟨bs, hbs, h⟩ := Option.bind_eq_some_iff.mp h
    cases h
    rcases List.mem_cons.mp hy with rfl | hy
    · exact ⟨x, List.mem_cons_self, hb⟩
    · obtain ⟨x', hx', hfx⟩ := ih bs hbs hy
      exact ⟨x', List.mem_cons_of_mem _ hx', hfx⟩

/-- Both writers commit the same pair. -/
theorem Written.eq {p : BrokerCommitPlanner} {tp : TopicPartition} {t : OffsetTracker} {s : Int}
    {position : KafkaTopicPartition} (h : Written p tp t s position) :
    position = p.offsetToCommit .metadataSnapshot tp t s := by
  cases h with
  | commit commits trackers out ht hs hout hmem htp =>
    obtain ⟨⟨tp', s'⟩, hc, hpos⟩ := mem_of_mapM_eq_some commits out hout hmem
    obtain ⟨t', ht', rfl⟩ := Option.map_eq_some_iff.mp hpos
    have heq : tp' = tp := htp
    subst heq
    rw [ht] at ht'
    cases ht'
    rw [hs s' hc]
  | revoke h => exact h

/-- The tracker rebuilt from a written pair. -/
theorem installed_of_written {p : BrokerCommitPlanner} {tp : TopicPartition} {t t' : OffsetTracker}
    {s : Int} {position partition : KafkaTopicPartition} (hs : 0 ≤ s)
    (hw : Written p tp t s position)
    (hi : Installed .metadataSnapshot partition (some position) t') :
    t'.lastCommittedOffset = s ∧
    t'.completedOffsets =
      (if p.encodeRevokeMetadata .metadataSnapshot t (s + 1) = ['O'] then .empty
        else p.getCommitMetadataOffsets t (s + 1)).filter fun o => s < o := by
  have hlast : lastCommitted partition (some position) = s := by
    rw [hw.eq]
    simp only [lastCommitted, offsetToCommit]
    omega
  refine ⟨hi.lastCommittedOffset.trans hlast, ?_⟩
  have hraw : rawMetadata partition (some position) =
      some (p.encodeRevokeMetadata .metadataSnapshot t (s + 1)) := by
    rw [hw.eq]
    simp only [rawMetadata, offsetToCommit, Option.bind_some, Option.filter_some,
      decide_eq_true (encodeRevokeMetadata_ne_nil p t (s + 1)), if_true]
  rw [hi.completedOffsets, hlast]
  simp only [decodeAssignmentCompletedOffsets, hraw]
  rw [decode_encodeRevokeMetadata p t (by omega)]

/-- A written pair hands on completed offsets beyond the safe offset only. -/
theorem mem_completed_of_written {p : BrokerCommitPlanner} {tp : TopicPartition}
    {t t' : OffsetTracker} {s : Int} {position partition : KafkaTopicPartition} (hs : 0 ≤ s)
    (hw : Written p tp t s position)
    (hi : Installed .metadataSnapshot partition (some position) t') {o : Int}
    (ho : o ∈ t'.completedOffsets) : o ∈ t.completedOffsets ∧ s < o := by
  rw [(installed_of_written hs hw hi).2, SortedSet.mem_filter, decide_eq_true_eq] at ho
  refine ⟨?_, ho.2⟩
  have hmem := ho.1
  split at hmem
  · exact absurd hmem (SortedSet.not_mem_empty o)
  · exact (mem_getCommitMetadataOffsets hmem).1

/-- When they are few enough and their encoding fits, all of them. -/
theorem completed_eq_of_written {p : BrokerCommitPlanner} {tp : TopicPartition}
    {t t' : OffsetTracker} {s : Int} {position partition : KafkaTopicPartition} (hs : 0 ≤ s)
    (hw : Written p tp t s position)
    (hi : Installed .metadataSnapshot partition (some position) t')
    (hfew : (t.completedOffsets.filter fun o => s + 1 ≤ o).size ≤ p.maxCompletedOffsets)
    (hfits : p.encodeRevokeMetadata .metadataSnapshot t (s + 1) ≠ ['O']) (o : Int) :
    o ∈ t'.completedOffsets ↔ o ∈ t.completedOffsets ∧ s < o := by
  refine ⟨mem_completed_of_written hs hw hi, fun ho => ?_⟩
  rw [(installed_of_written hs hw hi).2, if_neg hfits, getCommitMetadataOffsets_eq hfew,
    SortedSet.mem_filter, SortedSet.mem_filter, decide_eq_true_eq, decide_eq_true_eq]
  exact ⟨⟨ho.1, by omega⟩, ho.2⟩

/-- An assignment whose decoded metadata is empty throughout is that of the contiguous strategy. -/
theorem buildAssignments_snapshot_eq_contiguous (committed : Option (List KafkaTopicPartition))
    (grace : Int) (partitions : List KafkaTopicPartition)
    (h : ∀ q ∈ partitions, ∀ m ∈ rawMetadata q ((committedOffsets committed).get? q.toDto),
      MetadataEncoder.decodeMetadata m = .empty) :
    buildAssignments committed partitions .metadataSnapshot grace =
      buildAssignments committed partitions .contiguousOnly grace := by
  have hfold : ∀ (l : List KafkaTopicPartition) (d : Dict TopicPartition OffsetTracker),
      (∀ q ∈ l, q ∈ partitions) →
      l.foldlM (fun d q => (buildTracker .metadataSnapshot grace q
          ((committedOffsets committed).get? q.toDto)).map (d.set q.toDto)) d =
        l.foldlM (fun d q => (buildTracker .contiguousOnly grace q
          ((committedOffsets committed).get? q.toDto)).map (d.set q.toDto)) d := by
    intro l
    induction l with
    | nil => intro d _; rfl
    | cons q l ih =>
      intro d hl
      rw [List.foldlM_cons, List.foldlM_cons,
        buildTracker_snapshot_eq_contiguous (h q (hl q List.mem_cons_self)) grace]
      congr 1
      funext d'
      exact ih d' fun q' hq' => hl q' (List.mem_cons_of_mem _ hq')
  exact hfold partitions .empty fun _ hq => hq

/-- **Hand-off.** The old owner has tracker `t` and commits, by either writer, the pair `position` for
`tp` at a safe offset `s`. From every lookup that returns the pair, the new
owner installs a tracker at `s` whose completed offsets are completed offsets of `t` above `s`, all of
them when they are few enough and their encoding fits, and whose last fetched offset is the greatest of
them and `s`. Its dispatch skips only offsets that the old owner had completed. Metadata that decodes
to nothing installs the trackers of the contiguous strategy. -/
theorem metadata_snapshot_handoff {κ π : Type} [DecidableEq κ] (p : BrokerCommitPlanner)
    (t : OffsetTracker) (tp : TopicPartition) (s : Int) (hs : 0 ≤ s)
    (position : KafkaTopicPartition) (hw : Written p tp t s position)
    (committed : Option (List KafkaTopicPartition))
    (hc : (committedOffsets committed).get? tp = some position)
    (partitions : List KafkaTopicPartition) (hp : ∃ q ∈ partitions, q.toDto = tp) (grace : Int) :
    (∃ d t', buildAssignments committed partitions .metadataSnapshot grace = .ok d ∧
      d.get? tp = some t' ∧
      t'.lastCommittedOffset = s ∧
      (∀ o ∈ t'.completedOffsets, o ∈ t.completedOffsets ∧ s < o) ∧
      ((t.completedOffsets.filter fun o => s + 1 ≤ o).size ≤ p.maxCompletedOffsets →
        p.encodeRevokeMetadata .metadataSnapshot t (s + 1) ≠ ['O'] →
        ∀ o, o ∈ t'.completedOffsets ↔ o ∈ t.completedOffsets ∧ s < o) ∧
      IsGreatest {o | o = s ∨ o ∈ t'.completedOffsets} t'.lastFetchedOffset ∧
      ∀ (mode : OrderingMode) (trackers : Dict TopicPartition TrackerRef) (r : TrackerRef)
        (wm : WorkManager (SubmitKey κ) π) (messages : List (Message κ π)) (o : Int),
        trackers.get? tp = some r → wm.trackerAt r = some t' →
        (tp, o) ∈ (DispatchSupport.dispatchMessages mode trackers wm messages).2.1 →
        o ∈ t.completedOffsets) ∧
    (∀ (committed : Option (List KafkaTopicPartition)) (partitions : List KafkaTopicPartition),
      (∀ q ∈ partitions, ∀ m ∈ rawMetadata q ((committedOffsets committed).get? q.toDto),
        MetadataEncoder.decodeMetadata m = .empty) →
      buildAssignments committed partitions .metadataSnapshot grace =
        buildAssignments committed partitions .contiguousOnly grace) := by
  refine ⟨?_, fun committed => buildAssignments_snapshot_eq_contiguous committed grace⟩
  obtain ⟨d, hd, hall, hfrom⟩ := buildAssignments_ok committed .metadataSnapshot grace partitions
  obtain ⟨q0, hq0, hq0tp⟩ := hp
  obtain ⟨t', ht'⟩ := Option.isSome_iff_exists.mp (hq0tp ▸ hall q0 hq0)
  obtain ⟨q, -, -, hbuilt⟩ := hfrom tp t' ht'
  obtain ⟨t'', ht'', hi⟩ := buildTracker_eq .metadataSnapshot grace q
    ((committedOffsets committed).get? tp)
  rw [hbuilt] at ht''
  cases ht''
  rw [hc] at hi
  have hlast := (installed_of_written hs hw hi).1
  have hsub : ∀ o ∈ t'.completedOffsets, o ∈ t.completedOffsets ∧ s < o :=
    fun o ho => mem_completed_of_written hs hw hi ho
  refine ⟨d, t', hd, ht', hlast, hsub, ?_, ?_, ?_⟩
  · exact fun hfew hfits => completed_eq_of_written hs hw hi hfew hfits
  · have hgreat := hi.lastFetchedOffset
    rw [hlast] at hgreat
    exact hgreat
  · intro mode trackers r wm messages o hr hwm hskip
    obtain ⟨r', core, hr', hcore, hmem⟩ := DispatchSupport.mem_skipped hskip
    rw [hr] at hr'
    cases hr'
    rw [WorkManager.coreAt_eq_some hwm] at hcore
    cases hcore
    exact (hsub o hmem).1

/-- Offsets 5 and 7 completed beyond position 4. -/
def sparseTracker : OffsetTracker :=
  .new ⟨"t", 0⟩ 4 500 ((SortedSet.empty.add 5).add 7)

theorem metadata_snapshot_handoff_sparse :
    let p : BrokerCommitPlanner := ⟨⟨4000⟩, 2048⟩
    let position := p.offsetToCommit .metadataSnapshot ⟨"t", 0⟩ sparseTracker 3
    ∃ d t', buildAssignments (some [position]) [⟨"t", 0, 0, none⟩] .metadataSnapshot 500 = .ok d ∧
      d.get? ⟨"t", 0⟩ = some t' ∧ t'.lastCommittedOffset = 3 ∧
      (∀ o, o ∈ t'.completedOffsets ↔ o ∈ sparseTracker.completedOffsets ∧ 3 < o) := by
  intro p position
  obtain ⟨⟨d, t', hd, ht', hlast, -, hall, -⟩, -⟩ := metadata_snapshot_handoff (κ := Nat) (π := Unit)
    p sparseTracker ⟨"t", 0⟩ 3 (by decide) position (.revoke rfl) (some [position]) (by decide)
    [⟨"t", 0, 0, none⟩] ⟨_, List.mem_singleton_self _, rfl⟩ 500
  exact ⟨d, t', hd, ht', hlast, hall (by decide) (by decide)⟩

end PyrallelConsumer
